import QuadDsp.Tool.Basic

/-! # The command line

Reads the files that a tool asks for, calls the tool, and writes what it leaves behind. Only the
stepper reads its input line by line while it runs. -/

namespace QuadDsp

/-- The fault that an error of the operating system stands for. -/
def FileFault.ofError : IO.Error → FileFault
  | .noFileOrDirectory .. => .missing
  | .inappropriateType _ code text => .ofCode code.toNat text
  | .invalidArgument _ code text => .ofCode code.toNat text
  | .permissionDenied _ code text => .ofCode code.toNat text
  | .resourceExhausted _ code text => .ofCode code.toNat text
  | .noSuchThing _ code text => .ofCode code.toNat text
  | e => .other 0 (toString e)

/-- The files at some paths, as far as they can be read. Whether a file can be written shows when it
is. -/
def readFiles (paths : List String) : IO Files := do
  let mut found : List (String × Except FileFault ByteArray) := []
  for path in paths do
    let result ← try pure (.ok (← IO.FS.readBinFile path)) catch e => pure (.error (.ofError e))
    found := (path, result) :: found
  let entries := found
  return {
    read := fun path => (entries.lookup path).getD (.error .missing)
    newFault? := fun _ => none }

/-- Writes files and texts, and gives the exit code. -/
def finish (o : Outcome) : IO UInt32 := do
  for (path, bytes) in o.written do
    IO.FS.writeBinFile path bytes
  IO.print o.out
  IO.eprint o.err
  return UInt32.ofNat o.code

/-- Steps by the lines of standard input. -/
partial def converse (sim : Simulator) : IO Simulator := do
  IO.print sim.prompt
  (← IO.getStdout).flush
  let line ← (← IO.getStdin).getLine
  if line.isEmpty then return sim
  let r := RunTool.respond sim line.toList
  IO.print r.out
  IO.eprint r.err
  if r.more then converse r.sim else return r.sim

/-- Steps through a program by hand, and reports. -/
def stepThrough (fs : Files) (o : RunTool.Options) : IO UInt32 := do
  match RunTool.prepare fs o with
  | .error e => finish (.ofFailure e)
  | .ok sim => finish (RunTool.report o (← converse sim))

def callTool (t : Tool) (args : List String) : IO UInt32 := do
  let fs ← readFiles (t.inputs args)
  match t, RunTool.Options.read? args with
  | .run, some o => if o.interactive then stepThrough fs o else finish (t.call fs args "")
  | _, _ => finish (t.call fs args "")

end QuadDsp

open QuadDsp in
def main (args : List String) : IO UInt32 := do
  match args with
  | name :: rest =>
    match Tool.ofName? name with
    | some t =>
      try callTool t rest
      catch e => finish (.ofFailure ⟨(FileFault.ofError e).message, none⟩)
    | none => finish .usage
  | [] => finish .usage
