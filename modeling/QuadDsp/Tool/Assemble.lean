import QuadDsp.Program.Resolve
import QuadDsp.Tool.Files
import QuadDsp.Tool.Options
import QuadDsp.Word.Image
import QuadDsp.Word.Listing

/-! # The assembler on the command line

Assembles a program into a binary image, a listing and a text image, and reports diagnostics as
lines or as JSON. -/

namespace QuadDsp

namespace AssembleTool

structure Options where
  program : String
  stem : Option String
  config : Option String
  asJson : Bool

def specs : List OptionSpec :=
  [⟨"out", some 'o', true⟩, ⟨"config", some 'c', true⟩, ⟨"format", none, true⟩]

def Options.read? (args : List String) : Option Options := do
  let a ← Arguments.read? specs args
  return {
    program := ← a.single?
    stem := a.value? "out"
    config := a.value? "config"
    asJson := ← (match a.value? "format" with
      | none => some false
      | some "text" => some false
      | some "json" => some true
      | some _ => none) }

/-- The files that the tool reads. -/
def Options.inputs (o : Options) : List String := o.config.toList ++ [o.program]

/-- The files that an assembled program fills. -/
def outputs (stem : String) (a : Assembly) : List (String × ByteArray) :=
  [(Path.withExtension stem "bin", ⟨(imageBytes a.words).toArray⟩),
    (Path.withExtension stem "lst", a.listingText.toUTF8),
    (Path.withExtension stem "mem", a.imageText.toUTF8)]

/-- Faults found while resolving show up again while encoding, so those of a line that has any of
the latter are left out. -/
def diagnostics (resolving : List Diagnostic) (a : Assembly) : List Diagnostic :=
  resolving.filter (fun d => !a.diagnostics.any (·.line == d.line)) ++ a.diagnostics

def diagnosticJson (d : Diagnostic) : Json :=
  .obj [("line", .int d.line), ("addr", .int d.addr), ("kind", .str d.kind.name),
    ("token", .str d.token), ("message", .str d.message)]

def reportJson (a : Assembly) (ds : List Diagnostic) : Json :=
  .obj [("words", .int a.words.length), ("errors", .int a.errors),
    ("diagnostics", .arr (ds.map diagnosticJson))]

/-- The program assembled, with the diagnostics of it. -/
def assemble (fs : Files) (o : Options) : Except Failure (Assembly × List Diagnostic) := do
  let config ← fs.readConfig o.config
  let (p, resolving) := (← fs.readProgram o.program).resolve config.delaySlots
  return (p.assemble, diagnostics resolving p.assemble)

def report (o : Options) (a : Assembly) (ds : List Diagnostic)
    (written : List (String × ByteArray)) : Outcome :=
  if o.asJson then { out := (reportJson a ds).pretty ++ "\n", written := written }
  else
    { out := String.join (written.map fun (path, _) => "wrote " ++ path ++ "\n")
      err := String.join (ds.map Diagnostic.report)
      written := written }

def run (fs : Files) (o : Options) : Outcome :=
  match assemble fs o with
  | .error e => .ofFailure e
  | .ok (a, ds) =>
    let written := outputs (o.stem.getD (Path.withExtension o.program "")) a
    match written.forM fun (path, _) => fs.checkNew path with
    | .error e => .ofFailure e
    | .ok () =>
      let result := report o a ds written
      if a.errors = 0 then result
      else result.fail ⟨Text.decimal a.errors ++ " instruction(s) failed to encode", none⟩

end AssembleTool

end QuadDsp
