import QuadDsp.Json.Interchange
import QuadDsp.Program.Builder
import QuadDsp.Tool.Path

/-! # Files of the tools

What a tool sees of the file system, how it reads its inputs, and what it leaves behind: texts for
both output channels, files, and an exit code. A failure ends the tool with a message and perhaps
the cause of it. -/

namespace QuadDsp

/-- Why a file cannot be read or written. -/
inductive FileFault
  | missing
  | notDirectory
  | isDirectory
  | nameTooLong
  | other (code : Nat) (text : String)
deriving DecidableEq, Repr

namespace FileFault

/-- The number of the error that the operating system reports. -/
def code : FileFault → Nat
  | missing => 2
  | notDirectory => 20
  | isDirectory => 21
  | nameTooLong => 36
  | other code _ => code

def text : FileFault → String
  | missing => "No such file or directory"
  | notDirectory => "Not a directory"
  | isDirectory => "Is a directory"
  | nameTooLong => "File name too long"
  | other _ text => text

def message (e : FileFault) : String := e.text ++ " (os error " ++ Text.decimal e.code ++ ")"

def ofCode (code : Nat) (text : String) : FileFault :=
  ([missing, notDirectory, isDirectory, nameTooLong].find? (·.code == code)).getD (other code text)

end FileFault

/-- The file system as far as a tool looks at it. -/
structure Files where
  read : String → Except FileFault ByteArray
  /-- why a file cannot be written -/
  newFault? : String → Option FileFault

/-- Why a tool gives up. -/
structure Failure where
  message : String
  cause : Option String := none
deriving DecidableEq, Repr

def Failure.text (e : Failure) : String :=
  "Error: " ++ e.message ++
    (match e.cause with
    | some cause => "\n\nCaused by:\n    " ++ cause
    | none => "") ++ "\n"

/-- What a tool leaves behind. -/
structure Outcome where
  code : Nat := 0
  out : String := ""
  err : String := ""
  written : List (String × ByteArray) := []

namespace Outcome

/-- Ends with a failure. -/
def fail (o : Outcome) (e : Failure) : Outcome := { o with code := 1, err := o.err ++ e.text }

def ofFailure (e : Failure) : Outcome := fail {} e

/-- The arguments cannot be read. -/
def usage : Outcome := { code := 2, err := "error: invalid arguments\n" }

end Outcome

namespace Files

def readBytes (fs : Files) (path : String) : Except Failure ByteArray :=
  match fs.read path with
  | .ok bytes => .ok bytes
  | .error e => .error ⟨e.message, none⟩

def readText (fs : Files) (path : String) : Except Failure String :=
  match fs.read path with
  | .error e => .error ⟨"reading " ++ path, some e.message⟩
  | .ok bytes =>
    match String.fromUTF8? bytes with
    | some text => .ok text
    | none => .error ⟨"reading " ++ path, some "stream did not contain valid UTF-8"⟩

/-- Checks that a file can be written. -/
def checkNew (fs : Files) (path : String) : Except Failure Unit :=
  match fs.newFault? path with
  | none => .ok ()
  | some e => .error ⟨e.message, none⟩

def readJson (fs : Files) (what path : String) (read? : Json → Option α) :
    Except Failure α := do
  let text ← fs.readText path
  match (Json.read? text).bind read? with
  | some a => return a
  | none => throw ⟨"parsing " ++ what ++ " " ++ path, some "unexpected content"⟩

/-- A program in interchange form if the file's extension says so, source text otherwise. -/
def readProgram (fs : Files) (path : String) : Except Failure Program := do
  if Path.extension? path.toList = some "json".toList then
    fs.readJson "program" path (Program.ofJson? .file)
  else
    match Program.ofText (← fs.readText path) with
    | .ok p => return p
    | .error e => throw ⟨e.place, some e.cause.message⟩

/-- A configuration, if a file of one is given. -/
def readConfig (fs : Files) : Option String → Except Failure Config
  | none => .ok {}
  | some path => fs.readJson "config" path Config.ofJson?

end Files

/-- A diagnostic as a line of the error channel. -/
def Diagnostic.report (d : Diagnostic) : String := d.kind.name ++ ": " ++ d.text ++ "\n"

end QuadDsp
