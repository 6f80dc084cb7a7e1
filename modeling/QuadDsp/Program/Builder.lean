import QuadDsp.Instruction.Reader
import QuadDsp.Program.Basic

/-! # Building programs

A builder places instructions one behind the other: each gets the next line number, the current
address and the current code section, and a word moves the address on by one. -/

namespace QuadDsp

structure Builder where
  /-- the instructions so far, latest first -/
  placed : List Instruction := []
  sections : NameTable ProgramSection := {}
  /-- address of the next word; behind the last address comes the first one again -/
  addr : UInt32 := 0
  /-- number of the latest line -/
  line : Nat := 0
  sectionName : Option String := none

/-- Where and why a program text cannot be read. -/
structure TextError where
  line : Nat
  text : String
  cause : LineError

def TextError.place (e : TextError) : String :=
  "line " ++ Text.decimal e.line ++ ": `" ++ e.text ++ "`"

namespace Builder

def origin (addr : Nat) : Builder := { addr := .ofNat addr }

/-- The program of all that is placed; it is yet to be resolved. -/
def program (b : Builder) : Program := { instrs := b.placed.reverse, sections := b.sections }

/-- Places an instruction. -/
def push (b : Builder) (i : Instruction) : Builder :=
  let placed :=
    { i with line := b.line + 1, address := b.addr, sectionName := b.sectionName }
  { b with
    placed := placed :: b.placed
    line := b.line + 1
    addr := if i.isDirective then b.addr else b.addr + 1 }

theorem instrs_push (b : Builder) (i : Instruction) :
    (b.push i).program.instrs = b.program.instrs ++
      [{ i with line := b.line + 1, address := b.addr, sectionName := b.sectionName }] := by
  simp [push, program]

/-- Declares a variable at a data address, in no section. -/
def var (b : Builder) (name : String) (addr : Nat) : Builder :=
  let i : Instruction :=
    { line := b.line + 1, opcode := .var, address := b.addr, dataAddr := addr
      operands := [.target (.label name), .target (.abs addr)] }
  { b with placed := i :: b.placed, line := b.line + 1 }

def declareSection (b : Builder) (name : String) (s : ProgramSection) : Builder :=
  { b with sections := b.sections.insert name s }

/-- A section directive with a name alone starts a code section; with a base it declares a data
section. -/
def enterSection (b : Builder) (i : Instruction) : Builder :=
  match i.opcode, i.operands with
  | .sect, [.target (.label name)] =>
    { b.declareSection name ⟨.code, b.addr.toNat⟩ with sectionName := some name }
  | .sect, [.target (.label name), .target (.abs base)] => b.declareSection name ⟨.data, base⟩
  | _, _ => b

/-- Reads one line and places it. -/
def readLine (b : Builder) (line : List Char) : Except LineError Builder := do
  let i ← Instruction.read line
  return (b.enterSection i).push i

/-- Reads lines up to the first one that cannot be read; blank lines are passed over. The builder
holds the lines read before it. -/
def readLines (b : Builder) : List (List Char) → Builder × Option LineError
  | [] => (b, none)
  | l :: rest =>
    if Text.trim l = [] then b.readLines rest
    else
      match b.readLine l with
      | .ok b => b.readLines rest
      | .error e => (b, some e)

/-- Reads a program text. -/
def readText (b : Builder) (text : String) : Builder × Option LineError :=
  b.readLines (Text.lines text.toList)

/-- Like `readLines`, with the place of the line that cannot be read; lines count from `n`. -/
def readNumbered (b : Builder) : Nat → List (List Char) → Except TextError Builder
  | _, [] => .ok b
  | n, l :: rest =>
    if Text.trim l = [] then b.readNumbered (n + 1) rest
    else
      match b.readLine l with
      | .ok b => b.readNumbered (n + 1) rest
      | .error e => .error ⟨n, String.ofList (Text.trim l), e⟩

end Builder

/-- Reads a whole program text from address zero. -/
def Program.ofText (text : String) : Except TextError Program :=
  ((Builder.origin 0).readNumbered 1 (Text.lines text.toList)).map (·.program)

end QuadDsp
