import QuadDsp.Opcode
import QuadDsp.Operand.Reader

/-! # Faults and diagnostics

What can be wrong with a source line, with an instruction word, or with one access during a run.
Each fault is a cause with the data its message needs. None of them stops an assembly or a run: it
is kept as a `Diagnostic` and the work goes on behind it. -/

namespace QuadDsp

/-- A source line that is no instruction. -/
inductive LineError
  | unknownMnemonic (name : String)
  | operand (e : OperandError)
deriving DecidableEq, Repr

def LineError.message : LineError → String
  | unknownMnemonic name => "unknown mnemonic `" ++ name ++ "`"
  | operand e => e.message

/-- An operand list that no form of its operation takes. -/
inductive ShapeError
  | noForm (op : Opcode) (operands : String)
  | missingMode (op : Opcode)
  | outOfRange (token : String) (width : Nat)
  | registerNotAllowed (token : String)
  | addressingNotAllowed (token : String)
  | programMemory (token : String)
  | notBundled (op : Opcode) (shape : String)
  | unconditional (op : Opcode)
deriving DecidableEq, Repr

namespace ShapeError

def message : ShapeError → String
  | noForm op operands => op.mnemonic ++ " has no form taking `" ++ operands ++ "`"
  | missingMode op => op.mnemonic ++ " requires a multiply mode option such as (SS) or (RND)"
  | outOfRange token width =>
    "operand `" ++ token ++ "` does not fit a " ++ Text.decimal width ++ "-bit field"
  | registerNotAllowed token => "register `" ++ token ++ "` is not usable here"
  | addressingNotAllowed token => "addressing mode `" ++ token ++ "` is not usable here"
  | programMemory token => "program memory access `" ++ token ++ "` is not supported"
  | notBundled op shape => op.mnemonic ++ " cannot be bundled as `" ++ shape ++ "`"
  | unconditional op => op.mnemonic ++ " has no condition field"

/-- The piece of source text at fault. -/
def token : ShapeError → String
  | noForm _ operands => operands
  | missingMode op | notBundled op _ | unconditional op => op.mnemonic
  | outOfRange token _ | registerNotAllowed token | addressingNotAllowed token
  | programMemory token => token

end ShapeError

/-- A fault of one access. The access or transfer is skipped. -/
inductive AddressError
  | outOfRange (addr : Nat)
  | unaligned (addr : Nat)
  | noWord (addr : Nat)
deriving DecidableEq, Repr

def AddressError.message : AddressError → String
  | outOfRange addr => "data address " ++ Text.hexPadded 6 addr ++ " is outside data memory"
  | unaligned addr => "complex access at odd address " ++ Text.hexPadded 6 addr
  | noWord addr => "no instruction at program address " ++ Text.hexPadded 6 addr

/-- A fault of a whole instruction word or of a name in it. -/
inductive StructuralError
  | duplicateDestination (reg : String)
  | mixedCondition (condition : String)
  | tooManySiblings (count : Nat)
  | unknownSymbol (name : String)
deriving DecidableEq, Repr

namespace StructuralError

def message : StructuralError → String
  | duplicateDestination reg => "destination `" ++ reg ++ "` is written twice in one bundle"
  | mixedCondition c =>
    "bundle sibling predicated on `" ++ c ++ "` differs from the word's condition"
  | tooManySiblings n => "a bundle holds at most two siblings, found " ++ Text.decimal n
  | unknownSymbol name => "symbol `" ++ name ++ "` is not defined"

def token? : StructuralError → Option String
  | duplicateDestination t | mixedCondition t | unknownSymbol t => some t
  | tooManySiblings _ => none

end StructuralError

/-- The family a diagnostic belongs to. -/
inductive DiagnosticKind
  | encoding | operandShape | addressing | stackDiscipline | structural
deriving DecidableEq, Repr

def DiagnosticKind.name : DiagnosticKind → String
  | encoding => "Encoding"
  | operandShape => "OperandShape"
  | addressing => "Addressing"
  | stackDiscipline => "StackDiscipline"
  | structural => "Structural"

def ShapeError.kind : ShapeError → DiagnosticKind
  | programMemory _ => .addressing
  | _ => .operandShape

/-- Why an instruction yields no word. -/
inductive EncodeError
  | shape (e : ShapeError)
  | structural (e : StructuralError)
  | unresolved (op : Opcode)
  | targetOutOfRange (target addr width : Nat)
deriving DecidableEq, Repr

namespace EncodeError

def message : EncodeError → String
  | shape e => e.message
  | structural e => e.message
  | unresolved op => op.mnemonic ++ " record has no resolved format"
  | targetOutOfRange target addr width =>
    "target " ++ Text.hex target ++ " is out of reach of a " ++ Text.decimal width ++
      "-bit field at " ++ Text.hex addr

def kind : EncodeError → DiagnosticKind
  | shape e => e.kind
  | structural _ => .structural
  | unresolved _ | targetOutOfRange .. => .encoding

/-- The piece of source text at fault, if it is not simply the first token. -/
def token? : EncodeError → Option String
  | shape e => some e.token
  | structural e => e.token?
  | unresolved _ | targetOutOfRange .. => none

end EncodeError

/-- Why an instruction has no effect in a run. -/
inductive ExecError
  | shape (e : ShapeError)
  | address (e : AddressError)
  | structural (e : StructuralError)
  /-- a register number past the end of its file reached the core -/
  | outsideFile (index size : Nat)
deriving DecidableEq, Repr

namespace ExecError

def message : ExecError → String
  | shape e => e.message
  | address e => e.message
  | structural e => e.message
  | outsideFile index size =>
    "register number " ++ Text.decimal index ++ " in a file of " ++ Text.decimal size

def kind : ExecError → DiagnosticKind
  | shape e => e.kind
  | address _ => .addressing
  | structural _ => .structural
  | outsideFile .. => .operandShape

/-- The piece of source text at fault, if it is not simply the first token. -/
def token? : ExecError → Option String
  | shape e => some e.token
  | structural e => e.token?
  | address _ | outsideFile .. => none

end ExecError

/-- A fault with the place in the source that it belongs to. -/
structure Diagnostic where
  line : Nat
  addr : Nat
  token : String
  kind : DiagnosticKind
  message : String
deriving DecidableEq, Repr

def Diagnostic.text (d : Diagnostic) : String :=
  "line " ++ Text.decimal d.line ++ ": " ++ d.message ++ " (at `" ++ d.token ++ "`)"

end QuadDsp
