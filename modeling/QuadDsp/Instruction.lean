import QuadDsp.Fault
import QuadDsp.Format.Name

/-! # Instructions

One instruction of a program: an operation with its operands and predicate, where it stands, and
the operations bundled with it into the same word. The head of a bundle carries the word's condition
and address. `Instruction.text` is the instruction as a source line. -/

namespace QuadDsp

structure Instruction where
  /-- number of the source line -/
  line : Nat
  opcode : Opcode
  /-- where the word stands in the program -/
  address : UInt32 := 0
  dataAddr : Nat := 0
  /-- set once, when the program is resolved -/
  format : Option FormatId := none
  operands : List Operand := []
  condition : Option Condition := none
  /-- `*` behind the mnemonic: the last complex operand is conjugated -/
  conjugate : Bool := false
  inDelaySlot : Bool := false
  /-- cycles of the latest execution -/
  latency : Nat := 0
  /-- stall cycles among them -/
  stall : Nat := 0
  /-- the operations issued together with this one -/
  siblings : List Instruction := []
  /-- the code section the line stands in -/
  sectionName : Option String := none
deriving Inhabited

namespace Instruction

/-- The address of the word as a number. -/
def programAddr (i : Instruction) : Nat := i.address.toNat

theorem programAddr_lt (i : Instruction) : i.programAddr < span addrBits := i.address.toNat_lt

@[simp] theorem ofNat_programAddr (i : Instruction) : .ofNat i.programAddr = i.address := UInt32.ofNat_toNat

def isDirective (i : Instruction) : Bool := i.opcode.isDirective

/-- The predicate of the word; always, unless another is given. -/
def cond (i : Instruction) : Condition := i.condition.getD .always

/-- The operations of the word, head first. -/
def members (i : Instruction) : List Instruction := i :: i.siblings

def isMacWord (i : Instruction) : Bool := i.members.any (·.opcode.isMac)

def hasMemOperand (i : Instruction) : Bool := i.operands.any Operand.isMem

def readsMemory (i : Instruction) : Bool :=
  i.members.any fun m => m.opcode == .ld && m.hasMemOperand

def writesMemory (i : Instruction) : Bool :=
  i.members.any fun m => m.opcode == .st && m.hasMemOperand

/-- The mnemonics of the word's operations, joined by plus signs. -/
def mnemonics (i : Instruction) : String := Text.join "+" (i.members.map (·.opcode.mnemonic))

/-- The first token worth naming in a diagnostic. -/
def token (i : Instruction) : String :=
  match i.operands with
  | op :: _ => op.text
  | [] => i.opcode.mnemonic

def diagnostic (i : Instruction) (kind : DiagnosticKind) (token message : String) : Diagnostic :=
  ⟨i.line, i.programAddr, token, kind, message⟩

def execDiagnostic (i : Instruction) (e : ExecError) : Diagnostic :=
  i.diagnostic e.kind (e.token?.getD i.token) e.message

def encodeDiagnostic (i : Instruction) (e : EncodeError) : Diagnostic :=
  i.diagnostic e.kind (e.token?.getD i.token) e.message

/-- Operands behind a mnemonic. `pos` counts them; a multiply mode stands without a comma, and the
second operand of a loop, if it is a condition, behind the word UNTIL. -/
def operandsText (op : Opcode) : Nat → String → List Operand → String
  | _, _, [] => ""
  | pos, sep, o :: rest =>
    match o with
    | .key (.mul _) => " " ++ o.text ++ operandsText op (pos + 1) sep rest
    | .cond c =>
      if op = .loop ∧ pos = 1 then " UNTIL " ++ c.name ++ operandsText op (pos + 1) sep rest
      else sep ++ o.text ++ operandsText op (pos + 1) ", " rest
    | _ => sep ++ o.text ++ operandsText op (pos + 1) ", " rest

/-- One operation without its predicate. -/
def operationText (i : Instruction) : String :=
  i.opcode.mnemonic ++ (if i.conjugate then "*" else "") ++ operandsText i.opcode 0 " " i.operands

def predicateText (i : Instruction) : String :=
  if !i.isDirective && i.cond != .always && i.opcode != .loop then "IF " ++ i.cond.name ++ " "
  else ""

def text (i : Instruction) : String :=
  i.predicateText ++ Text.join " || " (i.members.map operationText)

end Instruction

end QuadDsp
