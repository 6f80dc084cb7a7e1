import QuadDsp.Instruction

/-! # Operand shapes

A shape is the list of slots that an operand list fills, multiply mode set aside. An operation's
word format follows from the operation and its shape alone, and the assembler and the simulator
read shapes through the same function, `Shape.classify`. -/

namespace QuadDsp

/-- One position of a shape, by what it accepts. -/
inductive Slot
  | general | complex | acc | accView | index | modify
  /-- any address register -/
  | address
  | sys | imm
  /-- memory at a fixed address -/
  | memAbs
  /-- memory through an index register stepped by a modify register -/
  | memModify
  /-- memory through an index register stepped by an immediate -/
  | memImm
  | target | cond | sts | modeBit
deriving DecidableEq, Repr

namespace Slot

def accepts : Slot → Operand → Bool
  | general, .reg r => r.cls == .general
  | complex, .reg r => r.cls == .complex
  | acc, .reg r => r.cls == .acc
  | index, .reg r => r.cls == .index
  | modify, .reg r => r.cls == .modify
  | address, .reg r => r.cls.isAddress
  | accView, .accView .. => true
  | sys, .sys _ => true
  | imm, .imm _ => true
  | memAbs, .mem ⟨_, .direct _⟩ | memAbs, .mem ⟨_, .symbol _⟩ => true
  | memModify, .mem ⟨_, .post ..⟩ | memModify, .mem ⟨_, .pre ..⟩ => true
  | memImm, .mem ⟨_, .postImm ..⟩ | memImm, .mem ⟨_, .preImm ..⟩ => true
  | target, .target _ => true
  | cond, .cond _ => true
  | sts, .key .sts => true
  | modeBit, .key (.mode _) => true
  | _, _ => false

def isMem : Slot → Bool
  | memAbs | memModify | memImm => true
  | _ => false

end Slot

inductive Shape
  | bare | r | acc | index | target | sts | modeBit
  | rr | crCr | rImm | dagImm | sysImm | im | rAccPart | accPartR | rDag | dagR | rSys | sysR
  | rMemAbs | memAbsR | crMemAbs | memAbsCr | rMemM | memMR | rMemI | memIR
  | crMemM | memMCr | crMemI | memICr | targetCond
  | rrr | rrImm | crCrCr | accRR | accCrCr
deriving DecidableEq, Repr

namespace Shape

def all : List Shape :=
  [bare, r, acc, index, target, sts, modeBit, rr, crCr, rImm, dagImm, sysImm, im, rAccPart,
    accPartR, rDag, dagR, rSys, sysR, rMemAbs, memAbsR, crMemAbs, memAbsCr, rMemM, memMR, rMemI,
    memIR, crMemM, memMCr, crMemI, memICr, targetCond, rrr, rrImm, crCrCr, accRR, accCrCr]

theorem mem_all (s : Shape) : s ∈ all := by cases s <;> decide

/-- The name in diagnostics. -/
def name : Shape → String
  | bare => "Bare" | r => "R" | acc => "Acc" | index => "Index" | target => "Target"
  | sts => "Sts" | modeBit => "ModeBit" | rr => "RR" | crCr => "CrCr" | rImm => "RImm"
  | dagImm => "DagImm" | sysImm => "SysImm" | im => "IM" | rAccPart => "RAccPart"
  | accPartR => "AccPartR" | rDag => "RDag" | dagR => "DagR" | rSys => "RSys" | sysR => "SysR"
  | rMemAbs => "RMemAbs" | memAbsR => "MemAbsR" | crMemAbs => "CrMemAbs" | memAbsCr => "MemAbsCr"
  | rMemM => "RMemM" | memMR => "MemMR" | rMemI => "RMemI" | memIR => "MemIR"
  | crMemM => "CrMemM" | memMCr => "MemMCr" | crMemI => "CrMemI" | memICr => "MemICr"
  | targetCond => "TargetCond" | rrr => "RRR" | rrImm => "RRImm" | crCrCr => "CrCrCr"
  | accRR => "AccRR" | accCrCr => "AccCrCr"

def slots : Shape → List Slot
  | bare => []
  | r => [.general]
  | acc => [.acc]
  | index => [.index]
  | target => [.target]
  | sts => [.sts]
  | modeBit => [.modeBit]
  | rr => [.general, .general]
  | crCr => [.complex, .complex]
  | rImm => [.general, .imm]
  | dagImm => [.address, .imm]
  | sysImm => [.sys, .imm]
  | im => [.index, .modify]
  | rAccPart => [.general, .accView]
  | accPartR => [.accView, .general]
  | rDag => [.general, .address]
  | dagR => [.address, .general]
  | rSys => [.general, .sys]
  | sysR => [.sys, .general]
  | rMemAbs => [.general, .memAbs]
  | memAbsR => [.memAbs, .general]
  | crMemAbs => [.complex, .memAbs]
  | memAbsCr => [.memAbs, .complex]
  | rMemM => [.general, .memModify]
  | memMR => [.memModify, .general]
  | rMemI => [.general, .memImm]
  | memIR => [.memImm, .general]
  | crMemM => [.complex, .memModify]
  | memMCr => [.memModify, .complex]
  | crMemI => [.complex, .memImm]
  | memICr => [.memImm, .complex]
  | targetCond => [.target, .cond]
  | rrr => [.general, .general, .general]
  | rrImm => [.general, .general, .imm]
  | crCrCr => [.complex, .complex, .complex]
  | accRR => [.acc, .general, .general]
  | accCrCr => [.acc, .complex, .complex]

/-- Multiplications name the signedness of their factors. -/
def needsMode : Shape → Bool
  | accRR | accCrCr => true
  | _ => false

def memSlot? (s : Shape) : Option Nat := s.slots.findIdx? Slot.isMem

/-- The slot of the register that a load or store moves. -/
def dataSlot? (s : Shape) : Option Nat := s.memSlot?.map (1 - ·)

def isComplex (s : Shape) : Bool := s.slots.contains .complex

def fits (s : Shape) (ops : List Operand) : Bool :=
  s.slots.length == ops.length && (s.slots.zip ops).all fun (slot, op) => slot.accepts op

def noForm (i : Instruction) : ShapeError := .noForm i.opcode (Operand.textList i.operands)

/-- Sets the first multiply mode aside, and refuses program memory and register numbers past the
end of their file. -/
def setModeAside (mode : Option MulMode) :
    List Operand → Except ShapeError (List Operand × Option MulMode)
  | [] => .ok ([], mode)
  | op :: rest =>
    match op, mode with
    | .key (.mul m), none => setModeAside (some m) rest
    | .mem ⟨.program, _⟩, _ => .error (.programMemory op.text)
    | _, _ =>
      if op.inFile then (setModeAside mode rest).map fun (ops, m) => (op :: ops, m)
      else .error (.registerNotAllowed op.text)

def classify (i : Instruction) : Except ShapeError (Shape × Option MulMode) := do
  let (ops, mode) ← setModeAside none i.operands
  match all.find? (·.fits ops) with
  | some shape => return (shape, mode)
  | none => throw (noForm i)

end Shape

/-- The operations that one bundled word can hold together. -/
inductive BundleShape
  | aluLd | aluSt | macLd | macSt | macLdLd | shfLd | shfSt | aluMac
deriving DecidableEq, Repr

/-- The part an operation plays in its word. -/
inductive Role
  /-- the only operation of the word -/
  | op
  | alu | mac | shf | ld
  /-- the second load beside a multiplication -/
  | ld2
  | st
deriving DecidableEq, Repr

namespace Role

/-- The name in diagnostics. -/
def name : Role → String
  | op => "Op" | alu => "Alu" | mac => "Mac" | shf => "Shf" | ld => "Ld" | ld2 => "Ld2"
  | st => "St"

/-- The shape that a bundled operation must have to play a part. -/
def shape : Role → Shape
  | alu => .rrr
  | mac => .accRR
  | shf => .rrImm
  | ld | ld2 => .rMemM
  | st => .memMR
  | op => .bare

end Role

namespace BundleShape

def all : List BundleShape := [aluLd, aluSt, macLd, macSt, macLdLd, shfLd, shfSt, aluMac]

/-- The parts of the bundle in the order in which its word lays them out. -/
def roles : BundleShape → List Role
  | aluLd => [.alu, .ld]
  | aluSt => [.alu, .st]
  | macLd => [.mac, .ld]
  | macSt => [.mac, .st]
  | macLdLd => [.mac, .ld, .ld2]
  | shfLd => [.shf, .ld]
  | shfSt => [.shf, .st]
  | aluMac => [.alu, .mac]

end BundleShape

end QuadDsp
