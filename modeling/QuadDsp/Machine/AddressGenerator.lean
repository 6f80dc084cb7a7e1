import QuadDsp.Machine.Context

/-! # Addresses of memory operands

A memory operand gives one address and perhaps a new value of its index register. Index registers
step through a circular buffer where their length register is set, and through all of the 16-bit
addresses where it is zero. The addresses of the first four index registers are bit-reversed in that
mode; the register itself is stepped as ever. -/

namespace QuadDsp

namespace AddressGenerator

/-- Steps an index, inside the buffer of `length` words at `base` if the length is not zero. -/
def step (index base length : Nat) (delta : Int) : Nat :=
  if length = 0 then lowBits 16 (index + delta)
  else lowBits 16 (base + (index - base + delta) % (length : Int))

/-- Bits `width - 1` to zero of a number in reverse order. -/
def reverseBits : Nat → Nat → Nat
  | 0, _ => 0
  | width + 1, n => n % 2 * span width + reverseBits width (n / 2)

/-- The index registers that can be bit-reversed. -/
def reversible : Nat := 4

end AddressGenerator

/-- The address of an access, and the new value of its index register. -/
structure Access where
  addr : Nat
  update : Option (Nat × Nat) := none
deriving DecidableEq, Repr

namespace Access

def writes (a : Access) : List Write :=
  match a.update with
  | some (i, v) => [.address ⟨.index, i⟩ v]
  | none => []

end Access

namespace Core

/-- The value of an index register after a step. -/
def stepIndex (s : Core) (i : Nat) (delta : Int) : Except ExecError Nat := do
  return AddressGenerator.step (← fetch s.index i) (← fetch s.base i) (← fetch s.length i) delta

/-- The address that an index register stands for in the present mode. -/
def reversed (s : Core) (i addr : Nat) : Nat :=
  if s.modes.bitRev && i < AddressGenerator.reversible then AddressGenerator.reverseBits 16 addr
  else addr

/-- An access in front of the step of the index register. -/
def accessBefore (s : Core) (i : Nat) (delta : Int) : Except ExecError Access := do
  let addr ← fetch s.index i
  let next ← s.stepIndex i delta
  return ⟨s.reversed i addr, some (i, next)⟩

/-- An access behind the step of the index register. -/
def accessAfter (s : Core) (i : Nat) (delta : Int) : Except ExecError Access := do
  let next ← s.stepIndex i delta
  return ⟨s.reversed i next, some (i, next)⟩

end Core

namespace Context

/-- The access of a memory operand. A step of zero leaves the index register alone. -/
def access (cx : Context) (mode : AddrMode) : Except ExecError Access :=
  let s := cx.core
  match mode with
  | .direct _ | .symbol _ =>
    match cx.program.dataAddr? mode with
    | .ok a => .ok ⟨a.getD 0, none⟩
    | .error e => .error (.structural e)
  | .post i m => do s.accessBefore i (← Core.fetch s.modify m)
  | .pre m i => do s.accessAfter i (← Core.fetch s.modify m)
  | .postImm i delta =>
    if delta = 0 then do return ⟨s.reversed i (← Core.fetch s.index i), none⟩
    else s.accessBefore i delta
  | .preImm delta i => s.accessAfter i delta

/-- A complex access takes the word at an even address and the one behind it. -/
def accessFault? (cx : Context) (addr : Nat) (isComplex : Bool) : Option AddressError :=
  if isComplex && addr % 2 == 1 then some (.unaligned addr)
  else cx.mem.fault? (addr + isComplex.toNat)

end Context

end QuadDsp
