import QuadDsp.Format.Selection
import QuadDsp.Machine.Effects
import QuadDsp.Program.Basic

/-! # Operations in context

What an operation sees: the state before its word, the program for its symbols, and the lanes in
which the word takes effect. The readers of operands fail where the shape of the operation promises
an operand that is not there. -/

namespace QuadDsp

structure Context where
  core : Core
  mem : Memory
  program : Program
  mask : Mask

namespace Member

/-- An operand that the shape promises. -/
def need (m : Member) : Option α → Except ExecError α
  | some a => .ok a
  | none => .error (.shape m.noForm)

/-- The operation has no such form. -/
def refuse (m : Member) : Except ExecError α := .error (.shape m.noForm)

/-- The register operand with this number. -/
def register (m : Member) (n : Nat) : Except ExecError Reg := m.need (m.reg? n)

/-- The number of the register operand with this number. -/
def regIndex (m : Member) (n : Nat) : Except ExecError Nat := do return (← m.register n).index

/-- The immediate operand with this number, as a 32-bit value. -/
def immediate (m : Member) (n : Nat) : Except ExecError Int := do
  return wrap 32 (← m.need (m.imm? n))

end Member

namespace Context

/-- The data register that an operand names. -/
def reg (cx : Context) (m : Member) (n : Nat) : Except ExecError (Lanes Int) := do
  cx.core.reg (← m.regIndex n)

/-- The complex register that an operand names. -/
def pair (cx : Context) (m : Member) (n : Nat) : Except ExecError (Lanes ComplexPair) := do
  cx.core.pair (← m.regIndex n)

end Context

/-- A value with the flags that it sets. -/
abbrev Flagged := Int × Flags

namespace Effects

/-- Writes a data register and flags of the real bank. -/
def result (rd : Nat) (group : Flags) (v : Lanes Flagged) : Effects :=
  ofWrites [.reg rd (v.map Prod.fst), .flags .real group (v.map Prod.snd)]

/-- Sets flags of the real bank only. -/
def flagsOnly (group : Flags) (v : Lanes Flagged) : Effects :=
  ofWrites [.flags .real group (v.map Prod.snd)]

end Effects

end QuadDsp
