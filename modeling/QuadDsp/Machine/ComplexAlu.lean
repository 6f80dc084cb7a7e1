import QuadDsp.Machine.Alu
import QuadDsp.Machine.Cordic

/-! # Complex arithmetic

Operations on complex registers work on the two halves separately. Each half sets its own bank of
flags, and a third bank describes the result as a whole: zero where both halves are, overflow and
carry where either half has them, sign from the real half. -/

namespace QuadDsp

/-- A complex result: each half with its flags. -/
structure ComplexResult where
  re : Flagged
  im : Flagged

namespace ComplexResult

/-- The flags of the result as a whole. -/
def bothFlags (r : ComplexResult) : Flags :=
  { zero := r.re.2.zero && r.im.2.zero, negative := r.re.2.negative
    overflow := r.re.2.overflow || r.im.2.overflow, carry := r.re.2.carry || r.im.2.carry
    inputSign := r.re.2.inputSign }

/-- Writes a complex register and the three banks of flags. -/
def effects (rd : Nat) (v : Lanes ComplexResult) : Effects :=
  .ofWrites [.reg (2 * rd) (v.map (·.re.1)), .reg (2 * rd + 1) (v.map (·.im.1)),
    .flags .real .arith (v.map (·.re.2)), .flags .imag .arith (v.map (·.im.2)),
    .flags .both .arith (v.map bothFlags)]

end ComplexResult

namespace Alu

def complexBinary (subtract : Bool) (x y : ComplexPair) (saturate : Bool) : ComplexResult :=
  ⟨addSub x.re y.re subtract subtract saturate, addSub x.im y.im subtract subtract saturate⟩

def complexUnary (op : Opcode) (x : ComplexPair) (saturate : Bool) : ComplexResult :=
  match op with
  | .neg => ⟨sub 0 x.re saturate, sub 0 x.im saturate⟩
  | .conj => ⟨logic x.re, sub 0 x.im saturate⟩
  | _ => ⟨logic x.re, logic x.im⟩

/-- Conversion between rectangular and polar form; a clamped result sets the overflow flag. -/
def convert (op : Opcode) (x : ComplexPair) : ComplexResult :=
  let (v, clamped) :=
    match op with
    | .polar => Cordic.polar x
    | _ => Cordic.rect x
  let (re, f) := logic v.re
  ⟨(re, { f with overflow := clamped }), logic v.im⟩

end Alu

namespace Context

/-- `CRd = CRs ± CRt`; the second operand can be conjugated. -/
def complexBinary (cx : Context) (m : Member) : Except ExecError Effects := do
  let rd ← m.regIndex 0
  let a ← cx.pair m 1
  let b := (← cx.pair m 2).map (ComplexPair.conjIf m.instr.conjugate)
  let result (subtract : Bool) : Effects :=
    ComplexResult.effects rd <| .ofFn fun l =>
      Alu.complexBinary subtract (a l) (b l) cx.core.modes.aluSat
  match m.opcode with
  | .add => return result false
  | .sub => return result true
  | _ => m.refuse

/-- An operation on the complex register `CRs`, which can be conjugated first. -/
def complexMap (cx : Context) (m : Member) (f : ComplexPair → ComplexResult) :
    Except ExecError Effects :=
  match m.shape with
  | .crCr => do
    let rd ← m.regIndex 0
    let x ← cx.pair m 1
    return ComplexResult.effects rd (x.map fun c => f (c.conjIf m.instr.conjugate))
  | _ => m.refuse

/-- PASS, NEG and CONJ. -/
def complexUnary (cx : Context) (m : Member) : Except ExecError Effects :=
  cx.complexMap m fun x => Alu.complexUnary m.opcode x cx.core.modes.aluSat

/-- POLAR and RECT. -/
def convert (cx : Context) (m : Member) : Except ExecError Effects :=
  cx.complexMap m (Alu.convert m.opcode)

end Context

end QuadDsp
