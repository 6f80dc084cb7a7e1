import QuadDsp.Machine.Alu

/-! # The shifter

Shifts of a data register by a register or an immediate. Amounts outside 0 to 12 count as the
nearer of the two, and a rotation takes its amount modulo the width. A left shift that loses
significant bits sets the shift overflow flag. -/

namespace QuadDsp

namespace Shifter

def shift (op : Opcode) (a amount : Int) : Flagged :=
  let n := (max 0 (min amount dataBits)).toNat
  let bits := lowBits dataBits a
  let (raw, overflow) : Int × Bool :=
    match op with
    | .lsl => (a * span n, !decide (Fits dataBits (a * span n)))
    | .lsr => ((bits / span n : Nat), false)
    | .asr => (a / span n, false)
    | .rol =>
      let r := (amount % dataBits).toNat
      ((bits * span r + bits / span (dataBits - r) : Nat), false)
    | _ => (bits, false)
  let v := wrap dataBits raw
  (v, { zero := v == 0, shiftZero := v == 0, shiftOverflow := overflow })

end Shifter

/-- `Rd = Rs shifted by Rt` and `Rd = Rs shifted by #n`. -/
def Context.shift (cx : Context) (m : Member) : Except ExecError Effects := do
  let rd ← m.regIndex 0
  let a ← cx.reg m 1
  match m.shape with
  | .rrr | .rrImm =>
    let n ← cx.input m 2 (m.shape == .rrImm)
    return .result rd .shifter (Lanes.zipWith (Shifter.shift m.opcode) a n)
  | _ => m.refuse

end QuadDsp
