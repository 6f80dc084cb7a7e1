import QuadDsp.Machine.Context

/-! # Arithmetic and logic

The operations on data registers. Results keep 12 bits; where the exact result does not fit, the
overflow flag is set and, in saturating mode, sums and differences go to the nearest value that fits
(`addSub_fst`). -/

namespace QuadDsp

namespace Alu

/-- Adds, or subtracts, with carry. In a subtraction a set carry means that nothing is borrowed,
both before and after. -/
def addSub (a b : Int) (carry subtract saturate : Bool) : Flagged :=
  let low := if subtract then 0xFFF - lowBits dataBits b else lowBits dataBits b
  let sum := lowBits dataBits a + low + carry.toNat
  let exact := if subtract then a - b - (!carry).toNat else a + b + carry.toNat
  let overflow := !decide (Fits dataBits exact)
  let v := if overflow && saturate then clamp dataBits exact else wrap dataBits exact
  (v, { zero := v == 0, negative := v < 0, overflow := overflow, carry := 0xFFF < sum
        inputSign := a < 0 })

def add (a b : Int) (saturate : Bool) : Flagged := addSub a b false false saturate

def sub (a b : Int) (saturate : Bool) : Flagged := addSub a b true true saturate

/-- A result that sets the zero and sign flags only. -/
def logic (v : Int) : Flagged := (wrap dataBits v, Flags.ofResult (wrap dataBits v))

theorem addSub_fst (a b : Int) (carry subtract saturate : Bool) :
    (addSub a b carry subtract saturate).1 =
      let exact := if subtract then a - b - (!carry).toNat else a + b + carry.toNat
      if saturate then clamp dataBits exact else wrap dataBits exact := by
  simp only [addSub]
  generalize (if subtract then a - b - ((!carry).toNat : Int) else a + b + carry.toNat) = exact
  by_cases h : Fits dataBits exact
  · have hw := (wrap_eq_self_iff (by decide) exact).2 h
    have hc := (clamp_eq_self_iff dataBits exact).2 h
    cases saturate <;> simp [h, hw, hc]
  · cases saturate <;> simp [h]

/-- Combines the low bits of two values. -/
def bitwise (f : Nat → Nat → Nat) (a b : Int) : Flagged :=
  logic (f (lowBits dataBits a) (lowBits dataBits b))

/-- The bit with this number. -/
def bit (n : Int) : Int := if 0 ≤ n ∧ n < dataBits then span n.toNat else 0

/-- The operations with two inputs. -/
def binary (op : Opcode) (a b : Int) (carry saturate : Bool) : Flagged :=
  match op with
  | .add => add a b saturate
  | .adc => addSub a b carry false saturate
  | .sub => sub a b saturate
  | .sbc => addSub a b carry true saturate
  | .and => bitwise (· &&& ·) a b
  | .or => bitwise (· ||| ·) a b
  | .xor => bitwise (· ^^^ ·) a b
  | .min => logic (min a b)
  | .max => logic (max a b)
  | .setb => bitwise (· ||| ·) a (bit b)
  | .clrb => bitwise (fun x y => x &&& (0xFFF ^^^ y)) a (bit b)
  | .tglb => bitwise (· ^^^ ·) a (bit b)
  | _ => (a, {})

/-- Number of bits up to the highest set one. -/
def bitLength (n : Nat) : Nat := if n = 0 then 0 else n.log2 + 1

/-- Number of bits behind the sign bit that repeat it. -/
def signBits (x : Int) : Int :=
  (dataBits - 1 : Int) - bitLength (if x < 0 then -x - 1 else x).toNat

/-- The operations with one input. Their input sign flag is that of the input itself. -/
def unary (op : Opcode) (x : Int) (saturate : Bool) : Flagged :=
  let (v, f) :=
    match op with
    | .not => logic (-x - 1)
    | .neg => sub 0 x saturate
    | .abs => if x < 0 then sub 0 x saturate else logic x
    | .pass => logic x
    | .inc => add x 1 saturate
    | .dec => sub x 1 saturate
    | .exp => logic (signBits x)
    | _ => (x, {})
  (v, { f with inputSign := x < 0 })

/-- One step of a division without restoring. `first` puts the sign of the quotient into its lowest
bit and only shifts the remainder; a later step adds or subtracts the divisor by the previous
quotient flag. -/
def divideStep (first : Bool) (rem quo div : Int) (previous : Bool) : Int × Int × Bool :=
  let shifted := 2 * rem + lowBits dataBits quo / span (dataBits - 1)
  if first then
    let q := (rem < 0) != (div < 0)
    (wrap dataBits shifted, wrap dataBits (2 * quo + q.toNat), q)
  else
    let r := wrap dataBits (if previous then shifted + div else shifted - div)
    let q := (r < 0) != (div < 0)
    (r, wrap dataBits (2 * quo + (!q).toNat), q)

end Alu

namespace Context

/-- The second input: a data register, or an immediate in every lane. -/
def input (cx : Context) (m : Member) (n : Nat) (isImmediate : Bool) :
    Except ExecError (Lanes Int) :=
  if isImmediate then do return Lanes.fill (← m.immediate n) else cx.reg m n

/-- `Rd = Rs op Rt` and `Rd = Rs op #n`. -/
def binary (cx : Context) (m : Member) : Except ExecError Effects := do
  let rd ← m.regIndex 0
  let a ← cx.reg m 1
  let b ← cx.input m 2 (m.shape == .rrImm)
  return .result rd .arith <| .ofFn fun l =>
    Alu.binary m.opcode (a l) (b l) (cx.core.flags l).real.carry cx.core.modes.aluSat

/-- `Rd = op Rs`. -/
def unary (cx : Context) (m : Member) : Except ExecError Effects := do
  let rd ← m.regIndex 0
  let x ← cx.reg m 1
  return .result rd .arith (x.map fun x => Alu.unary m.opcode x cx.core.modes.aluSat)

/-- `Rd = 0`. -/
def clearReg (m : Member) : Except ExecError Effects := do
  return .result (← m.regIndex 0) .arith (Lanes.fill (Alu.logic 0))

/-- The flags of a difference, which never saturates. -/
def compare (cx : Context) (m : Member) : Except ExecError Effects := do
  let a ← cx.reg m 0
  match m.shape with
  | .rr | .rImm =>
    let b ← cx.input m 1 (m.shape == .rImm)
    return .flagsOnly .arith (Lanes.zipWith (fun a b => Alu.sub a b false) a b)
  | _ => m.refuse

/-- The flags of one bit. -/
def testBit (cx : Context) (m : Member) : Except ExecError Effects := do
  let a ← cx.reg m 0
  let n ← m.immediate 1
  return .flagsOnly .arith (a.map fun a => Alu.bitwise (· &&& ·) a (Alu.bit n))

/-- A division step on the remainder in `Rd` and the quotient in the register behind it. -/
def divide (cx : Context) (m : Member) : Except ExecError Effects := do
  let rd ← m.regIndex 0
  let div ← cx.reg m 1
  let rem ← cx.core.reg rd
  let quo ← cx.core.reg (rd + 1)
  let steps : Lanes (Int × Int × Bool) := .ofFn fun l =>
    Alu.divideStep (m.opcode == .divs) (rem l) (quo l) (div l) (cx.core.flags l).real.quotient
  return .ofWrites [.reg rd (steps.map (·.1)), .reg (rd + 1) (steps.map (·.2.1)),
    .flags .real .division (steps.map fun s => { quotient := s.2.2 })]

end Context

end QuadDsp
