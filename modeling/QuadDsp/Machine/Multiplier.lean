import QuadDsp.Machine.Context

/-! # The multiplier

Products of data registers, or of complex pairs, put into, added to or subtracted from an
accumulator. Accumulators have 32 bits, of which 24 are significant: a value that needs more sets
the multiplier overflow flag and, in saturating mode, goes to the nearest value of 24 bits. -/

namespace QuadDsp

namespace Multiplier

/-- The significant bits of an accumulator. -/
def accBits : Nat := 24

def product (mode : MulMode) (x y : Int) : Int :=
  match mode with
  | .ss | .rnd => x * y
  | .su => x * lowBits dataBits y
  | .us => lowBits dataBits x * y
  | .uu => lowBits dataBits x * lowBits dataBits y

/-- To the nearest multiple of 4096, a half upwards. -/
def round (v : Int) : Int := (v + 0x800) / 0x1000 * 0x1000

/-- Wraps to the accumulator and settles flags and saturation. -/
def settle (v : Int) (saturate : Bool) : Flagged :=
  let v := wrap 32 v
  let overflow := !decide (Fits accBits v)
  let v := if overflow && saturate then clamp accBits v else v
  (v, { mulOverflow := overflow, mulNegative := v < 0 })

def accumulate (op : Opcode) (old p : Int) : Int :=
  match op with
  | .mac => old + p
  | .mas => old - p
  | _ => p

/-- The new value of an accumulator. -/
def step (op : Opcode) (mode : MulMode) (saturate : Bool) (old p : Int) : Flagged :=
  let v := accumulate op old p
  settle (if mode = .rnd then round v else v) saturate

/-- The flags of a complex accumulator pair: overflow of either half, sign of the real half. -/
def both (real imag : Flags) : Flags :=
  { mulOverflow := real.mulOverflow || imag.mulOverflow, mulNegative := real.mulNegative }

/-- The operations on a single accumulator. -/
def whole (op : Opcode) (old : Int) (saturate : Bool) : Flagged :=
  match op with
  | .sat => (clamp accBits old, { mulNegative := clamp accBits old < 0 })
  | .rnd => settle (round old) saturate
  | _ => (0, {})

end Multiplier

namespace Context

def multiplyReal (cx : Context) (m : Member) (acc x y : Nat) : Except ExecError Effects := do
  let a ← cx.core.reg x
  let b ← cx.core.reg y
  let old ← cx.core.acc acc
  let v : Lanes Flagged := .ofFn fun l =>
    Multiplier.step m.opcode m.mulMode cx.core.modes.macSat (old l)
      (Multiplier.product m.mulMode (a l) (b l))
  return .ofWrites [.acc acc (v.map Prod.fst), .flags .real .multiplier (v.map Prod.snd)]

/-- The halves of a complex product go to an accumulator and the one behind it. -/
def multiplyComplex (cx : Context) (m : Member) (acc x y : Nat) : Except ExecError Effects := do
  if RegClass.acc.count ≤ acc + 1 then m.refuse
  else
    let a ← cx.core.pair x
    let b := (← cx.core.pair y).map (ComplexPair.conjIf m.instr.conjugate)
    let oldRe ← cx.core.acc acc
    let oldIm ← cx.core.acc (acc + 1)
    let step := Multiplier.step m.opcode m.mulMode cx.core.modes.macSat
    let re : Lanes Flagged := .ofFn fun l =>
      step (oldRe l) ((a l).re * (b l).re - (a l).im * (b l).im)
    let im : Lanes Flagged := .ofFn fun l =>
      step (oldIm l) ((a l).re * (b l).im + (a l).im * (b l).re)
    let realFlags := re.map Prod.snd
    let imagFlags := im.map Prod.snd
    return .ofWrites [.acc acc (re.map Prod.fst), .acc (acc + 1) (im.map Prod.fst),
      .flags .real .multiplier realFlags, .flags .imag .multiplier imagFlags,
      .flags .both .multiplier (Lanes.zipWith Multiplier.both realFlags imagFlags)]

/-- MPY, MAC and MAS. -/
def multiply (cx : Context) (m : Member) : Except ExecError Effects := do
  let acc ← m.regIndex 0
  let x ← m.regIndex 1
  let y ← m.regIndex 2
  match m.shape with
  | .accRR => cx.multiplyReal m acc x y
  | .accCrCr => cx.multiplyComplex m acc x y
  | _ => m.refuse

/-- CLR, SAT and RND of an accumulator. -/
def accumulator (cx : Context) (m : Member) : Except ExecError Effects := do
  let acc ← m.regIndex 0
  let old ← cx.core.acc acc
  let v := old.map fun a => Multiplier.whole m.opcode a cx.core.modes.macSat
  return .ofWrites [.acc acc (v.map Prod.fst), .flags .real .multiplier (v.map Prod.snd)]

end Context

end QuadDsp
