import QuadDsp.Machine.ComplexAlu
import QuadDsp.Machine.Core
import QuadDsp.Machine.Shifter

/-! # Amounts of shifts

The operations that shift are written out here with every shift made on a number of so many bits, by an
amount that has to be less: `shl?` and `shr?` refuse any other. None is ever refused, and the results are
those of the operations themselves. Amounts come from registers for the shifter (`Shifter.shift?_eq`), from
the number of the step in a conversion (`Cordic.rotate?_eq`), from the part of an accumulator
(`Core.viewOf?_eq`) and from a bit number, which has to be one of twelve (`Alu.bit?_eq`). -/

namespace QuadDsp

/-- A shift to the left of a number of `width` bits. -/
def shl? (width : Nat) (x : Int) (n : Nat) : Option Int := if n < width then some (x * span n) else none

/-- A shift to the right of a number of `width` bits. -/
def shr? (width : Nat) (x : Int) (n : Nat) : Option Int := if n < width then some (x / span n) else none

theorem shl?_of_lt {width n : Nat} (h : n < width) (x : Int) : shl? width x n = some (x * span n) := if_pos h

theorem shr?_of_lt {width n : Nat} (h : n < width) (x : Int) : shr? width x n = some (x / span n) := if_pos h

namespace Shifter

/-- What a shift leaves before it is cut to the width of a register, and whether bits were lost. -/
def raw? (op : Opcode) (a amount : Int) : Option (Int × Bool) :=
  let n := (max 0 (min amount dataBits)).toNat
  let bits := lowBits dataBits a
  match op with
  | .lsl => do
    let exact ← shl? 64 a n
    return (exact, !decide (Fits dataBits exact))
  | .lsr => do return (← shr? 32 bits n, false)
  | .asr => do return (← shr? 32 a n, false)
  | .rol => do
    let r := (amount % dataBits).toNat
    return ((← shl? 32 bits r) + (← shr? 32 bits (dataBits - r)), false)
  | _ => some (bits, false)

def shift? (op : Opcode) (a amount : Int) : Option Flagged := do
  let (raw, overflow) ← raw? op a amount
  let v := wrap dataBits raw
  return (v, { zero := v == 0, shiftZero := v == 0, shiftOverflow := overflow })

/-- Whatever the registers hold, no shift goes too far. -/
theorem shift?_eq (op : Opcode) (a amount : Int) : shift? op a amount = some (shift op a amount) := by
  have hbits : (dataBits : Int) = 12 := rfl
  have hn : (max 0 (min amount dataBits)).toNat < 32 := by omega
  have hmod : amount % dataBits < dataBits := Int.emod_lt_of_pos amount (by decide)
  have hr : (amount % dataBits).toNat < 32 := by omega
  have hback : dataBits - (amount % dataBits).toNat < 32 := Nat.lt_of_le_of_lt (Nat.sub_le _ _) (by decide)
  have hcast (x y : Nat) : (x : Int) / (y : Int) = ((x / y : Nat) : Int) := (Int.natCast_ediv x y).symm
  unfold shift? raw? shift
  cases op with
  | lsl =>
    dsimp only
    rw [shl?_of_lt (Nat.lt_trans hn (by decide))]
    rfl
  | lsr =>
    dsimp only
    rw [shr?_of_lt hn, hcast]
    rfl
  | asr =>
    dsimp only
    rw [shr?_of_lt hn]
    rfl
  | rol =>
    dsimp only
    rw [shl?_of_lt hr, shr?_of_lt hback, hcast]
    rfl
  | _ => rfl

end Shifter

namespace Alu

/-- The bit with this number. -/
def bit? (n : Int) : Option Int := shl? 32 1 n.toNat

theorem bit?_eq {n : Int} (hlow : 0 ≤ n) (hhigh : n < dataBits) : bit? n = some (bit n) := by
  have hbits : (dataBits : Int) = 12 := rfl
  have hlt : n.toNat < 32 := by omega
  rw [bit?, shl?_of_lt hlt, bit, if_pos ⟨hlow, hhigh⟩, Int.one_mul]

end Alu

namespace Cordic

def State.turn? (s : State) (i : Nat) (angle : Int) : Option State := do
  return ⟨s.x + (← shr? 64 s.y i), s.y - (← shr? 64 s.x i), s.z + angle⟩

def State.turnBack? (s : State) (i : Nat) (angle : Int) : Option State := do
  return ⟨s.x - (← shr? 64 s.y i), s.y + (← shr? 64 s.x i), s.z - angle⟩

def rotate? (right : State → Bool) : Nat → List Int → State → Option State
  | _, [], s => some s
  | i, angle :: rest, s => do
    rotate? right (i + 1) rest (← if right s then s.turn? i angle else s.turnBack? i angle)

/-- There are few enough steps for every one of them to shift. -/
theorem rotate?_eq (right : State → Bool) {i : Nat} {angles : List Int} (h : i + angles.length ≤ 64) (s : State) :
    rotate? right i angles s = some (rotate right i angles s) := by
  induction angles generalizing i s with
  | nil => rfl
  | cons angle rest ih =>
    rw [List.length_cons] at h
    have hi : i < 64 := by omega
    have hturn : s.turn? i angle = some (s.turn i angle) := by
      unfold State.turn?
      rw [shr?_of_lt hi, shr?_of_lt hi]
      rfl
    have hback : s.turnBack? i angle = some (s.turnBack i angle) := by
      unfold State.turnBack?
      rw [shr?_of_lt hi, shr?_of_lt hi]
      rfl
    rw [rotate?, rotate, hturn, hback]
    split
    · exact ih (by omega) _
    · exact ih (by omega) _

def polar? (c : ComplexPair) : Option (ComplexPair × Bool) := do
  let start : State := if c.re < 0 then ⟨-c.re, -c.im, halfTurn⟩ else ⟨c.re, c.im, 0⟩
  let s ← rotate? (fun s => 0 ≤ s.y) 0 angles start
  let length ← shr? 64 (s.x * gain) 12
  return (⟨clamp dataBits length, wrap dataBits s.z⟩, !decide (Fits dataBits length))

theorem polar?_eq (c : ComplexPair) : polar? c = some (polar c) := by
  unfold polar?
  dsimp only
  rw [rotate?_eq _ (by decide), Option.bind_eq_bind, Option.bind_some, shr?_of_lt (by decide)]
  rfl

def rect? (c : ComplexPair) : Option (ComplexPair × Bool) := do
  let x ← shr? 64 (c.re * gain) 12
  let start : State :=
    if halfTurn / 2 < c.im then ⟨-x, 0, c.im - halfTurn⟩
    else if c.im < -(halfTurn / 2) then ⟨-x, 0, c.im + halfTurn⟩
    else ⟨x, 0, c.im⟩
  let s ← rotate? (fun s => s.z < 0) 0 angles start
  return (⟨clamp dataBits s.x, clamp dataBits s.y⟩,
    !decide (Fits dataBits s.x) || !decide (Fits dataBits s.y))

theorem rect?_eq (c : ComplexPair) : rect? c = some (rect c) := by
  unfold rect?
  rw [shr?_of_lt (by decide), Option.bind_eq_bind, Option.bind_some]
  dsimp only
  rw [rotate?_eq _ (by decide)]
  rfl

end Cordic

namespace Core

/-- A part of an accumulator value. -/
def viewOf? (view : AccView) (acc : Int) : Option Int := (shr? 32 acc view.shift).map (wrap view.width)

theorem viewOf?_eq (view : AccView) (acc : Int) : viewOf? view acc = some (viewOf view acc) := by
  have hlt : view.shift < 32 := by cases view <;> decide
  rw [viewOf?, shr?_of_lt hlt]
  rfl

/-- An accumulator value with one part replaced. -/
def putView? (view : AccView) (acc v : Int) : Option Int := do
  let bits := lowBits 32 acc
  let below : Nat := bits % span view.shift
  let above : Nat := bits / span (view.shift + view.width)
  let middle ← shl? 32 (lowBits view.width v) view.shift
  return wrap 32 (above * span (view.shift + view.width) + middle + below)

theorem putView?_eq (view : AccView) (acc v : Int) : putView? view acc v = some (putView view acc v) := by
  have hlt : view.shift < 32 := by cases view <;> decide
  unfold putView? putView
  rw [shl?_of_lt hlt]
  simp

end Core

end QuadDsp
