import Mathlib.Algebra.BigOperators.Group.Finset.Basic
import Mathlib.Tactic.Linarith
import QuadDsp.Proofs.Machine.NonRestoring

/-! # Numbers of several limbs

A number of more than twelve bits is a row of limbs, lowest first (`Limbs.value`). Sums and differences of limbs that
hand their carries on (`Alu.ripple`) lose nothing: the limbs of the result and the last carry together are the sum of
both numbers (`Alu.value_ripple`), where a difference adds the complement of each limb (`Alu.addend`). The last limb
overflows when the sum of the signed numbers does (`Alu.overflow_ripple`). -/

namespace QuadDsp

namespace Limbs

/-- The number whose first `k` limbs these are, lowest first, each read as unsigned. -/
def value (v : Nat → Int) (k : Nat) : Int :=
  ∑ j ∈ Finset.range k, (lowBits dataBits (v j) : Int) * span (dataBits * j)

variable {v w : Nat → Int} {k : Nat}

theorem value_succ (v : Nat → Int) (k : Nat) :
    value v (k + 1) = value v k + lowBits dataBits (v k) * span (dataBits * k) :=
  Finset.sum_range_succ ..

theorem span_limb (k : Nat) : (span (dataBits * (k + 1)) : Int) = 4096 * span (dataBits * k) := by
  rw [Nat.mul_succ, span_add, Nat.cast_mul, Int.mul_comm]
  rfl

theorem span_limb_pos (k : Nat) : (0 : Int) < span (dataBits * k) := Int.natCast_pos.2 (span_pos _)

theorem value_nonneg (v : Nat → Int) (k : Nat) : 0 ≤ value v k :=
  Finset.sum_nonneg fun j _ => Int.mul_nonneg (Int.natCast_nonneg _) (span_limb_pos j).le

theorem value_lt (v : Nat → Int) (k : Nat) : value v k < span (dataBits * k) := by
  induction k with
  | zero => exact span_limb_pos 0
  | succ k ih =>
    have hlimb : (lowBits dataBits (v k) : Int) ≤ 4095 :=
      Int.le_of_lt_add_one (Int.ofNat_lt.2 (lowBits_lt dataBits (v k)))
    have hpos := span_limb_pos k
    rw [value_succ, span_limb]
    nlinarith

/-- Whether a number fits is up to its last limb, whatever is below. -/
theorem fits_add_mul_iff {low e : Int} (hnonneg : 0 ≤ low) (hlt : low < span (dataBits * k)) :
    Fits (dataBits * (k + 1)) (low + e * span (dataBits * k)) ↔ Fits dataBits e := by
  have hpos := span_limb_pos k
  have hlast : (span (dataBits - 1) : Int) = 2048 := rfl
  have hhalf : (span (dataBits * (k + 1) - 1) : Int) = 2048 * span (dataBits * k) := by
    rw [show dataBits * (k + 1) - 1 = dataBits * k + 11 by rw [Nat.mul_succ]; rfl, span_add, Nat.cast_mul, Int.mul_comm]
    rfl
  rw [Fits, Fits, hhalf, hlast]
  constructor
  · rintro ⟨hlow, hhigh⟩
    constructor <;> by_contra hout <;> nlinarith
  · rintro ⟨hlow, hhigh⟩
    constructor <;> nlinarith

theorem wrap_value (h : Fits dataBits (v k)) :
    wrap (dataBits * (k + 1)) (value v (k + 1)) = value v k + v k * span (dataBits * k) := by
  have hfits : Fits (dataBits * (k + 1)) (value v k + v k * span (dataBits * k)) :=
    (fits_add_mul_iff (value_nonneg v k) (value_lt v k)).2 h
  rw [← (wrap_eq_self_iff (Nat.mul_pos (by decide) k.succ_pos) _).2 hfits]
  -- the unsigned limb and the signed one differ by a multiple of 4096
  have hmod : v k % 4096 = v k - 4096 * (v k / 4096) := Int.emod_def ..
  have hvalue : value v (k + 1) =
      value v k + v k * span (dataBits * k) - span (dataBits * (k + 1)) * (v k / 4096) := by
    rw [value_succ, Alu.lowBits_data, span_limb, hmod]
    ring
  refine wrap_congr ?_
  rw [hvalue, Int.sub_mul_emod_self_left]

/-- Limbs, a carry and an overflow flag are those of the sum of two numbers of `k` limbs: the limbs are the sum as far
as they go, the carry is what goes out of them, and the flag says that the signed sum does not fit. -/
structure IsSum (a b r : Nat → Int) (k : Nat) (carry overflow : Bool) : Prop where
  value : value r k = (value a k + value b k) % span (dataBits * k)
  carry : carry = true ↔ span (dataBits * k) ≤ Limbs.value a k + Limbs.value b k
  overflow : overflow = true ↔
    ¬Fits (dataBits * k) (wrap (dataBits * k) (Limbs.value a k) + wrap (dataBits * k) (Limbs.value b k))

/-- The same for the difference of two numbers; the carry says that nothing is borrowed. -/
structure IsDifference (a b r : Nat → Int) (k : Nat) (carry overflow : Bool) : Prop where
  value : value r k = (value a k - value b k) % span (dataBits * k)
  carry : carry = true ↔ Limbs.value b k ≤ Limbs.value a k
  overflow : overflow = true ↔
    ¬Fits (dataBits * k) (wrap (dataBits * k) (Limbs.value a k) - wrap (dataBits * k) (Limbs.value b k))

end Limbs

namespace Alu

/-- What a subtraction adds instead of its second input. -/
def addend (subtract : Bool) (b : Int) : Int := if subtract then -1 - b else b

/-- The carry into each limb of a sum, or of a difference. -/
def carries (subtract : Bool) (a b : Nat → Int) : Nat → Bool
  | 0 => subtract
  | j + 1 => (addSub (a j) (b j) (carries subtract a b j) subtract false).2.carry

/-- The limbs of a sum, or of a difference, each with its flags. -/
def ripple (subtract : Bool) (a b : Nat → Int) (j : Nat) : Flagged :=
  addSub (a j) (b j) (carries subtract a b j) subtract false

variable {subtract : Bool} {a b : Nat → Int}

theorem lowBits_addend (subtract : Bool) (b : Int) :
    (if subtract then 0xFFF - lowBits dataBits b else lowBits dataBits b) = lowBits dataBits (addend subtract b) := by
  cases subtract with
  | false => rfl
  | true =>
    have hb := lowBits_data b
    have hcomplement := lowBits_data (-1 - b)
    simp only [if_true, addend]
    omega

theorem exact_addend (a b : Int) (carry subtract : Bool) :
    (if subtract then a - b - (!carry).toNat else a + b + carry.toNat) = a + addend subtract b + carry.toNat := by
  cases subtract <;> cases carry <;> simp [addend] <;> omega

theorem addSub_eq (a b : Int) (carry subtract : Bool) :
    (addSub a b carry subtract false).1 = wrap dataBits (a + addend subtract b + carry.toNat) := by
  rw [addSub_fst, exact_addend]
  rfl

theorem carry_addSub (a b : Int) (carry subtract : Bool) : (addSub a b carry subtract false).2.carry =
    decide (0xFFF < lowBits dataBits a + lowBits dataBits (addend subtract b) + carry.toNat) := by
  rw [← lowBits_addend]
  rfl

theorem overflow_addSub (a b : Int) (carry subtract : Bool) : (addSub a b carry subtract false).2.overflow =
    !decide (Fits dataBits (a + addend subtract b + carry.toNat)) := by
  rw [← exact_addend]
  rfl

/-- A limb of the result, with its carry, is the sum of the limbs and the carry that comes in. -/
theorem addSub_limb (a b : Int) (carry subtract : Bool) :
    let x := addSub a b carry subtract false
    (lowBits dataBits x.1 : Int) + 4096 * x.2.carry.toNat =
      lowBits dataBits a + lowBits dataBits (addend subtract b) + carry.toNat := by
  have ha := lowBits_data a
  have hb := lowBits_data (addend subtract b)
  have hr := lowBits_data (a + addend subtract b + carry.toNat)
  have hcarry := carry.toNat_le
  dsimp only
  rw [addSub_eq, lowBits_wrap, carry_addSub]
  by_cases hout : 0xFFF < lowBits dataBits a + lowBits dataBits (addend subtract b) + carry.toNat
  · rw [decide_eq_true hout, Bool.toNat_true]
    omega
  · rw [decide_eq_false hout, Bool.toNat_false]
    omega

theorem fits_ripple (subtract : Bool) (a b : Nat → Int) (j : Nat) : Fits dataBits (ripple subtract a b j).1 := by
  have hlimb := addSub_eq (a j) (b j) (carries subtract a b j) subtract
  exact hlimb ▸ fits_wrap (by decide) _

theorem value_ripple (subtract : Bool) (a b : Nat → Int) (k : Nat) :
    Limbs.value (fun j => (ripple subtract a b j).1) k + span (dataBits * k) * (carries subtract a b k).toNat =
      Limbs.value a k + Limbs.value (fun j => addend subtract (b j)) k + subtract.toNat := by
  induction k with
  | zero => rw [carries]; simp [Limbs.value, span]
  | succ k ih =>
    have hlimb := addSub_limb (a k) (b k) (carries subtract a b k) subtract
    simp only [Limbs.value_succ, Limbs.span_limb, carries, ripple] at ih ⊢
    dsimp only at hlimb
    linear_combination ih + span (dataBits * k) * hlimb

theorem value_addend (b : Nat → Int) (k : Nat) :
    Limbs.value (fun j => addend true (b j)) k = span (dataBits * k) - 1 - Limbs.value b k := by
  induction k with
  | zero => simp [Limbs.value, span]
  | succ k ih =>
    have hlimb : (lowBits dataBits (addend true (b k)) : Int) = 4095 - lowBits dataBits (b k) := by
      have hlt := lowBits_lt dataBits (b k)
      have hspan : span dataBits = 4096 := rfl
      rw [← lowBits_addend, if_pos rfl]
      omega
    rw [Limbs.value_succ, Limbs.value_succ, ih, hlimb, Limbs.span_limb]
    ring

section Whole

variable {k : Nat}

/-- The number that a row of limbs stands for, and the carry out of them, are the quotient and the remainder of what
they are added up to. -/
theorem eq_emod_and_carry {low total : Int} {carry : Bool} {k : Nat} (hnonneg : 0 ≤ low)
    (hlt : low < span (dataBits * k))
    (htotal : low + span (dataBits * k) * carry.toNat = total) :
    low = total % span (dataBits * k) ∧ (carry = true ↔ span (dataBits * k) ≤ total) := by
  subst htotal
  rw [Int.add_mul_emod_self_left, Int.emod_eq_of_lt hnonneg hlt]
  cases carry <;> simp <;> omega

/-- The last limb overflows where the row of signed sums below it does not fit. -/
theorem overflow_ripple {x : Int} (hx : x = Limbs.value (fun j => (ripple subtract a b j).1) k +
    (a k + addend subtract (b k) + (carries subtract a b k).toNat) * span (dataBits * k)) :
    (ripple subtract a b k).2.overflow = true ↔ ¬Fits (dataBits * (k + 1)) x := by
  rw [hx, Limbs.fits_add_mul_iff (Limbs.value_nonneg _ k) (Limbs.value_lt _ k), ripple, overflow_addSub]
  simp

theorem isSum_ripple (ha : Fits dataBits (a k)) (hb : Fits dataBits (b k)) :
    Limbs.IsSum a b (fun j => (ripple false a b j).1) (k + 1) (ripple false a b k).2.carry
      (ripple false a b k).2.overflow := by
  have hbelow := value_ripple false a b k
  have htotal := value_ripple false a b (k + 1)
  simp only [addend, Bool.false_eq_true, if_false, Bool.toNat_false, Nat.cast_zero, Int.add_zero] at hbelow htotal
  obtain ⟨hvalue, hcarry⟩ := eq_emod_and_carry (Limbs.value_nonneg _ _) (Limbs.value_lt _ _) htotal
  refine ⟨hvalue, hcarry, overflow_ripple ?_⟩
  rw [Limbs.wrap_value ha, Limbs.wrap_value hb]
  simp only [addend, Bool.false_eq_true, if_false]
  linear_combination -hbelow

theorem isDifference_ripple (ha : Fits dataBits (a k)) (hb : Fits dataBits (b k)) :
    Limbs.IsDifference a b (fun j => (ripple true a b j).1) (k + 1) (ripple true a b k).2.carry
      (ripple true a b k).2.overflow := by
  have hbelow := value_ripple true a b k
  have htotal := value_ripple true a b (k + 1)
  rw [value_addend] at hbelow htotal
  obtain ⟨hvalue, hcarry⟩ := eq_emod_and_carry (Limbs.value_nonneg _ _) (Limbs.value_lt _ _) htotal
  simp only [Bool.toNat_true, Nat.cast_one] at hbelow hvalue hcarry
  refine ⟨?_, hcarry.trans (by omega), overflow_ripple ?_⟩
  · rw [hvalue, ← Int.add_emod_left (span (dataBits * (k + 1)) : Int) (_ - _)]
    congr 1
    ring
  · rw [Limbs.wrap_value ha, Limbs.wrap_value hb]
    simp only [addend, if_true]
    linear_combination -hbelow

end Whole

end Alu

end QuadDsp
