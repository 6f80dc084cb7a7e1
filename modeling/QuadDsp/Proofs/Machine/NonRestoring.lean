import Mathlib.Tactic.LinearCombination
import Mathlib.Tactic.Positivity
import Mathlib.Tactic.Ring
import QuadDsp.Machine.Alu
import QuadDsp.Proofs.Word.Telling

/-! # Division without restoring

A division brings in the dividend bit by bit. Behind every step the upper register holds the remainder of what has come
in, less the divisor where the step went below zero, and the lower register holds the bits that are still to come, with
the bits of the quotient behind them (`Alu.Divided`). The first step establishes this (`Alu.divided_first`), every
further one keeps it (`Alu.Divided.step`), and when all bits have come in the quotient is complete
(`Alu.Divided.finished`). -/

namespace QuadDsp

namespace Alu

/-- The dividend in a pair of data registers: the upper one signed, the lower one unsigned. -/
def dividend (upper lower : Int) : Int := upper * span dataBits + lowBits dataBits lower

/-- A dividend and a divisor that a division takes: the quotient is not negative and fits. -/
structure InRange (n d : Int) : Prop where
  nonneg : 0 ≤ n
  pos : 0 < d
  le : d ≤ 2047
  lt : n < 2048 * d

/-- A division of `n` by `d` behind `k` of its steps, with `m` bits of `n` still to come. -/
structure Divided (n d : Int) (k m : Nat) (rem quo : Int) (flag : Bool) : Prop where
  /-- what is left of the bits that have come in, less the divisor while the flag is set -/
  rem : rem = n / 2 ^ m % d - if flag then d else 0
  /-- the bits to come, and the quotient of those that have come in -/
  quo : quo = wrap dataBits (n % 2 ^ m * 2 ^ k + n / 2 ^ m / d)
  /-- the flag is the complement of the latest bit of the quotient -/
  flag : flag = true ↔ 1 < k ∧ n / 2 ^ m / d % 2 = 0

theorem wrap_data {v : Int} (hlow : -2048 ≤ v) (hhigh : v < 2048) : wrap dataBits v = v :=
  (wrap_eq_self_iff (by decide) v).2 ⟨hlow, hhigh⟩

theorem lowBits_data (v : Int) : (lowBits dataBits v : Int) = v % 4096 :=
  Int.toNat_of_nonneg (Int.emod_nonneg v (by decide))

theorem dividend_eq (upper lower : Int) : dividend upper lower = upper * 4096 + lower % 4096 := by
  rw [dividend, lowBits_data]
  rfl

theorem lowBits_div (quo : Int) : (lowBits dataBits quo : Int) / (span (dataBits - 1) : Nat) = quo % 4096 / 2048 := by
  rw [lowBits_data]
  rfl

variable {n d rem quo : Int} {flag : Bool} {k m : Nat}

/-- The first step only shifts: what has come in is still below the divisor. -/
theorem divided_first (h : InRange (dividend rem quo) d) (previous : Bool) :
    let s := divideStep true rem quo d previous
    Divided (dividend rem quo) d 1 11 s.1 s.2.1 s.2.2 := by
  obtain ⟨hn, hd, hle, hlt⟩ := h
  rw [dividend_eq] at *
  have hin : (rem * 4096 + quo % 4096) / 2 ^ 11 = 2 * rem + quo % 4096 / 2048 := by omega
  have hbelow : 2 * rem + quo % 4096 / 2048 < d := by omega
  have hquotient : (2 * rem + quo % 4096 / 2048) / d = 0 := Int.ediv_eq_zero_of_lt (by omega) hbelow
  have hflag : (decide (rem < 0) != decide (d < 0)) = false := by
    rw [decide_eq_false (by omega), decide_eq_false (by omega)]
    rfl
  dsimp only [divideStep]
  rw [if_pos rfl, hflag, lowBits_div]
  refine ⟨?_, ?_, ?_⟩
  · rw [hin, Int.emod_eq_of_lt (by omega) hbelow, wrap_data (by omega) (by omega)]
    simp
  · rw [hin, hquotient]
    refine wrap_congr ?_
    have hspan : ((span dataBits : Nat) : Int) = 4096 := rfl
    simp only [hspan, Bool.toNat_false]
    omega
  · simp

/-! ### A further step -/

theorem ediv_two_pow_succ (n : Int) (m : Nat) : n / 2 ^ (m + 1) = n / 2 ^ m / 2 := by
  rw [pow_succ, Int.ediv_ediv_of_nonneg (by positivity)]

/-- The highest of the bits to come is the next one to come in. -/
theorem emod_two_pow_succ (n : Int) (m : Nat) : n % 2 ^ (m + 1) = n / 2 ^ m % 2 * 2 ^ m + n % 2 ^ m := by
  have hshort := Int.mul_ediv_add_emod n (2 ^ (m + 1))
  have hlong := Int.mul_ediv_add_emod n (2 ^ m)
  have hbit := Int.mul_ediv_add_emod (n / 2 ^ m) 2
  rw [ediv_two_pow_succ] at hshort
  linear_combination hshort - hlong - 2 ^ m * hbit

/-- With a further bit in, the remainder doubles and the bit joins it; it is tried against the divisor, and the outcome
is the next bit of the quotient. -/
theorem divide_bit (t : Int) (hd : 0 < d) :
    let r := 2 * (t / 2 % d) + t % 2 - d
    t / d = 2 * (t / 2 / d) + (if r < 0 then 0 else 1) ∧ t % d = r + (if r < 0 then d else 0) := by
  intro r
  have hbefore := Int.mul_ediv_add_emod (t / 2) d
  have hbit := Int.mul_ediv_add_emod t 2
  have hpos := Int.emod_nonneg (t / 2) (Int.ne_of_gt hd)
  have hlt := Int.emod_lt_of_pos (t / 2) hd
  rw [Int.ediv_emod_unique hd]
  split
  · refine ⟨?_, by omega, by omega⟩
    linear_combination 2 * hbefore + hbit
  · refine ⟨?_, by omega, by omega⟩
    linear_combination 2 * hbefore + hbit

/-- What has come in keeps its quotient below the bits that are still to come. -/
theorem lower_bounds (hrange : InRange n d) (hall : (2 : Int) ^ m * 2 ^ k = 2048) :
    0 ≤ n % 2 ^ m * 2 ^ k + n / 2 ^ m / 2 / d ∧ n % 2 ^ m * 2 ^ k + n / 2 ^ m / 2 / d < 2048 := by
  obtain ⟨hn, hd, -, hlt⟩ := hrange
  have hm : (0 : Int) < 2 ^ m := by positivity
  have hk : (0 : Int) < 2 ^ k := by positivity
  have hlow := Int.emod_nonneg n (Int.ne_of_gt hm)
  have hin : 0 ≤ n / 2 ^ m := Int.ediv_nonneg hn (Int.le_of_lt hm)
  have hquotient : 0 ≤ n / 2 ^ m / 2 / d := Int.ediv_nonneg (by omega) (Int.le_of_lt hd)
  have hfits : n / 2 ^ m / 2 / d < 2 ^ k := by
    have hin' : n / 2 ^ m < 2 ^ k * d := Int.ediv_lt_of_lt_mul hm <| by
      calc
        n < 2048 * d := hlt
        _ = 2 ^ k * d * 2 ^ m := by rw [← hall]; ring
    exact Int.ediv_lt_of_lt_mul hd (by omega)
  have hcoming : (n % 2 ^ m + 1) * 2 ^ k ≤ 2 ^ m * 2 ^ k :=
    Int.mul_le_mul_of_nonneg_right (Int.emod_lt_of_pos n hm) (Int.le_of_lt hk)
  rw [hall, add_mul, one_mul] at hcoming
  exact ⟨Int.add_nonneg (Int.mul_nonneg hlow (Int.le_of_lt hk)) hquotient, by omega⟩

theorem two_pow_mul_two_pow (hm : k + (m + 1) = 12) : (2 : Int) ^ m * 2 ^ k = 2048 := by
  rw [← pow_add, show m + k = 11 by omega]
  rfl

/-- The highest bit of the lower register is the next one to come in. -/
theorem Divided.lower (hrange : InRange n d) (hm : k + (m + 1) = 12) (h : Divided n d k (m + 1) rem quo flag) :
    quo % 4096 = n / 2 ^ m % 2 * 2048 + (n % 2 ^ m * 2 ^ k + n / 2 ^ m / 2 / d) := by
  have hall := two_pow_mul_two_pow hm
  obtain ⟨hlow, hhigh⟩ := lower_bounds hrange hall
  have hquo := h.quo
  rw [ediv_two_pow_succ, emod_two_pow_succ] at hquo
  have hlower : (n / 2 ^ m % 2 * 2 ^ m + n % 2 ^ m) * 2 ^ k + n / 2 ^ m / 2 / d =
      n / 2 ^ m % 2 * 2048 + (n % 2 ^ m * 2 ^ k + n / 2 ^ m / 2 / d) := by
    linear_combination n / 2 ^ m % 2 * hall
  rw [hquo, hlower, ← lowBits_data, lowBits_wrap, lowBits_data]
  omega

/-- Whether or not the divisor was put back before, the same number is tried. -/
theorem Divided.tried (h : Divided n d k (m + 1) rem quo flag) (bit : Int) :
    (if flag then 2 * rem + bit + d else 2 * rem + bit - d) = 2 * (n / 2 ^ m / 2 % d) + bit - d := by
  rw [h.rem, ediv_two_pow_succ]
  cases flag with
  | false =>
    simp only [Bool.false_eq_true, if_false]
    omega
  | true =>
    simp only [if_true]
    omega

/-- A further step takes the divisor off what has come in, or puts it back, so that its sign is the next bit of the
quotient. -/
theorem Divided.step (hrange : InRange n d) (hk : 0 < k) (hm : k + (m + 1) = 12)
    (h : Divided n d k (m + 1) rem quo flag) :
    let s := divideStep false rem quo d flag
    Divided n d (k + 1) m s.1 s.2.1 s.2.2 := by
  have hlower := h.lower hrange hm
  obtain ⟨hlow, hhigh⟩ := lower_bounds hrange (two_pow_mul_two_pow hm)
  obtain ⟨-, hd, hle, -⟩ := hrange
  have hbit : quo % 4096 / 2048 = n / 2 ^ m % 2 := by omega
  have hpos := Int.emod_nonneg (n / 2 ^ m / 2) (Int.ne_of_gt hd)
  have hbelow := Int.emod_lt_of_pos (n / 2 ^ m / 2) hd
  dsimp only [divideStep]
  rw [if_neg (by decide), lowBits_div, hbit, h.tried, wrap_data (by omega) (by omega)]
  obtain ⟨hdigit, hleft⟩ := divide_bit (n / 2 ^ m) hd
  generalize 2 * (n / 2 ^ m / 2 % d) + n / 2 ^ m % 2 - d = r at hdigit hleft
  have hflag : (decide (r < 0) != decide (d < 0)) = decide (r < 0) := by
    rw [decide_eq_false (show ¬d < 0 by omega), Bool.bne_false]
  rw [hflag]
  refine ⟨?_, ?_, ?_⟩
  · rw [hleft]
    simp
  · -- the bit that has come in is shifted out, and the new bit of the quotient stands in its place
    refine wrap_congr ?_
    have hspan : ((span dataBits : Nat) : Int) = 4096 := rfl
    have htwice : n % 2 ^ m * 2 ^ (k + 1) = 2 * (n % 2 ^ m * 2 ^ k) := by ring
    rw [hspan, hdigit, htwice]
    split
    · rw [decide_eq_true ‹r < 0›, Bool.not_true, Bool.toNat_false]
      omega
    · rw [decide_eq_false ‹¬r < 0›, Bool.not_false, Bool.toNat_true]
      omega
  · rw [hdigit, decide_eq_true_iff]
    split
    · omega
    · omega

theorem Divided.finished (hrange : InRange n d) (h : Divided n d 12 0 rem quo flag) :
    quo = n / d ∧ rem = if n / d % 2 = 1 then n % d else n % d - d := by
  obtain ⟨hrem, hquo, hflag⟩ := h
  simp only [pow_zero, Int.ediv_one, Int.emod_one, zero_mul, zero_add] at hrem hquo hflag
  have hpos : 0 ≤ n / d := Int.ediv_nonneg hrange.nonneg (Int.le_of_lt hrange.pos)
  have hfits : n / d < 2048 := Int.ediv_lt_of_lt_mul hrange.pos hrange.lt
  refine ⟨by rw [hquo, wrap_data (by omega) hfits], ?_⟩
  rw [hrem]
  cases flag with
  | false =>
    have hodd : n / d % 2 = 1 := by
      by_contra h
      exact Bool.false_ne_true (hflag.2 ⟨by decide, by omega⟩)
    rw [if_neg Bool.false_ne_true, if_pos hodd, Int.sub_zero]
  | true =>
    have heven := (hflag.1 rfl).2
    rw [if_pos rfl, if_neg (by omega)]

end Alu

end QuadDsp
