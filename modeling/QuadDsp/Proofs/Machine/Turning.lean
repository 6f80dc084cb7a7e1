import Mathlib.Analysis.Complex.Norm
import Mathlib.Tactic.LinearCombination
import QuadDsp.Machine.Cordic

/-! # Turning a vector in rounded steps

Exact turns would make every vector longer by the same factor, step for step (`stretch`), and bring it down to the axis.
Each shift rounds down by less than one unit (`loss`). What the steps have lost in all (`losses`) bounds two things
alike: how far the length is from the stretched one, in units of the factor, and how far the vector is from where exact
turns could leave it near the axis (`Turned`, kept by a step in `Turned.step` and by a run of steps in `Turned.rotate`).
None of this depends on the size of the vector. -/

namespace QuadDsp

namespace Cordic

/-! ### Rounding -/

/-- The tangent of the angle that step `i` turns by. -/
noncomputable def tangent (i : Nat) : ℝ := (1 / 2) ^ i

/-- The most that a shift to the right by `i` rounds off. -/
noncomputable def loss (i : Nat) : ℝ := 1 - tangent i

/-- The most that the shifts of the first `i` steps round off one coordinate. -/
noncomputable def losses (i : Nat) : ℝ := ∑ j ∈ Finset.range i, loss j

theorem tangent_zero : tangent 0 = 1 := pow_zero _

theorem two_mul_tangent_succ (i : Nat) : 2 * tangent (i + 1) = tangent i := by
  rw [tangent, tangent, pow_succ]
  ring

theorem tangent_pos (i : Nat) : 0 < tangent i := by
  unfold tangent
  positivity

theorem tangent_mul_span (i : Nat) : tangent i * (span i : Nat) = 1 := by
  rw [tangent, span, Nat.pow_eq, Nat.cast_pow, ← mul_pow]
  norm_num

theorem loss_zero : loss 0 = 0 := by rw [loss, tangent_zero, sub_self]

theorem loss_nonneg (i : Nat) : 0 ≤ loss i := sub_nonneg.2 (pow_le_one₀ (by norm_num) (by norm_num))

theorem losses_succ (i : Nat) : losses (i + 1) = losses i + loss i := Finset.sum_range_succ _ _

theorem losses_nonneg (i : Nat) : 0 ≤ losses i := Finset.sum_nonneg fun j _ => loss_nonneg j

theorem shift_le (v : Int) (i : Nat) : ((v / span i : Int) : ℝ) ≤ tangent i * v := by
  have hfloor : ((v / span i : Int) : ℝ) * (span i : Nat) ≤ v := by
    exact_mod_cast Int.ediv_mul_le v (Int.natCast_ne_zero.2 (span_pos i).ne')
  calc
    ((v / span i : Int) : ℝ) = tangent i * ((v / span i : Int) * (span i : Nat)) := by
      linear_combination -((v / span i : Int) : ℝ) * tangent_mul_span i
    _ ≤ tangent i * v := mul_le_mul_of_nonneg_left hfloor (tangent_pos i).le

theorem le_shift (v : Int) (i : Nat) : tangent i * v - loss i ≤ (v / span i : Int) := by
  have hfloor : (v : ℝ) ≤ (v / span i : Int) * (span i : Nat) + ((span i : Nat) - 1) := by
    have hlt := Int.lt_ediv_add_one_mul_self v (Int.natCast_pos.2 (span_pos i))
    have hle : v ≤ v / span i * span i + (span i - 1) := by linarith
    exact_mod_cast hle
  have hscaled := mul_le_mul_of_nonneg_left hfloor (tangent_pos i).le
  rw [loss]
  linear_combination hscaled + ((v / span i : Int) + 1) * tangent_mul_span i

theorem abs_shift_sub_le (v : Int) (i : Nat) : |((v / span i : Int) : ℝ) - tangent i * v| ≤ loss i := by
  have hlow := le_shift v i
  have hhigh := shift_le v i
  have hloss := loss_nonneg i
  exact abs_le.2 ⟨by linarith, by linarith⟩

/-! ### Stretching -/

/-- How much longer exact turns of the first `i` steps make a vector. -/
noncomputable def stretch (i : Nat) : ℝ := √(∏ j ∈ Finset.range i, (1 + tangent j ^ 2))

theorem one_le_one_add_tangent_sq (i : Nat) : 1 ≤ 1 + tangent i ^ 2 := le_add_of_nonneg_right (sq_nonneg _)

theorem one_add_tangent_sq_nonneg (i : Nat) : 0 ≤ 1 + tangent i ^ 2 :=
  zero_le_one.trans (one_le_one_add_tangent_sq i)

theorem stretch_nonneg (i : Nat) : 0 ≤ stretch i := Real.sqrt_nonneg _

theorem stretch_sq (i : Nat) : stretch i ^ 2 = ∏ j ∈ Finset.range i, (1 + tangent j ^ 2) :=
  Real.sq_sqrt (Finset.prod_nonneg fun j _ => one_add_tangent_sq_nonneg j)

theorem stretch_succ (i : Nat) : stretch (i + 1) = √(1 + tangent i ^ 2) * stretch i := by
  rw [stretch, Finset.prod_range_succ, mul_comm, Real.sqrt_mul (one_add_tangent_sq_nonneg i), stretch]

/-- Both coordinates can lose in a step, but the first step, which is exact, and the second one have stretched the
vector by more than that. -/
theorem sqrt_two_mul_loss_le (i : Nat) : √2 * loss i ≤ stretch (i + 1) * (9 / 10 * loss i) := by
  rcases Nat.eq_zero_or_pos i with rfl | hi
  · simp [loss_zero]
  have hprod : 5 / 2 ≤ stretch (i + 1) ^ 2 := by
    rw [stretch_sq]
    calc
      5 / 2 = ∏ j ∈ Finset.range 2, (1 + tangent j ^ 2) := by norm_num [Finset.prod_range_succ, tangent]
      _ ≤ ∏ j ∈ Finset.range (i + 1), (1 + tangent j ^ 2) :=
        Finset.prod_le_prod_of_subset_of_one_le (Finset.range_mono (by omega))
          (fun j _ => one_add_tangent_sq_nonneg j) fun j _ _ => one_le_one_add_tangent_sq j
  have hsqrt : √2 ≤ stretch (i + 1) * (9 / 10) := by
    refine Real.sqrt_le_iff.2 ⟨mul_nonneg (stretch_nonneg _) (by norm_num), ?_⟩
    rw [mul_pow]
    linarith
  calc
    √2 * loss i ≤ stretch (i + 1) * (9 / 10) * loss i := mul_le_mul_of_nonneg_right hsqrt (loss_nonneg i)
    _ = stretch (i + 1) * (9 / 10 * loss i) := mul_assoc _ _ _

/-! ### A step -/

namespace State

/-- A step turns the vector towards the axis. -/
def level (s : State) (i : Nat) (angle : Int) : State := if 0 ≤ s.y then s.turn i angle else s.turnBack i angle

/-- The vector as a complex number. -/
noncomputable def vector (s : State) : ℂ := ⟨s.x, s.y⟩

end State

variable {s : State} {i : Nat} {r : ℝ}

/-- A turn is a product with a complex number. If each coordinate is off by at most `e`, so is the length, but for a
factor. -/
theorem abs_norm_sub_mul_le {v v' : ℂ} {t e : ℝ} (hre : |v'.re - (v.re - t * v.im)| ≤ e)
    (him : |v'.im - (v.im + t * v.re)| ≤ e) : |‖v'‖ - √(1 + t ^ 2) * ‖v‖| ≤ √2 * e := by
  have hfactor : ‖(⟨1, t⟩ : ℂ)‖ = √(1 + t ^ 2) := by
    rw [Complex.norm_def, Complex.normSq_mk]
    congr 1
    ring
  have hoff : max |(v' - ⟨1, t⟩ * v).re| |(v' - ⟨1, t⟩ * v).im| ≤ e := by
    refine max_le ?_ ?_
    · simpa using hre
    · simpa [add_comm] using him
  calc
    |‖v'‖ - √(1 + t ^ 2) * ‖v‖| = |‖v'‖ - ‖⟨1, t⟩ * v‖| := by rw [Complex.norm_mul, hfactor]
    _ ≤ ‖v' - ⟨1, t⟩ * v‖ := abs_norm_sub_norm_le _ _
    _ ≤ √2 * max |(v' - ⟨1, t⟩ * v).re| |(v' - ⟨1, t⟩ * v).im| := Complex.norm_le_sqrt_two_mul_max _
    _ ≤ √2 * e := mul_le_mul_of_nonneg_left hoff (Real.sqrt_nonneg _)

theorem abs_norm_turn_sub_le (s : State) (i : Nat) (angle : Int) :
    |‖(s.turn i angle).vector‖ - √(1 + tangent i ^ 2) * ‖s.vector‖| ≤ √2 * loss i := by
  rw [← neg_sq (tangent i)]
  refine abs_norm_sub_mul_le ?_ ?_
  · convert abs_shift_sub_le s.y i using 2
    simp only [State.vector, State.turn, Int.cast_add]
    ring
  · rw [abs_sub_comm]
    convert abs_shift_sub_le s.x i using 2
    simp only [State.vector, State.turn, Int.cast_sub]
    ring

theorem abs_norm_turnBack_sub_le (s : State) (i : Nat) (angle : Int) :
    |‖(s.turnBack i angle).vector‖ - √(1 + tangent i ^ 2) * ‖s.vector‖| ≤ √2 * loss i := by
  refine abs_norm_sub_mul_le ?_ ?_
  · rw [abs_sub_comm]
    convert abs_shift_sub_le s.y i using 2
    simp only [State.vector, State.turnBack, Int.cast_sub]
    ring
  · convert abs_shift_sub_le s.x i using 2
    simp only [State.vector, State.turnBack, Int.cast_add]
    ring

/-- A step stretches the vector, but for what is rounded off. -/
theorem abs_norm_level_sub_le (s : State) (i : Nat) (angle : Int) :
    |‖(s.level i angle).vector‖ - √(1 + tangent i ^ 2) * ‖s.vector‖| ≤ √2 * loss i := by
  unfold State.level
  split
  · exact abs_norm_turn_sub_le s i angle
  · exact abs_norm_turnBack_sub_le s i angle

theorem x_le_level (s : State) (i : Nat) (angle : Int) : s.x ≤ (s.level i angle).x := by
  unfold State.level
  split
  · have hshift := Int.ediv_nonneg ‹0 ≤ s.y› (Int.natCast_nonneg (span i))
    show s.x ≤ s.x + s.y / span i
    omega
  · have hshift := Int.ediv_neg_of_neg_of_pos (Int.not_le.1 ‹_›) (Int.natCast_pos.2 (span_pos i))
    show s.x ≤ s.x - s.y / span i
    omega

theorem abs_y_level_zero_le (hx : 0 ≤ s.x) (angle : Int) : |(s.level 0 angle).y| ≤ (s.level 0 angle).x := by
  have hspan : ((span 0 : Nat) : Int) = 1 := rfl
  unfold State.level State.turn State.turnBack
  rw [hspan, Int.ediv_one, Int.ediv_one]
  split
  · exact abs_le.2 ⟨by dsimp only; omega, by dsimp only; omega⟩
  · exact abs_le.2 ⟨by dsimp only; omega, by dsimp only; omega⟩

/-- A vector that is at most twice the angle of a step away from the axis is at most once that angle away behind it, but
for what is rounded off. -/
theorem abs_y_level_le {c : ℝ} (hx : 0 ≤ s.x) (hc : 0 ≤ c) (hy : |(s.y : ℝ)| ≤ 2 * (tangent i * s.x) + c)
    (angle : Int) : |((s.level i angle).y : ℝ)| ≤ tangent i * s.x + (c + loss i) := by
  have hloss := loss_nonneg i
  have hlow := le_shift s.x i
  have hhigh := shift_le s.x i
  have hscaled : 0 ≤ tangent i * s.x := mul_nonneg (tangent_pos i).le (Int.cast_nonneg hx)
  obtain ⟨hylow, hyhigh⟩ := abs_le.1 hy
  unfold State.level
  split
  · have hsign : (0 : ℝ) ≤ s.y := Int.cast_nonneg ‹_›
    simp only [State.turn, Int.cast_sub]
    exact abs_le.2 ⟨by linarith, by linarith⟩
  · have hsign : (s.y : ℝ) ≤ 0 := Int.cast_nonpos.2 (Int.not_le.1 ‹_›).le
    simp only [State.turnBack, Int.cast_add]
    exact abs_le.2 ⟨by linarith, by linarith⟩

/-! ### All steps -/

/-- A vector of length `r` behind its first `i` steps. -/
structure Turned (r : ℝ) (i : Nat) (s : State) : Prop where
  x_nonneg : 0 ≤ s.x
  /-- no further from the axis than the angle of the latest step, but for what was rounded off -/
  level : 0 < i → |(s.y : ℝ)| ≤ 2 * (tangent i * s.x) + losses i
  /-- as long as exact turns make it, but for what was rounded off -/
  stretched : |‖s.vector‖ - stretch i * r| ≤ stretch i * (9 / 10 * losses i)

theorem turned_zero (hx : 0 ≤ s.x) : Turned ‖s.vector‖ 0 s where
  x_nonneg := hx
  level := nofun
  stretched := by simp [stretch, losses]

theorem Turned.step (h : Turned r i s) (angle : Int) : Turned r (i + 1) (s.level i angle) where
  x_nonneg := h.x_nonneg.trans (x_le_level s i angle)
  level := by
    intro _
    have hgrows : (s.x : ℝ) ≤ (s.level i angle).x := Int.cast_le.2 (x_le_level s i angle)
    rw [losses_succ, ← mul_assoc, two_mul_tangent_succ]
    -- a vector can start far from the axis, so that the first step has a bound of its own
    rcases Nat.eq_zero_or_pos i with rfl | hi
    · have hfirst : |((s.level 0 angle).y : ℝ)| ≤ (s.level 0 angle).x := by
        exact_mod_cast abs_y_level_zero_le h.x_nonneg angle
      rw [tangent_zero, loss_zero, one_mul, add_zero]
      exact hfirst.trans (le_add_of_nonneg_right (losses_nonneg 0))
    · calc
        |((s.level i angle).y : ℝ)| ≤ tangent i * s.x + (losses i + loss i) :=
          abs_y_level_le h.x_nonneg (losses_nonneg i) (h.level hi) angle
        _ ≤ tangent i * (s.level i angle).x + (losses i + loss i) := by
          gcongr
          exact (tangent_pos i).le
  stretched := by
    have hstep := abs_norm_level_sub_le s i angle
    have hbefore : |√(1 + tangent i ^ 2) * ‖s.vector‖ - stretch (i + 1) * r| ≤
        stretch (i + 1) * (9 / 10 * losses i) := by
      rw [stretch_succ, mul_assoc, mul_assoc, ← mul_sub, abs_mul, abs_of_nonneg (Real.sqrt_nonneg _)]
      exact mul_le_mul_of_nonneg_left h.stretched (Real.sqrt_nonneg _)
    calc
      |‖(s.level i angle).vector‖ - stretch (i + 1) * r|
        ≤ |‖(s.level i angle).vector‖ - √(1 + tangent i ^ 2) * ‖s.vector‖| +
            |√(1 + tangent i ^ 2) * ‖s.vector‖ - stretch (i + 1) * r| := abs_sub_le _ _ _
      _ ≤ stretch (i + 1) * (9 / 10 * loss i) + stretch (i + 1) * (9 / 10 * losses i) :=
        add_le_add (hstep.trans (sqrt_two_mul_loss_le i)) hbefore
      _ = stretch (i + 1) * (9 / 10 * losses (i + 1)) := by
        rw [losses_succ]
        ring

theorem rotate_cons (i : Nat) (angle : Int) (rest : List Int) (s : State) :
    rotate (fun s => 0 ≤ s.y) i (angle :: rest) s = rotate (fun s => 0 ≤ s.y) (i + 1) rest (s.level i angle) := by
  rw [rotate, State.level]
  simp only [decide_eq_true_eq]

theorem Turned.rotate (angles : List Int) (h : Turned r i s) :
    Turned r (i + angles.length) (rotate (fun s => 0 ≤ s.y) i angles s) := by
  induction angles generalizing i s with
  | nil => exact h
  | cons angle rest ih =>
    rw [rotate_cons, List.length_cons, Nat.add_comm rest.length, ← Nat.add_assoc]
    exact ih (h.step angle)

end Cordic

end QuadDsp
