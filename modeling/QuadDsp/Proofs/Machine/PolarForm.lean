import QuadDsp.Proofs.Machine.Turning
import QuadDsp.Proofs.Word.Telling

/-! # How near a polar form is

Twelve steps lose little more than ten units. So the length that is read off is at most ten above the true one
(`Cordic.Turned.length_le`); below it, the distance from the axis and the last shift count too
(`Cordic.Turned.le_length`). A vector and its opposite go through the same steps (`Cordic.polar_neg`). Together this
says how near the polar form of a vector is (`Cordic.rootWithin_polar`). -/

namespace QuadDsp

/-- The square of the length of a vector. -/
def ComplexPair.normSq (c : ComplexPair) : Int := c.re ^ 2 + c.im ^ 2

theorem ComplexPair.normSq_nonneg (c : ComplexPair) : 0 ≤ c.normSq := add_nonneg (sq_nonneg _) (sq_nonneg _)

namespace Cordic

variable {s : State} {i : Nat} {r : ℝ}

/-! ### The length -/

theorem losses_twelve : losses 12 = 10 + tangent 11 := by norm_num [losses, loss, tangent, Finset.sum_range_succ]

theorem lt_stretch_twelve_sq : 2.7118 < stretch 12 ^ 2 := by
  rw [stretch_sq]
  norm_num [tangent, Finset.prod_range_succ]

theorem stretch_twelve_lt : stretch 12 < 1.6468 := by
  refine (sq_lt_sq₀ (stretch_nonneg 12) (by norm_num)).1 ?_
  rw [stretch_sq]
  norm_num [tangent, Finset.prod_range_succ]

theorem tangent_mul_gain : tangent 12 * gain = 2487 / 4096 := by norm_num [tangent, gain]

theorem gain_mul_stretch_le : tangent 12 * gain * stretch 12 ≤ 1 := by
  rw [tangent_mul_gain]
  linarith [stretch_twelve_lt]

/-- The length that is read off a vector on the axis. -/
def State.length (s : State) : Int := s.x * gain / span 12

theorem x_le_length (s : State) : (s.x : ℝ) ≤ 4096 / 2487 * (s.length + 1) := by
  have hfloor : tangent 12 * (s.x * gain : Int) - loss 12 ≤ s.length := le_shift _ 12
  rw [Int.cast_mul, mul_left_comm, tangent_mul_gain] at hfloor
  linarith [tangent_pos 12, show loss 12 = 1 - tangent 12 from rfl]

namespace Turned

theorem length_nonneg (h : Turned r i s) : 0 ≤ s.length :=
  Int.ediv_nonneg (mul_nonneg h.x_nonneg (by decide)) (Int.natCast_nonneg _)

theorem length_le (hr : 0 ≤ r) (h : Turned r 12 s) : s.length ≤ r + 10 := by
  have hlong : 0 ≤ r + 9 / 10 * losses 12 := add_nonneg hr (mul_nonneg (by norm_num) (losses_nonneg 12))
  have hgain : 0 ≤ tangent 12 * gain := by
    rw [tangent_mul_gain]
    norm_num
  have hnorm : ‖s.vector‖ ≤ stretch 12 * (r + 9 / 10 * losses 12) := by linarith [(abs_le.1 h.stretched).2]
  calc
    (s.length : ℝ) ≤ tangent 12 * (s.x * gain : Int) := shift_le _ 12
    _ = tangent 12 * gain * s.vector.re := by
      rw [Int.cast_mul, State.vector]
      ring
    _ ≤ tangent 12 * gain * (stretch 12 * (r + 9 / 10 * losses 12)) :=
      mul_le_mul_of_nonneg_left ((Complex.re_le_norm _).trans hnorm) hgain
    _ = tangent 12 * gain * stretch 12 * (r + 9 / 10 * losses 12) := by ring
    _ ≤ 1 * (r + 9 / 10 * losses 12) := mul_le_mul_of_nonneg_right gain_mul_stretch_le hlong
    _ ≤ r + 10 := by
      rw [losses_twelve]
      norm_num [tangent]

theorem y_sq_le (h : Turned r 12 s) : (s.y : ℝ) ^ 2 ≤ (s.x / 2048 + 10.001) ^ 2 := by
  have hlevel := abs_le.1 (h.level (by decide))
  rw [losses_twelve] at hlevel
  norm_num [tangent] at hlevel
  exact sq_le_sq' (by linarith) (by linarith)

theorem le_norm_sq {t : ℝ} (ht : 0 ≤ t) (h : Turned (t + 9.001) 12 s) : 2.7118 * t ^ 2 ≤ s.x ^ 2 + s.y ^ 2 := by
  have hloss : 9 / 10 * losses 12 ≤ 9.001 := by
    rw [losses_twelve]
    norm_num [tangent]
  have hnorm : stretch 12 * t ≤ ‖s.vector‖ := by
    have hscaled := mul_le_mul_of_nonneg_left hloss (stretch_nonneg 12)
    linarith [(abs_le.1 h.stretched).1]
  calc
    2.7118 * t ^ 2 ≤ (stretch 12 * t) ^ 2 := by
      rw [mul_pow]
      exact mul_le_mul_of_nonneg_right lt_stretch_twelve_sq.le (sq_nonneg t)
    _ ≤ ‖s.vector‖ ^ 2 := pow_le_pow_left₀ (mul_nonneg (stretch_nonneg 12) ht) hnorm 2
    _ = s.x ^ 2 + s.y ^ 2 := by
      rw [Complex.sq_norm, State.vector, Complex.normSq_mk]
      ring

/-- Were the vector more than 16 longer, its coordinates could not make up what it has been stretched to. -/
theorem le_length (h : Turned r 12 s) (hfits : s.length ≤ 2047) : r ≤ s.length + 16 := by
  by_contra hfar
  have hlow : (0 : ℝ) ≤ s.length := Int.cast_nonneg h.length_nonneg
  have hhigh : (s.length : ℝ) ≤ 2047 := by exact_mod_cast hfits
  have hx : (0 : ℝ) ≤ s.x := Int.cast_nonneg h.x_nonneg
  have hstretched : 2.7118 * (r - 9.001) ^ 2 ≤ s.x ^ 2 + s.y ^ 2 := by
    refine le_norm_sq (by linarith) ?_
    rwa [sub_add_cancel]
  refine absurd hstretched (not_le.2 ?_)
  calc
    (s.x ^ 2 + s.y ^ 2 : ℝ) ≤ s.x ^ 2 + (s.x / 2048 + 10.001) ^ 2 := by linarith [h.y_sq_le]
    _ ≤ (4096 / 2487 * (s.length + 1)) ^ 2 + (4096 / 2487 * (s.length + 1) / 2048 + 10.001) ^ 2 := by
      gcongr
      · exact x_le_length s
      · exact x_le_length s
    _ < 2.7118 * (s.length + 6.999) ^ 2 := by nlinarith [mul_nonneg hlow (sub_nonneg.2 hhigh)]
    _ ≤ 2.7118 * (r - 9.001) ^ 2 := by
      gcongr
      linarith

end Turned

/-! ### The polar form -/

namespace State

/-- Where the steps begin. -/
def start (c : ComplexPair) : State := if c.re < 0 then ⟨-c.re, -c.im, halfTurn⟩ else ⟨c.re, c.im, 0⟩

/-- Where they end. -/
def leveled (c : ComplexPair) : State := rotate (fun s => 0 ≤ s.y) 0 angles (start c)

/-- The same vector with another angle added to the one beside it. -/
def addAngle (s : State) (d : Int) : State := { s with z := s.z + d }

end State

open State

variable {c : ComplexPair}

theorem polar_eq (c : ComplexPair) :
    polar c = (⟨clamp dataBits (leveled c).length, wrap dataBits (leveled c).z⟩,
      !decide (Fits dataBits (leveled c).length)) := rfl

theorem polar_of_le (h : (leveled c).length ≤ 2047) (hpos : 0 ≤ (leveled c).length) :
    polar c = (⟨(leveled c).length, wrap dataBits (leveled c).z⟩, false) := by
  have hfits : Fits dataBits (leveled c).length := (fits_data_iff _).2 ⟨by omega, by omega⟩
  rw [polar_eq, (clamp_eq_self_iff _ _).2 hfits, decide_eq_true hfits, Bool.not_true]

theorem polar_of_lt (h : 2047 < (leveled c).length) : polar c = (⟨2047, wrap dataBits (leveled c).z⟩, true) := by
  have hclamp : clamp dataBits (leveled c).length = 2047 := by
    have hspan : ((span (dataBits - 1) : Nat) : Int) = 2048 := rfl
    unfold clamp
    omega
  have hfits : ¬Fits dataBits (leveled c).length := by
    rw [fits_data_iff]
    omega
  rw [polar_eq, hclamp, decide_eq_false hfits, Bool.not_false]

theorem x_start_nonneg (c : ComplexPair) : 0 ≤ (start c).x := by
  unfold start
  split
  · exact Int.neg_nonneg.2 (Int.le_of_lt ‹_›)
  · exact Int.not_lt.1 ‹_›

theorem norm_start (c : ComplexPair) : ‖(start c).vector‖ = √(c.normSq : ℝ) := by
  have hsq : Complex.normSq (start c).vector = c.normSq := by
    unfold start ComplexPair.normSq
    split
    · simp [vector, Complex.normSq_mk, pow_two]
    · simp [vector, Complex.normSq_mk, pow_two]
  rw [Complex.norm_def, hsq]

theorem turned_leveled (c : ComplexPair) : Turned √(c.normSq : ℝ) 12 (leveled c) := by
  rw [← norm_start]
  exact (turned_zero (x_start_nonneg c)).rotate angles

/-! ### Opposite vectors -/

theorem level_addAngle (s : State) (d : Int) (i : Nat) (angle : Int) :
    (s.addAngle d).level i angle = (s.level i angle).addAngle d := by
  unfold level addAngle turn turnBack
  split
  · rw [Int.add_right_comm]
  · rw [add_sub_right_comm]

theorem rotate_addAngle (i : Nat) (angles : List Int) (s : State) (d : Int) :
    rotate (fun s => 0 ≤ s.y) i angles (s.addAngle d) = (rotate (fun s => 0 ≤ s.y) i angles s).addAngle d := by
  induction angles generalizing i s with
  | nil => rfl
  | cons angle rest ih => rw [rotate_cons, rotate_cons, level_addAngle, ih]

/-- A vector off the vertical axis and its opposite start alike, but for half a turn. -/
theorem exists_start_neg (hre : c.re ≠ 0) :
    ∃ d, (d = halfTurn ∨ d = -halfTurn) ∧ start ⟨-c.re, -c.im⟩ = (start c).addAngle d := by
  unfold start
  dsimp only
  rcases Int.lt_or_gt_of_ne hre with hneg | hpos
  · refine ⟨-halfTurn, .inr rfl, ?_⟩
    rw [if_neg (show ¬-c.re < 0 by omega), if_pos hneg]
    rfl
  · refine ⟨halfTurn, .inl rfl, ?_⟩
    rw [if_pos (show -c.re < 0 by omega), if_neg (show ¬c.re < 0 by omega), Int.neg_neg, Int.neg_neg]
    rfl

theorem wrap_add_halfTurn {d : Int} (hd : d = halfTurn ∨ d = -halfTurn) (z : Int) :
    wrap dataBits (z + d) = wrap dataBits (wrap dataBits z + halfTurn) := by
  have hturn : wrap dataBits (z + d) = wrap dataBits (z + halfTurn) := by
    have hhalf : halfTurn = 2048 := rfl
    have hspan : ((span dataBits : Nat) : Int) = 4096 := rfl
    refine wrap_congr ?_
    rw [hspan]
    omega
  rw [hturn]
  exact Int.bmod_add_bmod.symm

theorem polar_neg (hre : c.re ≠ 0) :
    polar ⟨-c.re, -c.im⟩ = (⟨(polar c).1.re, wrap dataBits ((polar c).1.im + halfTurn)⟩, (polar c).2) := by
  obtain ⟨d, hd, hstart⟩ := exists_start_neg hre
  have hend : leveled ⟨-c.re, -c.im⟩ = (leveled c).addAngle d := by
    rw [leveled, hstart, rotate_addAngle, leveled]
  rw [polar_eq, polar_eq, hend, ← wrap_add_halfTurn hd]
  rfl

/-! ### The magnitude -/

/-- The square root of `n` is at most `e` away from `m`, said by squares. -/
def RootWithin (n m e : Int) : Prop := n ≤ (m + e) ^ 2 ∧ (e ≤ m → (m - e) ^ 2 ≤ n)

theorem rootWithin_iff {n m e : Int} (hn : 0 ≤ n) (hm : 0 ≤ m + e) :
    RootWithin n m e ↔ |(m : ℝ) - √(n : ℝ)| ≤ e := by
  have hhigh : √(n : ℝ) ≤ m + e ↔ n ≤ (m + e) ^ 2 := by
    rw [Real.sqrt_le_left (by exact_mod_cast hm)]
    exact_mod_cast Iff.rfl
  have hlow : (m : ℝ) - e ≤ √(n : ℝ) ↔ (e ≤ m → (m - e) ^ 2 ≤ n) := by
    rcases Int.lt_or_le m e with hlt | hle
    · have hneg : (m : ℝ) - e ≤ 0 := by exact_mod_cast Int.sub_nonpos_of_le hlt.le
      exact iff_of_true (hneg.trans (Real.sqrt_nonneg _)) fun h => absurd h (Int.not_le.2 hlt)
    · have hpos : (0 : ℝ) ≤ m - e := by exact_mod_cast Int.sub_nonneg_of_le hle
      rw [Real.le_sqrt hpos (by exact_mod_cast hn), forall_prop_of_true hle]
      exact_mod_cast Iff.rfl
  rw [RootWithin, ← hhigh, ← hlow, abs_le, neg_le_sub_iff_le_add, sub_le_comm]

theorem rootWithin_of_le (h : (leveled c).length ≤ 2047) : RootWithin c.normSq (leveled c).length 16 := by
  have hturned := turned_leveled c
  have hpos := hturned.length_nonneg
  have hlow := hturned.length_le (Real.sqrt_nonneg _)
  have hhigh := hturned.le_length h
  refine (rootWithin_iff c.normSq_nonneg (by omega)).2 (abs_le.2 ⟨?_, ?_⟩)
  · push_cast
    linarith
  · push_cast
    linarith

theorem lt_normSq_of_lt (h : 2047 < (leveled c).length) : 2031 ^ 2 < c.normSq := by
  have hlow := (turned_leveled c).length_le (Real.sqrt_nonneg _)
  have hlong : (2047 : ℝ) < (leveled c).length := by exact_mod_cast h
  have hroot : (2031 : ℝ) < √(c.normSq : ℝ) := by linarith
  exact_mod_cast (Real.lt_sqrt (by norm_num)).1 hroot

/-- The polar form of a vector of any size. Its magnitude is within 16 of the length of the vector, or clamped where
that is too long; the opposite vector has the same magnitude, half a turn away. -/
theorem rootWithin_polar (c : ComplexPair) :
    let v := (polar c).1
    let clamped := (polar c).2
    (0 ≤ v.re ∧ v.re ≤ 2047) ∧ (-2048 ≤ v.im ∧ v.im ≤ 2047) ∧
      (clamped = false → RootWithin c.normSq v.re 16) ∧
      (clamped = true → v.re = 2047 ∧ 2031 ^ 2 < c.normSq) ∧
      (c.re ≠ 0 → polar ⟨-c.re, -c.im⟩ = (⟨v.re, wrap dataBits (v.im + halfTurn)⟩, clamped)) := by
  have hangle : -2048 ≤ wrap dataBits (leveled c).z ∧ wrap dataBits (leveled c).z ≤ 2047 := by
    obtain ⟨hlow, hhigh⟩ := (fits_data_iff _).1 (fits_wrap (by decide) (leveled c).z)
    exact ⟨hlow, Int.le_of_lt_add_one hhigh⟩
  have hpos := (turned_leveled c).length_nonneg
  have hmax : (0 : Int) ≤ 2047 ∧ (2047 : Int) ≤ 2047 := by decide
  have hneg : c.re ≠ 0 → _ := polar_neg
  rcases Int.lt_or_le 2047 (leveled c).length with hlong | hshort
  · rw [polar_of_lt hlong] at hneg ⊢
    exact ⟨hmax, hangle, nofun, fun _ => ⟨rfl, lt_normSq_of_lt hlong⟩, hneg⟩
  · rw [polar_of_le hshort hpos] at hneg ⊢
    exact ⟨⟨hpos, hshort⟩, hangle, fun _ => rootWithin_of_le hshort, nofun, hneg⟩

/-- A vector of length 500, and one that is too long, the conjugate of one at the edge of the range. -/
theorem rootWithin_polar_conjugate :
    polar ⟨-300, 400⟩ = (⟨502, 1444⟩, false) ∧ RootWithin (ComplexPair.normSq ⟨-300, 400⟩) 502 16 ∧
      polar ⟨300, -400⟩ = (⟨502, wrap dataBits (1444 + halfTurn)⟩, false) ∧
      polar (ComplexPair.conjIf true ⟨-300, -2048⟩) = (⟨2047, 1118⟩, true) ∧
      2031 ^ 2 < (ComplexPair.conjIf true ⟨-300, -2048⟩).normSq := by
  have hshort : polar ⟨-300, 400⟩ = (⟨502, 1444⟩, false) := by decide
  have hlong : polar (ComplexPair.conjIf true ⟨-300, -2048⟩) = (⟨2047, 1118⟩, true) := by decide
  obtain ⟨-, -, hroot, -, hneg⟩ := rootWithin_polar ⟨-300, 400⟩
  obtain ⟨-, -, -, hclamped, -⟩ := rootWithin_polar (ComplexPair.conjIf true ⟨-300, -2048⟩)
  rw [hshort] at hroot hneg
  rw [hlong] at hclamped
  exact ⟨hshort, hroot rfl, hneg (by decide), hlong, (hclamped rfl).2⟩

end Cordic

end QuadDsp
