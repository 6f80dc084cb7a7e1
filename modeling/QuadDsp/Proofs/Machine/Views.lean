import QuadDsp.Proofs.Machine.Accumulation

/-! # Views of an accumulator

The three views cut an accumulator value of 32 bits into parts that do not overlap (`AccView.bits`). What is written to
one of them stands in its bits and leaves those of the others (`AccView.bits_putView`), and the three parts make up the
value (`AccView.eq_of_bits`). So a value that is moved to data registers view by view, and from there to an accumulator
in whatever order, is the same value again (`Simulator.views_lossless`). -/

namespace QuadDsp

/-! ### Bits -/

/-- The bits of a part of an accumulator value. -/
def AccView.bits (view : AccView) (acc : Int) : Nat := lowBits 32 acc / span view.shift % span view.width

namespace AccView

variable (view : AccView) (acc : Int)

theorem spans :
    span 0 = 1 ∧ span 8 = 256 ∧ span 12 = 4096 ∧ span 24 = 16777216 ∧ span 32 = 4294967296 :=
  ⟨rfl, rfl, rfl, rfl, rfl⟩

theorem width_pos : 0 < view.width := by cases view <;> decide

theorem viewOf_eq : Core.viewOf view acc = wrap view.width (view.bits acc : Int) := by
  obtain ⟨h0, h8, h12, h24, h32⟩ := spans
  refine wrap_congr ?_
  cases view <;> simp only [bits, shift, width, lowBits, h0, h8, h12, h24, h32] <;> omega

theorem lowBits_viewOf : lowBits view.width (Core.viewOf view acc) = view.bits acc := by
  have hlt : view.bits acc < span view.width := Nat.mod_lt _ (span_pos _)
  rw [viewOf_eq, lowBits_wrap, lowBits_natCast hlt]

theorem fits_viewOf : Fits dataBits (Core.viewOf view acc) := by
  have h := fits_wrap view.width_pos (acc / span view.shift)
  have h7 : span (8 - 1) = 128 := rfl
  have h11 : span (12 - 1) = 2048 := rfl
  unfold Core.viewOf
  generalize acc / span view.shift = part at h ⊢
  cases view <;> simp only [Fits, width, dataBits, h7, h11] at h ⊢ <;> omega

/-- A new part beside those above and below it. -/
theorem lowBits_putView (v : Int) : lowBits 32 (Core.putView view acc v) =
    lowBits 32 acc / span (view.shift + view.width) * span (view.shift + view.width) +
      lowBits view.width v * span view.shift + lowBits 32 acc % span view.shift := by
  obtain ⟨h0, h8, h12, h24, h32⟩ := spans
  have hold := lowBits_lt 32 acc
  have hnew := lowBits_lt view.width v
  dsimp only [Core.putView]
  rw [lowBits_wrap, lowBits_natCast]
  generalize lowBits view.width v = new at hnew ⊢
  generalize lowBits 32 acc = old at hold ⊢
  cases view <;> simp only [shift, width, h0, h8, h12, h24, h32] at hold hnew ⊢ <;> omega

/-- Writing a view replaces its bits and keeps those of the others. -/
theorem bits_putView (other : AccView) (v : Int) :
    other.bits (Core.putView view acc v) = if view = other then lowBits view.width v else other.bits acc := by
  obtain ⟨h0, h8, h12, h24, h32⟩ := spans
  have hold := lowBits_lt 32 acc
  have hnew := lowBits_lt view.width v
  rw [bits, lowBits_putView, bits]
  generalize lowBits view.width v = new at hnew ⊢
  generalize lowBits 32 acc = old at hold ⊢
  cases view <;> cases other <;>
    simp only [shift, width, h0, h8, h12, h24, h32, reduceCtorEq, if_true, if_false] at hold hnew ⊢ <;> omega

theorem fits_putView (v : Int) : Fits 32 (Core.putView view acc v) := fits_wrap (by decide) _

theorem sum_bits : high.bits acc * span 24 + mid.bits acc * span 12 + low.bits acc = lowBits 32 acc := by
  obtain ⟨h0, h8, h12, h24, h32⟩ := spans
  have hlt := lowBits_lt 32 acc
  simp only [bits, shift, width, h0, h8, h12, h24, h32] at hlt ⊢
  omega

/-- A value of 32 bits is determined by its parts. -/
theorem eq_of_bits {x y : Int} (hx : Fits 32 x) (hy : Fits 32 y) (h : ∀ view : AccView, view.bits x = view.bits y) :
    x = y := by
  have hbits : lowBits 32 x = lowBits 32 y := by rw [← sum_bits x, ← sum_bits y, h, h, h]
  rw [← (wrap_eq_self_iff (by decide) x).2 hx, ← wrap_lowBits, hbits, wrap_lowBits,
    (wrap_eq_self_iff (by decide) y).2 hy]

end AccView

/-! ### Moves -/

namespace Member

variable {m : Member} {n acc : Nat} {view : AccView}

theorem Fit.shape_of_mov (hm : m.Fit) (hop : m.opcode = .mov) :
    m.shape ∈ [.rr, .rAccPart, .accPartR, .rDag, .dagR, .rSys, .sysR] := by
  have htakes := hm.takes (u := .move) (by rw [hop]; rfl)
  exact of_decide_eq_true htakes

/-- A view is moved to a data register. -/
theorem Fit.execute_of_save (hm : m.Fit) (hop : m.opcode = .mov)
    (hops : m.instr.operands = [.reg ⟨.general, n⟩, .accView acc view]) (cx : Context) :
    n < 32 ∧ ∃ u, cx.core.acc acc = .ok u ∧ m.execute cx = .ok (.ofWrites [.reg n (u.map (Core.viewOf view))]) := by
  have hshapes := hm.shape_of_mov hop
  simp only [List.mem_cons, List.not_mem_nil, or_false] at hshapes
  rcases hshapes with h | h | h | h | h | h | h <;>
    (obtain ⟨o, o', hops', ho, hin, ho', hin'⟩ := hm.classified.both_operands (by rw [h]; rfl) (by rw [h]; rfl)
     cases hops.symm.trans hops')
  case inr.inl =>
    obtain ⟨u, hu⟩ := Core.fetch_of_lt cx.core.accs (of_decide_eq_true hin')
    refine ⟨of_decide_eq_true hin, u, hu, ?_⟩
    have hacc : cx.core.acc acc = .ok u := hu
    rw [execute_eq_run (u := .move) (by rw [hop]; rfl), ExecUnit.run, Context.move, h, hops]
    simp only [Core.accView, hacc]
    rfl
  all_goals cases ho'

/-- A data register is moved to a view. -/
theorem Fit.execute_of_restore (hm : m.Fit) (hop : m.opcode = .mov)
    (hops : m.instr.operands = [.accView acc view, .reg ⟨.general, n⟩]) (cx : Context) :
    acc < 8 ∧ ∃ u, cx.core.reg n = .ok u ∧ m.execute cx = .ok (.ofWrites [.accView acc view u]) := by
  have hshapes := hm.shape_of_mov hop
  simp only [List.mem_cons, List.not_mem_nil, or_false] at hshapes
  rcases hshapes with h | h | h | h | h | h | h <;>
    (obtain ⟨o, o', hops', ho, hin, ho', hin'⟩ := hm.classified.both_operands (by rw [h]; rfl) (by rw [h]; rfl)
     cases hops.symm.trans hops')
  case inr.inr.inl =>
    obtain ⟨u, hu⟩ := Core.fetch_of_lt cx.core.regs (of_decide_eq_true hin')
    refine ⟨of_decide_eq_true hin, u, hu, ?_⟩
    have hreg : cx.core.reg n = .ok u := hu
    rw [execute_eq_run (u := .move) (by rw [hop]; rfl), ExecUnit.run, Context.move, h, hops]
    simp only [hreg]
    rfl
  all_goals cases ho

end Member

namespace Simulator

variable {sim : Simulator} {acc n : Nat} {view : AccView} {mask : Mask} {l : Lane}

/-- The next word moves a view of an accumulator to a data register, in the lanes of the mask. -/
def Saves (sim : Simulator) (acc : Nat) (view : AccView) (n : Nat) (mask : Mask) : Prop :=
  ∃ idx i m, sim.current? = some (idx, i) ∧ sim.core.mask i.cond = mask ∧ i.Issues m ∧ m.opcode = .mov ∧
    m.instr.operands = [.reg ⟨.general, n⟩, .accView acc view]

/-- The next word moves a data register to a view of an accumulator, in the lanes of the mask. -/
def Restores (sim : Simulator) (acc : Nat) (view : AccView) (n : Nat) (mask : Mask) : Prop :=
  ∃ idx i m, sim.current? = some (idx, i) ∧ sim.core.mask i.cond = mask ∧ i.Issues m ∧ m.opcode = .mov ∧
    m.instr.operands = [.accView acc view, .reg ⟨.general, n⟩]

section Move

variable {idx : Nat} {i : Instruction} {m : Member} (hcurrent : sim.current? = some (idx, i)) (hi : i.Issues m)
  (hop : m.opcode = .mov) {w : Write}
  (hfx : m.execute ⟨sim.core, sim.mem, sim.program, sim.core.mask i.cond⟩ = .ok (.ofWrites [w]))

include hcurrent hi hop hfx

theorem writes_of_mov : sim.writes = [w] := by
  rcases hi.alone_or_bundled with ⟨sel, hs, hmembers, -⟩ | ⟨sel, -, -, -, hbundled, hcoded⟩
  · rw [writes_of_current? hcurrent, fst_effects, execute_of_selected hi.structured hs, hmembers, executeMembers, hfx]
    rfl
  · have hmem := hbundled.opcode_mem hcoded
    rw [hop] at hmem
    exact absurd hmem (by decide)

theorem read_step_of_mov {c : Cell} (hc : w.Hits c) : c.read sim.step.core sim.step.mem =
    c.read (sim.core.apply (sim.core.mask i.cond) w) (sim.mem.apply (sim.core.mask i.cond) w) :=
  read_step_of_hits hcurrent hi (by rw [hop]; rfl) hfx ⟨w, List.mem_singleton_self w, hc⟩

end Move

/-- The register has the view, in the lanes of the mask; the word writes nothing else. -/
theorem Saves.step (h : sim.Saves acc view n mask) : (∀ w ∈ sim.writes, ∃ v, w = .reg n v) ∧
    ∃ u old, sim.core.acc acc = .ok u ∧ sim.core.reg n = .ok old ∧
      sim.step.core.reg n = .ok (Lanes.merge mask old (u.map (Core.viewOf view))) := by
  obtain ⟨idx, i, m, hcurrent, rfl, hi, hop, hops⟩ := h
  obtain ⟨hn, u, hu, hfx⟩ := hi.fit.execute_of_save hop hops ⟨sim.core, sim.mem, sim.program, sim.core.mask i.cond⟩
  obtain ⟨old, hold⟩ := Core.fetch_of_lt sim.core.regs hn
  have hold : sim.core.reg n = .ok old := hold
  refine ⟨fun w hw => ?_, u, old, hu, hold, ?_⟩
  · rw [writes_of_mov hcurrent hi hop hfx, List.mem_singleton] at hw
    exact ⟨_, hw⟩
  · refine (read_step_of_mov hcurrent hi hop hfx (c := .reg n) rfl).trans ((Cell.reg_apply _ _ _ n).trans ?_)
    have hfits : (u.map (Core.viewOf view)).map (wrap dataBits) = u.map (Core.viewOf view) := Lanes.ext fun k => by
      simp only [Lanes.map_apply]
      exact (wrap_eq_self_iff (by decide) _).2 (view.fits_viewOf _)
    dsimp only
    rw [if_pos rfl, hold, hfits]
    rfl

/-- The accumulator has its view replaced, in the lanes of the mask; the word writes nothing else. -/
theorem Restores.step (h : sim.Restores acc view n mask) : (∀ w ∈ sim.writes, ∃ v, w = .accView acc view v) ∧
    ∃ u old, sim.core.reg n = .ok u ∧ sim.core.acc acc = .ok old ∧
      sim.step.core.acc acc = .ok (Lanes.merge mask old (Lanes.zipWith (Core.putView view) old u)) := by
  obtain ⟨idx, i, m, hcurrent, rfl, hi, hop, hops⟩ := h
  obtain ⟨hacc, u, hu, hfx⟩ := hi.fit.execute_of_restore hop hops ⟨sim.core, sim.mem, sim.program, sim.core.mask i.cond⟩
  obtain ⟨old, hold⟩ := Core.fetch_of_lt sim.core.accs hacc
  have hold : sim.core.acc acc = .ok old := hold
  refine ⟨fun w hw => ?_, u, old, hu, hold, ?_⟩
  · rw [writes_of_mov hcurrent hi hop hfx, List.mem_singleton] at hw
    exact ⟨_, hw⟩
  · refine (read_step_of_mov hcurrent hi hop hfx (c := .acc acc) rfl).trans ((Cell.acc_apply _ _ _ acc).trans ?_)
    dsimp only
    rw [if_pos rfl, hold]
    rfl

/-! ### Runs -/

/-- At these steps of a run, the views of an accumulator are moved to three registers, and then from there to the views
of another accumulator, which may be the same one; a lane takes part in all the moves. Other words do not write the
first accumulator while it is still to be moved, a register while it holds a view, or the second accumulator while it
has some of its views. -/
structure SavesViews (sim : Simulator) (a b : Nat) (l : Lane) (reg save restore : AccView → Nat)
    (last : Nat) : Prop where
  distinct : Function.Injective reg
  apart : Function.Injective restore
  order : ∀ v w, save v < restore w
  ends : ∀ v, restore v < last
  saves : ∀ v, ∃ mask, (step^[save v] sim).Saves a v (reg v) mask ∧ mask l = true
  restores : ∀ v, ∃ mask, (step^[restore v] sim).Restores b v (reg v) mask ∧ mask l = true
  keepsFirst : ∀ v t, t < save v → (∀ w, t ≠ save w ∧ t ≠ restore w) → ¬(step^[t] sim).WritesCell (.acc a)
  keepsReg : ∀ v t, save v < t → t < restore v → (∀ w, t ≠ save w ∧ t ≠ restore w) → ¬(step^[t] sim).WritesReg (reg v)
  keepsSecond : ∀ v t, restore v < t → t < last → (∀ w, t ≠ save w ∧ t ≠ restore w) →
    ¬(step^[t] sim).WritesCell (.acc b)

namespace SavesViews

variable {a b last : Nat} {reg save restore : AccView → Nat} {x : Int} (h : sim.SavesViews a b l reg save restore last)

include h

theorem holds_save (hx : sim.core.Holds a l x) (v : AccView) : (step^[save v] sim).core.Holds a l x := by
  have hkept : (step^[save v] sim).core.acc a = sim.core.acc a :=
    read_iterate (c := .acc a) rfl (Nat.zero_le (save v)) fun t _ hlt => by
      by_cases hsave : ∃ w, t = save w
      · rintro ⟨w', hw', hhits⟩
        obtain ⟨w, rfl⟩ := hsave
        obtain ⟨mask, hmove, -⟩ := h.saves w
        obtain ⟨u, rfl⟩ := hmove.step.1 w' hw'
        exact hhits
      · refine h.keepsFirst v t hlt fun w => ⟨fun hw => hsave ⟨w, hw⟩, fun hw => ?_⟩
        have hlater := h.order v w
        omega
  obtain ⟨u, hu, hul⟩ := hx
  exact ⟨u, hkept.trans hu, hul⟩

theorem gives_restore (hx : sim.core.Holds a l x) (v : AccView) :
    (step^[restore v] sim).core.Gives (.reg ⟨.general, reg v⟩) l (Core.viewOf v x) := by
  obtain ⟨mask, hmove, hl⟩ := h.saves v
  obtain ⟨-, u, old, hu, -, hreg⟩ := hmove.step
  obtain ⟨u', hu', rfl⟩ := h.holds_save hx v
  cases hu.symm.trans hu'
  rw [← Function.iterate_succ_apply' step] at hreg
  have hkept : (step^[restore v] sim).core.reg (reg v) = (step^[save v + 1] sim).core.reg (reg v) :=
    reg_iterate (Nat.succ_le_of_lt (h.order v v)) fun t hlow hhigh => by
      by_cases hsave : ∃ w, t = save w
      · rintro ⟨w', hw', hhits⟩
        obtain ⟨w, rfl⟩ := hsave
        obtain ⟨mask', hmove', -⟩ := h.saves w
        obtain ⟨u', rfl⟩ := hmove'.step.1 w' hw'
        -- the word moves another view, to another register
        obtain rfl := h.distinct hhits
        exact absurd hlow (Nat.lt_irrefl _)
      · by_cases hrestore : ∃ w, t = restore w
        · rintro ⟨w', hw', hhits⟩
          obtain ⟨w, rfl⟩ := hrestore
          obtain ⟨mask', hmove', -⟩ := h.restores w
          obtain ⟨u', rfl⟩ := hmove'.step.1 w' hw'
          exact hhits
        · exact h.keepsReg v t hlow hhigh fun w => ⟨fun hw => hsave ⟨w, hw⟩, fun hw => hrestore ⟨w, hw⟩⟩
  refine ⟨_, hkept.trans hreg, ?_⟩
  rw [Lanes.merge_apply, if_pos hl, Lanes.map_apply]

theorem bits_of_lt (hx : sim.core.Holds a l x) (v : AccView) {t : Nat} (hlow : restore v + 1 ≤ t) (hhigh : t ≤ last) :
    ∃ y, (step^[t] sim).core.Holds b l y ∧ Fits 32 y ∧ v.bits y = v.bits x := by
  induction t, hlow using Nat.le_induction with
  | base =>
    obtain ⟨mask, hmove, hl⟩ := h.restores v
    obtain ⟨-, u, old, hu, -, hacc⟩ := hmove.step
    have hul : u l = Core.viewOf v x := Lanes.eq_of_read ⟨u, hu, rfl⟩ (h.gives_restore hx v)
    rw [← Function.iterate_succ_apply' step] at hacc
    refine ⟨_, ⟨_, hacc, rfl⟩, ?_⟩
    rw [Lanes.merge_apply, if_pos hl, Lanes.zipWith_apply, hul]
    exact ⟨v.fits_putView _ _, by rw [AccView.bits_putView, if_pos rfl, AccView.lowBits_viewOf]⟩
  | succ t hlow ih =>
    obtain ⟨y, hy, hfits, hbits⟩ := ih (Nat.le_of_succ_le hhigh)
    rw [Function.iterate_succ_apply']
    by_cases hrestore : ∃ w, t = restore w
    · obtain ⟨w, rfl⟩ := hrestore
      obtain ⟨mask, hmove, hl⟩ := h.restores w
      obtain ⟨-, u, old, -, hold, hacc⟩ := hmove.step
      have hne : w ≠ v := by
        rintro rfl
        exact absurd hlow (Nat.lt_irrefl _)
      have holdl : old l = y := Lanes.eq_of_read ⟨old, hold, rfl⟩ hy
      refine ⟨_, ⟨_, hacc, rfl⟩, ?_⟩
      rw [Lanes.merge_apply, if_pos hl, Lanes.zipWith_apply, holdl]
      exact ⟨w.fits_putView _ _, by rw [AccView.bits_putView, if_neg hne, hbits]⟩
    · have hkept : (step^[t] sim).step.core.acc b = (step^[t] sim).core.acc b :=
        read_step_of_not_writes (c := .acc b) rfl (h.keepsSecond v t hlow hhigh fun w =>
          ⟨fun hw => by have hlater := h.order w v; omega, fun hw => hrestore ⟨w, hw⟩⟩)
      obtain ⟨u, hu, hul⟩ := hy
      exact ⟨y, ⟨u, hkept.trans hu, hul⟩, hfits, hbits⟩

end SavesViews

/-- Views are lossless. A value of 32 bits that is moved to three registers view by view, and from there to the views of
an accumulator in any order, stands there again in each lane that takes part in all the moves. A move to one view
changes no bits of the others, and nothing in a lane that takes no part. -/
theorem views_lossless (sim : Simulator) :
    (∀ a b l reg save restore last x, sim.SavesViews a b l reg save restore last → sim.core.Holds a l x → Fits 32 x →
      (step^[last] sim).core.Holds b l x) ∧
    ∀ acc view n mask, sim.Restores acc view n mask → ∃ old new, sim.core.acc acc = .ok old ∧
      sim.step.core.acc acc = .ok new ∧ ∀ l, (mask l = false → new l = old l) ∧
        ∀ other ≠ view, other.bits (new l) = other.bits (old l) := by
  refine ⟨fun a b l reg save restore last x h hx hfits => ?_, fun acc view n mask h => ?_⟩
  · obtain ⟨y, hy, hfits', -⟩ := h.bits_of_lt hx .high (h.ends .high) le_rfl
    obtain rfl : y = x := AccView.eq_of_bits hfits' hfits fun v => by
      obtain ⟨y', hy', -, hbits⟩ := h.bits_of_lt hx v (h.ends v) le_rfl
      rw [← hbits, Lanes.eq_of_read hy hy']
    exact hy
  · obtain ⟨-, u, old, -, hold, hacc⟩ := h.step
    refine ⟨old, _, hold, hacc, fun l => ⟨fun hl => ?_, fun other hne => ?_⟩⟩
    · rw [Lanes.merge_apply, if_neg (by rw [hl]; decide)]
    · rw [Lanes.merge_apply]
      split
      · rw [Lanes.zipWith_apply, AccView.bits_putView, if_neg hne.symm]
      · rfl

/-- The views of an accumulator, saved from the top and restored in another order. -/
def viewWords : Program :=
  ([{ line := 1, opcode := .mov, operands := [.reg ⟨.general, 0⟩, .accView 0 .high] },
    { line := 2, opcode := .mov, operands := [.reg ⟨.general, 1⟩, .accView 0 .mid] },
    { line := 3, opcode := .mov, operands := [.reg ⟨.general, 2⟩, .accView 0 .low] },
    { line := 4, opcode := .mov, operands := [.accView 1 .low, .reg ⟨.general, 2⟩] },
    { line := 5, opcode := .mov, operands := [.accView 1 .high, .reg ⟨.general, 0⟩] },
    { line := 6, opcode := .mov, operands := [.accView 1 .mid, .reg ⟨.general, 1⟩] }].foldl
      Builder.push (Builder.origin 0)).program

def viewed : Simulator :=
  let sim := load viewWords {}
  { sim with core := sim.core.setAcc 0 (Lanes.fill (-123456789)) Mask.all }

def restoredAt : AccView → Nat
  | .high => 4 | .mid => 5 | .low => 3

theorem views_lossless_viewed : viewed.SavesViews 0 1 2 AccView.code AccView.code restoredAt 6 ∧
    (step^[6] viewed).core.Holds 1 2 (-123456789) ∧ ∃ old new, (step^[3] viewed).core.acc 1 = .ok old ∧
      (step^[4] viewed).core.acc 1 = .ok new ∧ AccView.mid.bits (new 2) = AccView.mid.bits (old 2) := by
  have hmoves : ∀ t < 6, ∃ v : AccView, t = v.code ∨ t = restoredAt v := by
    intro t ht
    interval_cases t
    exacts [⟨.high, .inl rfl⟩, ⟨.mid, .inl rfl⟩, ⟨.low, .inl rfl⟩, ⟨.low, .inr rfl⟩, ⟨.high, .inr rfl⟩,
      ⟨.mid, .inr rfl⟩]
  have hnone {t : Nat} (ht : t < 6) (hother : ∀ v : AccView, t ≠ v.code ∧ t ≠ restoredAt v) : False := by
    obtain ⟨v, hv⟩ := hmoves t ht
    exact hv.elim (hother v).1 (hother v).2
  have hcode (v : AccView) : v.code < 3 := by cases v <;> decide
  have hrestored (v : AccView) : 3 ≤ restoredAt v ∧ restoredAt v < 6 := by cases v <;> decide
  have hviews : viewed.SavesViews 0 1 2 AccView.code AccView.code restoredAt 6 := by
    refine ⟨?_, ?_, fun v w => Nat.lt_of_lt_of_le (hcode v) (hrestored w).1, fun v => (hrestored v).2, fun v => ?_,
      fun v => ?_, fun v t ht hother => ?_, fun v t _ ht hother => ?_, fun v t _ ht hother => ?_⟩
    · intro v w hvw
      cases v <;> cases w <;> first | rfl | cases hvw
    · intro v w hvw
      cases v <;> cases w <;> first | rfl | cases hvw
    · cases v <;> exact ⟨Mask.all, ⟨_, _, _, rfl, rfl, ⟨rfl, _, rfl, List.mem_singleton_self _⟩, rfl, rfl⟩, rfl⟩
    · cases v <;> exact ⟨Mask.all, ⟨_, _, _, rfl, rfl, ⟨rfl, _, rfl, List.mem_singleton_self _⟩, rfl, rfl⟩, rfl⟩
    · exact (hnone (ht.trans ((hcode v).trans (by decide))) hother).elim
    · exact (hnone (ht.trans (hrestored v).2) hother).elim
    · exact (hnone ht hother).elim
  obtain ⟨mask, hmove, -⟩ := hviews.restores .low
  obtain ⟨old, new, hold, hnew, hkept⟩ := (views_lossless (step^[3] viewed)).2 1 .low 2 mask hmove
  exact ⟨hviews, (views_lossless viewed).1 0 1 2 _ _ _ 6 _ hviews ⟨_, rfl, rfl⟩ (by decide), old, new, hold, hnew,
    (hkept 2).2 .mid (by decide)⟩

end Simulator

end QuadDsp
