import QuadDsp.Proofs.Machine.Latching
import QuadDsp.Proofs.Machine.Statuses

/-! # Sticky flags

A RESET and a POP put the flags as a whole (`Simulator.ReplacesStatus`); every other word changes them by its writes
alone, in the lanes in which it is active. So a sticky flag is set behind a word where it was in front of it or where
the word commits the overflow that it latches (`Simulator.sticky_step_iff`), and at the end of a run it tells whether
some word has committed one since (`Simulator.latched`). -/

namespace QuadDsp

namespace Simulator

variable {sim : Simulator} {idx : Nat} {i : Instruction} {o : Overflow} {l : Lane} {bank : Bank}

/-- The next word puts all flags anew: it is a RESET that takes place, or a POP that does. -/
def ReplacesStatus (sim : Simulator) : Prop := sim.Resets ∨ ∃ addr, sim.AsksAt addr .popStatus

/-- The next word is active in a lane and sets the flag of an overflow in a bank there. -/
def Commits (sim : Simulator) (o : Overflow) (l : Lane) (bank : Bank) : Prop :=
  ∃ idx i, sim.current? = some (idx, i) ∧ sim.core.holds i.cond l = true ∧ ∃ w ∈ sim.writes, w.Tells o l bank

theorem commits_iff (h : sim.current? = some (idx, i)) :
    sim.Commits o l bank ↔ sim.core.mask i.cond l = true ∧ ∃ w ∈ sim.writes, w.Tells o l bank := by
  rw [Core.mask_apply]
  constructor
  · rintro ⟨idx', i', hcurrent, hboth⟩
    cases h.symm.trans hcurrent
    exact hboth
  · exact fun hboth => ⟨idx, i, h, hboth⟩

/-- Every write of a word is a write of an operation that leaves sticky flags to the latch. -/
theorem exists_member_of_mem_writes (h : sim.current? = some (idx, i)) {w : Write} (hw : w ∈ sim.writes) :
    ∃ m fx, i.Issues m ∧ m.execute ⟨sim.core, sim.mem, sim.program, sim.core.mask i.cond⟩ = .ok fx ∧ fx.Latches ∧
      w ∈ fx.writes := by
  rw [writes_of_current? h, fst_effects] at hw
  cases hexecute : execute sim.core sim.mem sim.program i with
  | error e => rw [hexecute] at hw; cases hw
  | ok fx =>
    rw [hexecute] at hw
    obtain ⟨m, fx', hi, -, hfx', hw⟩ := exists_member_of_write hexecute hw
    exact ⟨m, fx', hi, hfx', Member.latches_of_execute hi.fit hfx', hw⟩

theorem committed_eq_foldl (sim : Simulator) (i : Instruction) :
    (sim.committed i).1 =
      (effects sim.core sim.mem sim.program i).1.writes.foldl (·.apply (sim.core.mask i.cond) ·) sim.core := by
  rw [committed, fst_effects]
  cases hexecute : execute sim.core sim.mem sim.program i with
  | error e => rfl
  | ok fx =>
    rw [← mask_of_execute hexecute]
    rfl

theorem flags_step_of_not_replaces (h : sim.current? = some (idx, i)) (hnot : ¬sim.ReplacesStatus) :
    sim.step.core.flags = (sim.writes.foldl (·.apply (sim.core.mask i.cond) ·) sim.core).flags := by
  rw [writes_of_current? h]
  cases hasked : sim.asked i with
  | none =>
    obtain ⟨loops, counter, hrounded⟩ := sim.controller.exists_rounded (sim.committed i).1 sim.program i (sim.asked i)
    rw [(core_step h).trans hrounded, followed_of_asked_none hasked, committed_eq_foldl]
  | some f =>
    have hstatus := (status_step_of_asked h hasked).2
    rw [writes_of_asked hasked, List.foldl_nil]
    refine congrArg (·.flags) (hstatus.trans (?_ : _ = sim.core.status))
    cases f with
    | reset => exact absurd (.inl (resets_of_flow h hasked)) hnot
    | popStatus => exact absurd (.inr ⟨_, idx, i, h, rfl, hasked⟩) hnot
    | jump | call | ret | loop | pushStatus => rfl

/-- Behind a word a sticky flag is set where it was, or where the word commits the overflow that it latches. -/
theorem sticky_step_iff (hnot : ¬sim.ReplacesStatus) :
    o.sticky ((sim.step.core.flags l).get bank) = true ↔
      o.sticky ((sim.core.flags l).get bank) = true ∨ sim.Commits o l bank := by
  cases hcurrent : sim.current? with
  | none =>
    rw [step_of_none hcurrent]
    refine (or_iff_left ?_).symm
    rintro ⟨idx, i, h, -⟩
    cases hcurrent.symm.trans h
  | some current =>
    obtain ⟨idx, i⟩ := current
    have hlatches : ∀ w ∈ sim.writes, w.Latches := fun w hw =>
      let ⟨_, _, _, _, hfx, hmem⟩ := exists_member_of_mem_writes hcurrent hw
      hfx.writes w hmem
    rw [flags_step_of_not_replaces hcurrent hnot, o.sticky_foldl_apply_iff hlatches, commits_iff hcurrent]

/-- At the end of a run a sticky flag is set where it was at its start, or where some word has committed the overflow
that it latches. -/
theorem sticky_iterate_iff {n : Nat} (hnot : ∀ k < n, ¬(step^[k] sim).ReplacesStatus) :
    o.sticky (((step^[n] sim).core.flags l).get bank) = true ↔
      o.sticky ((sim.core.flags l).get bank) = true ∨ ∃ k < n, (step^[k] sim).Commits o l bank := by
  induction n with
  | zero => exact (or_iff_left fun h => by simp at h).symm
  | succ n ih =>
    rw [Function.iterate_succ_apply', sticky_step_iff (hnot n n.lt_succ_self),
      ih fun k hk => hnot k (Nat.lt_succ_of_lt hk), or_assoc, Nat.exists_lt_succ_right]

theorem flag_step_of_commits (h : sim.Commits o l bank) : o.flag ((sim.step.core.flags l).get bank) = true := by
  obtain ⟨idx, i, hcurrent, hholds, w, hw, htells⟩ := h
  obtain ⟨m, fx, hi, hrun, hfx, hw⟩ := exists_member_of_mem_writes hcurrent hw
  obtain ⟨group, v, rfl, hgroup, hv⟩ := Write.eq_flags_of_tells htells
  have hasks : m.opcode.asks = false := by
    rcases Member.asks_of_execute hi.fit hrun with ⟨f, -, rfl⟩ | ⟨hasks, -⟩
    · cases hw
    · exact hasks
  have hread := read_step_of_hits hcurrent hi hasks hrun (c := .flag l bank o.place)
    ⟨_, hw, rfl, o.touched_of_flag hgroup (v l)⟩
  rw [hfx.behind_flag o hw hgroup _ _ ((Core.mask_apply _ _ l).trans hholds), hv, Cell.read, o.getElem?_place] at hread
  exact Option.some.inj hread

/-- What sticky flags tell. -/
structure Latched (sim : Simulator) : Prop where
  /-- behind `n` words none of which puts all flags anew -/
  record : ∀ n, (∀ k < n, ¬(step^[k] sim).ReplacesStatus) → ∀ (o : Overflow) (l : Lane) (bank : Bank),
    o.sticky (((step^[n] sim).core.flags l).get bank) = true ↔
      o.sticky ((sim.core.flags l).get bank) = true ∨ ∃ k < n, (step^[k] sim).Commits o l bank
  /-- an overflow that a word commits stands in its flag behind the word -/
  committed : ∀ (o : Overflow) (l : Lane) (bank : Bank), sim.Commits o l bank →
    o.flag ((sim.step.core.flags l).get bank) = true
  /-- no other word clears a sticky flag -/
  cleared : ∀ (o : Overflow) (l : Lane) (bank : Bank), o.sticky ((sim.core.flags l).get bank) = true →
    o.sticky ((sim.step.core.flags l).get bank) = false → sim.ReplacesStatus

/-- Sticky flags record the overflows that words have committed, in every lane and every bank. -/
theorem latched (sim : Simulator) : sim.Latched where
  record _ hnot _ _ _ := sticky_iterate_iff hnot
  committed _ _ _ := flag_step_of_commits
  cleared o l bank hbefore hbehind := by
    by_contra hnot
    exact absurd ((sticky_step_iff hnot).2 (.inl hbefore)) (Bool.eq_false_iff.1 hbehind)

/-- A sum that does not fit and then one that does. -/
def overflowOnce : Program :=
  { instrs :=
      [{ line := 1, opcode := .ld, operands := [.reg ⟨.general, 0⟩, .imm 2047] },
        { line := 2, opcode := .add, address := 1,
          operands := [.reg ⟨.general, 1⟩, .reg ⟨.general, 0⟩, .reg ⟨.general, 0⟩] },
        { line := 3, opcode := .add, address := 2,
          operands := [.reg ⟨.general, 1⟩, .reg ⟨.general, 2⟩, .reg ⟨.general, 2⟩] }] }

/-- Behind the second sum AV is clear, and AVS tells of the first one. -/
theorem latched_overflowOnce :
    let sim := load overflowOnce {}
    (step^[3] sim).core.flags 3 = { real := { zero := true, stickyOverflow := true } } ∧
      ∃ k < 3, (step^[k] sim).Commits .sum 3 .real := by
  intro sim
  have hflags : (step^[3] sim).core.flags 3 = { real := { zero := true, stickyOverflow := true } } := by decide
  have hnot : ∀ k < 3, ¬(step^[k] sim).ReplacesStatus := by
    intro k hk
    obtain rfl | rfl | rfl : k = 0 ∨ k = 1 ∨ k = 2 := by omega
    all_goals
      rintro (⟨idx, i, hcurrent, hop, -⟩ | ⟨addr, idx, i, hcurrent, -, hasked⟩)
      · cases hcurrent
        cases hop
      · cases hcurrent
        cases opcode_of_asked hasked
  refine ⟨hflags, ((sim.latched.record 3 hnot .sum 3 .real).1 ?_).resolve_left ?_⟩
  · rw [hflags]
    rfl
  · decide

end Simulator

end QuadDsp
