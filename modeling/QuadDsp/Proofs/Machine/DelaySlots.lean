import QuadDsp.Proofs.Machine.Stepping

/-! # Delay slots

With delay slots a branch that is taken waits for the word behind it, its delay slot, and then goes on at its
target (`Simulator.HandsOver`). Two things come between: the branch may itself be the delay slot of a branch that is
due, or the last word of a loop that goes round. Both lead elsewhere than to the word behind, and the target goes on
waiting there (`Simulator.Diverts`). In a run without such a step every branch hands over to its delay slot, and in
no other run (`Simulator.onTime_iff`). -/

namespace QuadDsp

theorem Flow.isBranch_of_follow {s : Core} {addr t : Nat} {delaySlots : Bool} {f : Flow}
    (h : (s.follow addr delaySlots f).2 = some t) : f.opcode.isBranch = true := by
  cases f with
  | jump | call | ret => rfl
  | popStatus =>
    unfold Core.follow at h
    dsimp only at h
    split at h <;> cases h
  | loop | pushStatus | reset => cases h

namespace Controller

variable {c : Controller} {i : Instruction} {t : Nat}

theorem transfer_of_taken (h : c.delaySlots = true) :
    c.transfer i (some t) = (if i.inDelaySlot then c.pending else none, some t) := by
  unfold transfer
  cases i.inDelaySlot <;> simp [h]

end Controller

namespace Simulator

variable {sim : Simulator} {p : Program} {config : Config} {idx n t : Nat} {i : Instruction}

theorem isBranch_of_taken (h : sim.taken i = some t) : i.opcode.isBranch = true ∧ sim.asked i ≠ some .reset := by
  cases hasked : sim.asked i with
  | none => rw [taken, hasked] at h; cases h
  | some f =>
    rw [taken_of_asked hasked] at h
    refine ⟨by rw [opcode_of_asked hasked, Flow.isBranch_of_follow h], ?_⟩
    rintro ⟨⟩
    cases h

/-- The next word is a branch that takes the target `t` and hands over to its delay slot: the word behind it comes
next, if there is one, marked as a delay slot, and behind that the program goes on at the target. By then the target
waits no longer. -/
structure HandsOver (sim : Simulator) (t : Nat) : Prop where
  branch : ∃ idx i, sim.current? = some (idx, i) ∧ i.opcode.isBranch = true ∧ sim.taken i = some t ∧
    sim.step.pc = sim.program.nextWord? idx
  slot : ∀ slot j, sim.step.current? = some (slot, j) → j.inDelaySlot = true ∧
    sim.step.step.pc = (sim.step.program.indexOf? t <|> sim.step.program.nextWord? slot) ∧
    sim.step.step.controller.pending = sim.step.taken j

/-- The next word is a branch that is taken, and the program does not go on behind it: an earlier branch is due, or a
loop goes round. -/
def Diverts (sim : Simulator) : Prop :=
  ∃ idx i t target place, sim.current? = some (idx, i) ∧ sim.taken i = some t ∧
    (i.inDelaySlot = true ∧ sim.controller.pending = some target ∨ sim.rounds i = some target) ∧
    sim.program.indexOf? target = some place ∧ sim.program.nextWord? idx ≠ some place

/-- A target that waits is due behind the next word. -/
def Poised (sim : Simulator) : Prop :=
  ∀ t idx i, sim.controller.pending = some t → sim.current? = some (idx, i) → i.inDelaySlot = true

theorem pending_step_of_taken (h : sim.controller.delaySlots = true) (hcurrent : sim.current? = some (idx, i))
    (htaken : sim.taken i = some t) : sim.step.controller.pending = some t := by
  rw [pending_step hcurrent, if_neg (isBranch_of_taken htaken).2, htaken, Controller.transfer_of_taken h]

/-- In a delay slot a target that waits is due, and no longer waits. -/
theorem step_of_slot (h : sim.controller.delaySlots = true) (hcurrent : sim.current? = some (idx, i))
    (hslot : i.inDelaySlot = true) (hpending : sim.controller.pending = some t) :
    sim.step.pc = (sim.program.indexOf? t <|> sim.program.nextWord? idx) ∧
      sim.step.controller.pending = sim.taken i := by
  have htransfer : sim.controller.transfer i (sim.taken i) = (some t, sim.taken i) := by
    cases htaken : sim.taken i with
    | none => rw [Controller.transfer_none, if_pos hslot, hpending]
    | some t' => rw [Controller.transfer_of_taken h, if_pos hslot, hpending]
  refine ⟨by rw [pc_step hcurrent, htransfer]; rfl, ?_⟩
  rw [pending_step hcurrent, htransfer]
  split
  · next hreset =>
    rw [taken_of_asked hreset]
    rfl
  · rfl

theorem pc_step_of_taken (h : sim.controller.delaySlots = true) (hcurrent : sim.current? = some (idx, i))
    (htaken : sim.taken i = some t) (hnot : ¬sim.Diverts) : sim.step.pc = sim.program.nextWord? idx := by
  rw [pc_step hcurrent, htaken, Controller.transfer_of_taken h]
  dsimp only
  cases hfound : ((if i.inDelaySlot then sim.controller.pending else none) <|> sim.rounds i).bind
      sim.program.indexOf? with
  | none => rfl
  | some place =>
    obtain ⟨target, htarget, hplace⟩ := Option.bind_eq_some_iff.1 hfound
    by_contra hne
    refine hnot ⟨idx, i, t, target, place, hcurrent, htaken, ?_, hplace, Ne.symm hne⟩
    rcases (Option.orElse_eq_some _ _ _).1 htarget with hdue | ⟨-, hagain⟩
    · rw [Option.ite_none_right_eq_some] at hdue
      exact .inl hdue
    · exact .inr hagain

theorem pc_step_of_diverts (h : sim.controller.delaySlots = true) (hdiverts : sim.Diverts) :
    ∃ idx i t, sim.current? = some (idx, i) ∧ sim.taken i = some t ∧ sim.step.pc ≠ sim.program.nextWord? idx := by
  obtain ⟨idx, i, t, target, place, hcurrent, htaken, hwhy, hplace, hne⟩ := hdiverts
  refine ⟨idx, i, t, hcurrent, htaken, fun hpc => hne ?_⟩
  have hdestination : ((sim.controller.transfer i (sim.taken i)).1 <|> sim.rounds i) = some target := by
    rcases hwhy with ⟨hslot, hpending⟩ | hagain
    · rw [htaken, Controller.transfer_of_taken h, if_pos hslot, hpending]
      rfl
    · -- a loop goes round only where no branch is due
      cases hdue : (sim.controller.transfer i (sim.taken i)).1 with
      | none => exact hagain
      | some t' => cases (rounds_of_due hdue).symm.trans hagain
  rw [← hpc, pc_step hcurrent, hdestination, Option.bind_some, hplace]
  rfl

theorem inDelaySlot_of_pc_step (hruns : sim.Runs p config) (hslots : config.delaySlots = true)
    (hcurrent : sim.current? = some (idx, i)) (hbranch : i.opcode.isBranch = true)
    (hpc : sim.step.pc = sim.program.nextWord? idx) {slot : Nat} {j : Instruction}
    (hnext : sim.step.current? = some (slot, j)) : j.inDelaySlot = true := by
  obtain ⟨hi, hword⟩ := hruns.word hcurrent
  obtain ⟨hslot, hj⟩ := current?_eq_some_iff.1 hnext
  rw [step_of_current? hcurrent] at hj
  obtain ⟨j', hj', hran⟩ := (sim.ran_stepAt idx i).exists_instr hj
  rw [hran]
  dsimp only
  rw [hruns.slotsMarked.nextWord? hi hword (hpc.symm.trans hslot) hj', hslots, hbranch]
  rfl

theorem handsOver_of_taken (hruns : sim.Runs p config) (hslots : config.delaySlots = true)
    (hcurrent : sim.current? = some (idx, i)) (htaken : sim.taken i = some t) (hnot : ¬sim.Diverts) :
    sim.HandsOver t := by
  have hbranch := (isBranch_of_taken htaken).1
  have hpc := pc_step_of_taken (hruns.delaySlots.trans hslots) hcurrent htaken hnot
  refine ⟨⟨idx, i, hcurrent, hbranch, htaken, hpc⟩, fun slot j hnext => ?_⟩
  have hmarked := inDelaySlot_of_pc_step hruns hslots hcurrent hbranch hpc hnext
  refine ⟨hmarked, step_of_slot (hruns.step.delaySlots.trans hslots) hnext hmarked ?_⟩
  exact pending_step_of_taken (hruns.delaySlots.trans hslots) hcurrent htaken

/-- In a step that is not diverted only a branch that is taken leaves a target that waits. -/
theorem Poised.handsOver (hruns : sim.Runs p config) (hslots : config.delaySlots = true) (hpoised : sim.Poised)
    (hcurrent : sim.current? = some (idx, i)) (hnot : ¬sim.Diverts) (hpending : sim.step.controller.pending = some t) :
    sim.HandsOver t := by
  cases htaken : sim.taken i with
  | some t' =>
    rw [pending_step_of_taken (hruns.delaySlots.trans hslots) hcurrent htaken] at hpending
    cases hpending
    exact handsOver_of_taken hruns hslots hcurrent htaken hnot
  | none =>
    -- a target that waited before was due here
    rw [pending_step hcurrent, htaken, Controller.transfer_none] at hpending
    split at hpending
    · cases hpending
    · split at hpending
      · cases hpending
      · next hslot => exact absurd (hpoised t idx i hpending hcurrent) hslot

theorem HandsOver.poised_step (h : sim.HandsOver t) : sim.step.Poised :=
  fun _ slot j _ hnext => (h.slot slot j hnext).1

/-- A target waits right behind the branch that has taken it, which hands over to its delay slot; no word has been
executed since. -/
def OnTime (sim : Simulator) (k : Nat) : Prop :=
  ∀ t, (step^[k] sim).controller.pending = some t → ∃ j < k, (step^[j] sim).HandsOver t ∧
    ∀ m, j < m → m < k → (step^[m] sim).current? = none

/-- Up to the first branch that is diverted, all targets are on time. -/
theorem onTime_of_not_diverts (hruns : sim.Runs p config) (hslots : config.delaySlots = true)
    (hstart : sim.controller.pending = none) {k : Nat} (hnot : ∀ j < k, ¬(step^[j] sim).Diverts) :
    (step^[k] sim).Poised ∧ sim.OnTime k := by
  induction k with
  | zero =>
    have hnone (t : Nat) : sim.controller.pending ≠ some t := by rw [hstart]; nofun
    exact ⟨fun t _ _ h => absurd h (hnone t), fun t h => absurd h (hnone t)⟩
  | succ k ih =>
    obtain ⟨hpoised, hontime⟩ := ih fun j hj => hnot j (Nat.lt_succ_of_lt hj)
    cases hcurrent : (step^[k] sim).current? with
    | none =>
      -- the program has ended, and nothing changes
      have hstep : step^[k + 1] sim = step^[k] sim := by
        rw [Function.iterate_succ_apply', step_of_none hcurrent]
      refine ⟨hstep ▸ hpoised, fun t ht => ?_⟩
      rw [hstep] at ht
      obtain ⟨j, hj, hhands, hsince⟩ := hontime t ht
      refine ⟨j, Nat.lt_succ_of_lt hj, hhands, fun m hm hmk => ?_⟩
      rcases Nat.lt_succ_iff_lt_or_eq.1 hmk with hlt | rfl
      · exact hsince m hm hlt
      · exact hcurrent
    | some current =>
      have hhands (t : Nat) (ht : (step^[k + 1] sim).controller.pending = some t) : (step^[k] sim).HandsOver t := by
        rw [Function.iterate_succ_apply'] at ht
        exact hpoised.handsOver (hruns.iterate k) hslots hcurrent (hnot k k.lt_succ_self) ht
      refine ⟨fun t idx i ht hnext => ?_, fun t ht => ⟨k, k.lt_succ_self, hhands t ht, fun m hm hmk => by omega⟩⟩
      have hposed := (hhands t ht).poised_step
      rw [← Function.iterate_succ_apply' step] at hposed
      exact hposed t idx i ht hnext

/-- From any state of a program in which no target waits: as long as no branch is diverted, and no longer, a target
waits only right behind the branch that has taken it, and only for its delay slot. -/
theorem onTime_iff (hruns : sim.Runs p config) (hslots : config.delaySlots = true)
    (hstart : sim.controller.pending = none) (n : Nat) :
    (∀ k ≤ n, sim.OnTime k) ↔ ∀ k < n, ¬(step^[k] sim).Diverts := by
  constructor
  · intro hontime k hk hdiverts
    have hdelay : (step^[k] sim).controller.delaySlots = true := (hruns.iterate k).delaySlots.trans hslots
    obtain ⟨idx, i, t, hcurrent, htaken, hpc⟩ := pc_step_of_diverts hdelay hdiverts
    have hpending := pending_step_of_taken hdelay hcurrent htaken
    rw [← Function.iterate_succ_apply' step] at hpending
    obtain ⟨j, hj, hhands, hsince⟩ := hontime (k + 1) hk t hpending
    rcases Nat.lt_succ_iff_lt_or_eq.1 hj with hlt | rfl
    · -- the diverted branch has been executed since
      cases hcurrent.symm.trans (hsince k hlt k.lt_succ_self)
    · obtain ⟨idx', i', hcurrent', -, -, hpc'⟩ := hhands.branch
      cases hcurrent.symm.trans hcurrent'
      exact hpc hpc'
  · exact fun hnot k hk => (onTime_of_not_diverts hruns hslots hstart fun j hj => hnot j (Nat.lt_of_lt_of_le hj hk)).2

/-- A loop of two rounds whose only word is a branch. -/
def loopedJump : Program :=
  { instrs :=
      [{ line := 1, opcode := .ld, operands := [.sys .counter, .imm 2] },
        { line := 2, opcode := .loop, address := 1, operands := [.target (.abs 2), .cond .ce] },
        { line := 3, opcode := .jump, address := 2, operands := [.target (.abs 4)] },
        { line := 4, opcode := .idle, address := 3 },
        { line := 5, opcode := .idle, address := 4 }] }

/-- In the first round the loop goes round between the branch and its delay slot. -/
theorem onTime_iff_loopedJump :
    let sim := load loopedJump { delaySlots := true }
    sim.Runs loopedJump { delaySlots := true } ∧ sim.controller.pending = none ∧ ¬ ∀ k ≤ 3, sim.OnTime k := by
  intro sim
  have hruns : sim.Runs loopedJump { delaySlots := true } := .of_reachable .load
  have hdiverts : (step^[2] sim).Diverts := ⟨2, _, 4, 2, 2, rfl, rfl, .inr rfl, rfl, by decide⟩
  exact ⟨hruns, rfl, fun hontime => (onTime_iff hruns rfl rfl 3).1 hontime 2 (by decide) hdiverts⟩

end Simulator

end QuadDsp
