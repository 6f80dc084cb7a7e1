import QuadDsp.Proofs.Machine.LaneStep
import QuadDsp.Proofs.Program.Layout

/-! # One step of the sequencer

What a step does besides the writes of its word is decided by what the word asks of the sequencer
(`Simulator.asked`): the target it takes, the stacks it pushes and pops, and where the program goes on. A simulator
that runs a program (`Simulator.Runs`) may be in any state; its words stand where the program has them, and are
marked as delay slots as they were when it was resolved. -/

namespace QuadDsp

namespace Controller

variable (c : Controller) (s : Core) (p : Program) (i : Instruction) (flow : Option Flow)

theorem calls_rounded : (c.rounded s p i flow).1.calls = (c.followed s i flow).1.calls := by
  obtain ⟨loops, counter, hrounded⟩ := c.exists_rounded s p i flow
  rw [hrounded]

/-- Where nothing is taken, a target that waits is due in a delay slot and goes on waiting elsewhere. -/
theorem transfer_none : c.transfer i none = if i.inDelaySlot then (c.pending, none) else (none, c.pending) := by
  unfold transfer
  cases i.inDelaySlot <;> rfl

end Controller

namespace Simulator

/-- What a word asks of the sequencer. -/
def asked (sim : Simulator) (i : Instruction) : Option Flow := (effects sim.core sim.mem sim.program i).1.flow

/-- The target of the branch that a word takes. -/
def taken (sim : Simulator) (i : Instruction) : Option Nat :=
  (sim.controller.followed (sim.committed i).1 i (sim.asked i)).2

/-- The first word of the loop that goes round behind a word, if one does. -/
def rounds (sim : Simulator) (i : Instruction) : Option Nat :=
  (sim.controller.rounded (sim.committed i).1 sim.program i (sim.asked i)).2

/-- In some state on the way through a program, in front of one of its words or behind its end. -/
structure Runs (p : Program) (config : Config) (sim : Simulator) : Prop where
  ran : (p.resolve config.delaySlots).1.Ran sim.program
  delaySlots : sim.controller.delaySlots = config.delaySlots
  isWord : ∀ idx, sim.pc = some idx → sim.program.IsWord idx

variable {sim : Simulator} {idx : Nat} {i : Instruction}

/-- The program goes on where a branch is due, or else where a loop goes round, or else behind the word. -/
theorem pc_step (h : sim.current? = some (idx, i)) :
    sim.step.pc = (((sim.controller.transfer i (sim.taken i)).1 <|> sim.rounds i).bind sim.program.indexOf? <|>
      sim.program.nextWord? idx) := by
  rw [step_of_current? h]
  exact Controller.next_advance ..

theorem rounds_of_due {t : Nat} (h : (sim.controller.transfer i (sim.taken i)).1 = some t) : sim.rounds i = none := by
  have hdue : (sim.controller.transfer i (sim.controller.followed (sim.committed i).1 i (sim.asked i)).2).1 =
      some t := h
  rw [rounds, Controller.rounded, hdue]
  rfl

theorem pending_step (h : sim.current? = some (idx, i)) :
    sim.step.controller.pending =
      if sim.asked i = some .reset then none else (sim.controller.transfer i (sim.taken i)).2 := by
  rw [step_of_current? h, stepAt_eq, advanced, Controller.advance_eq]
  rfl

/-- A target is reported that is due, or to which a loop goes round, and that is without a word. -/
theorem missing_advanced (sim : Simulator) (idx : Nat) (i : Instruction) :
    (sim.advanced idx i).2.2.missing =
      let target := (sim.controller.transfer i (sim.taken i)).1 <|> sim.rounds i
      if (target.bind sim.program.indexOf?).isSome then none else target := by
  rw [advanced, Controller.advance_eq]
  rfl

theorem delaySlots_step (sim : Simulator) : sim.step.controller.delaySlots = sim.controller.delaySlots := by
  cases hcurrent : sim.current? with
  | none => rw [step_of_none hcurrent]
  | some current =>
    rw [step_of_current? hcurrent, stepAt_eq, advanced, Controller.advance_eq]

theorem sequencing_committed (sim : Simulator) (i : Instruction) :
    (sim.committed i).1.sequencing = sim.core.sequencing :=
  sim.core.sequencing_commit sim.mem _

theorem calls_committed (sim : Simulator) (i : Instruction) : (sim.committed i).1.calls = sim.core.calls :=
  congrArg (·.1) (sim.sequencing_committed i)

theorem execute_of_asked {f : Flow} (hasked : sim.asked i = some f) :
    ∃ fx, execute sim.core sim.mem sim.program i = .ok fx ∧ fx.flow = some f :=
  execute_of_flow hasked

theorem opcode_of_asked {f : Flow} (hasked : sim.asked i = some f) : i.opcode = f.opcode := by
  obtain ⟨fx, hexecute, hflow⟩ := execute_of_asked hasked
  exact opcode_of_flow hexecute hflow

theorem writes_of_asked {f : Flow} (hasked : sim.asked i = some f) :
    (effects sim.core sim.mem sim.program i).1.writes = [] := by
  obtain ⟨fx, hexecute, hflow⟩ := execute_of_asked hasked
  rw [fst_effects, hexecute]
  rcases effects_of_execute hexecute with ⟨f', -, rfl⟩ | ⟨-, hnone⟩
  · rfl
  · cases hnone.symm.trans hflow

theorem committed_of_asked {f : Flow} (hasked : sim.asked i = some f) : sim.committed i = (sim.core, sim.mem, []) := by
  rw [committed, commit, writes_of_asked hasked]
  rfl

theorem asked_of_asks (hasks : i.opcode.asks = false) : sim.asked i = none := by
  cases hasked : sim.asked i with
  | none => rfl
  | some f =>
    rw [opcode_of_asked hasked, f.asks_opcode] at hasks
    cases hasks

theorem taken_of_asked {f : Flow} (hasked : sim.asked i = some f) :
    sim.taken i = ((sim.committed i).1.follow i.programAddr sim.controller.delaySlots f).2 := by
  rw [taken, hasked]
  rfl

theorem followed_of_asked_none (hasked : sim.asked i = none) :
    sim.controller.followed (sim.committed i).1 i (sim.asked i) = ((sim.committed i).1, none) := by
  rw [hasked]
  rfl

theorem calls_step (h : sim.current? = some (idx, i)) :
    sim.step.core.calls = (sim.controller.followed (sim.committed i).1 i (sim.asked i)).1.calls := by
  rw [core_step h]
  exact Controller.calls_rounded ..

theorem calls_step_of_asked (h : sim.current? = some (idx, i)) {f : Flow} (hasked : sim.asked i = some f) :
    sim.step.core.calls =
      ((sim.committed i).1.follow i.programAddr sim.controller.delaySlots f).1.calls := by
  rw [calls_step h, hasked]
  rfl

theorem Reachable.iterate {p : Program} {config : Config} (h : Reachable p config sim) (n : Nat) :
    Reachable p config (Simulator.step^[n] sim) := by
  induction n with
  | zero => exact h
  | succ n ih =>
    rw [Function.iterate_succ_apply']
    exact ih.step

namespace Runs

variable {p : Program} {config : Config}

theorem step (h : Runs p config sim) : Runs p config sim.step := by
  cases hcurrent : sim.current? with
  | none => rwa [step_of_none hcurrent]
  | some current =>
    refine ⟨?_, sim.delaySlots_step.trans h.delaySlots, fun idx hpc => ?_⟩
    · rw [step_of_current? hcurrent]
      exact h.ran.trans (sim.ran_stepAt _ _)
    · rw [step_of_current? hcurrent] at hpc ⊢
      exact (sim.ran_stepAt _ _).isWord (Controller.isWord_of_advance hpc)

theorem iterate (h : Runs p config sim) (n : Nat) : Runs p config (Simulator.step^[n] sim) := by
  induction n with
  | zero => exact h
  | succ n ih =>
    rw [Function.iterate_succ_apply']
    exact ih.step

theorem of_reachable (h : Reachable p config sim) : Runs p config sim := by
  induction h with
  | load => exact ⟨.refl _, rfl, fun _ => Program.isWord_of_firstWord?⟩
  | step _ ih => exact ih.step
  | loadText base text _ ih => exact ⟨ih.ran, ih.delaySlots, ih.isWord⟩

theorem word (h : Runs p config sim) (hcurrent : sim.current? = some (idx, i)) :
    sim.program.instrs[idx]? = some i ∧ i.isDirective = false := by
  obtain ⟨hpc, hi⟩ := current?_eq_some_iff.1 hcurrent
  obtain ⟨j, hj, hword⟩ := h.isWord idx hpc
  rw [hi] at hj
  cases hj
  exact ⟨hi, hword⟩

theorem exists_word (h : Runs p config sim) (hi : p.instrs[idx]? = some i) (hword : i.isDirective = false) :
    ∃ j, sim.program.instrs[idx]? = some j ∧ j.isDirective = false ∧ j.programAddr = i.programAddr := by
  obtain ⟨r, hr, hir⟩ := exists_getElem?_of_forall₂
    (Program.forall₂_resolve p config.delaySlots).flip hi
  obtain ⟨j, hj, hrj⟩ := exists_getElem?_of_forall₂ h.ran.instrs.flip hr
  have hrj : r.Reran j := hrj
  exact ⟨j, hj, by rw [hrj.isDirective, hir.1, hword], by rw [hrj.programAddr, hir.2]⟩

theorem consecutive (h : Runs p config sim) (hp : p.Written) : sim.program.Consecutive :=
  (hp.consecutive.resolve config.delaySlots).ran h.ran

theorem slotsMarked (h : Runs p config sim) : Program.SlotsMarked config.delaySlots sim.program.words :=
  (p.slotsMarked_resolve config.delaySlots).ran h.ran

end Runs

end Simulator

end QuadDsp
