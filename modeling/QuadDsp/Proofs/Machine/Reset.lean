import QuadDsp.Proofs.Machine.Predication
import QuadDsp.Proofs.Machine.Stepping

/-! # RESET

A RESET that is accepted takes place in every lane: its format has no room for a condition
(`Instruction.cond_of_reset`). It leaves the sequencer as loading does and touches neither register files nor memory
(`Simulator.Cleared`). The loops that end at it are gone when their end is looked for, so the program goes on behind
it; but a target that waited for the word is due before the RESET cancels targets that wait, so from the delay slot of a
branch the program goes on where the branch leads (`Simulator.Reachable.cleared_step`). -/

namespace QuadDsp

/-- RESET has no condition. -/
theorem Instruction.cond_of_reset {i : Instruction} {sel : Selection} (hselect : select i = .ok sel)
    (hop : i.opcode = .reset) : i.cond = .always := by
  obtain ⟨t, -, hfills⟩ := select_fills hselect
  refine hfills.unconditional ?_
  rw [← hfills.format, Bool.eq_false_iff]
  intro hcond
  exact opcode_of_hasCond hselect hcond (by rw [hop]; decide)

/-- An accepted RESET is executed. -/
theorem execute_of_reset {i : Instruction} {sel : Selection} (hstructure : checkStructure i = .ok ())
    (hselect : select i = .ok sel) (hop : i.opcode = .reset) (s : Core) (mem : Memory) (p : Program) :
    execute s mem p i = .ok { flow := some .reset } := by
  rw [execute_of_selected hstructure hselect, Instruction.cond_of_reset hselect hop]
  rcases select_members hselect with ⟨m, -, -, hmembers, rfl, -⟩ | ⟨hall, -⟩
  · have hunit : m.opcode.unit? = some .reset := by
      rw [show m.opcode = .reset from hop]
      rfl
    have hrun : m.execute ⟨s, mem, p, s.mask .always⟩ = .ok { flow := some .reset } := by
      rw [Member.execute, hunit]
      rfl
    rw [hmembers, executeMembers, hrun]
    rfl
  · -- no bundle holds a RESET
    have hasks := asks_of_bundle hselect hall
    rw [hop] at hasks
    cases hasks

theorem Controller.rounded_reset (c : Controller) (s : Core) (p : Program) (i : Instruction) :
    c.rounded s p i (some .reset) = (s.reset, none) := by
  unfold Controller.rounded
  dsimp only
  split <;> rfl

namespace Simulator

variable {sim : Simulator} {p : Program} {config : Config} {idx : Nat} {i : Instruction} {sel : Selection}

/-- What RESET leaves: the sequencer as loading leaves it, and register files and memory as they were. -/
structure Cleared (config : Config) (sim sim' : Simulator) : Prop where
  flags : sim'.core.flags = Lanes.fill {}
  modes : sim'.core.modes = {}
  counter : sim'.core.counter = 0
  calls : sim'.core.calls = .empty config.stackDepth
  loops : sim'.core.loops = .empty config.stackDepth
  statuses : sim'.core.statuses = .empty config.stackDepth
  pending : sim'.controller.pending = none
  files : sim'.core.files = sim.core.files
  mem : sim'.mem = sim.mem

theorem asked_of_reset (hstructure : checkStructure i = .ok ()) (hselect : select i = .ok sel)
    (hop : i.opcode = .reset) : sim.asked i = some .reset := by
  rw [asked, effects, execute_of_reset hstructure hselect hop]

theorem cleared_of_asked (hdepth : sim.core.stackDepth = config.stackDepth) (hcurrent : sim.current? = some (idx, i))
    (hasked : sim.asked i = some .reset) : Cleared config sim sim.step := by
  have hcore : sim.step.core = sim.core.reset := by
    have hrounded := sim.controller.rounded_reset (sim.committed i).1 sim.program i
    rw [← hasked] at hrounded
    rw [(core_step hcurrent).trans (congrArg (·.1) hrounded), committed_of_asked hasked]
  have hmem : sim.step.mem = sim.mem := by
    rw [step_of_current? hcurrent]
    exact congrArg (·.2.1) (committed_of_asked hasked)
  have hpending : sim.step.controller.pending = none := by rw [pending_step hcurrent, if_pos hasked]
  constructor <;> first | exact hmem | exact hpending | simp only [hcore, Core.reset, Core.files, hdepth]

/-- The program goes on behind a RESET, or where the branch leads in whose delay slot it stands. -/
theorem pc_step_of_reset (hcurrent : sim.current? = some (idx, i)) (hasked : sim.asked i = some .reset) :
    sim.step.pc = ((if i.inDelaySlot then sim.controller.pending else none).bind sim.program.indexOf? <|>
      sim.program.nextWord? idx) := by
  have htaken : sim.taken i = none := taken_of_asked hasked
  have hrounds : sim.rounds i = none := by rw [rounds, hasked, Controller.rounded_reset]
  rw [pc_step hcurrent, htaken, hrounds, Controller.transfer_none]
  cases i.inDelaySlot <;> simp

/-- A target that is due at the word leads to a word other than the one behind it. -/
def LedAway (sim : Simulator) (idx : Nat) (i : Instruction) : Prop :=
  i.inDelaySlot = true ∧ ∃ t place, sim.controller.pending = some t ∧ sim.program.indexOf? t = some place ∧
    sim.program.nextWord? idx ≠ some place

theorem pc_step_of_reset_iff (hcurrent : sim.current? = some (idx, i)) (hasked : sim.asked i = some .reset) :
    sim.step.pc = sim.program.nextWord? idx ↔ ¬sim.LedAway idx i := by
  rw [pc_step_of_reset hcurrent hasked]
  cases hplace : (if i.inDelaySlot then sim.controller.pending else none).bind sim.program.indexOf? with
  | none =>
    refine iff_of_true rfl ?_
    rintro ⟨hslot, t, place, hpending, hindex, -⟩
    rw [if_pos hslot, hpending, Option.bind_some, hindex] at hplace
    cases hplace
  | some place =>
    obtain ⟨t, htarget, hindex⟩ := Option.bind_eq_some_iff.1 hplace
    obtain ⟨hslot, hpending⟩ := Option.ite_none_right_eq_some.1 htarget
    constructor
    · rintro hpc ⟨-, t', place', hpending', hindex', haway⟩
      cases hpending.symm.trans hpending'
      exact haway (hpc.symm.trans (hindex.symm.trans hindex'))
    · intro hnot
      by_contra haway
      exact hnot ⟨hslot, t, place, hpending, hindex, Ne.symm haway⟩

/-- RESET clears the sequencer wherever it stands; the program goes on behind it unless it stands in the delay slot of
a branch that leads away. -/
theorem Reachable.cleared_step (h : Reachable p config sim) (hcurrent : sim.current? = some (idx, i))
    (hop : i.opcode = .reset) (hstructure : checkStructure i = .ok ()) (hselect : select i = .ok sel) :
    Cleared config sim sim.step ∧ (sim.step.pc = sim.program.nextWord? idx ↔ ¬sim.LedAway idx i) := by
  have hasked : sim.asked i = some .reset := asked_of_reset hstructure hselect hop
  exact ⟨cleared_of_asked h.uniformStacks.depth hcurrent hasked, pc_step_of_reset_iff hcurrent hasked⟩

/-- A RESET in the delay slot of a branch over the word behind it. -/
def resetInSlot : Program :=
  ((((Builder.origin 0).push { line := 1, opcode := .jump, operands := [.target (.abs 3)] }).push
    { line := 2, opcode := .reset }).push { line := 3, opcode := .nop }).push { line := 4, opcode := .nop } |>.program

/-- It clears the sequencer, but the branch takes place. -/
theorem Reachable.cleared_step_resetInSlot :
    let sim := (Simulator.load resetInSlot { delaySlots := true }).step
    Reachable resetInSlot { delaySlots := true } sim ∧ Cleared { delaySlots := true } sim sim.step ∧
      sim.program.nextWord? 1 = some 2 ∧ sim.step.pc ≠ some 2 := by
  intro sim
  have h : Reachable resetInSlot { delaySlots := true } sim := .step .load
  obtain ⟨hcleared, hpc⟩ := h.cleared_step rfl rfl rfl rfl
  exact ⟨h, hcleared, rfl, fun hnext => hpc.1 hnext ⟨rfl, 3, 3, rfl, rfl, by decide⟩⟩

end Simulator

end QuadDsp
