import Mathlib.Algebra.Group.Pi.Basic
import Mathlib.Data.Nat.Count
import QuadDsp.Proofs.Machine.Stepping

/-! # Rounds of counted loops

Where loops end that count down to one, the controller works on their frames alone (`LoopFrame.countRound`,
`Core.endRound_of_counted`). So a run past words that take no branch can be followed by the frames on the loop stacks
(`Simulator.Stands`), with a count of how often each word is executed and with a look at what the sequencer reports
(`Simulator.Walks`). -/

namespace QuadDsp

/-! ### Frames on the loop stacks -/

namespace LoopStacks

variable {s : LoopStacks} {frames : List LoopFrame}

/-- The same stacks, with these frames on them. -/
def holding (s : LoopStacks) (frames : List LoopFrame) : LoopStacks where
  first := { s.first with items := frames.map (·.first) }
  last := { s.last with items := frames.map (·.last) }
  count := { s.count with items := frames.map (·.count) }
  forever := { s.forever with items := frames.map (·.forever) }

@[simp] theorem frames_holding (s : LoopStacks) (frames : List LoopFrame) : (s.holding frames).frames = frames := by
  simp [holding, LoopStacks.frames, List.zip_map', Function.comp_def]

theorem pop_holding (s : LoopStacks) (f : LoopFrame) (frames : List LoopFrame) :
    (s.holding (f :: frames)).pop = s.holding frames := rfl

theorem again_holding (s : LoopStacks) (f : LoopFrame) (frames : List LoopFrame) :
    (s.holding (f :: frames)).again = s.holding (f.again :: frames) := by
  simp only [again, holding, BoundedStack.top?, BoundedStack.setTop, List.map_cons, List.head?_cons, LoopFrame.again]

theorem push_holding (h : ∀ t ∈ s.states, frames.length < t.depth) (f : LoopFrame) :
    (s.holding frames).push f = s.holding (f :: frames) := by
  simp only [states, List.forall_mem_cons, BoundedStack.state] at h
  obtain ⟨hfirst, hlast, hcount, hforever, -⟩ := h
  simp [push, isFull, holding, BoundedStack.push, BoundedStack.isFull, Nat.not_le.2 hfirst, Nat.not_le.2 hlast,
    Nat.not_le.2 hcount, Nat.not_le.2 hforever]

theorem holding_of_empty (h : ∀ t ∈ s.states, t.length = 0) : s.holding [] = s := by
  obtain ⟨⟨_, first⟩, ⟨_, last⟩, ⟨_, count⟩, ⟨_, forever⟩⟩ := s
  simp only [states, List.forall_mem_cons, BoundedStack.state, List.length_eq_zero_iff] at h
  obtain ⟨rfl, rfl, rfl, rfl, -⟩ := h
  rfl

end LoopStacks

namespace LoopFrame

/-- A loop of a program that goes round until its counter is one. -/
structure Counted (p : Program) (f : LoopFrame) : Prop where
  forever : f.forever = false
  untilCe : p.loopCondition f.first = .ce
  found : (p.indexOf? f.first).isSome = true

/-- What is left of counted loops, innermost first, where a word ends their round, and the first word of the one
that goes round again. -/
def countRound (addr : Nat) : List LoopFrame → List LoopFrame × Option Nat
  | [] => ([], none)
  | f :: outer =>
    if f.last ≠ addr then (f :: outer, none)
    else if f.count = 1 then countRound addr outer
    else (f.again :: outer, some f.first)

theorem countRound_of_ne {addr : Nat} {frames : List LoopFrame} (h : ∀ f, frames.head? = some f → f.last ≠ addr) :
    countRound addr frames = (frames, none) := by
  cases frames with
  | nil => rfl
  | cons f outer => rw [countRound, if_pos (h f rfl)]

theorem exists_of_countRound {addr first : Nat} {frames : List LoopFrame}
    (h : (countRound addr frames).2 = some first) :
    ∃ f ∈ frames, f.first = first := by
  induction frames with
  | nil => cases h
  | cons f outer ih =>
    unfold countRound at h
    split at h
    · cases h
    split at h
    · obtain ⟨g, hg, hfirst⟩ := ih h
      exact ⟨g, List.mem_cons_of_mem f hg, hfirst⟩
    · cases h
      exact ⟨f, List.mem_cons_self, rfl⟩

end LoopFrame

namespace Core

variable {p : Program} {loops : LoopStacks} {frames : List LoopFrame}

/-- Of counted loops a round ends as their frames say. -/
theorem endRound_of_counted {s : Core} (hloops : s.loops = loops.holding frames)
    (hcounted : ∀ f ∈ frames, f.Counted p) (addr : Nat) :
    ∃ counter, endRound p addr s frames =
      ({ s with loops := loops.holding (LoopFrame.countRound addr frames).1, counter := counter },
        (LoopFrame.countRound addr frames).2) := by
  induction frames generalizing s with
  | nil =>
    refine ⟨s.counter, ?_⟩
    rw [LoopFrame.countRound, ← hloops]
    rfl
  | cons f outer ih =>
    obtain ⟨hf, houter⟩ := List.forall_mem_cons.1 hcounted
    unfold endRound LoopFrame.countRound
    by_cases hlast : f.last ≠ addr
    · refine ⟨s.counter, ?_⟩
      rw [if_pos hlast, if_pos hlast, ← hloops]
    · -- the loop is left if its counter is on top of the stack with a one
      have hholds : s.holds .ce .first = (f.count == 1) := by
        rw [holds, loopCounter, hloops]
        rfl
      rw [if_neg hlast, if_neg hlast, hf.forever, hf.untilCe, hholds]
      by_cases hone : f.count = 1
      · rw [if_pos (by simp [hone]), if_pos hone]
        have hleft : (s.leaveLoop outer).loops = loops.holding outer := by
          rw [leaveLoop, hloops, LoopStacks.pop_holding]
        obtain ⟨counter, hend⟩ := ih hleft houter
        exact ⟨counter, hend⟩
      · rw [if_neg (by simp [hone]), if_neg hone]
        refine ⟨f.again.count, ?_⟩
        rw [repeatLoop, hloops, LoopStacks.again_holding]

/-- Which frames are on the loop stacks makes no difference to the flags that stacks have set. -/
theorem stackFaults_of_holding {s : Core} {calls : BoundedStack Nat} {statuses : StatusStacks} {depth : Nat}
    (h : s.sequencing = (calls, loops.holding frames, statuses, depth)) :
    s.stackFaults = calls.faults .calls ++ loops.last.faults .loops ++ statuses.modes.faults .statuses := by
  simp only [sequencing, Prod.mk.injEq] at h
  obtain ⟨hcalls, hloops, hstatuses, -⟩ := h
  rw [stackFaults, hcalls, hloops, hstatuses]
  rfl

end Core

namespace Simulator

/-! ### Stretches of a run -/

/-- How often the word at an address is executed in the first steps of a run. -/
def executions (sim : Simulator) (addr steps : Nat) : Nat :=
  Nat.count (fun k => (step^[k] sim).pcAddr? = some addr) steps

/-- The sequencer has nothing to report of the next word: no stack sets a flag, and no target is without a word. -/
def Silent (sim : Simulator) : Prop :=
  ∀ idx i, sim.current? = some (idx, i) → sequencerReports sim.core i (sim.advanced idx i) = []

/-- A run leads from one state to another, executes the word at each address so often, and the sequencer reports
nothing on the way. -/
def Walks (sim sim' : Simulator) (visits : Nat → Nat) : Prop :=
  ∃ steps, step^[steps] sim = sim' ∧ (∀ addr, sim.executions addr steps = visits addr) ∧
    ∀ k < steps, (step^[k] sim).Silent

/-- Each address from one up to another is visited once. -/
def once (lo hi addr : Nat) : Nat := if lo ≤ addr ∧ addr < hi then 1 else 0

theorem once_add_once {lo mid hi : Nat} (hlo : lo ≤ mid) (hhi : mid ≤ hi) : once lo mid + once mid hi = once lo hi := by
  funext addr
  unfold once
  rw [Pi.add_apply]
  split_ifs <;> omega

variable {sim sim' sim'' start : Simulator} {visits visits' : Nat → Nat}

theorem Walks.trans (h : sim.Walks sim' visits) (h' : sim'.Walks sim'' visits') :
    sim.Walks sim'' (visits + visits') := by
  obtain ⟨m, rfl, hvisits, hsilent⟩ := h
  obtain ⟨n, rfl, hvisits', hsilent'⟩ := h'
  have hsplit (k : Nat) : step^[m + k] sim = step^[k] (step^[m] sim) := by
    rw [Nat.add_comm, Function.iterate_add_apply]
  refine ⟨m + n, hsplit n, fun addr => ?_, fun k hk => ?_⟩
  · unfold executions at *
    rw [Nat.count_add, hvisits addr]
    simp only [hsplit]
    rw [hvisits' addr]
    rfl
  · rcases Nat.lt_or_ge k m with hlt | hge
    · exact hsilent k hlt
    · obtain ⟨k, rfl⟩ := Nat.exists_eq_add_of_le hge
      rw [hsplit]
      exact hsilent' k (by omega)

theorem walks_step {idx : Nat} {i : Instruction} (hcurrent : sim.current? = some (idx, i)) (hsilent : sim.Silent) :
    sim.Walks sim.step (once i.programAddr (i.programAddr + 1)) := by
  refine ⟨1, rfl, fun addr => ?_, fun k hk => ?_⟩
  · have hpc : sim.pcAddr? = some i.programAddr := by rw [pcAddr?, hcurrent]; rfl
    unfold executions once
    rw [Nat.count_one, Function.iterate_zero_apply, hpc]
    simp only [Option.some.injEq]
    split_ifs <;> omega
  · obtain rfl : k = 0 := by omega
    exact hsilent

theorem silent_of_step {idx : Nat} {i : Instruction} (hcurrent : sim.current? = some (idx, i))
    (hfaults : sim.step.core.stackFaults = sim.core.stackFaults)
    (hfound : ∀ t, ((sim.controller.transfer i (sim.taken i)).1 <|> sim.rounds i) = some t →
      (sim.program.indexOf? t).isSome = true) : sim.Silent := by
  intro k j hk
  cases hcurrent.symm.trans hk
  have hadvanced : (sim.advanced idx i).2.1 = sim.step.core := by rw [step_of_current? hcurrent, stepAt_eq]
  have hmissing : (sim.advanced idx i).2.2.missing = none := by
    rw [missing_advanced]
    cases htarget : ((sim.controller.transfer i (sim.taken i)).1 <|> sim.rounds i) with
    | none => rfl
    | some t => exact if_pos (hfound t htarget)
  rw [sequencerReports, hadvanced, hmissing, hfaults]
  simp

/-! ### Steps inside loops -/

/-- At a place of a program that was started with empty loop stacks: these frames are on the stacks now, and all
else that the sequencer works on is as it was. -/
structure Stands (start : Simulator) (frames : List LoopFrame) (place : Option Nat) (sim : Simulator) : Prop where
  ran : start.program.Ran sim.program
  place : sim.pc = place
  sequencing : sim.core.sequencing =
    (start.core.calls, start.core.loops.holding frames, start.core.statuses, start.core.stackDepth)
  pending : sim.controller.pending = start.controller.pending

/-- No target is due at a word: it is no delay slot, or no target waits. -/
def NothingDue (start : Simulator) (i : Instruction) : Prop :=
  i.inDelaySlot = true → start.controller.pending = none

variable {frames frames' : List LoopFrame} {idx : Nat} {i j : Instruction}

theorem Stands.exists_current (h : start.Stands frames (some idx) sim) (hi : start.program.instrs[idx]? = some i) :
    ∃ j, sim.current? = some (idx, j) ∧ i.Reran j := by
  obtain ⟨j, hj, hij⟩ := exists_getElem?_of_forall₂ h.ran.instrs.flip hi
  exact ⟨j, current?_eq_some_iff.2 ⟨h.place, hj⟩, hij⟩

section Step

variable (h : start.Stands frames (some idx) sim) (hcurrent : sim.current? = some (idx, j)) {s : Core}
  (hfollowed : sim.controller.followed (sim.committed j).1 j (sim.asked j) = (s, none))
  (hs : s.sequencing =
    (start.core.calls, start.core.loops.holding frames', start.core.statuses, start.core.stackDepth))
  (hcounted : ∀ f ∈ frames', f.Counted start.program)

include h

theorem Stands.transfer (hdue : start.NothingDue j) :
    sim.controller.transfer j none = (none, sim.controller.pending) := by
  rw [Controller.transfer_none]
  split
  · next hslot => rw [h.pending, hdue hslot]
  · rfl

/-- Where a word asks for nothing and no loop ends, its writes are all that is done to the core. -/
theorem Stands.core_step (hdue : start.NothingDue j) (hcurrent : sim.current? = some (idx, j))
    (hasked : sim.asked j = none) (hne : ∀ f, frames.head? = some f → f.last ≠ j.programAddr) :
    sim.step.core = (sim.committed j).1 := by
  have hloops : (sim.committed j).1.loops = start.core.loops.holding frames :=
    congrArg (·.2.1) ((sim.sequencing_committed j).trans h.sequencing)
  have hlast (last : Nat) (htop : (sim.committed j).1.loops.last.top? = some last) : last ≠ j.programAddr := by
    rw [hloops, show (start.core.loops.holding frames).last.top? = (frames.map (·.last)).head? from rfl,
      List.head?_map, Option.map_eq_some_iff] at htop
    obtain ⟨f, hf, rfl⟩ := htop
    exact hne f hf
  rw [Simulator.core_step hcurrent]
  show (sim.controller.rounded (sim.committed j).1 sim.program j (sim.asked j)).1 = _
  unfold Controller.rounded
  rw [followed_of_asked_none hasked]
  dsimp only
  rw [h.transfer hdue, Core.endRound_of_ne _ hlast]
  rfl

include hfollowed hs hcounted

/-- Where a word that takes no branch has pushed its frame, if it begins a loop, the round ends as the frames say. -/
theorem Stands.rounded (hdue : start.NothingDue j) :
    ∃ counter, sim.controller.rounded (sim.committed j).1 sim.program j (sim.asked j) =
      ({ s with loops := start.core.loops.holding (LoopFrame.countRound j.programAddr frames').1, counter := counter },
        (LoopFrame.countRound j.programAddr frames').2) := by
  have hloops : s.loops = start.core.loops.holding frames' := congrArg (·.2.1) hs
  have hcounted' : ∀ f ∈ frames', f.Counted sim.program := fun f hf =>
    ⟨(hcounted f hf).forever, by rw [h.ran.loopCondition, (hcounted f hf).untilCe],
      by rw [h.ran.indexOf?, (hcounted f hf).found]⟩
  unfold Controller.rounded
  rw [hfollowed]
  dsimp only
  rw [h.transfer hdue, hloops, LoopStacks.frames_holding]
  exact Core.endRound_of_counted hloops hcounted' j.programAddr

include hcurrent

/-- A word that takes no branch leads behind itself, or to the first word of the loop that goes round again. -/
theorem Stands.step (hdue : start.NothingDue j) (hreset : sim.asked j ≠ some .reset) :
    sim.Walks sim.step (once j.programAddr (j.programAddr + 1)) ∧
      start.Stands (LoopFrame.countRound j.programAddr frames').1
        ((LoopFrame.countRound j.programAddr frames').2.bind start.program.indexOf? <|> start.program.nextWord? idx)
        sim.step := by
  obtain ⟨counter, hrounded⟩ := h.rounded hfollowed hs hcounted hdue
  have hdestination : (sim.controller.transfer j (sim.taken j)).1 = none ∧
      sim.rounds j = (LoopFrame.countRound j.programAddr frames').2 := by
    rw [taken, hfollowed, h.transfer hdue, rounds, hrounded]
    exact ⟨rfl, rfl⟩
  have hsequencing : sim.step.core.sequencing = (start.core.calls,
      start.core.loops.holding (LoopFrame.countRound j.programAddr frames').1, start.core.statuses,
      start.core.stackDepth) := by
    have hcore := (Simulator.core_step hcurrent).trans (congrArg (·.1) hrounded)
    simp only [Core.sequencing, Prod.mk.injEq] at hs ⊢
    rw [hcore]
    exact ⟨hs.1, rfl, hs.2.2.1, hs.2.2.2⟩
  have hindex : sim.program.indexOf? = start.program.indexOf? := funext h.ran.indexOf?
  refine ⟨walks_step hcurrent (silent_of_step hcurrent ?_ fun t ht => ?_), ?_, ?_, hsequencing, ?_⟩
  · rw [Core.stackFaults_of_holding hsequencing, Core.stackFaults_of_holding h.sequencing]
  · rw [hdestination.1, hdestination.2] at ht
    obtain ⟨f, hf, rfl⟩ := LoopFrame.exists_of_countRound ht
    rw [hindex, (hcounted f hf).found]
  · rw [step_of_current? hcurrent]
    exact h.ran.trans (sim.ran_stepAt idx j)
  · rw [pc_step hcurrent, hdestination.1, hdestination.2, h.ran.nextWord?, hindex]
    rfl
  · rw [pending_step hcurrent, if_neg hreset, taken, hfollowed, h.transfer hdue, h.pending]

end Step

theorem Stands.step_of_asked_none (h : start.Stands frames (some idx) sim) (hcurrent : sim.current? = some (idx, j))
    (hasked : sim.asked j = none) (hdue : start.NothingDue j) (hcounted : ∀ f ∈ frames, f.Counted start.program) :
    sim.Walks sim.step (once j.programAddr (j.programAddr + 1)) ∧
      start.Stands (LoopFrame.countRound j.programAddr frames).1
        ((LoopFrame.countRound j.programAddr frames).2.bind start.program.indexOf? <|> start.program.nextWord? idx)
        sim.step :=
  h.step hcurrent (followed_of_asked_none hasked) ((sim.sequencing_committed j).trans h.sequencing) hcounted hdue
    (by rw [hasked]; nofun)

end Simulator

end QuadDsp
