import QuadDsp.Proofs.Machine.Rounds

/-! # Frames of loops

A frame does not hold the condition that ends its loop: behind each round the controller reads it off the word in front
of the body. That this word is the DO that has put the frame on the stacks is an invariant of runs: every frame was
begun by a word of an earlier state (`Simulator.Reachable.begun`), and while it is on the stacks only its count changes
(`Core.bodies_endRound`). So in a program whose words have distinct addresses every loop ends by the condition of its
own DO (`Simulator.Reachable.ownLoops`). The one exception is a DO at the last address of all: the body begins at the
first address, no word is looked for in front of it, and CE is read in place of the condition
(`Instruction.termination`). -/

namespace QuadDsp

/-- A frame without its count. -/
def LoopFrame.body (f : LoopFrame) : Nat × Nat × Bool := (f.first, f.last, f.forever)

theorem LoopFrame.body_again (f : LoopFrame) : f.again.body = f.body := by
  unfold body again
  rfl

namespace LoopStacks

variable {s : LoopStacks} {t : StackState} {f g : LoopFrame} {outer : List LoopFrame}

theorem holding_frames (h : ∀ x ∈ s.states, x = t) : s.holding s.frames = s := by
  simp only [states, List.forall_mem_cons] at h
  obtain ⟨hfirst, hlast, hcount, hforever, -⟩ := h
  replace hfirst : s.first.items.length = t.length := congrArg StackState.length hfirst
  replace hlast : s.last.items.length = t.length := congrArg StackState.length hlast
  replace hcount : s.count.items.length = t.length := congrArg StackState.length hcount
  replace hforever : s.forever.items.length = t.length := congrArg StackState.length hforever
  have hpart {α : Type} (part : LoopFrame → α) (l : List α) (hlength : l.length = t.length)
      (hget : ∀ k (hk : k < s.frames.length) (hk' : k < l.length), part s.frames[k] = l[k]) :
      s.frames.map part = l := by
    refine List.ext_getElem ?_ fun k hk hk' => ?_
    · simp [frames, hfirst, hlast, hcount, hforever, hlength]
    · rw [List.getElem_map, hget]
  unfold holding
  rw [hpart (·.first) s.first.items hfirst fun k _ _ => by simp [frames],
    hpart (·.last) s.last.items hlast fun k _ _ => by simp [frames],
    hpart (·.count) s.count.items hcount fun k _ _ => by simp [frames],
    hpart (·.forever) s.forever.items hforever fun k _ _ => by simp [frames]]

theorem mem_frames_push (h : ∀ x ∈ s.states, x = t) (hg : g ∈ (s.push f).frames) : g = f ∨ g ∈ s.frames := by
  by_cases hfull : s.isFull = true
  · -- the entries stay what they are
    rw [push, if_pos hfull] at hg
    exact .inr hg
  · have hlength : s.frames.length = s.last.items.length := by
      rw [← congrArg (·.last.items.length) (holding_frames h)]
      exact (List.length_map _).symm
    have hroom : ∀ x ∈ s.states, s.frames.length < x.depth := by
      intro x hx
      have hlast : s.last.state = x := (h _ (by simp [states])).trans (h x hx).symm
      rw [hlength, ← hlast]
      exact Nat.lt_of_not_le fun hle => hfull (decide_eq_true hle)
    rw [← holding_frames h, push_holding hroom, frames_holding] at hg
    exact List.mem_cons.1 hg

theorem frames_again (h : s.frames = f :: outer) : s.again.frames = f.again :: outer := by
  obtain ⟨⟨_, first⟩, ⟨_, last⟩, ⟨_, count⟩, ⟨_, forever⟩⟩ := s
  cases first <;> cases last <;> cases count <;> cases forever <;> cases h
  rfl

end LoopStacks

namespace Core

variable {p : Program} {addr : Nat} {s : Core} {top : LoopFrame} {outer frames : List LoopFrame}

theorem frames_leaveLoop (h : s.loops.frames = top :: outer) : (s.leaveLoop outer).loops.frames = outer := by
  rw [leaveLoop, LoopStacks.frames_pop, h]
  rfl

theorem frames_repeatLoop (h : s.loops.frames = top :: outer) :
    (s.repeatLoop top).loops.frames = top.again :: outer :=
  LoopStacks.frames_again h

/-- The end of a round takes frames off the stacks and changes a count. -/
theorem bodies_endRound (h : s.loops.frames = frames) :
    (endRound p addr s frames).1.loops.frames.map LoopFrame.body <:+ frames.map LoopFrame.body := by
  induction frames generalizing s with
  | nil => rw [endRound, h]
  | cons top outer ih =>
    unfold endRound
    split
    · rw [h]
    split
    · exact (ih (frames_leaveLoop h)).trans (List.suffix_cons ..)
    · rw [frames_repeatLoop h, List.map_cons, LoopFrame.body_again, List.map_cons]

end Core

/-! ### The word that begins a loop -/

namespace Simulator

variable {p : Program} {config : Config} {sim : Simulator} {idx : Nat} {i d : Instruction} {f : LoopFrame}
  {c : Condition} {b : Nat × Nat × Bool}

/-- A word of an earlier state of the run has begun the loop. -/
def Begun (p : Program) (config : Config) (sim : Simulator) (b : Nat × Nat × Bool) : Prop :=
  ∃ (sim' : Simulator) (idx : Nat) (i : Instruction) (last : Nat) (term : Condition), Reachable p config sim' ∧
    sim'.program.Ran sim.program ∧ sim'.current? = some (idx, i) ∧ sim'.asked i = some (.loop last term) ∧
      b = (addrBehind i.programAddr 1, last, term == .forever)

theorem Begun.ran {sim' : Simulator} (h : Begun p config sim b) (hran : sim.program.Ran sim'.program) :
    Begun p config sim' b := by
  obtain ⟨start, idx, i, last, term, hreach, hran', hrest⟩ := h
  exact ⟨start, idx, i, last, term, hreach, hran'.trans hran, hrest⟩

/-- Of the frames behind a word the old ones are begun, and the word begins a new one. -/
theorem begun_attempted (h : Reachable p config sim) (hcurrent : sim.current? = some (idx, i))
    (hold : ∀ b ∈ sim.core.loops.frames.map LoopFrame.body, Begun p config sim b) :
    ∀ b ∈ (sim.attempted i).loops.frames.map LoopFrame.body, Begun p config sim b := by
  have hloops : (sim.committed i).1.loops = sim.core.loops := congrArg (·.2.1) (sim.sequencing_committed i)
  have hsame (heq : (sim.attempted i).loops = sim.core.loops) :
      ∀ b ∈ (sim.attempted i).loops.frames.map LoopFrame.body, Begun p config sim b := heq ▸ hold
  have hattempted : sim.attempted i = (sim.controller.followed (sim.committed i).1 i (sim.asked i)).1 := rfl
  cases hasked : sim.asked i with
  | none =>
    rw [hasked] at hattempted
    exact hsame (hattempted ▸ hloops)
  | some flow =>
    rw [hasked, Controller.followed] at hattempted
    cases flow with
    | loop last term =>
      obtain ⟨t, ht, -⟩ := h.uniformStacks.states .loops
      intro b hb
      obtain ⟨f, hf, rfl⟩ := List.mem_map.1 hb
      rw [hattempted, Core.follow, hloops] at hf
      rcases LoopStacks.mem_frames_push ht hf with rfl | hf
      · exact ⟨sim, idx, i, last, term, h, .refl _, hcurrent, hasked, rfl⟩
      · exact hold _ (List.mem_map_of_mem hf)
    | popStatus =>
      have hpop := (sim.committed i).1.sequencing_popStatus i.programAddr sim.controller.delaySlots
      exact hsame (by rw [hattempted, ← hloops]; exact congrArg (·.2.1) hpop)
    | reset =>
      rw [hattempted]
      intro b hb
      cases hb
    | jump | call | ret | pushStatus => exact hsame (hattempted ▸ hloops)

theorem bodies_step (hcurrent : sim.current? = some (idx, i)) :
    sim.step.core.loops.frames.map LoopFrame.body <:+ (sim.attempted i).loops.frames.map LoopFrame.body := by
  have hstep : sim.step.core = (sim.controller.rounded (sim.committed i).1 sim.program i (sim.asked i)).1 :=
    core_step hcurrent
  rw [hstep, Controller.rounded]
  split
  · exact List.suffix_rfl
  · exact Core.bodies_endRound rfl

/-- Every loop that runs was begun by a word of the run. -/
theorem Reachable.begun (h : Reachable p config sim) :
    ∀ b ∈ sim.core.loops.frames.map LoopFrame.body, Begun p config sim b := by
  induction h with
  | load => exact nofun
  | @step sim hsim ih =>
    cases hcurrent : sim.current? with
    | none => rwa [step_of_none hcurrent]
    | some current =>
      obtain ⟨idx, i⟩ := current
      have hran : sim.program.Ran sim.step.program := by
        rw [step_of_current? hcurrent]
        exact sim.ran_stepAt idx i
      exact fun b hb => (begun_attempted hsim hcurrent ih b ((bodies_step hcurrent).subset hb)).ran hran
  | loadText base text _ ih => exact ih

/-- A loop UNTIL NE whose DO stands at the last address of all and whose body is the word at the first one. -/
def acrossLastAddress : Program :=
  { instrs :=
      [{ line := 1, opcode := .loop, address := 4294967295, operands := [.target (.abs 0), .cond .ne] },
        { line := 2, opcode := .nop, address := 0 }] }

/-- The condition holds behind the body, and the loop goes round for all that. -/
example :
    let sim := (Simulator.load acrossLastAddress {}).step
    sim.core.holds .ne .first = true ∧ sim.step.core.loops.frames = [⟨0, 0, 65535, false⟩] ∧ sim.step.pc = some 1 :=
  ⟨rfl, rfl, rfl⟩

end Simulator

end QuadDsp
