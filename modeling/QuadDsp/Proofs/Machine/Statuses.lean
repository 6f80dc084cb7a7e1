import QuadDsp.Proofs.Machine.Calls

/-! # Statuses put aside

PUSH puts the flags of all lanes and the modes aside, part by part on four stacks, and POP brings them back. The
stacks are in one state, so what lies on them is a list of frames (`StatusStacks.frames`), and a word puts one frame on
it, takes one off or leaves it alone, unless a RESET takes place (`Simulator.frames_step_cases`). So a POP that leads
back to as many frames as there were in front of a PUSH brings back what that PUSH put aside, whatever lies between
(`Simulator.StatusBracket.restored`). -/

namespace QuadDsp

/-- A status is put together from its parts. -/
theorem StatusFrame.of_parts (f : StatusFrame) :
    (⟨.ofFn fun l => ⟨f.flags.map (·.real) l, f.flags.map (·.imag) l, f.flags.map (·.both) l⟩, f.modes⟩ : StatusFrame) =
      f := by
  obtain ⟨flags, modes⟩ := f
  have hflags :
      Lanes.ofFn (fun l => ⟨flags.map (·.real) l, flags.map (·.imag) l, flags.map (·.both) l⟩) = flags :=
    Lanes.ext fun l => by simp only [Lanes.ofFn_apply, Lanes.map_apply]
  rw [hflags]

namespace StatusStacks

variable {s s' : StatusStacks} {t t' : StackState}

/-- The statuses of which all parts are there, latest first. -/
def frames (s : StatusStacks) : List StatusFrame :=
  (s.real.items.zip (s.imag.items.zip (s.both.items.zip s.modes.items))).map
    fun (real, imag, both, modes) => ⟨.ofFn fun l => ⟨real l, imag l, both l⟩, modes⟩

theorem head?_frames (s : StatusStacks) : s.frames.head? = s.top? := by
  obtain ⟨⟨_, real⟩, ⟨_, imag⟩, ⟨_, both⟩, ⟨_, modes⟩⟩ := s
  cases real <;> cases imag <;> cases both <;> cases modes <;> rfl

theorem frames_pop (s : StatusStacks) : s.pop.frames = s.frames.tail := by
  obtain ⟨⟨_, real⟩, ⟨_, imag⟩, ⟨_, both⟩, ⟨_, modes⟩⟩ := s
  cases real <;> cases imag <;> cases both <;> cases modes <;> simp [pop, frames]

theorem length_items (h : ∀ x ∈ s.states, x = t) :
    s.real.items.length = t.length ∧ s.imag.items.length = t.length ∧ s.both.items.length = t.length ∧
      s.modes.items.length = t.length := by
  simp only [states, List.forall_mem_cons] at h
  obtain ⟨hreal, himag, hboth, hmodes, -⟩ := h
  exact ⟨congrArg (·.length) hreal, congrArg (·.length) himag, congrArg (·.length) hboth, congrArg (·.length) hmodes⟩

theorem length_frames (h : ∀ x ∈ s.states, x = t) : s.frames.length = s.modes.items.length := by
  obtain ⟨hreal, himag, hboth, hmodes⟩ := length_items h
  simp [frames, hreal, himag, hboth, hmodes]

theorem frames_push (h : ∀ x ∈ s.states, x = t) (f : StatusFrame) :
    (s.push f).frames = if s.isFull then s.frames else f :: s.frames := by
  simp only [states, List.forall_mem_cons] at h
  obtain ⟨hreal, himag, hboth, hmodes, -⟩ := h
  unfold push
  split
  · rfl
  · next hroom =>
    -- the stacks that are not asked have room as well
    have hfull {α : Type} {x : BoundedStack α} (hx : x.state = t) : x.isFull = false := by
      rw [Bool.not_eq_true] at hroom
      exact (congrArg (fun t : StackState => decide (t.depth ≤ t.length)) (hx.trans hmodes.symm)).trans hroom
    simp only [frames, BoundedStack.items_push, hfull hreal, hfull himag, hfull hboth, hfull hmodes, Bool.false_eq_true,
      if_false, List.zip_cons_cons, List.map_cons, f.of_parts]

/-- What lies on the stacks is told by their frames. -/
theorem entries_eq (h : ∀ x ∈ s.states, x = t) :
    s.entries = (s.frames.map (·.flags.map (·.real)), s.frames.map (·.flags.map (·.imag)),
      s.frames.map (·.flags.map (·.both)), s.frames.map (·.modes)) := by
  obtain ⟨hreal, himag, hboth, hmodes⟩ := length_items h
  have hpart (v w u : Lanes Flags) : (Lanes.ofFn fun l => (⟨v l, w l, u l⟩ : FlagBank)).map (·.real) = v ∧
      (Lanes.ofFn fun l => (⟨v l, w l, u l⟩ : FlagBank)).map (·.imag) = w ∧
      (Lanes.ofFn fun l => (⟨v l, w l, u l⟩ : FlagBank)).map (·.both) = u := by
    refine ⟨Lanes.ext fun l => ?_, Lanes.ext fun l => ?_, Lanes.ext fun l => ?_⟩ <;>
      simp only [Lanes.map_apply, Lanes.ofFn_apply]
  -- no entry is without its partners
  have hfst {α β : Type} {l : List α} {l' : List β} (hl : l.length = l'.length) : (l.zip l').map (·.1) = l :=
    List.map_fst_zip hl.le
  have hsnd {α β γ : Type} {l : List α} {l' : List β} (g : β → γ) (hl : l.length = l'.length) :
      (l.zip l').map (fun x => g x.2) = l'.map g :=
    (List.map_map (g := g) (f := Prod.snd)).symm.trans (congrArg (List.map g) (List.map_snd_zip hl.ge))
  have hinner : s.both.items.length = s.modes.items.length := hboth.trans hmodes.symm
  have hmodesOf : (s.both.items.zip s.modes.items).map (·.2) = s.modes.items := List.map_snd_zip hinner.ge
  have hmiddle : s.imag.items.length = (s.both.items.zip s.modes.items).length := by simp [himag, hboth, hmodes]
  have houter : s.real.items.length = (s.imag.items.zip (s.both.items.zip s.modes.items)).length := by
    simp [hreal, himag, hboth, hmodes]
  simp only [entries, frames, List.map_map, Function.comp_def, hpart]
  rw [hfst houter, hsnd (·.1) houter, hfst hmiddle, hsnd (·.2.1) houter, hsnd (·.1) hmiddle, hfst hinner,
    hsnd (·.2.2) houter, hsnd (·.2) hmiddle, hmodesOf]

theorem entries_congr (h : ∀ x ∈ s.states, x = t) (h' : ∀ x ∈ s'.states, x = t') (hframes : s'.frames = s.frames) :
    s'.entries = s.entries := by
  rw [entries_eq h, entries_eq h', hframes]

end StatusStacks

namespace Core

theorem statuses_popStatus (s : Core) (addr : Nat) (delaySlots : Bool) :
    (s.follow addr delaySlots .popStatus).1.statuses = s.statuses.pop :=
  congrArg (·.2.2.1) (s.sequencing_popStatus addr delaySlots)

theorem status_popStatus {s : Core} {f : StatusFrame} (h : s.statuses.top? = some f) (addr : Nat) (delaySlots : Bool) :
    (s.follow addr delaySlots .popStatus).1.status = f := by
  rw [follow, h]
  rfl

end Core

namespace Simulator

variable {sim : Simulator} {p : Program} {config : Config} {idx n addr : Nat} {i : Instruction}

/-- Loops that end at a word leave statuses, flags and modes alone. -/
theorem status_step_of_asked (h : sim.current? = some (idx, i)) {f : Flow} (hasked : sim.asked i = some f) :
    sim.step.core.statuses = (sim.core.follow i.programAddr sim.controller.delaySlots f).1.statuses ∧
      sim.step.core.status = (sim.core.follow i.programAddr sim.controller.delaySlots f).1.status := by
  obtain ⟨loops, counter, hrounded⟩ :=
    sim.controller.exists_rounded (sim.committed i).1 sim.program i (sim.asked i)
  have hfollowed : (sim.controller.followed (sim.committed i).1 i (sim.asked i)).1 =
      (sim.core.follow i.programAddr sim.controller.delaySlots f).1 := by
    rw [hasked, committed_of_asked hasked]
    rfl
  have hstep : sim.step.core =
      { (sim.core.follow i.programAddr sim.controller.delaySlots f).1 with loops := loops, counter := counter } :=
    (core_step h).trans (hrounded.trans (by rw [hfollowed]))
  rw [hstep]
  exact ⟨rfl, rfl⟩

theorem statuses_step_of_asked_none (h : sim.current? = some (idx, i)) (hasked : sim.asked i = none) :
    sim.step.core.statuses = sim.core.statuses := by
  obtain ⟨loops, counter, hrounded⟩ :=
    sim.controller.exists_rounded (sim.committed i).1 sim.program i (sim.asked i)
  rw [(core_step h).trans hrounded, followed_of_asked_none hasked]
  exact congrArg (·.2.2.1) (sim.sequencing_committed i)

/-- A word puts a status aside, takes one back, or leaves the statuses put aside alone. -/
theorem frames_step_cases {t : StackState} (huniform : sim.core.Uniform .statuses t) (hreset : ¬sim.Resets) :
    sim.step.core.statuses.frames = sim.core.statuses.frames ∨
      (∃ f, sim.step.core.statuses.frames = f :: sim.core.statuses.frames) ∨
      sim.step.core.statuses.frames = sim.core.statuses.frames.tail := by
  cases hcurrent : sim.current? with
  | none => exact .inl (by rw [step_of_none hcurrent])
  | some current =>
    obtain ⟨idx, i⟩ := current
    cases hasked : sim.asked i with
    | none => exact .inl (by rw [statuses_step_of_asked_none hcurrent hasked])
    | some f =>
      rw [(status_step_of_asked hcurrent hasked).1]
      cases f with
      | pushStatus =>
        rw [Core.follow, StatusStacks.frames_push huniform]
        split
        · exact .inl rfl
        · exact .inr (.inl ⟨_, rfl⟩)
      | popStatus =>
        rw [sim.core.statuses_popStatus, StatusStacks.frames_pop]
        exact .inr (.inr rfl)
      | reset => exact absurd (resets_of_flow hcurrent hasked) hreset
      | jump | call | ret | loop => exact .inl rfl

/-- A PUSH that finds room puts flags and modes aside. -/
theorem frames_step_of_push {t : StackState} (huniform : sim.core.Uniform .statuses t)
    (hpush : sim.AsksAt addr .pushStatus)
    (hroom : sim.core.statuses.modes.items.length < sim.core.statuses.modes.depth) :
    sim.step.core.statuses.frames = sim.core.status :: sim.core.statuses.frames := by
  obtain ⟨idx, i, hcurrent, -, hasked⟩ := hpush
  have hfull : sim.core.statuses.isFull = false := by
    rw [StatusStacks.isFull, BoundedStack.isFull]
    exact decide_eq_false (Nat.not_le.2 hroom)
  rw [(status_step_of_asked hcurrent hasked).1, Core.follow, StatusStacks.frames_push huniform, hfull]
  rfl

theorem frames_step_of_pop (hpop : sim.AsksAt addr .popStatus) :
    sim.step.core.statuses.frames = sim.core.statuses.frames.tail := by
  obtain ⟨idx, i, hcurrent, -, hasked⟩ := hpop
  rw [(status_step_of_asked hcurrent hasked).1, sim.core.statuses_popStatus, StatusStacks.frames_pop]

theorem status_step_of_pop (hpop : sim.AsksAt addr .popStatus) {f : StatusFrame} {rest : List StatusFrame}
    (hframes : sim.core.statuses.frames = f :: rest) : sim.step.core.status = f := by
  obtain ⟨idx, i, hcurrent, -, hasked⟩ := hpop
  have htop : sim.core.statuses.top? = some f := by rw [← StatusStacks.head?_frames, hframes]; rfl
  rw [(status_step_of_asked hcurrent hasked).2, Core.status_popStatus htop]

theorem Reachable.length_frames (hreach : Reachable p config sim) :
    sim.core.statuses.frames.length = sim.core.statuses.modes.items.length := by
  obtain ⟨t, ht, -⟩ := hreach.uniformStacks.states .statuses
  exact StatusStacks.length_frames ht

/-- A run of `n` steps that starts with a PUSH and ends in front of the POP that leads back to as many statuses as
lay aside in front of the PUSH: the PUSH finds room, no RESET takes place, and the POP is the first to lead back. The
stack of modes tells how many there are. -/
structure StatusBracket (sim : Simulator) (n : Nat) : Prop where
  push : ∃ addr, sim.AsksAt addr .pushStatus
  room : sim.core.statuses.modes.items.length < sim.core.statuses.modes.depth
  noReset : ∀ k < n, ¬(step^[k] sim).Resets
  between : ∀ k, 0 < k → k ≤ n →
    (step^[k] sim).core.statuses.modes.items.length ≠ sim.core.statuses.modes.items.length
  pop : ∃ addr, (step^[n] sim).AsksAt addr .popStatus
  back : (step^[n + 1] sim).core.statuses.modes.items.length = sim.core.statuses.modes.items.length

namespace StatusBracket

theorem pos (h : sim.StatusBracket n) : 0 < n := by
  rcases Nat.eq_zero_or_pos n with rfl | hpos
  · -- one word does not ask for both
    obtain ⟨addr, idx, i, hcurrent, -, hpush⟩ := h.push
    obtain ⟨addr', idx', i', hcurrent', -, hpop⟩ := h.pop
    cases hcurrent.symm.trans hcurrent'
    cases hpush.symm.trans hpop
  · exact hpos

/-- The POP finds what the PUSH put aside, on top of what lay aside before. -/
theorem frames (hreach : Reachable p config sim) (h : sim.StatusBracket n) :
    (step^[n] sim).core.statuses.frames = sim.core.status :: sim.core.statuses.frames := by
  have hlength (k : Nat) := (hreach.iterate k).length_frames
  have hbefore := hreach.length_frames
  obtain ⟨t, ht, -⟩ := hreach.uniformStacks.states .statuses
  obtain ⟨addr, hpush⟩ := h.push
  obtain ⟨front, hfront⟩ := exists_front_of_moves (fun k => (step^[k] sim).core.statuses.frames)
    (frames_step_of_push ht hpush h.room)
    (fun k hk => by
      obtain ⟨t, ht, -⟩ := (hreach.iterate k).uniformStacks.states .statuses
      simp only [Function.iterate_succ_apply']
      exact frames_step_cases ht (h.noReset k hk))
    (fun k hpos hk => by
      rw [hlength, hbefore]
      exact h.between k hpos hk)
    h.pos (Nat.le_refl n)
  -- the POP takes one frame off, and as many are left as lay aside before
  obtain ⟨addr', hpop⟩ := h.pop
  have htail : (front ++ sim.core.status :: sim.core.statuses.frames).tail.length =
      sim.core.statuses.frames.length := by
    rw [← hfront, hbefore, ← h.back, ← hlength, Function.iterate_succ_apply', frames_step_of_pop hpop]
  obtain rfl := nil_of_tail_length htail
  exact hfront

/-- What a bracketed run leaves as it was: the flags of all lanes, the modes, and what lies aside on each stack. -/
structure Restored (sim sim' : Simulator) : Prop where
  flags : sim'.core.flags = sim.core.flags
  modes : sim'.core.modes = sim.core.modes
  entries : sim'.core.statuses.entries = sim.core.statuses.entries

/-- PUSH and POP bracket whatever lies between them. -/
theorem restored (hreach : Reachable p config sim) (h : sim.StatusBracket n) : Restored sim (step^[n + 1] sim) := by
  obtain ⟨addr, hpop⟩ := h.pop
  have hstatus := status_step_of_pop hpop (h.frames hreach)
  have hframes : (step^[n] sim).step.core.statuses.frames = sim.core.statuses.frames := by
    rw [frames_step_of_pop hpop, h.frames hreach]
    rfl
  obtain ⟨t, ht, -⟩ := hreach.uniformStacks.states .statuses
  obtain ⟨t', ht', -⟩ := (hreach.iterate (n + 1)).uniformStacks.states .statuses
  rw [← Function.iterate_succ_apply' step] at hstatus hframes
  exact ⟨congrArg (·.flags) hstatus, congrArg (·.modes) hstatus, StatusStacks.entries_congr ht ht' hframes⟩

/-- A PUSH that finds room and one that does not, and a change of modes in front of the POP. -/
def nestedPush : Program :=
  (((((Builder.origin 0).push { line := 1, opcode := .push, operands := [.key .sts] }).push
    { line := 2, opcode := .push, operands := [.key .sts] }).push
      { line := 3, opcode := .ena, operands := [.key (.mode .aluSat)] }).push
        { line := 4, opcode := .pop, operands := [.key .sts] }).program

/-- The POP brings back what the first PUSH put aside; the second one put nothing aside. -/
theorem restored_nestedPush :
    let sim := load nestedPush { stackDepth := 1 }
    Reachable nestedPush { stackDepth := 1 } sim ∧ sim.StatusBracket 3 ∧
      (step^[3] sim).core.modes = { aluSat := true } ∧ Restored sim (step^[4] sim) := by
  intro sim
  have hreach : Reachable nestedPush { stackDepth := 1 } sim := .load
  have hbracket : sim.StatusBracket 3 := by
    refine ⟨⟨0, 0, _, rfl, rfl, rfl⟩, by decide, fun k hk => ?_, fun k hpos hk => ?_, ⟨3, 3, _, rfl, rfl, rfl⟩, rfl⟩
    · rintro ⟨idx, i, hcurrent, hop, -⟩
      obtain rfl | rfl | rfl : k = 0 ∨ k = 1 ∨ k = 2 := by omega
      all_goals
        cases hcurrent
        cases hop
    · obtain rfl | rfl | rfl : k = 1 ∨ k = 2 ∨ k = 3 := by omega
      all_goals decide
  exact ⟨hreach, hbracket, rfl, hbracket.restored hreach⟩

end StatusBracket

end Simulator

end QuadDsp
