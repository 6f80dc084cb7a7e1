import Mathlib.Logic.Function.Iterate
import QuadDsp.Proofs.Machine.Cells
import QuadDsp.Proofs.Machine.Flows
import QuadDsp.Proofs.Machine.Reachable

/-! # Stack discipline

The parts of a loop lie on four stacks, and the parts of a saved status on four others. Each word does the
same to all stacks of a kind, so they are always in one state (`Core.Uniform`): they hold equally many entries,
at most as many as they have room for, and have set the same flags. A push that finds no room and a pop that
finds no entry set a flag and leave the entries alone (`Core.follow_refused`); no word but RESET takes a flag
back (`StackState.Leads`). `Simulator.Reachable.stackDiscipline` says this of every run. -/

namespace QuadDsp

/-- What can be said of a stack without a look at its entries. -/
structure StackState where
  depth : Nat
  length : Nat
  overflow : Bool
  underflow : Bool

namespace StackState

def push (t : StackState) : StackState :=
  if t.depth ≤ t.length then { t with overflow := true } else { t with length := t.length + 1 }

def pop (t : StackState) : StackState :=
  if t.length = 0 then { t with underflow := true } else { t with length := t.length - 1 }

def flag (t : StackState) (isOverflow : Bool) : Bool := if isOverflow then t.overflow else t.underflow

/-- There is no room for a push, or no entry for a pop. -/
def Refuses (t : StackState) (isOverflow : Bool) : Prop :=
  if isOverflow then t.depth ≤ t.length else t.length = 0

/-- A state that can follow while no stack is made anew. -/
structure Leads (t t' : StackState) : Prop where
  depth : t'.depth = t.depth
  fits : t.length ≤ t.depth → t'.length ≤ t.depth
  flags : ∀ isOverflow, t.flag isOverflow = true → t'.flag isOverflow = true

theorem Leads.refl (t : StackState) : t.Leads t := ⟨rfl, id, fun _ => id⟩

theorem Leads.trans {t t' t'' : StackState} (h : t.Leads t') (h' : t'.Leads t'') : t.Leads t'' := by
  refine ⟨h'.depth.trans h.depth, fun hfits => ?_, fun b hb => h'.flags b (h.flags b hb)⟩
  have hfits' := h'.fits (h.depth ▸ h.fits hfits)
  rwa [h.depth] at hfits'

theorem leads_push (t : StackState) : t.Leads t.push := by
  unfold push
  split
  · refine ⟨rfl, id, fun b hb => ?_⟩
    cases b with
    | true => rfl
    | false => exact hb
  · next hroom => exact ⟨rfl, fun _ => Nat.lt_of_not_le hroom, fun _ => id⟩

theorem leads_pop (t : StackState) : t.Leads t.pop := by
  unfold pop
  split
  · refine ⟨rfl, id, fun b hb => ?_⟩
    cases b with
    | true => exact hb
    | false => rfl
  · exact ⟨rfl, fun hfits => Nat.le_trans (Nat.sub_le _ _) hfits, fun _ => id⟩

end StackState

namespace BoundedStack

variable {α : Type}

def state (s : BoundedStack α) : StackState := ⟨s.depth, s.items.length, s.overflow, s.underflow⟩

@[simp] theorem state_push (s : BoundedStack α) (a : α) : (s.push a).state = s.state.push := by
  by_cases hfull : s.depth ≤ s.items.length <;> simp [push, isFull, state, StackState.push, hfull]

@[simp] theorem state_pop (s : BoundedStack α) : s.pop.state = s.state.pop := by
  obtain ⟨depth, items, overflow, underflow⟩ := s
  cases items <;> simp [pop, state, StackState.pop]

@[simp] theorem state_setTop (s : BoundedStack α) (a : α) : (s.setTop a).state = s.state := by
  obtain ⟨depth, items, overflow, underflow⟩ := s
  cases items <;> rfl

@[simp] theorem state_empty (depth : Nat) : (empty depth : BoundedStack α).state = ⟨depth, 0, false, false⟩ := rfl

theorem push_of_full {s : BoundedStack α} (h : s.depth ≤ s.items.length) (a : α) : s.push a = s.overflowed := by
  simp [push, isFull, overflowed, h]

theorem pop_of_empty {s : BoundedStack α} (h : s.items.length = 0) : s.pop = { s with underflow := true } := by
  simp [pop, List.length_eq_zero_iff.1 h]

theorem state_overflowed {s : BoundedStack α} {t : StackState} (h : s.state = t) (hfull : t.depth ≤ t.length) :
    s.overflowed.state = t.push := by
  subst h
  have hfull : s.depth ≤ s.items.length := hfull
  simp [overflowed, state, StackState.push, hfull]

end BoundedStack

namespace LoopStacks

variable {s : LoopStacks} {t : StackState}

def states (s : LoopStacks) : List StackState := [s.first.state, s.last.state, s.count.state, s.forever.state]

/-- What lies on the stacks, stack by stack. -/
def entries (s : LoopStacks) := (s.first.items, s.last.items, s.count.items, s.forever.items)

theorem states_push (h : ∀ x ∈ s.states, x = t) (f : LoopFrame) : ∀ x ∈ (s.push f).states, x = t.push := by
  simp only [states, List.forall_mem_cons] at h ⊢
  obtain ⟨hfirst, hlast, hcount, hforever, -⟩ := h
  -- the stack of last words decides for all four whether there is room
  have hfull : s.isFull = decide (t.depth ≤ t.length) := by rw [← hlast]; rfl
  unfold push
  by_cases hroom : t.depth ≤ t.length
  · rw [hfull, if_pos (decide_eq_true hroom)]
    exact ⟨BoundedStack.state_overflowed hfirst hroom, BoundedStack.state_overflowed hlast hroom,
      BoundedStack.state_overflowed hcount hroom, BoundedStack.state_overflowed hforever hroom, nofun⟩
  · rw [hfull, if_neg (by simp [hroom])]
    simp [hfirst, hlast, hcount, hforever]

theorem states_pop (h : ∀ x ∈ s.states, x = t) : ∀ x ∈ s.pop.states, x = t.pop := by
  simp only [states, List.forall_mem_cons] at h ⊢
  obtain ⟨hfirst, hlast, hcount, hforever, -⟩ := h
  simp [pop, hfirst, hlast, hcount, hforever]

theorem states_again (s : LoopStacks) : s.again.states = s.states := by
  unfold again
  split <;> simp [states]

end LoopStacks

namespace StatusStacks

variable {s : StatusStacks} {t : StackState}

def states (s : StatusStacks) : List StackState := [s.real.state, s.imag.state, s.both.state, s.modes.state]

/-- What lies on the stacks, stack by stack. -/
def entries (s : StatusStacks) := (s.real.items, s.imag.items, s.both.items, s.modes.items)

theorem states_push (h : ∀ x ∈ s.states, x = t) (f : StatusFrame) : ∀ x ∈ (s.push f).states, x = t.push := by
  simp only [states, List.forall_mem_cons] at h ⊢
  obtain ⟨hreal, himag, hboth, hmodes, -⟩ := h
  -- here the stack of modes decides
  have hfull : s.isFull = decide (t.depth ≤ t.length) := by rw [← hmodes]; rfl
  unfold push
  by_cases hroom : t.depth ≤ t.length
  · rw [hfull, if_pos (decide_eq_true hroom)]
    exact ⟨BoundedStack.state_overflowed hreal hroom, BoundedStack.state_overflowed himag hroom,
      BoundedStack.state_overflowed hboth hroom, BoundedStack.state_overflowed hmodes hroom, nofun⟩
  · rw [hfull, if_neg (by simp [hroom])]
    simp [hreal, himag, hboth, hmodes]

theorem states_pop (h : ∀ x ∈ s.states, x = t) : ∀ x ∈ s.pop.states, x = t.pop := by
  simp only [states, List.forall_mem_cons] at h ⊢
  obtain ⟨hreal, himag, hboth, hmodes, -⟩ := h
  simp [pop, hreal, himag, hboth, hmodes]

end StatusStacks

namespace Core

/-- The states of the stacks of a kind. -/
def stackStates (s : Core) : StackName → List StackState
  | .calls => [s.calls.state]
  | .loops => s.loops.states
  | .statuses => s.statuses.states

/-- What lies on the stacks, stack by stack. -/
def entries (s : Core) := (s.calls.items, s.loops.entries, s.statuses.entries)

/-- All stacks of a kind are in one state. -/
def Uniform (s : Core) (k : StackName) (t : StackState) : Prop := ∀ x ∈ s.stackStates k, x = t

/-- All stacks of a kind have set a flag. -/
def Flagged (s : Core) (f : StackFault) : Prop := ∀ x ∈ s.stackStates f.stack, x.flag f.isOverflow = true

/-- What an attempt that causes a fault finds: stacks that are full, or empty ones. -/
def Refuses (s : Core) (f : StackFault) : Prop := ∀ x ∈ s.stackStates f.stack, x.Refuses f.isOverflow

/-- What the sequencer works on and words do not write. -/
def sequencing (s : Core) := (s.calls, s.loops, s.statuses, s.stackDepth)

variable {s : Core} {k : StackName} {t : StackState}

theorem sequencing_setAddress (s : Core) (r : Reg) (v : Int) : (s.setAddress r v).sequencing = s.sequencing := by
  obtain ⟨cls, i⟩ := r
  cases cls <;> rfl

theorem sequencing_apply (s : Core) (mask : Mask) (w : Write) : (s.apply mask w).sequencing = s.sequencing := by
  cases w with
  | address r v =>
    rw [apply]
    split
    · exact s.sequencing_setAddress r v
    · rfl
  | sys r v =>
    rw [apply]
    split
    · cases r <;> rfl
    · rfl
  | modes chosen on =>
    rw [apply]
    split <;> rfl
  | reg | acc | accView | flags | mem => rfl

theorem sequencing_commit (s : Core) (mem : Memory) (fx : Effects) : (commit s mem fx).1.sequencing = s.sequencing :=
  foldl_apply_eq sequencing (fun w _ s => s.sequencing_apply fx.mask w) s

theorem stackStates_congr {s' : Core} (h : s'.sequencing = s.sequencing) (k : StackName) :
    s'.stackStates k = s.stackStates k := by
  simp only [sequencing, Prod.mk.injEq] at h
  obtain ⟨hcalls, hloops, hstatuses, -⟩ := h
  unfold stackStates
  rw [hcalls, hloops, hstatuses]

theorem entries_congr {s' : Core} (h : s'.sequencing = s.sequencing) : s'.entries = s.entries := by
  simp only [sequencing, Prod.mk.injEq] at h
  obtain ⟨hcalls, hloops, hstatuses, -⟩ := h
  unfold entries
  rw [hcalls, hloops, hstatuses]

theorem sequencing_popStatus (s : Core) (addr : Nat) (delaySlots : Bool) :
    (s.follow addr delaySlots .popStatus).1.sequencing = ({ s with statuses := s.statuses.pop } : Core).sequencing := by
  simp only [follow]
  split <;> rfl

/-- Whatever a word asks for, all stacks of a kind go to one state, and only RESET takes a flag back. -/
theorem uniform_follow (h : s.Uniform k t) (addr : Nat) (delaySlots : Bool) {f : Flow} (hf : f ≠ .reset) :
    ∃ t', t.Leads t' ∧ (s.follow addr delaySlots f).1.Uniform k t' := by
  have hsame : ∃ t', t.Leads t' ∧ s.Uniform k t' := ⟨t, .refl t, h⟩
  cases f with
  | jump target => exact hsame
  | call target =>
    cases k with
    | calls =>
      have hcalls : s.calls.state = t := h _ List.mem_cons_self
      exact ⟨t.push, t.leads_push, by simp [Uniform, stackStates, follow, hcalls]⟩
    | loops => exact hsame
    | statuses => exact hsame
  | ret =>
    cases k with
    | calls =>
      have hcalls : s.calls.state = t := h _ List.mem_cons_self
      exact ⟨t.pop, t.leads_pop, by simp [Uniform, stackStates, follow, hcalls]⟩
    | loops => exact hsame
    | statuses => exact hsame
  | loop last term =>
    cases k with
    | calls => exact hsame
    | loops => exact ⟨t.push, t.leads_push, LoopStacks.states_push h _⟩
    | statuses => exact hsame
  | pushStatus =>
    cases k with
    | calls => exact hsame
    | loops => exact hsame
    | statuses => exact ⟨t.push, t.leads_push, StatusStacks.states_push h _⟩
  | popStatus =>
    -- the status that comes back is written to the core, not to a stack
    unfold Uniform
    rw [stackStates_congr (s.sequencing_popStatus addr delaySlots)]
    cases k with
    | calls => exact hsame
    | loops => exact hsame
    | statuses => exact ⟨t.pop, t.leads_pop, StatusStacks.states_pop h⟩
  | reset => exact absurd rfl hf

theorem sequencing_withLoops (s : Core) (loops : LoopStacks) (counter : Nat) :
    ({ s with loops := loops, counter := counter } : Core).sequencing = (s.calls, loops, s.statuses, s.stackDepth) :=
  rfl

theorem stackStates_repeatLoop (s : Core) (top : LoopFrame) (k : StackName) :
    (s.repeatLoop top).stackStates k = s.stackStates k := by
  have hagain : (s.repeatLoop top).sequencing = ({ s with loops := s.loops.again } : Core).sequencing :=
    s.sequencing_withLoops s.loops.again top.again.count
  rw [stackStates_congr hagain]
  cases k with
  | loops => exact s.loops.states_again
  | calls | statuses => rfl

theorem uniform_endRound (p : Program) (addr : Nat) (frames : List LoopFrame) (h : s.Uniform k t) :
    ∃ t', t.Leads t' ∧ (endRound p addr s frames).1.Uniform k t' := by
  induction frames generalizing s t with
  | nil => exact ⟨t, .refl t, h⟩
  | cons top outer ih =>
    unfold endRound
    split
    · exact ⟨t, .refl t, h⟩
    split
    -- a loop that is left takes one entry off each of its stacks, and the loop around it may end here too
    · obtain ⟨t', hleads, hleave⟩ : ∃ t', t.Leads t' ∧ (s.leaveLoop outer).Uniform k t' := by
        cases k with
        | calls => exact ⟨t, .refl t, h⟩
        | loops => exact ⟨t.pop, t.leads_pop, LoopStacks.states_pop h⟩
        | statuses => exact ⟨t, .refl t, h⟩
      obtain ⟨t'', hleads', hend⟩ := ih hleave
      exact ⟨t'', hleads.trans hleads', hend⟩
    · exact ⟨t, .refl t, fun x hx => h x (s.stackStates_repeatLoop top k ▸ hx)⟩

theorem uniform_reset (s : Core) (k : StackName) : s.reset.Uniform k ⟨s.stackDepth, 0, false, false⟩ := by
  cases k <;>
    simp [Uniform, stackStates, reset, LoopStacks.states, LoopStacks.empty, StatusStacks.states, StatusStacks.empty]

theorem stackDepth_follow (s : Core) (addr : Nat) (delaySlots : Bool) (f : Flow) :
    (s.follow addr delaySlots f).1.stackDepth = s.stackDepth := by
  cases f with
  | popStatus =>
    simp only [follow]
    split <;> rfl
  | _ => rfl

theorem endRound_of_ne (p : Program) {addr : Nat} (h : ∀ last, s.loops.last.top? = some last → last ≠ addr) :
    endRound p addr s s.loops.frames = (s, none) := by
  have hhead := s.loops.head?_frames
  cases hframes : s.loops.frames with
  | nil => rfl
  | cons top outer =>
    rw [hframes] at hhead
    have hlast : s.loops.last.top? = some top.last := by
      have htop : s.loops.top? = some top := hhead.symm
      obtain ⟨first, -, htop⟩ := Option.bind_eq_some_iff.1 htop
      obtain ⟨last, hlast, htop⟩ := Option.bind_eq_some_iff.1 htop
      obtain ⟨count, -, htop⟩ := Option.bind_eq_some_iff.1 htop
      obtain ⟨forever, -, htop⟩ := Option.bind_eq_some_iff.1 htop
      cases htop
      exact hlast
    rw [endRound, if_pos (h top.last hlast)]

end Core

/-- The fault that an operation causes where its stack refuses the attempt. -/
def Opcode.stackFault? : Opcode → Option StackFault
  | .call => some ⟨.calls, true⟩
  | .rts => some ⟨.calls, false⟩
  | .loop => some ⟨.loops, true⟩
  | .push => some ⟨.statuses, true⟩
  | .pop => some ⟨.statuses, false⟩
  | _ => none

theorem Opcode.asks_of_stackFault? {op : Opcode} {fault : StackFault} (h : op.stackFault? = some fault) :
    op.asks = true := by
  cases op <;> first | rfl | cases h

namespace Core

variable {s : Core}

/-- An attempt that is refused sets its flag and leaves what lies on the stacks. -/
theorem follow_refused (addr : Nat) (delaySlots : Bool) {f : Flow} {fault : StackFault}
    (hf : f.opcode.stackFault? = some fault) (h : s.Refuses fault) :
    (s.follow addr delaySlots f).1.entries = s.entries ∧ (s.follow addr delaySlots f).1.Flagged fault := by
  cases f with
  | jump | reset => cases hf
  | call target =>
    cases hf
    have hfull : s.calls.depth ≤ s.calls.items.length := h s.calls.state (by simp [stackStates])
    simp [follow, entries, Flagged, stackStates, BoundedStack.push_of_full hfull, BoundedStack.overflowed,
      BoundedStack.state, StackState.flag]
  | ret =>
    cases hf
    have hempty : s.calls.items.length = 0 := h s.calls.state (by simp [stackStates])
    simp [follow, entries, Flagged, stackStates, BoundedStack.pop_of_empty hempty, BoundedStack.state, StackState.flag]
  | loop last term =>
    cases hf
    have hfull : s.loops.isFull = true :=
      decide_eq_true (h s.loops.last.state (by simp [stackStates, LoopStacks.states]))
    simp [follow, entries, Flagged, stackStates, LoopStacks.push, hfull, LoopStacks.entries, LoopStacks.states,
      BoundedStack.overflowed, BoundedStack.state, StackState.flag]
  | pushStatus =>
    cases hf
    have hfull : s.statuses.isFull = true :=
      decide_eq_true (h s.statuses.modes.state (by simp [stackStates, StatusStacks.states]))
    simp [follow, entries, Flagged, stackStates, StatusStacks.push, hfull, StatusStacks.entries, StatusStacks.states,
      BoundedStack.overflowed, BoundedStack.state, StackState.flag]
  | popStatus =>
    cases hf
    have hpop := s.sequencing_popStatus addr delaySlots
    have hempty : ∀ x ∈ s.statuses.states, x.length = 0 := h
    simp only [StatusStacks.states, List.forall_mem_cons, BoundedStack.state] at hempty
    obtain ⟨hreal, himag, hboth, hmodes, -⟩ := hempty
    rw [Flagged, stackStates_congr hpop, entries_congr hpop]
    simp [entries, stackStates, StatusStacks.pop, StatusStacks.entries, StatusStacks.states,
      BoundedStack.pop_of_empty, hreal, himag, hboth, hmodes, BoundedStack.state, StackState.flag]

theorem Flagged.of_leads {s' : Core} {fault : StackFault} {t t' : StackState} (h : s.Flagged fault)
    (ht : s.Uniform fault.stack t) (hleads : t.Leads t') (ht' : s'.Uniform fault.stack t') : s'.Flagged fault := by
  have hne : ∃ x, x ∈ s.stackStates fault.stack := by
    cases fault.stack <;> exact ⟨_, List.mem_cons_self⟩
  obtain ⟨x, hx⟩ := hne
  have hflag := h x hx
  rw [ht x hx] at hflag
  intro x' hx'
  rw [ht' x' hx']
  exact hleads.flags _ hflag

end Core

namespace Controller

variable {p : Program} {s : Core} {k : StackName} {t : StackState} (c : Controller) (i : Instruction)

theorem uniform_followed (h : s.Uniform k t) {flow : Option Flow} (hflow : flow ≠ some .reset) :
    ∃ t', t.Leads t' ∧ (c.followed s i flow).1.Uniform k t' := by
  cases flow with
  | none => exact ⟨t, .refl t, h⟩
  | some f => exact Core.uniform_follow h _ _ fun hf => hflow (congrArg some hf)

/-- The end of a loop leaves the flags that the sequencer has set. -/
theorem flagged_rounded {flow : Option Flow} {fault : StackFault}
    (hfollowed : (c.followed s i flow).1.Uniform fault.stack t) (hflag : (c.followed s i flow).1.Flagged fault) :
    (c.rounded s p i flow).1.Flagged fault := by
  unfold rounded
  dsimp only
  split
  · exact hflag
  · obtain ⟨t', hleads, hend⟩ := Core.uniform_endRound p i.programAddr _ hfollowed
    exact hflag.of_leads hfollowed hleads hend

theorem uniform_rounded (h : s.Uniform k t) {flow : Option Flow} (hflow : flow ≠ some .reset) :
    ∃ t', t.Leads t' ∧ (c.rounded s p i flow).1.Uniform k t' := by
  obtain ⟨t', hleads, hfollowed⟩ := c.uniform_followed i h hflow
  unfold rounded
  dsimp only
  split
  · exact ⟨t', hleads, hfollowed⟩
  · obtain ⟨t'', hleads', hend⟩ := Core.uniform_endRound p i.programAddr _ hfollowed
    exact ⟨t'', hleads.trans hleads', hend⟩

theorem uniform_rounded_reset (s : Core) (k : StackName) :
    (c.rounded s p i (some .reset)).1.Uniform k ⟨s.stackDepth, 0, false, false⟩ := by
  unfold rounded
  dsimp only
  split
  · exact s.uniform_reset k
  · exact s.uniform_reset k

theorem stackDepth_rounded (s : Core) (flow : Option Flow) : (c.rounded s p i flow).1.stackDepth = s.stackDepth := by
  have hfollowed : (c.followed s i flow).1.stackDepth = s.stackDepth := by
    cases flow with
    | none => rfl
    | some f => exact s.stackDepth_follow _ _ f
  obtain ⟨loops, counter, hrounded⟩ := c.exists_rounded s p i flow
  rw [hrounded, hfollowed]

end Controller

namespace Simulator

/-- The next word is a RESET that takes place. -/
def Resets (sim : Simulator) : Prop :=
  ∃ idx i, sim.current? = some (idx, i) ∧ i.opcode = .reset ∧
    (effects sim.core sim.mem sim.program i).1.flow = some .reset

/-- The stacks of each kind are in one state, with as much room as the configuration says and no more entries
than that. -/
structure UniformStacks (config : Config) (sim : Simulator) : Prop where
  depth : sim.core.stackDepth = config.stackDepth
  states : ∀ k, ∃ t, sim.core.Uniform k t ∧ t.depth = config.stackDepth ∧ t.length ≤ config.stackDepth

variable {sim : Simulator} {idx : Nat} {i : Instruction} {config : Config}

theorem core_step (h : sim.current? = some (idx, i)) :
    sim.step.core =
      let fx := (effects sim.core sim.mem sim.program i).1
      (sim.controller.rounded (commit sim.core sim.mem fx).1 sim.program i fx.flow).1 := by
  rw [step_of_current? h, core_stepAt]
  exact Controller.core_advance ..

theorem resets_of_flow (h : sim.current? = some (idx, i))
    (hflow : (effects sim.core sim.mem sim.program i).1.flow = some .reset) : sim.Resets := by
  obtain ⟨fx, hexecute, hreset⟩ := execute_of_flow hflow
  exact ⟨idx, i, h, opcode_of_flow hexecute hreset, hflow⟩

theorem uniform_step (hreset : ¬sim.Resets) {k : StackName} {t : StackState} (h : sim.core.Uniform k t) :
    ∃ t', t.Leads t' ∧ sim.step.core.Uniform k t' := by
  cases hcurrent : sim.current? with
  | none =>
    rw [step_of_none hcurrent]
    exact ⟨t, .refl t, h⟩
  | some current =>
    obtain ⟨idx, i⟩ := current
    rw [core_step hcurrent]
    refine sim.controller.uniform_rounded i (fun x hx => h x ?_) fun hflow => hreset (resets_of_flow hcurrent hflow)
    rwa [Core.stackStates_congr (sim.core.sequencing_commit _ _)] at hx

theorem uniform_step_of_resets (hreset : sim.Resets) (k : StackName) :
    sim.step.core.Uniform k ⟨sim.core.stackDepth, 0, false, false⟩ := by
  obtain ⟨idx, i, hcurrent, -, hflow⟩ := hreset
  have hdepth := congrArg (fun x => x.2.2.2)
    (sim.core.sequencing_commit sim.mem (effects sim.core sim.mem sim.program i).1)
  rw [core_step hcurrent]
  dsimp only
  rw [hflow, ← show _ = sim.core.stackDepth from hdepth]
  exact sim.controller.uniform_rounded_reset i _ k

theorem stackDepth_step (sim : Simulator) : sim.step.core.stackDepth = sim.core.stackDepth := by
  cases hcurrent : sim.current? with
  | none => rw [step_of_none hcurrent]
  | some current =>
    rw [core_step hcurrent]
    exact (sim.controller.stackDepth_rounded current.2 _ _).trans
      (congrArg (fun x => x.2.2.2) (sim.core.sequencing_commit sim.mem _))

theorem UniformStacks.step (h : sim.UniformStacks config) : sim.step.UniformStacks config := by
  refine ⟨sim.stackDepth_step.trans h.depth, fun k => ?_⟩
  by_cases hreset : sim.Resets
  · exact ⟨_, uniform_step_of_resets hreset k, h.depth, Nat.zero_le _⟩
  · obtain ⟨t, ht, hdepth, hfits⟩ := h.states k
    obtain ⟨t', hleads, ht'⟩ := uniform_step hreset ht
    exact ⟨t', ht', hleads.depth.trans hdepth, hdepth ▸ hleads.fits (hdepth ▸ hfits)⟩

theorem UniformStacks.flagged_step (h : sim.UniformStacks config) (hreset : ¬sim.Resets) {fault : StackFault}
    (hflag : sim.core.Flagged fault) : sim.step.core.Flagged fault := by
  obtain ⟨t, ht, -⟩ := h.states fault.stack
  obtain ⟨t', hleads, ht'⟩ := uniform_step hreset ht
  exact hflag.of_leads ht hleads ht'

theorem UniformStacks.flagged_iterate (h : sim.UniformStacks config) {n : Nat}
    (hreset : ∀ k < n, ¬(Simulator.step^[k] sim).Resets) {fault : StackFault} (hflag : sim.core.Flagged fault) :
    (Simulator.step^[n] sim).core.Flagged fault := by
  induction n generalizing sim with
  | zero => exact hflag
  | succ n ih =>
    rw [Function.iterate_succ_apply]
    refine ih h.step (fun k hk => ?_) (h.flagged_step (hreset 0 (Nat.succ_pos n)) hflag)
    rw [← Function.iterate_succ_apply]
    exact hreset (k + 1) (Nat.succ_lt_succ hk)

/-- The core when the sequencer has carried out what the word `i` asks for, before loops end at it. -/
def attempted (sim : Simulator) (i : Instruction) : Core :=
  let fx := (effects sim.core sim.mem sim.program i).1
  (sim.controller.followed (commit sim.core sim.mem fx).1 i fx.flow).1

/-- The attempt of the word `i` is refused: nothing moves on the stacks, and the flag is set. -/
structure RefusedAt (sim : Simulator) (i : Instruction) (fault : StackFault) : Prop where
  entries : (sim.attempted i).entries = sim.core.entries
  flagged : (sim.attempted i).Flagged fault
  flagged_step : sim.step.core.Flagged fault
  /-- in the same step only the end of a loop can take entries off -/
  entries_step : (∀ last, sim.core.loops.last.top? = some last → last ≠ i.programAddr) →
    sim.step.core.entries = sim.core.entries

/-- A push onto full stacks or a pop from empty ones is refused. -/
theorem UniformStacks.refusedAt (h : sim.UniformStacks config) (hcurrent : sim.current? = some (idx, i)) {fx : Effects}
    (hexecute : execute sim.core sim.mem sim.program i = .ok fx) (hholds : sim.core.holds i.cond .first = true)
    {fault : StackFault} (hfault : i.opcode.stackFault? = some fault) (hrefuses : sim.core.Refuses fault) :
    sim.RefusedAt i fault := by
  have heffects : (effects sim.core sim.mem sim.program i).1 = fx := by rw [effects, hexecute]
  obtain ⟨f, hop, hflow⟩ : ∃ f : Flow, f.opcode = i.opcode ∧ fx.flow = some f := by
    rcases flow_of_execute hexecute with ⟨f, hop, hf⟩ | ⟨hasks, -⟩
    · exact ⟨f, hop, by rw [hf, if_pos hholds]⟩
    · rw [Opcode.asks_of_stackFault? hfault] at hasks
      cases hasks
  -- the writes of the word leave the stacks alone
  have hcommit := sim.core.sequencing_commit sim.mem fx
  have hrefuses' : (commit sim.core sim.mem fx).1.Refuses fault := fun x hx =>
    hrefuses x (Core.stackStates_congr hcommit _ ▸ hx)
  have hfollowed : (sim.controller.followed (commit sim.core sim.mem fx).1 i fx.flow).1 = sim.attempted i := by
    rw [attempted, heffects]
  have hfollow : sim.attempted i =
      ((commit sim.core sim.mem fx).1.follow i.programAddr sim.controller.delaySlots f).1 := by
    rw [← hfollowed, hflow]
    rfl
  obtain ⟨hentries, hflagged⟩ := Core.follow_refused i.programAddr sim.controller.delaySlots (hop ▸ hfault) hrefuses'
  rw [← hfollow] at hentries hflagged
  rw [Core.entries_congr hcommit] at hentries
  have hstep : sim.step.core = (sim.controller.rounded (commit sim.core sim.mem fx).1 sim.program i fx.flow).1 := by
    rw [core_step hcurrent, heffects]
  refine ⟨hentries, hflagged, ?_, fun hnot => ?_⟩
  · obtain ⟨t, ht, -⟩ := h.states fault.stack
    have hreset : fx.flow ≠ some .reset := by
      intro hreset
      rw [hflow] at hreset
      cases hreset
      rw [← hop] at hfault
      cases hfault
    obtain ⟨t', -, ht'⟩ := sim.controller.uniform_followed i (s := (commit sim.core sim.mem fx).1)
      (fun x hx => ht x (Core.stackStates_congr hcommit _ ▸ hx)) hreset
    rw [hstep]
    exact sim.controller.flagged_rounded i ht' (hfollowed ▸ hflagged)
  · have hlast : (sim.attempted i).loops.last.items = sim.core.loops.last.items :=
      congrArg (fun x => x.2.1.2.1) hentries
    rw [hstep, Controller.rounded, hfollowed]
    split
    · exact hentries
    · rw [Core.endRound_of_ne _ (by simpa [BoundedStack.top?, hlast] using hnot)]
      exact hentries

/-- What the stacks of a simulator do: those of a kind hold equally many entries, at most as many as they have
room for; an attempt that they refuse moves nothing and sets the flag; and the flags stay set until a RESET,
which makes all stacks anew. -/
structure StackDiscipline (config : Config) (sim : Simulator) : Prop where
  states : ∀ k, ∃ t, sim.core.Uniform k t ∧ t.depth = config.stackDepth ∧ t.length ≤ config.stackDepth
  refused : ∀ idx i fx fault, sim.current? = some (idx, i) →
    execute sim.core sim.mem sim.program i = .ok fx → sim.core.holds i.cond .first = true →
    i.opcode.stackFault? = some fault → sim.core.Refuses fault → sim.RefusedAt i fault
  sticky : ∀ n, (∀ k < n, ¬(Simulator.step^[k] sim).Resets) → ∀ fault, sim.core.Flagged fault →
    (Simulator.step^[n] sim).core.Flagged fault
  anew : sim.Resets → ∀ k, sim.step.core.Uniform k ⟨config.stackDepth, 0, false, false⟩

variable {p : Program}

theorem Reachable.uniformStacks (h : Reachable p config sim) : sim.UniformStacks config := by
  induction h with
  | load =>
    refine ⟨rfl, fun k => ⟨⟨config.stackDepth, 0, false, false⟩, ?_, rfl, Nat.zero_le _⟩⟩
    exact (Core.initial config.stackDepth).uniform_reset k
  | step _ ih => exact ih.step
  | loadText base text _ ih => exact ⟨ih.depth, ih.states⟩

/-- The stacks are kept in order whatever the program, the configuration and the number of steps. -/
theorem Reachable.stackDiscipline (h : Reachable p config sim) : sim.StackDiscipline config where
  states := h.uniformStacks.states
  refused _ _ _ _ hcurrent hexecute hholds hfault hrefuses :=
    h.uniformStacks.refusedAt hcurrent hexecute hholds hfault hrefuses
  sticky _ hreset _ hflag := h.uniformStacks.flagged_iterate hreset hflag
  anew hreset k := h.uniformStacks.depth ▸ uniform_step_of_resets hreset k

/-- A call of itself. -/
def endlessCall : Program := { instrs := [{ line := 1, opcode := .call, operands := [.target (.abs 0)] }] }

/-- Its second round finds no room for the return address. -/
theorem Reachable.stackDiscipline_endlessCall :
    let sim := (Simulator.load endlessCall { stackDepth := 1 }).step
    Reachable endlessCall { stackDepth := 1 } sim ∧ sim.StackDiscipline { stackDepth := 1 } ∧
      ∃ i, sim.current? = some (0, i) ∧ sim.RefusedAt i ⟨.calls, true⟩ := by
  intro sim
  have h : Reachable endlessCall { stackDepth := 1 } sim := .step .load
  have hfull : sim.core.Refuses ⟨.calls, true⟩ := by
    intro x hx
    rw [List.mem_singleton.1 hx]
    exact Nat.le_refl 1
  exact ⟨h, h.stackDiscipline, _, rfl,
    h.stackDiscipline.refused 0 _ { flow := some (.call 0) } _ rfl rfl rfl rfl hfull⟩

end Simulator

end QuadDsp
