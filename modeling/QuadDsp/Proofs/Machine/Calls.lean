import QuadDsp.Proofs.Machine.Stepping

/-! # Calls and returns

The return stack is changed by calls and returns alone, one entry at a time, unless a RESET takes place
(`Simulator.calls_step_cases`). So from a call that finds room up to the return that takes its entry off, the entries
below stay as they are, whatever calls and returns lie between, nested, recursive, gated or refused
(`Simulator.CallReturns.above`); and the return goes on behind the call (`Simulator.CallReturns.matched`). -/

namespace QuadDsp

section Below

variable {α : Type} {base : List α} {a : α}

/-- While a stack changes by one entry at a time and never has as few entries as `base` again, an entry that was put
on `base` stays there. -/
theorem exists_front_of_moves (stack : Nat → List α) {n : Nat} (hfirst : stack 1 = a :: base)
    (hmoves : ∀ k, k < n → stack (k + 1) = stack k ∨ (∃ b, stack (k + 1) = b :: stack k) ∨
      stack (k + 1) = (stack k).tail)
    (hbetween : ∀ k, 0 < k → k ≤ n → (stack k).length ≠ base.length) {k : Nat} (hpos : 0 < k) (hk : k ≤ n) :
    ∃ front, stack k = front ++ a :: base := by
  induction k with
  | zero => cases hpos
  | succ k ih =>
    rcases Nat.eq_zero_or_pos k with rfl | hpos'
    · exact ⟨[], hfirst⟩
    · obtain ⟨front, hfront⟩ := ih hpos' (Nat.le_of_lt hk)
      rcases hmoves k hk with hsame | ⟨b, hpush⟩ | hpop
      · exact ⟨front, hsame.trans hfront⟩
      · exact ⟨b :: front, by rw [hpush, hfront, List.cons_append]⟩
      · -- the entry stays, or there were as few entries as in `base`
        cases front with
        | nil =>
          have hlength := hbetween (k + 1) (Nat.succ_pos k) hk
          rw [hpop, hfront] at hlength
          exact absurd rfl hlength
        | cons b front => exact ⟨front, by rw [hpop, hfront]; rfl⟩

/-- Where taking one entry off leads back to as many entries as in `base`, it was the one right on `base`. -/
theorem nil_of_tail_length {front : List α} (h : (front ++ a :: base).tail.length = base.length) : front = [] := by
  cases front with
  | nil => rfl
  | cons b front =>
    simp only [List.cons_append, List.tail_cons, List.length_append, List.length_cons] at h
    omega

end Below

namespace Simulator

variable {sim : Simulator} {p : Program} {config : Config} {idx n : Nat} {i : Instruction}

/-- The word at an address is about to ask the sequencer for something. -/
def AsksAt (sim : Simulator) (addr : Nat) (f : Flow) : Prop :=
  ∃ idx i, sim.current? = some (idx, i) ∧ i.programAddr = addr ∧ sim.asked i = some f

/-- The return address that a call at an address pushes. -/
def returnAddr (sim : Simulator) (addr : Nat) : Nat := addrBehind addr (if sim.controller.delaySlots then 2 else 1)

/-- A word pushes a return address, pops one, or leaves the return stack alone. -/
theorem calls_step_cases (hreset : ¬sim.Resets) :
    sim.step.core.calls.items = sim.core.calls.items ∨
      (∃ a, sim.step.core.calls.items = a :: sim.core.calls.items) ∨
      sim.step.core.calls.items = sim.core.calls.items.tail := by
  cases hcurrent : sim.current? with
  | none => exact .inl (by rw [step_of_none hcurrent])
  | some current =>
    obtain ⟨idx, i⟩ := current
    have hcommitted := sim.calls_committed i
    cases hasked : sim.asked i with
    | none =>
      rw [calls_step hcurrent, hasked]
      exact .inl (congrArg (·.items) hcommitted)
    | some f =>
      rw [calls_step_of_asked hcurrent hasked]
      cases f with
      | call t =>
        rw [Core.follow, hcommitted, BoundedStack.items_push]
        split
        · exact .inl rfl
        · exact .inr (.inl ⟨_, rfl⟩)
      | ret => exact .inr (.inr (by rw [Core.follow, hcommitted, BoundedStack.items_pop]))
      | reset => exact absurd (resets_of_flow hcurrent hasked) hreset
      | popStatus =>
        have hpop := (sim.committed i).1.sequencing_popStatus i.programAddr sim.controller.delaySlots
        exact .inl (congrArg (·.items) ((congrArg (·.1) hpop).trans hcommitted))
      | jump | loop | pushStatus => exact .inl (congrArg (·.items) hcommitted)

theorem calls_step_of_call {addr t : Nat} (hcall : sim.AsksAt addr (.call t))
    (hroom : sim.core.calls.items.length < sim.core.calls.depth) :
    sim.step.core.calls.items = sim.returnAddr addr :: sim.core.calls.items := by
  obtain ⟨idx, i, hcurrent, rfl, hasked⟩ := hcall
  rw [calls_step_of_asked hcurrent hasked, Core.follow, sim.calls_committed, BoundedStack.items_push,
    if_neg (by simp [BoundedStack.isFull, hroom])]
  rfl

theorem calls_step_of_ret {addr : Nat} (hret : sim.AsksAt addr .ret) :
    sim.step.core.calls.items = sim.core.calls.items.tail := by
  obtain ⟨idx, i, hcurrent, -, hasked⟩ := hret
  rw [calls_step_of_asked hcurrent hasked, Core.follow, sim.calls_committed, BoundedStack.items_pop]

/-- Without delay slots a return goes on at the word with the latest return address, if there is one. -/
theorem pc_step_of_ret (h : sim.Runs p config) (hslots : config.delaySlots = false) {addr r : Nat}
    (hret : sim.AsksAt addr .ret) (htop : sim.core.calls.top? = some r) {place : Nat}
    (hplace : sim.program.indexOf? r = some place) : sim.step.pc = some place := by
  obtain ⟨idx, i, hcurrent, -, hasked⟩ := hret
  have htaken : sim.taken i = some r := by rw [taken_of_asked hasked, Core.follow, sim.calls_committed, htop]
  obtain ⟨hi, hword⟩ := h.word hcurrent
  -- no word is a delay slot, so the target is due at once
  have hdue : (sim.controller.transfer i (sim.taken i)).1 = some r := by
    have hmarked : Program.SlotsMarked false sim.program.words := hslots ▸ h.slotsMarked
    rw [htaken, Controller.transfer, h.delaySlots, hslots, hmarked.inDelaySlot_eq_false hi hword]
    rfl
  rw [pc_step hcurrent, hdue, show (some r <|> sim.rounds i) = some r from rfl, Option.bind_some, hplace]
  rfl

/-- A run of `n` steps that starts with the call at an address and ends in front of the return that takes the entry
of the call off: the call finds room, and in between the return stack never has as few entries as before it. -/
structure CallReturns (sim : Simulator) (addr n : Nat) : Prop where
  call : ∃ t, sim.AsksAt addr (.call t)
  room : sim.core.calls.items.length < sim.core.calls.depth
  noReset : ∀ k < n, ¬(step^[k] sim).Resets
  between : ∀ k, 0 < k → k ≤ n → (step^[k] sim).core.calls.items.length ≠ sim.core.calls.items.length
  ret : ∃ addr', (step^[n] sim).AsksAt addr' .ret
  back : (step^[n + 1] sim).core.calls.items.length = sim.core.calls.items.length

namespace CallReturns

variable {addr : Nat} (h : sim.CallReturns addr n)

include h

theorem pos : 0 < n := by
  rcases Nat.eq_zero_or_pos n with rfl | hpos
  · -- one word does not ask for both
    obtain ⟨t, idx, i, hcurrent, -, hcall⟩ := h.call
    obtain ⟨addr', idx', i', hcurrent', -, hret⟩ := h.ret
    cases hcurrent.symm.trans hcurrent'
    cases hcall.symm.trans hret
  · exact hpos

/-- Between call and return the entry of the call stands on those below it. -/
theorem above {k : Nat} (hpos : 0 < k) (hk : k ≤ n) :
    ∃ front, (step^[k] sim).core.calls.items = front ++ sim.returnAddr addr :: sim.core.calls.items := by
  obtain ⟨t, hcall⟩ := h.call
  refine exists_front_of_moves (fun k => (step^[k] sim).core.calls.items) (calls_step_of_call hcall h.room)
    (fun k hk => ?_) h.between hpos hk
  simp only [Function.iterate_succ_apply']
  exact calls_step_cases (h.noReset k hk)

theorem returns : (step^[n] sim).core.calls.items = sim.returnAddr addr :: sim.core.calls.items ∧
    (step^[n + 1] sim).core.calls.items = sim.core.calls.items := by
  obtain ⟨front, hfront⟩ := h.above h.pos (Nat.le_refl n)
  obtain ⟨addr', hret⟩ := h.ret
  have hback := h.back
  rw [Function.iterate_succ_apply', calls_step_of_ret hret, hfront] at hback ⊢
  obtain rfl := nil_of_tail_length hback
  exact ⟨rfl, rfl⟩

end CallReturns

/-- A call at an address and the return `n` steps behind it match. The return leaves the entries that lay on the
return stack before the call. Without delay slots it goes on at the word behind the call; with them the call pushes
the address of the word behind its delay slot. -/
structure Matched (p : Program) (config : Config) (sim : Simulator) (addr n : Nat) : Prop where
  entries : (step^[n + 1] sim).core.calls.items = sim.core.calls.items
  goesOn : config.delaySlots = false → ∀ place i, p.instrs[place]? = some i → i.isDirective = false →
    i.programAddr = addr + 1 → (step^[n + 1] sim).pc = some place
  pushed : config.delaySlots = true → sim.step.core.calls.items = addrBehind addr 2 :: sim.core.calls.items
  behindSlot : config.delaySlots = true → ∀ idx slot i, sim.pc = some idx → sim.program.nextWord? idx = some slot →
    sim.program.instrs[slot]? = some i →
      i.inDelaySlot = true ∧ addrBehind addr 2 = addr + 2 ∧ sim.program.nextWord? slot = sim.program.indexOf? (addr + 2)

/-- In a program that a builder has put together calls and returns match, in every state. -/
theorem CallReturns.matched (hp : p.Written) (hruns : sim.Runs p config) {addr : Nat} (h : sim.CallReturns addr n) :
    Matched p config sim addr n where
  entries := h.returns.2
  goesOn hslots place i hi hword haddr := by
    have hrunsTo := hruns.iterate n
    obtain ⟨addr', hret⟩ := h.ret
    obtain ⟨j, hj, hwordj, haddrj⟩ := hrunsTo.exists_word hi hword
    have hplace := (hrunsTo.consecutive hp).indexOf?_programAddr hj hwordj
    have hbehind : addrBehind addr 1 = addr + 1 := addrBehind_of_lt (haddr ▸ i.programAddr_lt)
    have htop : (step^[n] sim).core.calls.top? = some (addr + 1) := by
      rw [BoundedStack.top?, h.returns.1, returnAddr, hruns.delaySlots, hslots, if_neg Bool.false_ne_true, hbehind]
      rfl
    rw [Function.iterate_succ_apply']
    exact pc_step_of_ret hrunsTo hslots hret htop (by rw [← haddr, ← haddrj, hplace])
  pushed hslots := by
    obtain ⟨t, hcall⟩ := h.call
    rw [calls_step_of_call hcall h.room, returnAddr, hruns.delaySlots, hslots]
    rfl
  behindSlot hslots idx slot i hpc hslot hi := by
    obtain ⟨t, idx', c, hcurrent, haddr, hasked⟩ := h.call
    obtain ⟨hc, hwordc⟩ := hruns.word hcurrent
    cases hpc.symm.trans (current?_eq_some_iff.1 hcurrent).1
    obtain ⟨j, hj, hword⟩ := Program.isWord_of_nextWord? hslot
    cases hi.symm.trans hj
    have hconsecutive := hruns.consecutive hp
    have hslotAddr : i.programAddr = addr + 1 := by
      rw [hconsecutive.nextWord?_eq hc hwordc, haddr] at hslot
      obtain ⟨k, hk, -, haddrk⟩ := Program.exists_of_indexOf? hslot
      cases hi.symm.trans hk
      exact haddrk
    refine ⟨?_, ?_, ?_⟩
    · rw [hruns.slotsMarked.nextWord? hc hwordc hslot hi, hslots, opcode_of_asked hasked]
      rfl
    · exact addrBehind_of_lt (by simpa only [hslotAddr] using hconsecutive.programAddr_succ_lt hi hword)
    · rw [hconsecutive.nextWord?_eq hi hword, hslotAddr]

/-- A subroutine that returns at once, and the word that calls it. -/
def calledOnce : Program :=
  ((((Builder.origin 0).push { line := 1, opcode := .call, operands := [.target (.abs 2)] }).push
    { line := 2, opcode := .idle }).push { line := 3, opcode := .rts }).program

/-- Its return goes on behind the call. -/
theorem CallReturns.matched_calledOnce :
    calledOnce.Written ∧ (load calledOnce {}).Runs calledOnce {} ∧ (load calledOnce {}).CallReturns 0 1 ∧
      (step^[2] (load calledOnce {})).pc = some 1 := by
  have hp : calledOnce.Written := ⟨0, _, ((Builder.Written.origin.push _).push _).push _, by decide, rfl⟩
  have hruns : (load calledOnce {}).Runs calledOnce {} := .of_reachable .load
  have hreturns : (load calledOnce {}).CallReturns 0 1 := by
    refine ⟨⟨2, 0, _, rfl, rfl, rfl⟩, by decide, fun k hk => ?_, fun k hpos hk => ?_, ⟨2, 2, _, rfl, rfl, rfl⟩, rfl⟩
    · obtain rfl : k = 0 := by omega
      rintro ⟨idx, i, hcurrent, hop, -⟩
      cases hcurrent
      cases hop
    · obtain rfl : k = 1 := by omega
      decide
  exact ⟨hp, hruns, hreturns, (hreturns.matched hp hruns).goesOn rfl 1 _ rfl rfl rfl⟩

end Simulator

end QuadDsp
