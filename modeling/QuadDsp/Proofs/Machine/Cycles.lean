import Mathlib.Data.Nat.Count
import QuadDsp.Proofs.Machine.Isolation
import QuadDsp.Proofs.Machine.Sequel
import QuadDsp.Proofs.Machine.Stepping

/-! # Counting cycles

A word takes one cycle, and up to two more: one if it loads right behind a word that stores, one if it multiplies and
the word that succeeds it does not. The first depends on the order in which words are executed, which the controller
remembers by one bit (`Simulator.storedBefore_iterate`); the second depends on the order in which they stand, except
where a loop goes round (`Simulator.successor?`). So the cycles of a run are told by its words alone
(`Simulator.accounted`). -/

namespace QuadDsp

/-- A word stalls by the word that a loop goes round to behind it, if one does and there is a word, and by the next
word of the program elsewhere. -/
theorem Controller.stall_advance (c : Controller) (s : Core) (p : Program) (idx : Nat) (i : Instruction)
    (flow : Option Flow) : (c.advance s p idx i flow).2.2.stall =
      c.stallOf p i ((c.rounded s p i flow).2.bind p.indexOf? <|> p.nextWord? idx) := by
  have hstall : (c.advance s p idx i flow).2.2.stall = c.stallOf p i
      (if (c.rounded s p i flow).2.isSome && ((c.destination s p i flow).bind p.indexOf?).isSome then
        (c.advance s p idx i flow).2.2.next else p.nextWord? idx) := by
    rcases flow with _ | f <;> rfl
  rw [hstall, next_advance]
  congr 1
  rcases hrounded : (c.rounded s p i flow).2 with _ | first
  · simp
  · -- a loop goes round only where no branch is due
    have hdestination : c.destination s p i flow = some first := by
      rcases hdue : (c.transfer i (c.followed s i flow).2).1 with _ | t
      · rw [destination, hdue, hrounded]
        rfl
      · simp [rounded, hdue] at hrounded
    rw [hdestination]
    rcases hfound : p.indexOf? first with _ | place <;> simp [hfound]

namespace Simulator

variable {start sim : Simulator} {idx place n k : Nat} {i : Instruction}

/-- The word that a run executes in its step `n`, counted from zero, and its place. Behind the end there is none. -/
def executed? (start : Simulator) (n : Nat) : Option (Nat × Instruction) := (step^[n] start).current?

/-- Place of the word that succeeds an executed one: the first word of the loop that goes round behind it, or else the
next word in the order of the program. A loop whose first word is missing does not go round; the program falls through
to the next word. -/
def successor? (sim : Simulator) (idx : Nat) (i : Instruction) : Option Nat :=
  (sim.rounds i).bind sim.program.indexOf? <|> sim.program.nextWord? idx

/-- The word of a step loads, and the word executed just before it stores. -/
def loadsBehindStore (start : Simulator) : Nat → Bool
  | 0 => false
  | n + 1 => (start.executed? n).any (·.2.writesMemory) && (start.executed? (n + 1)).any (·.2.readsMemory)

/-- The word of a step multiplies, and its successor does not, or is missing. -/
def endsProducts (start : Simulator) (n : Nat) : Bool :=
  (start.executed? n).any fun (idx, i) =>
    i.isMacWord && !(step^[n] start).program.isMacAt ((step^[n] start).successor? idx i)

/-- The stall cycles of a step. -/
def stallAt (start : Simulator) (n : Nat) : Nat := (start.loadsBehindStore n).toNat + (start.endsProducts n).toNat

/-! ### One step -/

theorem stall_advanced (sim : Simulator) (idx : Nat) (i : Instruction) : (sim.advanced idx i).2.2.stall =
    (i.readsMemory && sim.controller.storedBefore).toNat +
      (i.isMacWord && !sim.program.isMacAt (sim.successor? idx i)).toNat :=
  Controller.stall_advance ..

theorem latency_advanced (sim : Simulator) (idx : Nat) (i : Instruction) :
    (sim.advanced idx i).2.2.latency = 1 + (sim.advanced idx i).2.2.stall := rfl

theorem cycles_step (h : sim.current? = some (idx, i)) :
    sim.step.controller.cycles = sim.controller.cycles + 1 + (sim.advanced idx i).2.2.stall := by
  rw [step_of_current? h, stepAt_eq]
  rfl

theorem storedBefore_step (h : sim.current? = some (idx, i)) : sim.step.controller.storedBefore = i.writesMemory := by
  rw [step_of_current? h, stepAt_eq]
  rfl

theorem instr_step (h : sim.current? = some (idx, i)) : sim.step.program.instrs[idx]? =
    some { i with latency := (sim.advanced idx i).2.2.latency, stall := (sim.advanced idx i).2.2.stall } := by
  rw [step_of_current? h, stepAt_eq]
  simp [Program.setLatency, (current?_eq_some_iff.1 h).2]

theorem instr_step_of_ne (h : ∀ j, sim.current? ≠ some (place, j)) :
    sim.step.program.instrs[place]? = sim.program.instrs[place]? := by
  rcases hcurrent : sim.current? with _ | ⟨idx, i⟩
  · rw [step_of_none hcurrent]
  · have hne : idx ≠ place := by
      rintro rfl
      exact h i hcurrent
    rw [step_of_current? hcurrent, stepAt_eq]
    simp [Program.setLatency, hne]

/-! ### A run -/

theorem executed?_succ (h : start.executed? n = none) : start.executed? (n + 1) = none := by
  unfold executed? at *
  rw [Function.iterate_succ_apply', step_of_none h, h]

/-- In front of a word the controller remembers whether the word executed before it stores. -/
theorem storedBefore_iterate (hn : (start.executed? (n + 1)).isSome = true) :
    (step^[n + 1] start).controller.storedBefore = (start.executed? n).any (·.2.writesMemory) := by
  rcases hexecuted : start.executed? n with _ | ⟨idx, i⟩
  · rw [executed?_succ hexecuted] at hn
    exact absurd hn (by simp)
  · rw [Function.iterate_succ_apply', storedBefore_step hexecuted]
    rfl

variable (hstart : start.controller.storedBefore = false)

include hstart

theorem stall_executed (h : start.executed? n = some (idx, i)) :
    ((step^[n] start).advanced idx i).2.2.stall = start.stallAt n := by
  have hproducts : start.endsProducts n =
      (i.isMacWord && !(step^[n] start).program.isMacAt ((step^[n] start).successor? idx i)) := by
    rw [endsProducts, h]
    rfl
  rw [stall_advanced, stallAt, hproducts]
  congr 2
  rcases n with _ | n
  · show (i.readsMemory && start.controller.storedBefore) = false
    rw [hstart, Bool.and_false]
  · rw [storedBefore_iterate (by rw [h]; rfl), loadsBehindStore, h, Bool.and_comm]
    rfl

/-- The cycles of a run: one for each word, and those in which it stalls. -/
theorem cycles_iterate (n : Nat) : (step^[n] start).controller.cycles = start.controller.cycles +
    Nat.count (fun k => (start.executed? k).isSome) n + Nat.count (fun k => start.loadsBehindStore k) n +
      Nat.count (fun k => start.endsProducts k) n := by
  induction n with
  | zero => rfl
  | succ n ih =>
    rw [Function.iterate_succ_apply', Nat.count_succ, Nat.count_succ, Nat.count_succ]
    rcases hexecuted : start.executed? n with _ | ⟨idx, i⟩
    · have hload : start.loadsBehindStore n = false := by
        rcases n with _ | n
        · rfl
        · rw [loadsBehindStore, hexecuted, Option.any_none, Bool.and_false]
      have hproducts : start.endsProducts n = false := by rw [endsProducts, hexecuted, Option.any_none]
      rw [step_of_none hexecuted, ih, hload, hproducts]
      rfl
    · rw [cycles_step hexecuted, stall_executed hstart hexecuted, stallAt, ih]
      cases start.loadsBehindStore n <;> cases start.endsProducts n <;> simp <;> omega

/-- Behind a run a word has the latency of its last execution. -/
theorem latency_iterate (hk : start.executed? k = some (place, i)) (hkn : k < n)
    (hlast : ∀ m, k < m → m < n → ∀ j, start.executed? m ≠ some (place, j)) :
    (step^[n] start).program.instrs[place]? =
      some { i with latency := 1 + start.stallAt k, stall := start.stallAt k } := by
  induction n, hkn using Nat.le_induction with
  | base =>
    rw [Function.iterate_succ_apply', instr_step hk, latency_advanced, stall_executed hstart hk]
  | succ n hkn ih =>
    have hne : ∀ j, (step^[n] start).current? ≠ some (place, j) := hlast n hkn n.lt_succ_self
    rw [Function.iterate_succ_apply', instr_step_of_ne hne]
    exact ih fun m hkm hmn => hlast m hkm (Nat.lt_succ_of_lt hmn)

omit hstart

theorem steps_iterate (start : Simulator) (n : Nat) : (step^[n] start).steps =
    start.steps + Nat.count (fun k => (start.executed? k).isSome) n := by
  induction n with
  | zero => rfl
  | succ n ih =>
    rw [Function.iterate_succ_apply', Nat.count_succ]
    rcases hexecuted : start.executed? n with _ | ⟨idx, i⟩
    · rw [step_of_none hexecuted, ih]
      rfl
    · rw [step_of_current? hexecuted, steps_stepAt, ih]
      rfl

theorem instr_iterate_of_ne (h : ∀ m < n, ∀ j, start.executed? m ≠ some (place, j)) :
    (step^[n] start).program.instrs[place]? = start.program.instrs[place]? := by
  induction n with
  | zero => rfl
  | succ n ih =>
    have hne : ∀ j, (step^[n] start).current? ≠ some (place, j) := h n n.lt_succ_self
    rw [Function.iterate_succ_apply', instr_step_of_ne hne]
    exact ih fun m hm => h m (Nat.lt_succ_of_lt hm)

/-- What the first `n` steps of a run cost. -/
structure Accounted (start : Simulator) (n : Nat) : Prop where
  /-- the counter of steps is that of the executed words -/
  steps : (step^[n] start).steps = Nat.count (fun k => (start.executed? k).isSome) n
  /-- one cycle for each word, one for each load right behind a store, and one for each word that multiplies with a
  successor that does not -/
  cycles : (step^[n] start).controller.cycles = (step^[n] start).steps +
    Nat.count (fun k => start.loadsBehindStore k) n + Nat.count (fun k => start.endsProducts k) n
  /-- a word that was executed is left with the latency of its last execution -/
  latency : ∀ k < n, ∀ place i, start.executed? k = some (place, i) →
    (∀ m, k < m → m < n → ∀ j, start.executed? m ≠ some (place, j)) →
    (step^[n] start).program.instrs[place]? =
      some { i with latency := 1 + start.stallAt k, stall := start.stallAt k }
  /-- a word that was not executed is left as it was -/
  untouched : ∀ place, (∀ m < n, ∀ j, start.executed? m ≠ some (place, j)) →
    (step^[n] start).program.instrs[place]? = start.program.instrs[place]?

/-- From the start of a program, whatever registers and memory hold, cycles and latencies are those of the words that
the run executes, in their order. -/
theorem accounted (p : Program) (config : Config) (breakpoints : List Nat) (core : Core) (mem : Memory) (n : Nat) :
    (startIn p config breakpoints core mem).Accounted n := by
  have hstart : (startIn p config breakpoints core mem).controller.storedBefore = false := rfl
  have hsteps := steps_iterate (startIn p config breakpoints core mem) n
  have hcycles := cycles_iterate hstart n
  have hzero : (startIn p config breakpoints core mem).steps = 0 := rfl
  have hnone : (startIn p config breakpoints core mem).controller.cycles = 0 := rfl
  rw [hzero, Nat.zero_add] at hsteps
  refine ⟨hsteps, ?_, ?_, ?_⟩
  · rw [hsteps, hcycles, hnone, Nat.zero_add]
  · intro k hk place i hexecuted hlast
    exact latency_iterate hstart hexecuted hk hlast
  · intro place h
    exact instr_iterate_of_ne h

/-- A store, a load and a multiplication. -/
def storeAndLoad : Program :=
  { instrs :=
      [{ line := 1, opcode := .st, operands := [.mem ⟨.data, .direct 0⟩, .reg ⟨.general, 0⟩] },
        { line := 2, opcode := .ld, address := 1, operands := [.reg ⟨.general, 1⟩, .mem ⟨.data, .direct 0⟩] },
        { line := 3, opcode := .mpy, address := 2,
          operands := [.reg ⟨.acc, 0⟩, .reg ⟨.general, 1⟩, .reg ⟨.general, 1⟩, .key (.mul .ss)] }] }

/-- The load stalls behind the store, and the multiplication at the end of the program. -/
theorem accounted_storeAndLoad :
    let start := startIn storeAndLoad { dataWords := 4 } [] (.initial 8) (.empty 4)
    start.Accounted 3 ∧ (step^[3] start).steps = 3 ∧ Nat.count (fun k => start.loadsBehindStore k) 3 = 1 ∧
      Nat.count (fun k => start.endsProducts k) 3 = 1 ∧ (step^[3] start).controller.cycles = 5 := by
  intro start
  have h : start.Accounted 3 := accounted storeAndLoad _ _ _ _ _
  have hsteps : (step^[3] start).steps = 3 := by rfl
  have hloads : Nat.count (fun k => start.loadsBehindStore k) 3 = 1 := by decide
  have hproducts : Nat.count (fun k => start.endsProducts k) 3 = 1 := by decide
  exact ⟨h, hsteps, hloads, hproducts, by rw [h.cycles, hsteps, hloads, hproducts]⟩

end Simulator

end QuadDsp
