import QuadDsp.Proofs.Machine.Bounds
import QuadDsp.Proofs.Machine.Reachable
import QuadDsp.Proofs.Machine.Shifts

/-! # Nothing out of bounds

No program makes a step look past the end of a register file, of memory or of its own list of words, or
shift by more than the width of a number (`Simulator.Reachable.safe`). Nothing is asked of the program but
that an address two behind each of its own is a number of 32 bits: registers and bit numbers are checked
with the word (`execute_inBounds`, `Member.Fit.bit?_of_bits`), and the place of the next word is one that the
controller has found (`Simulator.Reachable.isWord_of_pc`). -/

namespace QuadDsp

/-- The operand of a bit operation that is the bit number. -/
def Member.bitSlot (m : Member) : Nat := if m.opcode = .tstb then 1 else 2

/-- An accepted bit operation shifts by less than the width of a number. -/
theorem Member.Fit.bit?_of_bits {m : Member} (h : m.Fit) (hunit : m.opcode.unit? = some .bits) {n : Int}
    (hn : m.immediate m.bitSlot = .ok n) : Alu.bit? n = some (Alu.bit n) := by
  obtain ⟨v, hv, rfl⟩ : ∃ v, m.imm? m.bitSlot = some v ∧ n = wrap 32 v := by
    cases hv : m.imm? m.bitSlot with
    | none =>
      simp only [immediate, hv, need] at hn
      cases hn
    | some v =>
      simp only [immediate, hv, need] at hn
      cases hn
      exact ⟨v, rfl, rfl⟩
  have hcheck : checkOperands.bitNumber m m.bitSlot = .ok () := by
    have hchecked := h.checked
    unfold checkOperands at hchecked
    unfold bitSlot
    cases hop : m.opcode <;> rw [hop] at hunit hchecked <;> first
      | exact hchecked
      | cases hunit
  simp only [checkOperands.bitNumber, hv] at hcheck
  split at hcheck
  · next hrange =>
    have hwrap : wrap 32 v = v := by
      have h31 : (span (32 - 1) : Int) = 2147483648 := rfl
      refine (wrap_eq_self_iff (by decide) v).2 ?_
      unfold Fits
      omega
    rw [hwrap]
    exact Alu.bit?_eq hrange.1 hrange.2
  · cases hcheck

/-- The operations that shift by what registers hold, by the number of a step or by the place of a part
never go too far. -/
structure ShiftsInWidth : Prop where
  shift : ∀ op a amount, Shifter.shift? op a amount = some (Shifter.shift op a amount)
  polar : ∀ c, Cordic.polar? c = some (Cordic.polar c)
  rect : ∀ c, Cordic.rect? c = some (Cordic.rect c)
  view : ∀ view acc, Core.viewOf? view acc = some (Core.viewOf view acc)
  putView : ∀ view acc v, Core.putView? view acc v = some (Core.putView view acc v)

theorem shiftsInWidth : ShiftsInWidth :=
  ⟨Shifter.shift?_eq, Cordic.polar?_eq, Cordic.rect?_eq, Core.viewOf?_eq, Core.putView?_eq⟩

namespace Simulator

/-- Executing the word at a place reaches nothing that is not there. -/
structure StepInBounds (sim : Simulator) (idx : Nat) (i : Instruction) : Prop where
  word : i.isDirective = false
  /-- the addresses behind the word are numbers of 32 bits -/
  behind : i.programAddr + 2 < span 32
  /-- every register that is read is in its file -/
  reads : ∀ index size, execute sim.core sim.mem sim.program i ≠ .error (.outsideFile index size)
  /-- every register and memory word that is written is there -/
  writes : (effects sim.core sim.mem sim.program i).1.InBounds sim.mem
  /-- a bit number is less than the width of the number that it shifts -/
  bits : ∀ sel, select i = .ok sel → ∀ m ∈ sel.members, m.opcode.unit? = some .bits →
    ∀ n, m.immediate m.bitSlot = .ok n → Alu.bit? n = some (Alu.bit n)
  /-- the words that the controller looks at are there -/
  found : ∀ addr k, sim.program.indexOf? addr = some k → sim.program.IsWord k
  next : ∀ k, sim.program.nextWord? idx = some k → sim.program.IsWord k

theorem inBounds_effects (s : Core) (mem : Memory) (p : Program) (i : Instruction) :
    (effects s mem p i).1.InBounds mem := by
  have hin := (execute_inBounds s mem p i).2
  unfold effects
  cases hexecute : execute s mem p i with
  | ok fx => exact hin fx hexecute
  | error e => exact fun w hw => absurd hw List.not_mem_nil

variable {p : Program} {config : Config} {sim : Simulator}

theorem Reachable.programAddr_mem (h : Reachable p config sim) {i : Instruction} (hi : i ∈ sim.program.instrs) :
    ∃ j ∈ p.instrs, j.programAddr = i.programAddr := by
  obtain ⟨idx, hidx⟩ := List.getElem?_of_mem hi
  obtain ⟨r, hr, hreran⟩ := h.ran.exists_instr hidx
  obtain ⟨j, hj, haddr⟩ := Program.programAddr_resolve hr
  exact ⟨j, hj, haddr.trans hreran.programAddr.symm⟩

/-- Nothing is ever reached that is not there, whatever the program and its inputs. -/
theorem Reachable.safe (haddr : ∀ i ∈ p.instrs, i.programAddr + 2 < span 32) (h : Reachable p config sim) :
    (∀ idx, sim.pc = some idx → ∃ i, sim.program.instrs[idx]? = some i ∧ sim.StepInBounds idx i) ∧
      ShiftsInWidth := by
  refine ⟨fun idx hpc => ?_, shiftsInWidth⟩
  obtain ⟨i, hi, hword⟩ := h.isWord_of_pc hpc
  obtain ⟨j, hj, hsame⟩ := h.programAddr_mem (List.mem_of_getElem? hi)
  refine ⟨i, hi, ?_⟩
  exact {
    word := hword
    behind := hsame ▸ haddr j hj
    reads := (execute_inBounds sim.core sim.mem sim.program i).1
    writes := inBounds_effects sim.core sim.mem sim.program i
    bits := fun sel hsel m hm hunit n hn => (fit_of_select hsel m hm).bit?_of_bits hunit hn
    found := fun addr k hk => Program.isWord_of_indexOf? hk
    next := fun k hk => Program.isWord_of_nextWord? hk }

/-- A register far outside its file, a bit far outside a number, and two words at one address. -/
def wildStep : Program :=
  { instrs :=
      [{ line := 1, opcode := .setb, operands := [.reg ⟨.general, 40⟩, .reg ⟨.general, 0⟩, .imm 90] },
        { line := 2, opcode := .tstb, operands := [.reg ⟨.general, 31⟩, .imm 11] }] }

theorem Reachable.safe_wildStep :
    let sim := (Simulator.load wildStep {}).step
    (∀ i ∈ wildStep.instrs, i.programAddr + 2 < span 32) ∧ Reachable wildStep {} sim ∧
      (∀ idx, sim.pc = some idx → ∃ i, sim.program.instrs[idx]? = some i ∧ sim.StepInBounds idx i) ∧
      ShiftsInWidth := by
  have haddr : ∀ i ∈ wildStep.instrs, i.programAddr + 2 < span 32 := by decide
  have h : Reachable wildStep {} (Simulator.load wildStep {}).step := .step .load
  exact ⟨haddr, h, h.safe haddr⟩

end Simulator

end QuadDsp
