import Mathlib.Data.Option.Basic
import QuadDsp.Machine.Simulator
import QuadDsp.Proofs.Program.Resolving

/-! # Reachable simulators

What a program can bring about: a simulator is loaded, executes words, and initialisation texts are
loaded into its memory on the way. A property that loading establishes and that words and texts keep
holds of every reachable simulator. The controller leaves the register files alone
(`Controller.files_advance`), so of those a step changes only what its writes name. A run leaves the program
as it was resolved, but for the latencies that it records (`Simulator.Reachable.ran`), and the next word is
always a word of the program (`Simulator.Reachable.isWord_of_pc`). -/

namespace QuadDsp

namespace Core

/-- What the register files hold: everything but flags, modes, loop counter and stacks. -/
def files (s : Core) :=
  (s.regs, s.accs, s.index, s.modify, s.length, s.base)

theorem address_of_files {s s' : Core} (h : s'.files = s.files) (r : Reg) : s'.address r = s.address r := by
  simp only [files, Prod.mk.injEq] at h
  obtain ⟨-, -, hindex, hmodify, hlength, hbase⟩ := h
  simp only [address, hindex, hmodify, hlength, hbase]

theorem files_follow (s : Core) (addr : Nat) (delaySlots : Bool) (f : Flow) :
    (s.follow addr delaySlots f).1.files = s.files := by
  cases f with
  | popStatus =>
    unfold follow
    cases s.statuses.top? with
    | none => rfl
    | some f => rfl
  | _ => rfl

theorem exists_endRound (p : Program) (addr : Nat) (s : Core) (frames : List LoopFrame) :
    ∃ loops counter, (endRound p addr s frames).1 = { s with loops := loops, counter := counter } := by
  induction frames generalizing s with
  | nil => exact ⟨_, _, rfl⟩
  | cons top outer ih =>
    unfold endRound
    split
    · exact ⟨_, _, rfl⟩
    · split
      · exact ih _
      · exact ⟨_, _, rfl⟩

end Core

namespace Controller

/-- What a word asks of the sequencer, carried out, with the target of a transfer. -/
def followed (c : Controller) (s : Core) (i : Instruction) (flow : Option Flow) : Core × Option Nat :=
  match flow with
  | some f => s.follow i.programAddr c.delaySlots f
  | none => (s, none)

/-- The loops that end at the word end their round, unless a transfer is due. -/
def rounded (c : Controller) (s : Core) (p : Program) (i : Instruction) (flow : Option Flow) :
    Core × Option Nat :=
  let r := c.followed s i flow
  if (c.transfer i r.2).1.isSome then (r.1, none) else r.1.endRound p i.programAddr r.1.loops.frames

/-- Where the program goes on, if it is not behind the word: a transfer that is due, or a loop that goes round. -/
def destination (c : Controller) (s : Core) (p : Program) (i : Instruction) (flow : Option Flow) : Option Nat :=
  (c.transfer i (c.followed s i flow).2).1 <|> (c.rounded s p i flow).2

variable (c : Controller) (s : Core) (p : Program) (idx : Nat) (i : Instruction) (flow : Option Flow)

theorem next_advance : (c.advance s p idx i flow).2.2.next =
    ((c.destination s p i flow).bind p.indexOf? <|> p.nextWord? idx) := by
  cases flow <;> rfl

theorem core_advance : (c.advance s p idx i flow).2.1 = (c.rounded s p i flow).1 := by
  cases flow <;> rfl

theorem exists_rounded : ∃ loops counter,
    (c.rounded s p i flow).1 = { (c.followed s i flow).1 with loops := loops, counter := counter } := by
  unfold rounded
  dsimp only
  split
  · exact ⟨_, _, rfl⟩
  · exact Core.exists_endRound ..

theorem files_followed : (c.followed s i flow).1.files = s.files := by
  cases flow with
  | none => rfl
  | some f => exact s.files_follow _ _ f

/-- The controller leaves the register files alone. -/
theorem files_advance : (c.advance s p idx i flow).2.1.files = s.files := by
  obtain ⟨loops, counter, hrounded⟩ := c.exists_rounded s p i flow
  rw [core_advance, hrounded]
  exact c.files_followed s i flow

end Controller

/-- The same instruction, with the latency of another execution. -/
def Instruction.Reran (i j : Instruction) : Prop := j = { i with latency := j.latency, stall := j.stall }

namespace Instruction.Reran

variable {i j k : Instruction}

theorem refl (i : Instruction) : i.Reran i := by
  cases i
  rfl

theorem trans (h : i.Reran j) (h' : j.Reran k) : i.Reran k := by
  unfold Reran at *
  rw [h', h]

theorem isDirective (h : i.Reran j) : j.isDirective = i.isDirective := by rw [h]; rfl

theorem programAddr (h : i.Reran j) : j.programAddr = i.programAddr := by
  rw [h]
  rfl

theorem execDiagnostic (h : i.Reran j) (e : ExecError) : j.execDiagnostic e = i.execDiagnostic e := by
  rw [h]
  rfl

theorem sameWord (h : i.Reran j) : i.SameWord j := by
  rw [h]
  exact .cons ⟨rfl, rfl, rfl, rfl⟩ (List.forall₂_same.2 fun k _ => .refl k)

end Instruction.Reran

namespace Program

/-- The same program, with the latencies that a run has recorded. -/
structure Ran (p q : Program) : Prop where
  instrs : List.Forall₂ Instruction.Reran p.instrs q.instrs
  symbols : q.symbols = p.symbols

theorem Ran.refl (p : Program) : p.Ran p := ⟨List.forall₂_same.2 fun i _ => .refl i, rfl⟩

theorem Ran.trans {p q r : Program} (h : p.Ran q) (h' : q.Ran r) : p.Ran r := by
  refine ⟨?_, h'.symbols.trans h.symbols⟩
  have hboth := exists_forall₂_forall₂_iff.1 ⟨_, h.instrs, h'.instrs⟩
  refine hboth.imp ?_
  rintro a c ⟨b, hab, hbc⟩
  exact hab.trans hbc

theorem ran_setLatency (p : Program) (idx : Nat) (adv : Advance) : p.Ran (p.setLatency idx adv) := by
  refine ⟨?_, rfl⟩
  rw [List.forall₂_iff_get]
  refine ⟨by simp [setLatency], fun k hk hk' => ?_⟩
  simp only [setLatency, List.get_eq_getElem, List.getElem_modify]
  split
  · rfl
  · exact .refl _

theorem Ran.exists_instr {p q : Program} (h : p.Ran q) {idx : Nat} {i : Instruction} (hi : q.instrs[idx]? = some i) :
    ∃ r, p.instrs[idx]? = some r ∧ r.Reran i :=
  exists_getElem?_of_forall₂ h.instrs hi

/-- A place of the program with a word in it. -/
def IsWord (p : Program) (idx : Nat) : Prop := ∃ i, p.instrs[idx]? = some i ∧ i.isDirective = false

theorem Ran.isWord {p q : Program} (h : p.Ran q) {idx : Nat} (hword : p.IsWord idx) : q.IsWord idx := by
  obtain ⟨i, hi, hdir⟩ := hword
  obtain ⟨j, hj, hij⟩ := exists_getElem?_of_forall₂ h.instrs.flip hi
  exact ⟨j, hj, (Instruction.Reran.isDirective hij).trans hdir⟩

variable {p : Program} {idx : Nat}

theorem isWord_of_findIdx? {l : List Instruction} {test : Instruction → Bool}
    (htest : ∀ i, test i = true → i.isDirective = false) (h : l.findIdx? test = some idx) :
    ∃ i, l[idx]? = some i ∧ i.isDirective = false := by
  obtain ⟨hlt, hi, -⟩ := List.findIdx?_eq_some_iff_getElem.1 h
  exact ⟨_, List.getElem?_eq_getElem hlt, htest _ hi⟩

theorem isWord_of_firstWord? (h : p.firstWord? = some idx) : p.IsWord idx :=
  isWord_of_findIdx? (fun i hi => by simpa using hi) h

theorem isWord_of_indexOf? {addr : Nat} (h : p.indexOf? addr = some idx) : p.IsWord idx :=
  isWord_of_findIdx? (fun i hi => (by simpa using hi : i.isDirective = false ∧ _).1) h

theorem isWord_of_nextWord? {place : Nat} (h : p.nextWord? place = some idx) : p.IsWord idx := by
  obtain ⟨k, hk, rfl⟩ := Option.map_eq_some_iff.1 h
  obtain ⟨i, hi, hdir⟩ := isWord_of_findIdx? (fun i hi => by simpa using hi) hk
  rw [List.getElem?_drop] at hi
  exact ⟨i, hi, hdir⟩

end Program

theorem Controller.isWord_of_advance {c : Controller} {s : Core} {p : Program} {idx next : Nat} {i : Instruction}
    {flow : Option Flow} (h : (c.advance s p idx i flow).2.2.next = some next) : p.IsWord next := by
  rw [c.next_advance] at h
  rcases (Option.orElse_eq_some _ _ _).1 h with h | ⟨-, h⟩
  · obtain ⟨addr, -, haddr⟩ := Option.bind_eq_some_iff.1 h
    exact Program.isWord_of_indexOf? haddr
  · exact Program.isWord_of_nextWord? h

namespace Simulator

/-- The simulators that a program brings about, with texts loaded into memory on the way. -/
inductive Reachable (p : Program) (config : Config) : Simulator → Prop
  | load : Reachable p config (load p config)
  | step {sim : Simulator} : Reachable p config sim → Reachable p config sim.step
  | loadText {sim : Simulator} (base : Nat) (text : String) :
      Reachable p config sim → Reachable p config { sim with mem := (sim.mem.load base text).1 }

section Step

variable (sim : Simulator) (idx : Nat) (i : Instruction)

/-- A step commits the effects of the word and lets the controller advance. -/
theorem core_stepAt :
    (sim.stepAt idx i).core =
      let fx := (effects sim.core sim.mem sim.program i).1
      (sim.controller.advance (commit sim.core sim.mem fx).1 sim.program idx i fx.flow).2.1 := rfl

theorem mem_stepAt :
    (sim.stepAt idx i).mem =
      (commit sim.core sim.mem (effects sim.core sim.mem sim.program i).1).2.1 := rfl

theorem ran_stepAt : sim.program.Ran (sim.stepAt idx i).program := sim.program.ran_setLatency idx _

end Step

variable {sim : Simulator} {idx : Nat} {i : Instruction}

theorem current?_eq_some_iff :
    sim.current? = some (idx, i) ↔ sim.pc = some idx ∧ sim.program.instrs[idx]? = some i := by
  have hbind : sim.current? = sim.pc.bind fun k => (sim.program.instrs[k]?).bind fun j => some (k, j) := rfl
  rw [hbind, Option.bind_eq_some_iff]
  constructor
  · rintro ⟨k, hk, h⟩
    obtain ⟨j, hj, h⟩ := Option.bind_eq_some_iff.1 h
    cases h
    exact ⟨hk, hj⟩
  · rintro ⟨hpc, hi⟩
    exact ⟨idx, hpc, Option.bind_eq_some_iff.2 ⟨i, hi, rfl⟩⟩

theorem step_of_current? (h : sim.current? = some (idx, i)) : sim.step = sim.stepAt idx i := by
  unfold step
  rw [h]

theorem step_of_none (h : sim.current? = none) : sim.step = sim := by
  unfold step
  rw [h]

namespace Reachable

variable {p : Program} {config : Config}

/-- A run leaves the resolved program as it was, but for latencies. -/
theorem ran (h : Reachable p config sim) : (p.resolve config.delaySlots).1.Ran sim.program := by
  induction h with
  | load => exact .refl _
  | @step sim _ ih =>
    cases hcurrent : sim.current? with
    | none => rwa [step_of_none hcurrent]
    | some current =>
      rw [step_of_current? hcurrent]
      exact ih.trans (sim.ran_stepAt _ _)
  | loadText base text _ ih => exact ih

/-- The next word is a word of the program. -/
theorem isWord_of_pc (h : Reachable p config sim) (hpc : sim.pc = some idx) : sim.program.IsWord idx := by
  induction h generalizing idx with
  | load => exact Program.isWord_of_firstWord? hpc
  | @step sim _ ih =>
    cases hcurrent : sim.current? with
    | none =>
      rw [step_of_none hcurrent] at hpc ⊢
      exact ih hpc
    | some current =>
      rw [step_of_current? hcurrent] at hpc ⊢
      exact (sim.ran_stepAt _ _).isWord (Controller.isWord_of_advance hpc)
  | loadText base text _ ih => exact ih hpc

end Reachable

end Simulator

end QuadDsp
