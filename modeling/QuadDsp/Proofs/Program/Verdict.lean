import QuadDsp.Proofs.Machine.Reachable
import QuadDsp.Proofs.Word.Relocating

/-! # One verdict

Resolver, assembler and simulator agree about every word of a program: all three refuse it with one
diagnostic, or none does (`Program.verdict`). A word that is not refused may still lack a name; then the
assembler says so, and so does any execution that comes to need the name. -/

namespace QuadDsp

namespace Member

variable {m : Member} {p q : Program} {name : String}

theorem Lacks.of_symbols (h : m.Lacks p name) (hsymbols : q.symbols = p.symbols) : m.Lacks q name :=
  ⟨hsymbols ▸ h.undefined, h.named⟩

theorem Lacks.of_alike {m' : Member} (h : m'.Lacks p name) (halike : m.Alike m') : m.Lacks p name := by
  obtain ⟨hundefined, o, ho, hname⟩ := h
  rw [Instruction.plain, halike.instr.operands] at ho
  exact ⟨hundefined, o, ho, hname⟩

end Member

theorem Selection.mem_operands_of_lacks {s : Selection} {t : WordForm} {i : Instruction} (h : s.Fills t i)
    {m : Member} (hm : m ∈ s.members) {p : Program} {name : String} (hlacks : m.Lacks p name) :
    ∃ j ∈ i.members, ∃ o ∈ j.operands, o.name? = some name := by
  obtain ⟨-, o, ho, hname⟩ := hlacks
  exact ⟨m.instr, h.instrs ▸ List.mem_map_of_mem hm, o, List.mem_of_mem_filter ho, hname⟩

namespace Instruction

variable {i r : Instruction} {p q : Program}

/-- A name that an execution fails for is one that an operation of the word lacks. -/
theorem exists_lacks_of_execute {s : Selection} (hstructure : checkStructure r = .ok ()) (hselect : select r = .ok s)
    (hsame : r.SameWord i) {core : Core} {mem : Memory} {e : ExecError} (h : execute core mem p i = .error e) :
    ∃ m ∈ s.members, ∃ name, e = .structural (.unknownSymbol name) ∧ m.Lacks p name := by
  obtain ⟨s', hselect', halike⟩ := (select_alike hsame).of_ok hselect
  rcases execute_of_select core mem p (hsame.checkStructure.trans hstructure) hselect' with
    ⟨fx, hfx, -⟩ | ⟨m', hm', name, herror, hlacks⟩
  · cases hfx.symm.trans h
  · cases herror.symm.trans h
    obtain ⟨m, hm, hmm'⟩ := exists_left_of_forall₂ halike.members hm'
    exact ⟨m, hm, name, rfl, hlacks.of_alike hmm'⟩

/-- What an execution can fail for, the assembler reports in the same words. -/
theorem assemble_of_execute_error {s : Selection} (hstructure : checkStructure r = .ok ()) (hselect : select r = .ok s)
    (hformat : r.format = some s.format) (hreran : r.Reran i) (hsymbols : p.symbols = q.symbols) {core : Core}
    {mem : Memory} {e : ExecError} (h : execute core mem p i = .error e) :
    ∃ name, e = .structural (.unknownSymbol name) ∧ q.symbols.find? name = none ∧
      (∃ j ∈ r.members, ∃ o ∈ j.operands, o.name? = some name) ∧ (r.assemble q).2 = some (i.execDiagnostic e) := by
  obtain ⟨m, hm, name, rfl, hlacks⟩ := exists_lacks_of_execute hstructure hselect hreran.sameWord h
  have hlacks : m.Lacks q name := hlacks.of_symbols hsymbols.symm
  obtain ⟨t, -, hfills⟩ := select_fills hselect
  refine ⟨name, rfl, hlacks.undefined, Selection.mem_operands_of_lacks hfills hm hlacks, ?_⟩
  rw [assemble, encode_of_lacks hstructure hselect hformat hm hlacks, hreran.execDiagnostic]
  rfl

end Instruction

/-- A step reports the faults of its word, and then those of committing and sequencing. -/
theorem Simulator.diagnostics_stepAt (sim : Simulator) (idx : Nat) (i : Instruction) :
    ∃ more, (sim.stepAt idx i).diagnostics.toList =
      sim.diagnostics.toList ++
        ((effects sim.core sim.mem sim.program i).2.map i.execDiagnostic ++ more) := by
  have happend (a : Array Diagnostic) (b c d e : List Diagnostic) :
      (a ++ (b ++ c ++ d ++ e)).toList = a.toList ++ (b ++ (c ++ d ++ e)) := by
    simp
  unfold stepAt
  dsimp only
  rw [List.map_append, happend]
  exact ⟨_, rfl⟩

namespace Program

variable (p : Program) (config : Config) (idx : Nat) (r : Instruction)

/-- The word at a place is refused, by all three with the same diagnostic. -/
structure Refuses (d : Diagnostic) : Prop where
  format : r.format = none
  resolver : d ∈ (p.resolve config.delaySlots).2
  assembler : (r.assemble (p.resolve config.delaySlots).1).2 = some d
  /-- it has no effect in any state, and its only fault is the diagnosed one -/
  effects : ∀ sim, Simulator.Reachable p config sim → ∀ i, sim.program.instrs[idx]? = some i →
    ∀ core mem, ∃ e, Simulator.effects core mem sim.program i = ({}, [e]) ∧ i.execDiagnostic e = d
  /-- a step that executes it reports the diagnostic -/
  step : ∀ sim, Simulator.Reachable p config sim → sim.pc = some idx →
    ∃ more, sim.step.diagnostics.toList = sim.diagnostics.toList ++ d :: more

/-- The word at a place has a format, and can only lack an address. -/
structure Admits : Prop where
  format : r.format.isSome = true
  assembler : ∀ e, r.encode (p.resolve config.delaySlots).1 = .error e →
    (∃ name, e = .structural (.unknownSymbol name)) ∨ ∃ target addr width, e = .targetOutOfRange target addr width
  /-- in any state it fails for a missing name only, as the assembler does -/
  simulator : ∀ sim, Simulator.Reachable p config sim → ∀ i, sim.program.instrs[idx]? = some i →
    ∀ core mem e, execute core mem sim.program i = .error e →
      ∃ name, e = .structural (.unknownSymbol name) ∧ (p.resolve config.delaySlots).1.symbols.find? name = none ∧
        (∃ j ∈ r.members, ∃ o ∈ j.operands, o.name? = some name) ∧
        (r.assemble (p.resolve config.delaySlots).1).2 = some (i.execDiagnostic e)

variable {p config idx r}

theorem refuses_of_fault? {e : ExecError} (hr : (p.resolve config.delaySlots).1.instrs[idx]? = some r)
    (hformat : r.format = none) (hfault : r.fault? = some e)
    (hreported : r.execDiagnostic e ∈ (p.resolve config.delaySlots).2) :
    p.Refuses config idx r (r.execDiagnostic e) := by
  have hexecute {sim : Simulator} (h : Simulator.Reachable p config sim) {i : Instruction}
      (hi : sim.program.instrs[idx]? = some i) (core : Core) (mem : Memory) :
      execute core mem sim.program i = .error e ∧ i.execDiagnostic e = r.execDiagnostic e := by
    obtain ⟨r', hr', hreran⟩ := h.ran.exists_instr hi
    cases hr.symm.trans hr'
    refine ⟨Instruction.execute_of_fault? core mem sim.program ?_, hreran.execDiagnostic e⟩
    exact hreran.sameWord.fault?.trans hfault
  refine ⟨hformat, hreported, Instruction.assemble_of_fault? _ hfault, ?_, ?_⟩
  · intro sim h i hi core mem
    obtain ⟨herror, hdiagnostic⟩ := hexecute h hi core mem
    exact ⟨e, by rw [Simulator.effects, herror], hdiagnostic⟩
  · intro sim h hpc
    obtain ⟨i, hi, -⟩ := h.isWord_of_pc hpc
    obtain ⟨herror, hdiagnostic⟩ := hexecute h hi sim.core sim.mem
    obtain ⟨more, hmore⟩ := sim.diagnostics_stepAt idx i
    refine ⟨more, ?_⟩
    rw [Simulator.step_of_current? (Simulator.current?_eq_some_iff.2 ⟨hpc, hi⟩), hmore, Simulator.effects, herror,
      ← hdiagnostic]
    rfl

theorem admits_of_select {s : Selection} (hr : (p.resolve config.delaySlots).1.instrs[idx]? = some r)
    (hstructure : checkStructure r = .ok ()) (hselect : select r = .ok s) (hformat : r.format = some s.format) :
    p.Admits config idx r := by
  refine ⟨by rw [hformat]; rfl, ?_, ?_⟩
  · intro e he
    rcases Instruction.encode_error_of_select hstructure hselect hformat he with hrange | ⟨-, -, name, hname, -⟩
    · exact .inr hrange
    · exact .inl ⟨name, hname⟩
  · intro sim h i hi core mem e he
    obtain ⟨r', hr', hreran⟩ := h.ran.exists_instr hi
    cases hr.symm.trans hr'
    exact Instruction.assemble_of_execute_error hstructure hselect hformat hreran h.ran.symbols he

/-- Where no word comes with a format, the resolver reports what the assembler reports for the words that it
leaves without one, and every word is refused by all three or by none. -/
theorem verdict (hp : ∀ i ∈ p.instrs, i.isDirective = false → i.format = none) (config : Config) :
    (p.resolve config.delaySlots).2 =
        ((p.resolve config.delaySlots).1.words.filter (·.format.isNone)).filterMap
          (fun r => (r.assemble (p.resolve config.delaySlots).1).2) ∧
      ∀ idx r, (p.resolve config.delaySlots).1.instrs[idx]? = some r → r.isDirective = false →
        (∃ d, p.Refuses config idx r d) ∨ p.Admits config idx r := by
  have hdiagnostics := resolve_diagnostics config.delaySlots hp (p.resolve config.delaySlots).1
  refine ⟨hdiagnostics, fun idx r hr hword => ?_⟩
  obtain ⟨i, inDelaySlot, hi, hdirective, rfl⟩ := exists_of_resolve hr hword
  rcases Instruction.resolve_cases (hp i (List.mem_of_getElem? hi) hdirective) inDelaySlot with
    ⟨e, hfault, hformat, -⟩ | ⟨s, hstructure, hselect, hformat, -⟩
  · refine .inl ⟨_, refuses_of_fault? hr hformat hfault ?_⟩
    rw [hdiagnostics]
    refine List.mem_filterMap.2 ⟨_, List.mem_filter.2 ⟨?_, by rw [hformat]; rfl⟩,
      Instruction.assemble_of_fault? _ hfault⟩
    exact List.mem_filter.2 ⟨List.mem_of_getElem? hr, by rw [hword]; rfl⟩
  · exact .inr (admits_of_select hr hstructure hselect hformat)

/-- A jump to a name that is not there, and a word that no form of its operation takes. -/
def strayJump : Program :=
  { instrs := [{ line := 1, opcode := .jump, operands := [.target (.label "NOWHERE")] },
      { line := 2, opcode := .add, operands := [.reg ⟨.general, 0⟩] }] }

theorem verdict_strayJump :
    (∀ i ∈ strayJump.instrs, i.isDirective = false → i.format = none) ∧
      (strayJump.resolve false).2 =
          ((strayJump.resolve false).1.words.filter (·.format.isNone)).filterMap
            (fun r => (r.assemble (strayJump.resolve false).1).2) ∧
        ∀ idx r, (strayJump.resolve false).1.instrs[idx]? = some r → r.isDirective = false →
          (∃ d, strayJump.Refuses { delaySlots := false } idx r d) ∨
            strayJump.Admits { delaySlots := false } idx r := by
  have hp : ∀ i ∈ strayJump.instrs, i.isDirective = false → i.format = none := by decide
  exact ⟨hp, verdict hp { delaySlots := false }⟩

end Program

end QuadDsp
