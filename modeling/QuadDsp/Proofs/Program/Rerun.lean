import QuadDsp.Program.Builder
import QuadDsp.Proofs.Program.ReadBack
import QuadDsp.Proofs.Program.Symbols

/-! # Running what was read back

A program and what its words are read back as run in step: they pass the same addresses, count the same cycles
and leave the same state. One kind of word tells them apart, the load of an address register with a number that
its field does not hold. As long as lane 0 executes none, the runs agree, and they no longer do behind the first
(`Program.run_readBack`). -/

namespace QuadDsp

namespace SymbolTable

variable {t : SymbolTable}

theorem collect_of_words {instrs : List Instruction} (h : ∀ i ∈ instrs, i.isDirective = false) :
    t.collect instrs = t := by
  rw [collect, foldl_eq_self fun i hi => declare_of_word (h i hi),
    foldl_eq_self fun i hi => markGlobal_of_word (h i hi)]

end SymbolTable

/-! ### Latencies that a run records -/

namespace Program

variable {p p' q q' : Program}

/-- Places do not move while programs run. -/
theorem SamePlace.ran (hp : p.Ran p') (hq : q.Ran q') {place place' : Option Nat} (h : p.SamePlace q place place') :
    p'.SamePlace q' place place' := by
  cases h with
  | none => exact .none
  | some hi hword hj hword' hnumber =>
    obtain ⟨i, hi, hword⟩ := hp.isWord ⟨_, hi, hword⟩
    obtain ⟨j, hj, hword'⟩ := hq.isWord ⟨_, hj, hword'⟩
    exact .some hi hword hj hword' (by rw [hp.number, hq.number, hnumber])

/-- Words that are read back are so after any run. -/
theorem Corresponds.ran {r : Program} (h : Corresponds (ReadsAs r) p q) (hp : p.Ran p') (hq : q.Ran q') :
    Corresponds (ReadsAs r) p' q' := by
  have hboth := exists_forall₂_forall₂_iff.1
    ⟨_, hp.words.flip, exists_forall₂_forall₂_iff.1 ⟨_, h.words, hq.words⟩ |>.imp fun _ _ => id⟩
  refine ⟨hboth.imp ?_, h.addr⟩
  rintro i' j' ⟨i, hi, j, hij, hj⟩
  exact hij.reran hi hj

end Program

/-! ### Two runs in step -/

namespace Simulator

/-- Lane 0 is about to load an address register with a number that its field does not hold. -/
def LoadsWide (sim : Simulator) : Prop :=
  ∃ idx i r v, sim.current? = some (idx, i) ∧ i.LoadsWide r v ∧ sim.core.mask i.cond .first = true

/-- The same word comes next, in the same state and at the same time. -/
structure Agrees (sim sim' : Simulator) : Prop where
  pcAddr? : sim'.pcAddr? = sim.pcAddr?
  core : sim'.core = sim.core
  mem : sim'.mem = sim.mem
  cycles : sim'.controller.cycles = sim.controller.cycles

/-- The words of `sim` are read back, with the names of `p`, as those of `sim'`, and both are in the same state. -/
structure InStep (p : Program) (sim sim' : Simulator) : Prop where
  words : Program.Corresponds (ReadsAs p) sim.program sim'.program
  names : sim.program.symbols = p.symbols
  nameless : sim'.program.symbols = {}
  place : sim.program.SamePlace sim'.program sim.pc sim'.pc
  core : sim'.core = sim.core
  mem : sim'.mem = sim.mem
  controller : sim'.controller = sim.controller

namespace InStep

variable {p : Program} {sim sim' : Simulator} (h : InStep p sim sim')

include h

theorem sequenced : Program.Corresponds Instruction.SequencedAs sim.program sim'.program :=
  ⟨h.words.words.imp fun _ _ hij => hij.sequencedAs, fun _ _ hij => hij.addr⟩

/-- Both are finished, or a word comes next and the one that it is read back as. -/
theorem current : sim.current? = none ∧ sim'.current? = none ∨
    ∃ idx i idx' j, sim.current? = some (idx, i) ∧ sim'.current? = some (idx', j) ∧ ReadsAs p i j ∧
      i.isDirective = false ∧ j.isDirective = false ∧ sim'.program.number idx' = sim.program.number idx := by
  have hplace := h.place
  generalize hpc : sim.pc = place at hplace
  generalize hpc' : sim'.pc = place' at hplace
  cases hplace with
  | none => exact .inl ⟨by simp [current?, hpc], by simp [current?, hpc']⟩
  | some hi hword hj hword' hnumber =>
    exact .inr ⟨_, _, _, _, current?_eq_some_iff.2 ⟨hpc, hi⟩, current?_eq_some_iff.2 ⟨hpc', hj⟩,
      h.words.related hi hword hj hword' hnumber, hword, hword', hnumber⟩

theorem agrees : sim.Agrees sim' := by
  refine ⟨?_, h.core, h.mem, by rw [h.controller]⟩
  rcases h.current with ⟨hi, hj⟩ | ⟨idx, i, idx', j, hi, hj, hij, -⟩
  · rw [pcAddr?, pcAddr?, hi, hj]
  · rw [pcAddr?, pcAddr?, hi, hj]
    exact congrArg some hij.addr

/-- One step keeps them in step, unless it loads an address that is read back as another. -/
theorem step (hnot : ¬ sim.LoadsWide) : InStep p sim.step sim'.step := by
  rcases h.current with ⟨hi, hj⟩ | ⟨idx, i, idx', j, hi, hj, hij, hword, hword', hnumber⟩
  · rwa [step_of_none hi, step_of_none hj]
  · obtain ⟨s, t, s', hread, hstructure, hselect⟩ := hij.exists_readback
    have halike := hread.alike hselect hstructure h.names h.nameless sim.core sim.mem fun r v hload =>
      Bool.eq_false_iff.2 fun hmask => hnot ⟨idx, i, r, v, hi, hload, hmask⟩
    rw [step_of_current? hi, step_of_current? hj]
    have hran := sim.ran_stepAt idx i
    have hran' := sim'.ran_stepAt idx' j
    have hsequel : Controller.SameSequel sim.program sim'.program
        (sim.controller.advance (commit sim.core sim.mem (effects sim.core sim.mem sim.program i).1).1 sim.program idx i
          (effects sim.core sim.mem sim.program i).1.flow)
        (sim'.controller.advance (commit sim'.core sim'.mem (effects sim'.core sim'.mem sim'.program j).1).1
          sim'.program idx' j (effects sim'.core sim'.mem sim'.program j).1.flow) := by
      rw [h.controller, h.core, h.mem, halike.core, halike.flow]
      exact Controller.sameSequel_advance _ _ _ h.sequenced (current?_eq_some_iff.1 hi).2 hword
        (current?_eq_some_iff.1 hj).2 hword' hnumber
    refine ⟨h.words.ran hran hran', hran.symbols.trans h.names, hran'.symbols.trans h.nameless,
      .ran hran hran' hsequel.next, hsequel.core, ?_, hsequel.controller⟩
    rw [mem_stepAt, mem_stepAt, h.core, h.mem]
    exact halike.mem

/-- After such a load the address registers differ. -/
theorem core_step_ne (hwide : sim.LoadsWide) : sim'.step.core ≠ sim.step.core := by
  obtain ⟨idx, i, r, v, hi, hload, hmask⟩ := hwide
  rcases h.current with ⟨hnone, -⟩ | ⟨_, _, idx', j, hi', hj, hij, -⟩
  · cases hi.symm.trans hnone
  · cases hi.symm.trans hi'
    obtain ⟨s, t, s', hread, hstructure, hselect⟩ := hij.exists_readback
    intro heq
    refine hread.address_ne (p := sim.program) (q := sim'.program) hselect hstructure sim.core sim.mem hload hmask ?_
    have haddress := congrArg (Core.address · r) heq
    rw [step_of_current? hi, step_of_current? hj, core_stepAt, core_stepAt, h.core, h.mem] at haddress
    rw [← Core.address_of_files (Controller.files_advance ..), haddress]
    exact Core.address_of_files (Controller.files_advance ..) r

/-- Any number of steps keeps them in step, if no such load is among them. -/
theorem iterate {n : Nat} (hnot : ∀ k < n, ¬ (Simulator.step^[k] sim).LoadsWide) :
    InStep p (Simulator.step^[n] sim) (Simulator.step^[n] sim') := by
  induction n with
  | zero => exact h
  | succ n ih =>
    rw [Function.iterate_succ_apply', Function.iterate_succ_apply']
    exact (ih fun k hk => hnot k (Nat.lt_succ_of_lt hk)).step (hnot n n.lt_succ_self)

/-- The runs agree up to the first such load, and not behind it. -/
theorem agrees_iff (n : Nat) :
    (∀ k ≤ n, (Simulator.step^[k] sim).Agrees (Simulator.step^[k] sim')) ↔
      ∀ k < n, ¬ (Simulator.step^[k] sim).LoadsWide := by
  constructor
  · intro hagrees k
    -- up to the first wide load the runs are in step, and the load would part them
    induction k using Nat.strong_induction_on with
    | _ k ih =>
      intro hk hwide
      have hstep := h.iterate fun m hm => ih m hm (hm.trans hk)
      refine hstep.core_step_ne hwide ?_
      rw [← Function.iterate_succ_apply' Simulator.step, ← Function.iterate_succ_apply' Simulator.step]
      exact (hagrees (k + 1) hk).core
  · intro hnot k hk
    exact (h.iterate fun m hm => hnot m (Nat.lt_of_lt_of_le hm hk)).agrees

end InStep

end Simulator

namespace Program

variable {p : Program} {delaySlots : Bool}

/-- What is read back starts in step with the program. -/
theorem inStep_readBack (herrors : (p.resolve delaySlots).1.assemble.errors = 0)
    (hword : errorWord ∉ (p.resolve delaySlots).1.assemble.words)
    (hfit : ∀ r ∈ (p.resolve delaySlots).1.words, r.TargetsFit (p.resolve delaySlots).1) (config : Config)
    (core : Core) (mem : Memory) :
    Simulator.InStep (p.resolve delaySlots).1 { Simulator.load p config with core := core, mem := mem }
      { Simulator.load (p.resolve delaySlots).1.readBack config with core := core, mem := mem } := by
  have hwords : Corresponds (ReadsAs (p.resolve delaySlots).1) (p.resolve config.delaySlots).1
      ((p.resolve delaySlots).1.readBack.resolve config.delaySlots).1 :=
    ⟨forall₂_resolve_readBack herrors hword hfit config.delaySlots, fun _ _ hij => hij.addr⟩
  refine ⟨hwords, rfl, ?_, hwords.samePlace_firstWord?, rfl, rfl, rfl⟩
  refine SymbolTable.collect_of_words fun j hj => ?_
  obtain ⟨i, -, hij⟩ := exists_left_of_forall₂ (forall₂_readBack herrors hword hfit) hj
  exact hij.isDirective

/-- From any state, a program and what its words are read back as pass the same addresses, count the same cycles
and leave the same registers, flags, stacks and memory, exactly as long as lane 0 loads no address register with a
number of 16 bits that its field reads back as a negative one. -/
theorem run_readBack (herrors : (p.resolve delaySlots).1.assemble.errors = 0)
    (hword : errorWord ∉ (p.resolve delaySlots).1.assemble.words)
    (hfit : ∀ r ∈ (p.resolve delaySlots).1.words, r.TargetsFit (p.resolve delaySlots).1) (config : Config)
    (core : Core) (mem : Memory) (n : Nat) :
    let sim := { Simulator.load p config with core := core, mem := mem }
    let sim' := { Simulator.load (p.resolve delaySlots).1.readBack config with core := core, mem := mem }
    (∀ k ≤ n, (Simulator.step^[k] sim).Agrees (Simulator.step^[k] sim')) ↔
      ∀ k < n, ¬ (Simulator.step^[k] sim).LoadsWide :=
  (inStep_readBack herrors hword hfit config core mem).agrees_iff n

/-- Loads an index register with the first number that its field does not hold. -/
def farLoad : Program :=
  ((Builder.origin 0).push { line := 1, opcode := .ld, operands := [.reg ⟨.index, 0⟩, .imm 16384] }).program

/-- The load is read back as that of another address. -/
theorem run_readBack_farLoad :
    (farLoad.resolve false).1.assemble.errors = 0 ∧ errorWord ∉ (farLoad.resolve false).1.assemble.words ∧
      (∀ r ∈ (farLoad.resolve false).1.words, r.TargetsFit (farLoad.resolve false).1) ∧
      ¬ ∀ k ≤ 1, (Simulator.step^[k] (Simulator.load farLoad {})).Agrees
        (Simulator.step^[k] (Simulator.load (farLoad.resolve false).1.readBack {})) := by
  have herrors : (farLoad.resolve false).1.assemble.errors = 0 := by rfl
  have hword : errorWord ∉ (farLoad.resolve false).1.assemble.words := by decide +kernel
  have hfit : ∀ r ∈ (farLoad.resolve false).1.words, r.TargetsFit (farLoad.resolve false).1 := by
    intro r hr j hj t a ht
    obtain rfl := List.mem_singleton.1 hr
    obtain rfl := List.mem_singleton.1 hj
    cases ht with
    | tail _ ht => cases List.mem_singleton.1 ht
  refine ⟨herrors, hword, hfit, fun hagrees => ?_⟩
  refine (run_readBack herrors hword hfit {} (.initial 8) (.empty 0x10000) 1).1 hagrees 0 (by decide) ?_
  exact ⟨0, (farLoad.instrs[0].resolve false).1, ⟨.index, 0⟩, 16384, rfl, ⟨rfl, rfl, rfl, by decide⟩, rfl⟩

end Program

end QuadDsp
