import QuadDsp.Proofs.Machine.Isolation

/-! # All lanes compute the same function

A program of lane-local words does the same in every lane, whatever number the lane has. Where the lanes are
gathered anew in front of a run, by any map and not only by a permutation, the run is the same, with its lanes
gathered anew (`Simulator.run_gather`). -/

namespace QuadDsp

/-- Takes in each lane the value of the lane that the map names. -/
def Lanes.gather (f : Lane → Lane) (v : Lanes α) : Lanes α := .ofFn fun l => v (f l)

@[simp] theorem Lanes.gather_apply (f : Lane → Lane) (v : Lanes α) (l : Lane) : v.gather f l = v (f l) :=
  ofFn_apply _ l

/-- Gathers what lies in lanes; what is shared stays, and so do the statuses put aside. -/
def Core.gather (f : Lane → Lane) (s : Core) : Core :=
  { s with regs := s.regs.map (·.gather f), accs := s.accs.map (·.gather f), flags := s.flags.gather f }

def Memory.gather (f : Lane → Lane) (m : Memory) : Memory := ⟨m.words.map (·.gather f)⟩

/-- What lies in a lane of the core. -/
def Core.lane (s : Core) (l : Lane) := (s.regs.map (· l), s.accs.map (· l), s.flags l)

def Memory.lane (m : Memory) (l : Lane) := m.words.map (· l)

namespace Simulator

def gather (f : Lane → Lane) (sim : Simulator) : Simulator :=
  { sim with core := sim.core.gather f, mem := sim.mem.gather f }

/-- What lies in a lane: its registers, its accumulators, its flags and its memory. -/
def lane (sim : Simulator) (l : Lane) := (sim.core.lane l, sim.mem.lane l)

theorem lane_gather (f : Lane → Lane) (sim : Simulator) (l : Lane) : (sim.gather f).lane l = sim.lane (f l) := by
  simp [lane, Core.lane, Memory.lane, gather, Core.gather, Memory.gather, Function.comp_def]

end Simulator

namespace LaneView

/-- Every lane looks like the one that the map names. -/
def gathering (f : Lane → Lane) : LaneView where
  seen _ := True
  origin := f

variable {f : Lane → Lane}

theorem same_gathering_iff {v w : Lanes α} : (gathering f).Same v w ↔ w = v.gather f := by
  constructor
  · intro h
    exact Lanes.ext fun l => by rw [h l trivial, Lanes.gather_apply]; rfl
  · rintro rfl l -
    exact Lanes.gather_apply f v l

theorem sameFile_gathering_iff {n : Nat} {file file' : Vector (Lanes α) n} :
    (gathering f).SameFile file file' ↔ file' = file.map (·.gather f) := by
  constructor
  · intro h
    refine Vector.ext fun i hi => ?_
    rw [Vector.getElem_map, same_gathering_iff.1 (h i hi)]
  · rintro rfl i hi
    rw [Vector.getElem_map]
    exact same_gathering_iff.2 rfl

/-- The gathered core is the only one that looks like it, but for the flags put aside. -/
theorem sameCore_gathering_iff {s s' : Core} (hstatuses : s'.statuses = s.statuses) :
    (gathering f).SameCore s s' ↔ s' = s.gather f := by
  constructor
  · rintro ⟨hregs, haccs, hflags, hindex, hmodify, hlength, hbase, hmodes, hcounter, hcalls, hloops, -, hdepth⟩
    rw [sameFile_gathering_iff] at hregs haccs
    rw [same_gathering_iff] at hflags
    obtain ⟨regs, accs, index, modify, length, base, flags, modes, counter, calls, loops, statuses, depth⟩ := s'
    simp_all [Core.gather]
  · rintro rfl
    exact ⟨sameFile_gathering_iff.2 rfl, sameFile_gathering_iff.2 rfl, same_gathering_iff.2 rfl, rfl, rfl, rfl, rfl,
      rfl, rfl, rfl, rfl, rfl, rfl⟩

theorem sameMemory_gathering_iff {m m' : Memory} : (gathering f).SameMemory m m' ↔ m' = m.gather f := by
  constructor
  · rintro ⟨hsize, hwords⟩
    obtain ⟨words⟩ := m
    obtain ⟨words'⟩ := m'
    refine congrArg Memory.mk (Array.ext (by simpa [Memory.size] using hsize) fun i hi hi' => ?_)
    rw [Array.getElem_map]
    have hlt : i < words.size := by simpa using hi'
    exact same_gathering_iff.1 (hwords i _ _ (Array.getElem?_eq_getElem hlt) (Array.getElem?_eq_getElem hi))
  · rintro rfl
    refine ⟨by simp [Memory.gather, Memory.size], fun addr v v' hv hv' => ?_⟩
    simp only [Memory.gather, Array.getElem?_map, hv, Option.map_some, Option.some.injEq] at hv'
    exact same_gathering_iff.2 hv'.symm

end LaneView

/-- All words of the program are lane-local. -/
def Program.IsLaneLocal (p : Program) : Prop := ∀ i ∈ p.instrs, i.isDirective = false → i.isLaneLocal = true

instance : DecidablePred Program.IsLaneLocal := fun p =>
  inferInstanceAs (Decidable (∀ i ∈ p.instrs, i.isDirective = false → i.isLaneLocal = true))

namespace Instruction

variable {i j : Instruction}

theorem SameWord.isLaneLocal (h : i.SameWord j) : j.isLaneLocal = i.isLaneLocal := by
  unfold Instruction.isLaneLocal
  rw [isEmpty_siblings_congr h.sameActions, h.head.opcode, h.head.operands]

theorem asks_of_isLaneLocal (h : i.isLaneLocal = true) : i.opcode.asks = false := by
  obtain ⟨u, hunit, hu⟩ := (isLaneLocal_iff.1 h).2.1
  rw [Opcode.asks_of_unit? hunit]
  cases u <;> first | rfl | cases hu

end Instruction

namespace Program

variable {p q : Program}

theorem IsLaneLocal.ran (h : p.IsLaneLocal) (hran : p.Ran q) : q.IsLaneLocal := by
  intro j hj hword
  obtain ⟨idx, hidx⟩ := List.getElem?_of_mem hj
  obtain ⟨i, hi, hreran⟩ := hran.exists_instr hidx
  rw [hreran.sameWord.isLaneLocal]
  exact h i (List.mem_of_getElem? hi) (hreran.isDirective ▸ hword)

theorem IsLaneLocal.resolve (h : p.IsLaneLocal) (delaySlots : Bool) : (p.resolve delaySlots).1.IsLaneLocal := by
  intro j hj hword
  obtain ⟨idx, hidx⟩ := List.getElem?_of_mem hj
  obtain ⟨i, b, hi, hdir, rfl⟩ := exists_of_resolve hidx hword
  have hlocal := h i (List.mem_of_getElem? hi) hdir
  obtain ⟨format, hresolve⟩ := i.fst_resolve b
  rw [hresolve]
  rw [Instruction.isLaneLocal_iff] at hlocal ⊢
  refine ⟨?_, hlocal.2⟩
  simp [Instruction.withConditions, hlocal.1]

theorem IsLaneLocal.loopCondition (h : p.IsLaneLocal) (first : Nat) : p.loopCondition first = .ce := by
  unfold Program.loopCondition
  split
  · rfl
  split
  · next c hc =>
    obtain ⟨i, hi, hc⟩ := Option.bind_eq_some_iff.1 hc
    obtain ⟨idx, hidx, hi⟩ := Option.bind_eq_some_iff.1 hi
    obtain ⟨j, hj, hword⟩ := isWord_of_indexOf? hidx
    cases hi.symm.trans hj
    have hlocal := (Instruction.isLaneLocal_iff.1 (h i (List.mem_of_getElem? hi) hword)).2.2.2
    cases hlocal _ (List.mem_of_getElem? hc)
  · rfl

end Program

namespace Simulator

/-- A lane-local word is next, if any. -/
structure LaneLocal (sim : Simulator) : Prop where
  words : sim.program.IsLaneLocal
  next : ∀ idx, sim.pc = some idx → sim.program.IsWord idx

variable {sim : Simulator} {idx : Nat} {i : Instruction} {f : Lane → Lane}

theorem LaneLocal.current (h : sim.LaneLocal) (hcurrent : sim.current? = some (idx, i)) : i.isLaneLocal = true := by
  obtain ⟨hpc, hi⟩ := current?_eq_some_iff.1 hcurrent
  obtain ⟨j, hj, hword⟩ := h.next idx hpc
  cases hi.symm.trans hj
  exact h.words i (List.mem_of_getElem? hi) hword

theorem flow_effects_of_asks (h : i.opcode.asks = false) : (effects sim.core sim.mem sim.program i).1.flow = none := by
  unfold effects
  cases hexecute : execute sim.core sim.mem sim.program i with
  | error e => rfl
  | ok fx =>
    rcases flow_of_execute hexecute with ⟨f, hop, -⟩ | ⟨-, hflow⟩
    · rw [← hop, f.asks_opcode] at h
      cases h
    · exact hflow

theorem statuses_stepAt (h : i.opcode.asks = false) : (sim.stepAt idx i).core.statuses = sim.core.statuses := by
  rw [stepAt_eq]
  dsimp only [advanced]
  rw [Controller.core_advance, Controller.statuses_rounded, flow_effects_of_asks h]
  exact congrArg (fun x => x.2.2.1) (sim.core.sequencing_commit sim.mem _)

/-- Simulators that look the same but for the lanes that are gathered, with the same statuses put aside. -/
theorem eq_gather_of_sameRun {sim' : Simulator} (h : (LaneView.gathering f).SameRun sim sim')
    (hstatuses : sim'.core.statuses = sim.core.statuses) : sim' = sim.gather f := by
  obtain ⟨hcore, hmem, hprogram, hconfig, hcontroller, hpc, hsteps, hbreakpoints, hdiagnostics⟩ := h
  rw [LaneView.sameCore_gathering_iff hstatuses] at hcore
  rw [LaneView.sameMemory_gathering_iff] at hmem
  obtain ⟨program, core, mem, config, controller, pc, steps, breakpoints, diagnostics⟩ := sim'
  simp_all [gather]

theorem sameRun_gather (f : Lane → Lane) (sim : Simulator) : (LaneView.gathering f).SameRun sim (sim.gather f) := by
  have hstatuses : (sim.core.gather f).statuses = sim.core.statuses := rfl
  exact ⟨(LaneView.sameCore_gathering_iff hstatuses).2 rfl, LaneView.sameMemory_gathering_iff.2 rfl, rfl, rfl, rfl, rfl,
    rfl, rfl, rfl⟩

namespace LaneLocal

/-- A step of gathered lanes is the step, gathered. -/
theorem stepAt_gather (h : sim.LaneLocal) (hcurrent : sim.current? = some (idx, i)) :
    (sim.gather f).stepAt idx i = (sim.stepAt idx i).gather f := by
  have hlocal := h.current hcurrent
  have hasks := Instruction.asks_of_isLaneLocal hlocal
  have hstep := (sim.sameRun_gather f).stepAt (.inr hlocal) idx (fun first => .inr (h.words.loopCondition first))
    (.inr (flow_effects_of_asks hasks))
  refine eq_gather_of_sameRun hstep ?_
  rw [statuses_stepAt hasks, statuses_stepAt hasks]
  rfl

theorem step_gather (h : sim.LaneLocal) : (sim.gather f).step = sim.step.gather f := by
  have hcurrent := (sim.sameRun_gather f).current?
  cases hnext : sim.current? with
  | none => rw [step_of_none hnext, step_of_none (hcurrent.trans hnext)]
  | some next =>
    rw [step_of_current? hnext, step_of_current? (hcurrent.trans hnext)]
    exact h.stepAt_gather hnext

theorem step (h : sim.LaneLocal) : sim.step.LaneLocal := by
  cases hnext : sim.current? with
  | none => rwa [step_of_none hnext]
  | some next =>
    rw [step_of_current? hnext]
    have hran := sim.ran_stepAt next.1 next.2
    exact ⟨h.words.ran hran, fun k hk => hran.isWord (Controller.isWord_of_advance hk)⟩

theorem iterate_gather (h : sim.LaneLocal) (n : Nat) :
    Simulator.step^[n] (sim.gather f) = (Simulator.step^[n] sim).gather f := by
  induction n generalizing sim with
  | zero => rfl
  | succ n ih => rw [Function.iterate_succ_apply, Function.iterate_succ_apply, h.step_gather, ih h.step]

theorem runFor_gather (h : sim.LaneLocal) (n : Nat) :
    runFor n (sim.gather f) = ((runFor n sim).1.gather f, (runFor n sim).2) := by
  induction n generalizing sim with
  | zero => rfl
  | succ n ih =>
    have hpc : (sim.step.gather f).pcAddr? = sim.step.pcAddr? :=
      congrArg (Option.map _) (sim.step.sameRun_gather f).current?
    simp only [runFor, h.step_gather, hpc]
    cases sim.step.pcAddr? with
    | none => rfl
    | some addr =>
      have hbreakpoints : (sim.step.gather f).breakpoints = sim.step.breakpoints := rfl
      dsimp only
      rw [hbreakpoints]
      split
      · rfl
      · exact ih h.step

end LaneLocal

theorem laneLocal_startIn {p : Program} (h : p.IsLaneLocal) (config : Config) (breakpoints : List Nat) (core : Core)
    (mem : Memory) : (startIn p config breakpoints core mem).LaneLocal :=
  ⟨h.resolve config.delaySlots, fun _ hpc => Program.isWord_of_firstWord? hpc⟩

/-- A program of lane-local words runs on gathered lanes as it does on the lanes themselves, step by step and to its
end, and gathers what it leaves there; and each lane ends as it does where all lanes start like it. -/
theorem run_gather {p : Program} (hlocal : p.IsLaneLocal) (config : Config) (breakpoints : List Nat) (core : Core)
    (mem : Memory) (f : Lane → Lane) :
    let sim := startIn p config breakpoints core mem
    (∀ n, Simulator.step^[n] (sim.gather f) = (Simulator.step^[n] sim).gather f) ∧
      (sim.gather f).run = (sim.run.1.gather f, sim.run.2) ∧
      ∀ l k, (sim.gather fun _ => l).run.1.lane k = sim.run.1.lane l := by
  intro sim
  have hsim : sim.LaneLocal := laneLocal_startIn hlocal config breakpoints core mem
  have hrun (f : Lane → Lane) : (sim.gather f).run = (sim.run.1.gather f, sim.run.2) :=
    hsim.runFor_gather config.maxSteps
  refine ⟨hsim.iterate_gather, hrun f, fun l k => ?_⟩
  rw [hrun, lane_gather]

/-- Adds two registers in the lanes that are not negative, and stores the sums. -/
def storedSums : Program :=
  { instrs :=
      [{ line := 1, opcode := .add, operands := [.reg ⟨.general, 2⟩, .reg ⟨.general, 0⟩, .reg ⟨.general, 1⟩],
         condition := some .pos },
        { line := 2, opcode := .st, operands := [.mem ⟨.data, .direct 1⟩, .reg ⟨.general, 2⟩] }] }

/-- Lanes 0, 1 and 2 start like lane 3, and lane 3 like lane 0. -/
theorem run_gather_storedSums :
    storedSums.IsLaneLocal ∧
      let sim := startIn storedSums {} [] { Core.initial 8 with regs := .replicate 32 ⟨1, 2, 3, 4⟩ } (.empty 4)
      let f : Lane → Lane := fun l => if l = 3 then 0 else 3
      (sim.gather f).run = (sim.run.1.gather f, sim.run.2) := by
  have hlocal : storedSums.IsLaneLocal := by decide
  exact ⟨hlocal, (run_gather hlocal {} [] _ _ _).2.1⟩

end Simulator

end QuadDsp
