import QuadDsp.Machine.Stepper
import QuadDsp.Proofs.Machine.Isolation
import QuadDsp.Proofs.Machine.Stepping

/-! # Driving a simulator by commands

Commands see a simulator, stop it and let it go on, but what it does is the same as without them. A step looks
neither at the breakpoints nor at the cap on unattended runs (`Simulator.step_watched`), and every command executes
some words in a row, none of which is skipped, repeated or counted twice (`Simulator.Follows.command`). So after any
commands a simulator is where as many plain steps lead as it has counted, and it comes to the same end
(`Simulator.transparent`). -/

namespace QuadDsp

/-- The command executes a word, if there is one. -/
def Command.advances : Command → Bool
  | resume | step => true
  | setBreak _ | clearBreak _ | dump _ | quit => false

namespace Simulator

/-- Carries out commands, one after another. -/
def obey (sim : Simulator) (cmds : List Command) : Simulator := cmds.foldl (fun sim cmd => (sim.command cmd).1) sim

/-- The same machine, with other breakpoints and another cap on unattended runs. -/
def watched (sim : Simulator) (breakpoints : List Nat) (cap : Nat) : Simulator :=
  { sim with breakpoints := breakpoints, config := { sim.config with maxSteps := cap } }

variable {start sim sim' : Simulator} {breakpoints : List Nat} {cap n k k' : Nat} {p : Program} {config : Config}

theorem step_watched (sim : Simulator) (breakpoints : List Nat) (cap : Nat) :
    (sim.watched breakpoints cap).step = sim.step.watched breakpoints cap := by
  have hcurrent : (sim.watched breakpoints cap).current? = sim.current? := rfl
  cases h : sim.current? with
  | none => rw [step_of_none h, step_of_none (hcurrent.trans h)]
  | some next =>
    rw [step_of_current? h, step_of_current? (hcurrent.trans h)]
    rfl

theorem breakpoints_step (sim : Simulator) : sim.step.breakpoints = sim.breakpoints := by
  unfold step
  cases sim.current? <;> rfl

theorem fst_command_step (sim : Simulator) : (sim.command .step).1 = sim.step := by
  rw [command]
  cases sim.step.current? <;> rfl

/-! ### What commands leave alone -/

theorem config_step (sim : Simulator) : sim.step.config = sim.config := by
  unfold step
  cases sim.current? <;> rfl

theorem config_iterate (sim : Simulator) (n : Nat) : (step^[n] sim).config = sim.config := by
  induction n with
  | zero => rfl
  | succ n ih => rw [Function.iterate_succ_apply', config_step, ih]

theorem config_runFor (n : Nat) (sim : Simulator) : (runFor n sim).1.config = sim.config := by
  induction n generalizing sim with
  | zero => rfl
  | succ n ih =>
    rw [runFor]
    cases sim.step.pcAddr? with
    | none => exact sim.config_step
    | some addr =>
      dsimp only
      split
      · exact sim.config_step
      · exact (ih sim.step).trans sim.config_step

theorem config_command (sim : Simulator) (cmd : Command) : (sim.command cmd).1.config = sim.config := by
  cases cmd with
  | resume => exact config_runFor sim.config.maxSteps sim
  | step => rw [fst_command_step, config_step]
  | setBreak | clearBreak | dump | quit => rfl

theorem config_obey (sim : Simulator) (cmds : List Command) : (sim.obey cmds).config = sim.config := by
  induction cmds generalizing sim with
  | nil => rfl
  | cons cmd rest ih => exact (ih _).trans (sim.config_command cmd)

/-! ### Where words come to an end -/

/-- There is no next word. -/
def Finished (sim : Simulator) : Prop := sim.current? = none

theorem Runs.finished_iff (h : sim.Runs p config) : sim.Finished ↔ sim.pc = none := by
  refine ⟨fun hfinished => ?_, fun hpc => by rw [Finished, Simulator.current?, hpc]; rfl⟩
  cases hpc : sim.pc with
  | none => rfl
  | some idx =>
    obtain ⟨i, hi, -⟩ := h.isWord idx hpc
    cases hfinished.symm.trans (current?_eq_some_iff.2 ⟨hpc, hi⟩)

theorem Finished.iterate_of_le (h : (step^[n] sim).Finished) (hle : n ≤ k) : step^[k] sim = step^[n] sim := by
  obtain ⟨m, rfl⟩ := Nat.exists_eq_add_of_le hle
  rw [Nat.add_comm, Function.iterate_add_apply, Function.iterate_fixed (step_of_none h)]

theorem steps_step_of_not_finished (h : ¬sim.Finished) : sim.step.steps = sim.steps + 1 := by
  obtain ⟨next, hcurrent⟩ := Option.ne_none_iff_exists'.1 h
  rw [step_of_current? hcurrent, steps_stepAt]

theorem finished_runFor (h : (runFor n sim).2 = .finished) : (runFor n sim).1.Finished := by
  induction n generalizing sim with
  | zero => cases h
  | succ n ih =>
    rw [runFor] at h ⊢
    cases hpc : sim.step.pcAddr? with
    | none => exact Option.map_eq_none_iff.1 hpc
    | some addr =>
      rw [hpc] at h
      dsimp only at h ⊢
      split at h
      · cases h
      · next hbreak => rw [if_neg hbreak]; exact ih h

/-! ### Executing words in a row -/

/-- Executing `k` words has led from one simulator to the other, whatever has become of breakpoints and cap. -/
structure Follows (start : Simulator) (k : Nat) (sim : Simulator) : Prop where
  steps : sim.steps = start.steps + k
  machine : sim = (step^[k] start).watched sim.breakpoints sim.config.maxSteps

namespace Follows

theorem refl (start : Simulator) : start.Follows 0 start := ⟨rfl, rfl⟩

theorem watched (h : start.Follows k sim) (breakpoints : List Nat) (cap : Nat) :
    start.Follows k (sim.watched breakpoints cap) := by
  refine ⟨h.steps, ?_⟩
  conv_lhs => rw [h.machine]
  rfl

theorem finished_iff (h : start.Follows k sim) : sim.Finished ↔ (step^[k] start).Finished := by
  rw [h.machine]
  rfl

theorem finished_of_le (h : start.Follows k sim) (h' : start.Follows k' sim') (hfinished : sim.Finished)
    (hle : k ≤ k') : sim'.Finished := by
  rw [h'.finished_iff, (h.finished_iff.1 hfinished).iterate_of_le hle]
  exact h.finished_iff.1 hfinished

/-- There is one end only. -/
theorem eq_of_finished (h : start.Follows k sim) (h' : start.Follows k' sim') (hfinished : sim.Finished)
    (hfinished' : sim'.Finished) : sim' = sim.watched sim'.breakpoints sim'.config.maxSteps := by
  have hsame : step^[k'] start = step^[k] start := by
    rcases Nat.le_total k k' with hle | hle
    · exact (h.finished_iff.1 hfinished).iterate_of_le hle
    · exact ((h'.finished_iff.1 hfinished').iterate_of_le hle).symm
  rw [h'.machine, h.machine, hsame]
  rfl

/-- A step executes one word more, if there is one. -/
theorem step (h : start.Follows k sim) :
    sim.Finished ∧ sim.step = sim ∨ ¬sim.Finished ∧ start.Follows (k + 1) sim.step := by
  by_cases hfinished : sim.Finished
  · exact .inl ⟨hfinished, step_of_none hfinished⟩
  · refine .inr ⟨hfinished, ?_, ?_⟩
    · rw [steps_step_of_not_finished hfinished, h.steps, Nat.add_assoc]
    · rw [breakpoints_step, config_step, Function.iterate_succ_apply', ← step_watched, ← h.machine]

/-- A run executes words in a row; if it may make steps, and there is a word, it executes at least that one. -/
theorem runFor (h : start.Follows k sim) (n : Nat) :
    ∃ m, start.Follows (k + m) (runFor n sim).1 ∧ (0 < n → ¬sim.Finished → 0 < m) := by
  induction n generalizing sim k with
  | zero => exact ⟨0, h, nofun⟩
  | succ n ih =>
    rcases h.step with ⟨hfinished, hstep⟩ | ⟨hnot, hnext⟩
    · have hpc : sim.pcAddr? = none := by rw [pcAddr?, hfinished]; rfl
      refine ⟨0, ?_, fun _ hnot => absurd hfinished hnot⟩
      rw [Simulator.runFor, hstep, hpc]
      exact h
    · rw [Simulator.runFor]
      cases sim.step.pcAddr? with
      | none => exact ⟨1, hnext, fun _ _ => Nat.one_pos⟩
      | some addr =>
        dsimp only
        split
        · exact ⟨1, hnext, fun _ _ => Nat.one_pos⟩
        · obtain ⟨m, hm, -⟩ := ih hnext
          exact ⟨1 + m, Nat.add_assoc k 1 m ▸ hm, fun _ _ => by omega⟩

/-- A command executes words in a row. -/
theorem command (h : start.Follows k sim) (cmd : Command) :
    ∃ m, start.Follows (k + m) (sim.command cmd).1 ∧
      (cmd.advances = true → 0 < sim.config.maxSteps → ¬sim.Finished → 0 < m) := by
  cases cmd with
  | resume =>
    obtain ⟨m, hm, hpos⟩ := h.runFor sim.config.maxSteps
    exact ⟨m, hm, fun _ => hpos⟩
  | step =>
    rw [fst_command_step]
    rcases h.step with ⟨hfinished, hstep⟩ | ⟨-, hnext⟩
    · exact ⟨0, hstep.symm ▸ h, fun _ _ hnot => absurd hfinished hnot⟩
    · exact ⟨1, hnext, fun _ _ _ => Nat.one_pos⟩
  | setBreak addr => exact ⟨0, h.watched (sim.addBreakpoint addr).breakpoints _, nofun⟩
  | clearBreak addr => exact ⟨0, h.watched (sim.removeBreakpoint addr).breakpoints _, nofun⟩
  | dump addr => exact ⟨0, h, nofun⟩
  | quit => exact ⟨0, h, nofun⟩

/-- Commands execute words in a row, at least one for each command that advances, unless they come to the end. -/
theorem obey (h : start.Follows k sim) (cmds : List Command) :
    ∃ m, start.Follows (k + m) (sim.obey cmds) ∧
      (0 < sim.config.maxSteps → (sim.obey cmds).Finished ∨ cmds.countP Command.advances ≤ m) := by
  induction cmds generalizing sim k with
  | nil => exact ⟨0, h, fun _ => .inr (Nat.le_refl 0)⟩
  | cons cmd rest ih =>
    obtain ⟨m, hm, hpos⟩ := h.command cmd
    obtain ⟨m', hm', hcount⟩ := ih hm
    rw [config_command] at hcount
    refine ⟨m + m', Nat.add_assoc k m m' ▸ hm', fun hcap => ?_⟩
    by_cases hfinished : sim.Finished
    · exact .inl (h.finished_of_le hm' hfinished (by omega))
    · refine (hcount hcap).imp_right fun hcount => ?_
      rw [List.countP_cons]
      split
      · next hadvances =>
        have := hpos hadvances hcap hfinished
        omega
      · omega

end Follows

/-- What commands make of a simulator. -/
structure Transparent (start : Simulator) (cmds : List Command) : Prop where
  /-- all but the breakpoints is as after so many plain steps as words have been executed -/
  machine : start.obey cmds =
    { step^[(start.obey cmds).steps] start with breakpoints := (start.obey cmds).breakpoints }
  /-- at the end all is as at the end of one run without breakpoints and under whatever cap -/
  whole : ∀ cap, (start.watched [] cap).run.2 = .finished → (start.obey cmds).pc = none →
    start.obey cmds = (start.watched [] cap).run.1.watched (start.obey cmds).breakpoints start.config.maxSteps
  /-- and there is such an end wherever one run comes to it: no more resumptions and single steps are needed than it
  executes words -/
  reaches : ∀ cap, (start.watched [] cap).run.2 = .finished → 0 < start.config.maxSteps →
    (start.watched [] cap).run.1.steps ≤ cmds.countP Command.advances → (start.obey cmds).pc = none
  /-- a resumption in front of a word executes at least that word -/
  resumes : (start.obey cmds).pc ≠ none → 0 < start.config.maxSteps →
    (start.obey cmds).steps < ((start.obey cmds).command .resume).1.steps

/-- From the start of any program commands lead where plain steps lead, and to the same end. -/
theorem transparent (p : Program) (config : Config) (breakpoints : List Nat) (core : Core) (mem : Memory)
    (cmds : List Command) : (startIn p config breakpoints core mem).Transparent cmds := by
  generalize hstart : startIn p config breakpoints core mem = start
  have hzero : start.steps = 0 := by rw [← hstart]; rfl
  have hruns : start.Runs p config := by
    rw [← hstart]
    exact ⟨.refl _, rfl, fun _ => Program.isWord_of_firstWord?⟩
  obtain ⟨k, hk, hcount⟩ := (Follows.refl start).obey cmds
  rw [Nat.zero_add] at hk
  have hsteps : (start.obey cmds).steps = k := by rw [hk.steps, hzero, Nat.zero_add]
  have hfinished : (start.obey cmds).Finished ↔ (start.obey cmds).pc = none := by
    have hruns' := hruns.iterate k
    have hpc : (start.obey cmds).pc = (step^[k] start).pc := by rw [hk.machine]; rfl
    rw [hk.finished_iff, hruns'.finished_iff, hpc]
  have hwhole (cap : Nat) : ∃ m, start.Follows m (start.watched [] cap).run.1 := by
    obtain ⟨m, hm, -⟩ := ((Follows.refl start).watched [] cap).runFor cap
    exact ⟨0 + m, hm⟩
  refine ⟨?_, fun cap hrun hpc => ?_, fun cap hrun hcap hle => ?_, fun hpc hcap => ?_⟩
  · have hmachine := hk.machine
    rw [config_obey, ← start.config_iterate k] at hmachine
    rw [hsteps]
    exact hmachine
  · obtain ⟨m, hm⟩ := hwhole cap
    have heq := hm.eq_of_finished hk (finished_runFor hrun) (hfinished.2 hpc)
    rwa [config_obey] at heq
  · obtain ⟨m, hm⟩ := hwhole cap
    rw [hm.steps, hzero, Nat.zero_add] at hle
    rw [← hfinished]
    rcases hcount hcap with hfinished | hcount
    · exact hfinished
    · exact hm.finished_of_le hk (finished_runFor hrun) (Nat.le_trans hle hcount)
  · obtain ⟨m, hm, hpos⟩ := hk.command .resume
    have := hpos rfl (by rwa [config_obey]) (fun hnot => hpc (hfinished.1 hnot))
    rw [hm.steps, hk.steps]
    omega

/-- A number is loaded and stored. -/
def loadAndStore : Program :=
  { instrs :=
      [{ line := 1, opcode := .ld, operands := [.reg ⟨.general, 0⟩, .imm 5] },
        { line := 2, opcode := .st, address := 1, operands := [.mem ⟨.data, .direct 0⟩, .reg ⟨.general, 0⟩] },
        { line := 3, opcode := .nop, address := 2 }] }

/-- A run that stops in front of the store, and is resumed there, comes to the end of the run that does not stop. -/
theorem transparent_loadAndStore :
    let start := startIn loadAndStore { dataWords := 4 } [] (.initial 8) (.empty 4)
    let halted := start.obey [.setBreak 1, .resume]
    let sim := start.obey [.setBreak 1, .resume, .resume]
    start.Transparent [.setBreak 1, .resume, .resume] ∧ halted.pc = some 1 ∧ sim.pc = none ∧ sim.steps = 3 ∧
      (start.watched [] 3).run.2 = .finished ∧
      sim = (start.watched [] 3).run.1.watched sim.breakpoints start.config.maxSteps := by
  intro start halted sim
  have h : start.Transparent [.setBreak 1, .resume, .resume] := transparent loadAndStore _ _ _ _ _
  have hpc : sim.pc = none := by rfl
  have hrun : (start.watched [] 3).run.2 = .finished := by rfl
  exact ⟨h, rfl, hpc, rfl, hrun, h.whole 3 hrun hpc⟩

end Simulator

end QuadDsp
