import QuadDsp.Proofs.Machine.LaneStep

/-! # Lanes apart

Lanes interfere only through lane 0. What happens in a lane, and in all that is shared, depends on that lane,
on lane 0 and on what is shared: two runs of a program that start alike there stay alike there, whatever the
other lanes hold (`Simulator.alike_run`). -/

namespace QuadDsp

/-- Lane 0 and one lane beside it, which look like themselves. -/
def LaneView.beside (l : Lane) : LaneView where
  seen k := k = .first ∨ k = l
  origin := id

theorem LaneView.anchored_beside (l : Lane) : (beside l).Anchored := ⟨.inl rfl, fun _ _ => rfl⟩

namespace Simulator

/-- Simulators that agree in all that is shared, and look the same in the lanes of a view: in their registers,
accumulators and flags, in the flags that they have put aside, and in their memories. -/
structure AlikeIn (ρ : LaneView) (sim sim' : Simulator) : Prop extends ρ.SameRun sim sim' where
  statuses : ρ.SameStatuses sim.core.statuses sim'.core.statuses

namespace AlikeIn

variable {ρ : LaneView} {sim sim' : Simulator}

theorem stepAt (h : sim.AlikeIn ρ sim') (hρ : ρ.Anchored) (idx : Nat) (i : Instruction) :
    (sim.stepAt idx i).AlikeIn ρ (sim'.stepAt idx i) := by
  have hcommitted := h.committed (i := i) (.inl hρ)
  have hwhole : ρ.SameWhole (sim.committed i).1 (sim'.committed i).1 := by
    have hsame (sim : Simulator) : (sim.committed i).1.statuses = sim.core.statuses :=
      congrArg (fun x => x.2.2.1) (sim.core.sequencing_commit sim.mem _)
    exact ⟨hcommitted.core, by rw [hsame, hsame]; exact h.statuses⟩
  refine ⟨h.toSameRun.stepAt (.inl hρ) idx (fun _ => .inl hρ) (.inl hwhole), ?_⟩
  rw [stepAt_eq, stepAt_eq]
  unfold advanced
  rw [(h.effects (.inl hρ)).1.flow, h.controller, h.program]
  exact sim.controller.same_statuses idx hwhole

theorem step (h : sim.AlikeIn ρ sim') (hρ : ρ.Anchored) : sim.step.AlikeIn ρ sim'.step := by
  have hcurrent := h.current?
  cases hnext : sim.current? with
  | none =>
    rw [step_of_none hnext, step_of_none (hcurrent.trans hnext)]
    exact h
  | some next =>
    rw [step_of_current? hnext, step_of_current? (hcurrent.trans hnext)]
    exact h.stepAt hρ next.1 next.2

theorem iterate (h : sim.AlikeIn ρ sim') (hρ : ρ.Anchored) (n : Nat) :
    (Simulator.step^[n] sim).AlikeIn ρ (Simulator.step^[n] sim') := by
  induction n with
  | zero => exact h
  | succ n ih =>
    rw [Function.iterate_succ_apply', Function.iterate_succ_apply']
    exact ih.step hρ

end AlikeIn

/-- A simulator at the start of a program, in any state. -/
def startIn (p : Program) (config : Config) (breakpoints : List Nat) (core : Core) (mem : Memory) : Simulator :=
  { load p config with core := core, mem := mem, breakpoints := breakpoints }

/-- Two runs of a program that start alike in lane 0, in a lane beside it and in all that is shared stay alike
there, and in place, cycles, steps and diagnostics, whatever the other lanes hold. -/
theorem alike_run (p : Program) (config : Config) (breakpoints : List Nat) (l : Lane) {core core' : Core}
    {mem mem' : Memory} (hcore : (LaneView.beside l).SameWhole core core')
    (hmem : (LaneView.beside l).SameMemory mem mem') (n : Nat) :
    (step^[n] (startIn p config breakpoints core mem)).AlikeIn (.beside l)
      (step^[n] (startIn p config breakpoints core' mem')) := by
  have hstart : (startIn p config breakpoints core mem).AlikeIn (.beside l)
      (startIn p config breakpoints core' mem') :=
    ⟨⟨hcore.toSameCore, hmem, rfl, rfl, rfl, rfl, rfl, rfl, rfl⟩, hcore.statuses⟩
  exact hstart.iterate (LaneView.anchored_beside l) n

/-- Adds two registers in the lanes that are not negative, and goes on where lane 0 says so. -/
def mixedStep : Program :=
  { instrs :=
      [{ line := 1, opcode := .add, operands := [.reg ⟨.general, 2⟩, .reg ⟨.general, 0⟩, .reg ⟨.general, 1⟩],
         condition := some .pos },
        { line := 2, opcode := .jump, operands := [.target (.abs 0)], condition := some .ne }] }

/-- Lanes 2 and 3 start with other registers and in another memory. -/
theorem alike_run_mixedStep :
    let core := Core.initial 8
    let core' := { core with regs := .replicate 32 ⟨0, 0, -1, 7⟩ }
    let mem := Memory.empty 4
    let mem' : Memory := ⟨.replicate 4 ⟨0, 0, 3, 3⟩⟩
    (LaneView.beside 1).SameWhole core core' ∧ (LaneView.beside 1).SameMemory mem mem' ∧
      (step^[5] (startIn mixedStep {} [] core mem)).AlikeIn (.beside 1)
        (step^[5] (startIn mixedStep {} [] core' mem')) := by
  intro core core' mem mem'
  have hρ := LaneView.anchored_beside 1
  have hlanes {a b : Int} : (LaneView.beside 1).Same (.fill 0) ⟨0, 0, a, b⟩ := by
    rintro l (rfl | rfl) <;> rfl
  have hregs : (LaneView.beside 1).SameFile core.regs core'.regs := by
    intro i hi
    simp only [core, core', Core.initial, Vector.getElem_replicate]
    exact hlanes
  have hcore : (LaneView.beside 1).SameWhole core core' :=
    { hρ.sameCore core with regs := hregs, statuses := hρ.sameStatuses _ }
  have hmem : (LaneView.beside 1).SameMemory mem mem' := by
    refine ⟨rfl, fun addr v v' hv hv' => ?_⟩
    obtain rfl := Array.eq_of_mem_replicate (Array.mem_of_getElem? hv)
    obtain rfl := Array.eq_of_mem_replicate (Array.mem_of_getElem? hv')
    exact hlanes
  exact ⟨hcore, hmem, alike_run mixedStep {} [] 1 hcore hmem 5⟩

end Simulator

end QuadDsp
