import QuadDsp.Machine.Config
import QuadDsp.Machine.Controller
import QuadDsp.Machine.Execute
import QuadDsp.Program.Resolve

/-! # Running a program

A simulator holds a resolved program, the state of the core, data memory and the place of the next
word. `step` executes one word: its effects are committed, the controller decides what comes next,
and every fault on the way is kept as a diagnostic. `run` steps up to the end of the program, a
breakpoint or a number of steps. -/

namespace QuadDsp

structure Simulator where
  program : Program
  core : Core
  mem : Memory
  config : Config
  controller : Controller
  /-- place of the next word; none behind the end of the program -/
  pc : Option Nat
  steps : Nat := 0
  breakpoints : List Nat := []
  diagnostics : Array Diagnostic := #[]

/-- Why a run ended. -/
inductive RunOutcome
  | finished
  /-- in front of the word at an address -/
  | breakpoint (addr : Nat)
  | stepLimit
deriving DecidableEq, Repr

def RunOutcome.text : RunOutcome → String
  | finished => "Finished"
  | breakpoint addr => "Breakpoint(" ++ Text.decimal addr ++ ")"
  | stepLimit => "StepLimit"

/-- The diagnostic of a stack flag that a word has set. -/
def Instruction.stackDiagnostic (i : Instruction) (f : StackFault) : Diagnostic :=
  i.diagnostic .stackDiscipline f.stack.name f.message

/-- Records the latency of the latest execution. -/
def Program.setLatency (p : Program) (idx : Nat) (adv : Advance) : Program :=
  { p with instrs := p.instrs.modify idx fun i =>
      { i with latency := adv.latency, stall := adv.stall } }

namespace Simulator

/-- Resolves a program and stands in front of its first word. -/
def load (p : Program) (config : Config) : Simulator :=
  let (p, diagnostics) := p.resolve config.delaySlots
  { program := p
    core := .initial config.stackDepth
    mem := .empty config.dataWords
    config := config
    controller := { delaySlots := config.delaySlots }
    pc := p.firstWord?
    diagnostics := diagnostics.toArray }

/-- The next word with its place. -/
def current? (sim : Simulator) : Option (Nat × Instruction) := do
  let idx ← sim.pc
  return (idx, ← sim.program.instrs[idx]?)

/-- Program address of the next word. -/
def pcAddr? (sim : Simulator) : Option Nat := sim.current?.map fun (_, i) => i.programAddr

/-- The effects of a word, and its fault if it has none. -/
def effects (s : Core) (mem : Memory) (p : Program) (i : Instruction) :
    Effects × List ExecError :=
  match execute s mem p i with
  | .ok fx => (fx, fx.faults)
  | .error e => ({}, [e])

/-- Executes the word `i` at place `idx`. -/
def stepAt (idx : Nat) (i : Instruction) : Simulator → Simulator
  | ⟨program, core, mem, config, controller, _, steps, breakpoints, diagnostics⟩ =>
    let before := core.stackFaults
    let (fx, faults) := effects core mem program i
    let (core, mem, commitFaults) := commit core mem fx
    let (controller, core, adv) := controller.advance core program idx i fx.flow
    let stackFaults := core.stackFaults.filter fun f => !before.contains f
    let missing := adv.missing.toList.map fun addr => ExecError.address (.noWord addr)
    let found :=
      (faults ++ commitFaults).map i.execDiagnostic ++ stackFaults.map i.stackDiagnostic ++
        missing.map i.execDiagnostic
    ⟨program.setLatency idx adv, core, mem, config, controller, adv.next, steps + 1, breakpoints,
      diagnostics ++ found⟩

/-- Executes the next word, if there is one. -/
def step (sim : Simulator) : Simulator :=
  match sim.current? with
  | some (idx, i) => sim.stepAt idx i
  | none => sim

theorem step_of_finished {sim : Simulator} (h : sim.pc = none) : sim.step = sim := by
  simp [step, current?, h]

theorem steps_stepAt (sim : Simulator) (idx : Nat) (i : Instruction) :
    (sim.stepAt idx i).steps = sim.steps + 1 := rfl

/-- Executes at least one word, so that a run goes on behind a breakpoint it stands at. -/
def runFor : Nat → Simulator → Simulator × RunOutcome
  | 0, sim => (sim, .stepLimit)
  | n + 1, sim =>
    let sim := sim.step
    match sim.pcAddr? with
    | none => (sim, .finished)
    | some addr =>
      if sim.breakpoints.contains addr then (sim, .breakpoint addr) else runFor n sim

/-- Runs for at most the configured number of steps. -/
def run (sim : Simulator) : Simulator × RunOutcome := runFor sim.config.maxSteps sim

def addBreakpoint (sim : Simulator) (addr : Nat) : Simulator :=
  { sim with breakpoints := sim.breakpoints.insert addr }

def removeBreakpoint (sim : Simulator) (addr : Nat) : Simulator :=
  { sim with breakpoints := sim.breakpoints.filter (· != addr) }

end Simulator

end QuadDsp
