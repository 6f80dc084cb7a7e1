import QuadDsp.Machine.Stepper
import QuadDsp.Tool.Files
import QuadDsp.Tool.Options

/-! # The simulator on the command line

Runs a program, or steps through it by commands read from standard input, and then reports
diagnostics, steps, cycles and a range of data memory. -/

namespace QuadDsp

namespace RunTool

structure Options where
  program : String
  config : Option String
  init : Option String
  initBase : Nat
  dump : Option Nat
  dumpBase : Nat
  maxSteps : Option Nat
  interactive : Bool

def specs : List OptionSpec :=
  [⟨"config", some 'c', true⟩, ⟨"init", none, true⟩, ⟨"init-base", none, true⟩,
    ⟨"dump", none, true⟩, ⟨"dump-base", none, true⟩, ⟨"max-steps", none, true⟩,
    ⟨"interactive", some 'i', false⟩]

def Options.read? (args : List String) : Option Options := do
  let a ← Arguments.read? specs args
  return {
    program := ← a.single?
    config := a.value? "config"
    init := a.value? "init"
    initBase := (← a.number? "init-base" 32).getD 0
    dump := ← a.number? "dump" 32
    dumpBase := (← a.number? "dump-base" 32).getD 0
    maxSteps := ← a.number? "max-steps" 64
    interactive := a.has "interactive" }

/-- The files that the tool reads. -/
def Options.inputs (o : Options) : List String := o.config.toList ++ [o.program] ++ o.init.toList

/-- Loads data memory from a file. -/
def loadInit (fs : Files) (path : String) (base : Nat) (sim : Simulator) :
    Except Failure Simulator := do
  let text ← fs.readText path
  match sim.mem.load base text with
  | (mem, .ok _) => return { sim with mem := mem }
  | (_, .error e) => throw ⟨e.place, e.cause?⟩

/-- The simulator in front of the first word. -/
def prepare (fs : Files) (o : Options) : Except Failure Simulator := do
  let config ← fs.readConfig o.config
  let config := { config with maxSteps := o.maxSteps.getD config.maxSteps }
  let sim := Simulator.load (← fs.readProgram o.program) config
  match o.init with
  | some path => loadInit fs path o.initBase sim
  | none => return sim

/-- What the stepper shows for a line, and whether it goes on. -/
structure Response where
  sim : Simulator
  out : String := ""
  err : String := ""
  more : Bool := true

/-- Carries out a line of input. -/
def respond (sim : Simulator) (line : List Char) : Response :=
  if Text.trim line = [] then { sim := sim }
  else
    match Command.read line with
    | .error e => { sim := sim, err := e.message ++ "\n" }
    | .ok c =>
      let (sim, out) := sim.command c
      { sim := sim, out := out, more := c != .quit }

/-- Steps by the lines of the input, with a prompt in front of each; the last prompt stands in front
of the end of the input. -/
def session (o : Outcome) (sim : Simulator) : List (List Char) → Outcome × Simulator
  | [] => ({ o with out := o.out ++ sim.prompt }, sim)
  | line :: rest =>
    let r := respond sim line
    let o := { o with out := o.out ++ sim.prompt ++ r.out, err := o.err ++ r.err }
    if r.more then session o r.sim rest else (o, r.sim)

/-- Runs without commands. -/
def unattended (sim : Simulator) : Outcome × Simulator :=
  let (sim, outcome) := sim.run
  let err :=
    match outcome with
    | .finished => ""
    | .stepLimit => "stopped after " ++ Text.decimal sim.steps ++ " steps\n"
    | .breakpoint addr => "breakpoint at " ++ Text.hexUpper 4 addr ++ "\n"
  ({ err := err }, sim)

/-- What is reported after a run. -/
def report (o : Options) (sim : Simulator) : Outcome where
  err := String.join (sim.diagnostics.toList.map Diagnostic.report)
  out :=
    "steps " ++ Text.decimal sim.steps ++ " cycles " ++ Text.decimal sim.controller.cycles ++
      "\n" ++
      match o.dump with
      | some count => sim.mem.dump o.dumpBase count
      | none => ""

def run (fs : Files) (o : Options) (input : String) : Outcome :=
  match prepare fs o with
  | .error e => .ofFailure e
  | .ok sim =>
    let (first, sim) :=
      if o.interactive then session {} sim (Text.lines input.toList) else unattended sim
    let last := report o sim
    { out := first.out ++ last.out, err := first.err ++ last.err }

end RunTool

end QuadDsp
