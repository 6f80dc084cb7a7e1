import QuadDsp.Tool.Assemble
import QuadDsp.Tool.Disassemble
import QuadDsp.Tool.Run

/-! # The tools

Three tools share one command line: the first argument names the tool. -/

namespace QuadDsp

inductive Tool
  | run | assemble | disassemble
deriving DecidableEq, Repr

namespace Tool

def name : Tool → String
  | run => "run" | assemble => "asm" | disassemble => "dis"

def ofName? (s : String) : Option Tool := [run, assemble, disassemble].find? (·.name == s)

/-- The files that a tool reads for its arguments. -/
def inputs (t : Tool) (args : List String) : List String :=
  let paths :=
    match t with
    | run => (RunTool.Options.read? args).map RunTool.Options.inputs
    | assemble => (AssembleTool.Options.read? args).map AssembleTool.Options.inputs
    | disassemble => (DisassembleTool.Options.read? args).map DisassembleTool.Options.inputs
  paths.getD []

/-- Runs a tool on its arguments and the text of standard input. -/
def call (t : Tool) (fs : Files) (args : List String) (input : String) : Outcome :=
  let outcome :=
    match t with
    | run => (RunTool.Options.read? args).map fun o => RunTool.run fs o input
    | assemble => (AssembleTool.Options.read? args).map (AssembleTool.run fs)
    | disassemble => (DisassembleTool.Options.read? args).map (DisassembleTool.run fs)
  outcome.getD .usage

end Tool

end QuadDsp
