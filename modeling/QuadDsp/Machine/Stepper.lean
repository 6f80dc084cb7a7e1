import QuadDsp.Machine.Simulator

/-! # The stepper

Commands of one letter, some with a hexadecimal address behind it, that drive a simulator by hand.
Each command gives the text that it shows. -/

namespace QuadDsp

inductive Command
  | resume
  | step
  | setBreak (addr : Nat)
  | clearBreak (addr : Nat)
  | dump (addr : Nat)
  | quit
deriving DecidableEq, Repr

/-- Why a line is no command. -/
inductive CommandError
  | empty
  | needsAddress (letter : String)
  | badAddress (text : String) (fault : Text.NumeralFault)
  | unknown (letter : String)
deriving DecidableEq, Repr

def CommandError.message : CommandError → String
  | empty => "empty command"
  | needsAddress letter => "`" ++ letter ++ "` needs an address"
  | badAddress text fault => "bad address `" ++ text ++ "`: " ++ fault.message
  | unknown letter => "unknown command `" ++ letter ++ "`"

namespace Command

/-- A hexadecimal address, with or without `0x`. -/
def readAddr (s : List Char) : Except CommandError Nat :=
  let digits :=
    match s with
    | '0' :: 'x' :: ds => ds
    | '0' :: 'X' :: ds => ds
    | ds => ds
  match Text.readNat 16 32 digits with
  | .ok addr => .ok addr
  | .error fault => .error (.badAddress (String.ofList s) fault)

/-- Reads a command; what follows it on the line does not count. -/
def read (line : List Char) : Except CommandError Command :=
  match Text.words line with
  | [] => .error .empty
  | letter :: rest =>
    let name := String.ofList letter
    let addr : Except CommandError Nat :=
      match rest with
      | [] => .error (.needsAddress name)
      | text :: _ => readAddr text
    match letter with
    | ['c'] => .ok .resume
    | ['s'] => .ok .step
    | ['b'] => addr.map .setBreak
    | ['d'] => addr.map .clearBreak
    | ['m'] => addr.map .dump
    | ['q'] => .ok .quit
    | _ => .error (.unknown name)

end Command

namespace Memory

/-- The four values at an address in columns, or dashes outside memory. -/
def gridCell (m : Memory) (addr : Nat) : String :=
  let columns :=
    match m.read addr with
    | .ok v => v.toList.map Text.decimalInt
    | .error _ => List.replicate 4 "-"
  Text.join " " (columns.map (Text.padLeft 5))

/-- Sixteen rows of two addresses each. -/
def grid (m : Memory) (base : Nat) : String :=
  String.join <| (List.range 16).map fun row =>
    let addr := addrBehind base (2 * row)
    Text.hexUpper 4 addr ++ ": " ++ m.gridCell addr ++ "  " ++ m.gridCell (addrBehind addr 1) ++ "\n"

end Memory

namespace Simulator

/-- The text in front of a command. -/
def prompt (sim : Simulator) : String :=
  match sim.pcAddr? with
  | some addr => Text.hexUpper 4 addr ++ "> "
  | none => "----> "

/-- Carries out a command and gives the text that it shows. -/
def command (sim : Simulator) : Command → Simulator × String
  | .resume =>
    let (sim, outcome) := sim.run
    (sim, outcome.text ++ " after " ++ Text.decimal sim.steps ++ " steps\n")
  | .step =>
    let sim := sim.step
    match sim.current? with
    | some (_, i) => (sim, Text.hexUpper 4 i.programAddr ++ " " ++ i.text ++ "\n")
    | none => (sim, "finished\n")
  | .setBreak addr => (sim.addBreakpoint addr, "")
  | .clearBreak addr => (sim.removeBreakpoint addr, "")
  | .dump addr => (sim, sim.mem.grid addr)
  | .quit => (sim, "")

end Simulator

end QuadDsp
