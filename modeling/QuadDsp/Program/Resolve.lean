import QuadDsp.Format.Selection
import QuadDsp.Program.Basic

/-! # Resolving a program

Resolution fills in what a program leaves open: it collects the symbols that labels and directives
declare, gives every word a condition, marks delay slots, and chooses the format of each word. A
format that is already there stays, a symbol keeps its first definition, and an instruction without
a format is reported and left as it is. -/

namespace QuadDsp

namespace Instruction

/-- The name that a label or directive starts with. -/
def declaredName? (i : Instruction) : Option String :=
  match i.operands with
  | .target (.label name) :: _ => some name
  | _ => none

/-- The address or constant behind the name; an immediate keeps its low 32 bits. -/
def declaredValue (i : Instruction) : Nat :=
  match i.operands with
  | _ :: .target (.abs a) :: _ => a
  | _ :: .imm v :: _ => lowBits 32 v
  | _ => i.dataAddr

/-- The symbol that a label or directive declares. -/
def declared? (i : Instruction) : Option ProgramSymbol :=
  match i.opcode with
  | .label => some ⟨i.programAddr, .code, false, false⟩
  | .var => some ⟨i.declaredValue, .data, false, false⟩
  | .equ => some ⟨i.declaredValue, .const, false, false⟩
  | .external => some ⟨0, .code, true, false⟩
  | _ => none

/-- Gives the word a condition, and each sibling without one the condition of the head. -/
def withConditions (i : Instruction) : Instruction :=
  { i with
    condition := some i.cond
    siblings := i.siblings.map fun s => { s with condition := some (s.condition.getD i.cond) } }

/-- Chooses the format of a word that has none. -/
def withFormat (i : Instruction) : Instruction × Option Diagnostic :=
  if i.format.isSome then (i, none)
  else
    match checkStructure i with
    | .error e => (i, some (i.execDiagnostic (.structural e)))
    | .ok () =>
      match select i with
      | .ok s => ({ i with format := some s.format }, none)
      | .error e => (i, some (i.execDiagnostic (.shape e)))

/-- Resolves one word. -/
def resolve (i : Instruction) (inDelaySlot : Bool) : Instruction × Option Diagnostic :=
  { i.withConditions with inDelaySlot := inDelaySlot }.withFormat

end Instruction

namespace SymbolTable

def declare (t : SymbolTable) (i : Instruction) : SymbolTable :=
  match i.declaredName?, i.declared? with
  | some name, some s => t.define name s
  | _, _ => t

def markGlobal (t : SymbolTable) (i : Instruction) : SymbolTable :=
  match i.opcode, i.declaredName? with
  | .global, some name => t.modify name fun s => { s with isGlobal := true }
  | _, _ => t

/-- Declares all symbols, then marks those that are global. -/
def collect (t : SymbolTable) (instrs : List Instruction) : SymbolTable :=
  instrs.foldl markGlobal (instrs.foldl declare t)

end SymbolTable

/-- Resolves the words of a list; `afterBranch` says that the word before it branches. -/
def resolveList (delaySlots afterBranch : Bool) :
    List Instruction → List Instruction × List Diagnostic
  | [] => ([], [])
  | i :: rest =>
    if i.isDirective then
      let (rest, ds) := resolveList delaySlots afterBranch rest
      (i :: rest, ds)
    else
      let (j, d) := i.resolve (delaySlots && afterBranch)
      let (rest, ds) := resolveList delaySlots i.opcode.isBranch rest
      (j :: rest, d.toList ++ ds)

def Program.resolve (p : Program) (delaySlots : Bool) : Program × List Diagnostic :=
  let (instrs, ds) := resolveList delaySlots false p.instrs
  ({ p with instrs := instrs, symbols := p.symbols.collect p.instrs }, ds)

end QuadDsp
