import QuadDsp.Instruction
import QuadDsp.Program.Names

/-! # Programs

A program is a list of instructions, directives among them, with a table of symbols and a table of
sections. Symbols stand for program addresses (labels), data addresses (variables) and constants;
`Program.targetAddr` and `Program.dataAddr?` give an operand its absolute address. -/

namespace QuadDsp

inductive SymbolKind
  | code | data | const
deriving DecidableEq, Repr

structure ProgramSymbol where
  addr : Nat
  kind : SymbolKind
  /-- defined by another program -/
  isExternal : Bool := false
  /-- visible to other programs -/
  isGlobal : Bool := false
deriving DecidableEq, Repr

inductive SectionKind
  | code | data
deriving DecidableEq, Repr

structure ProgramSection where
  kind : SectionKind
  base : Nat
deriving DecidableEq, Repr

abbrev SymbolTable := NameTable ProgramSymbol

namespace SymbolTable

/-- Adds a symbol, unless the name has one already. -/
def define (t : SymbolTable) (name : String) (s : ProgramSymbol) : SymbolTable :=
  if (t.find? name).isSome then t else t.insert name s

def addr (t : SymbolTable) (name : String) : Except StructuralError Nat :=
  match t.find? name with
  | some s => .ok s.addr
  | none => .error (.unknownSymbol name)

end SymbolTable

structure Program where
  instrs : List Instruction := []
  symbols : SymbolTable := {}
  sections : NameTable ProgramSection := {}
deriving Inhabited

namespace Program

/-- Absolute address of a branch or loop target. -/
def targetAddr (p : Program) : Target → Except StructuralError Nat
  | .abs a => .ok a
  | .label name => p.symbols.addr name

/-- Absolute address of a memory operand that does not go through an index register. -/
def dataAddr? (p : Program) : AddrMode → Except StructuralError (Option Nat)
  | .direct a => .ok (some a)
  | .symbol name => (p.symbols.addr name).map some
  | _ => .ok none

/-- Place of the first instruction word at a program address. -/
def indexOf? (p : Program) (addr : Nat) : Option Nat :=
  p.instrs.findIdx? fun i => !i.isDirective && i.programAddr == addr

/-- The first instruction word at a program address. -/
def wordAt? (p : Program) (addr : Nat) : Option Instruction := do p.instrs[← p.indexOf? addr]?

/-- Place of the next instruction word behind a place. -/
def nextWord? (p : Program) (idx : Nat) : Option Nat :=
  ((p.instrs.drop (idx + 1)).findIdx? fun i => !i.isDirective).map (idx + 1 + ·)

/-- Place of the first instruction word. -/
def firstWord? (p : Program) : Option Nat := p.instrs.findIdx? fun i => !i.isDirective

/-- The instructions that emit a word. -/
def words (p : Program) : List Instruction := p.instrs.filter fun i => !i.isDirective

end Program

end QuadDsp
