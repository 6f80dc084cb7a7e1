import QuadDsp.Text.Numeral

/-! # Registers

The register files of the core and the ways a word names a register. Registers `R`, `CR` and `ACC`
exist once per lane; the address registers `I`, `M`, `L` and `B` and the system registers are shared
by all lanes. A `Reg` may name an index past the end of its file: source text never does, but a
program read from its interchange form can, and `Reg.inFile` tells the two apart. -/

namespace QuadDsp

inductive RegClass
  /-- 12-bit data register -/
  | general
  /-- complex pair: `CRn` is `R2n` (real) and `R2n+1` (imaginary) -/
  | complex
  /-- 32-bit accumulator -/
  | acc
  /-- index register of the address generator -/
  | index
  /-- modify register: the step added to an index -/
  | modify
  /-- length register: the size of a circular buffer, or zero -/
  | length
  /-- base register: the start of a circular buffer -/
  | base
deriving DecidableEq, Repr

namespace RegClass

/-- Number of registers in the file. -/
def count : RegClass → Nat
  | general => 32
  | complex => 16
  | acc | index | modify | length | base => 8

/-- The letters in front of the register number. -/
def letters : RegClass → String
  | general => "R" | complex => "CR" | acc => "ACC"
  | index => "I" | modify => "M" | length => "L" | base => "B"

def isAddress : RegClass → Bool
  | index | modify | length | base => true
  | _ => false

/-- The two-bit selector of an address register file. -/
def addressCode? : RegClass → Option Nat
  | index => some 0 | modify => some 1 | length => some 2 | base => some 3
  | _ => none

def ofAddressCode? : Nat → Option RegClass
  | 0 => some index | 1 => some modify | 2 => some length | 3 => some base
  | _ => none

theorem ofAddressCode?_eq_some_iff {n : Nat} {c : RegClass} :
    ofAddressCode? n = some c ↔ c.addressCode? = some n := by
  constructor
  · unfold ofAddressCode?; split <;> rintro ⟨⟩ <;> rfl
  · unfold addressCode?; split <;> rintro ⟨⟩ <;> rfl

end RegClass

structure Reg where
  cls : RegClass
  index : Nat
deriving DecidableEq, Repr

namespace Reg

/-- The five-bit register code: the index, with the file selector above it for address registers. -/
def code (r : Reg) : Nat :=
  match r.cls.addressCode? with
  | some c => c * 8 ||| r.index
  | none => r.index

def inFile (r : Reg) : Bool := r.index < r.cls.count

def text (r : Reg) : String := r.cls.letters ++ Text.decimal r.index

end Reg

/-- A part of an accumulator: bits 31 to 24, 23 to 12 or 11 to 0. -/
inductive AccView
  | high | mid | low
deriving DecidableEq, Repr

namespace AccView

def code : AccView → Nat
  | high => 0 | mid => 1 | low => 2

def ofCode? : Nat → Option AccView
  | 0 => some high | 1 => some mid | 2 => some low
  | _ => none

def letter : AccView → String
  | high => "H" | mid => "M" | low => "L"

/-- Position of the view's lowest bit. -/
def shift : AccView → Nat
  | high => 24 | mid => 12 | low => 0

def width : AccView → Nat
  | high => 8 | mid | low => 12

end AccView

inductive SysReg
  /-- loop count -/
  | counter
  /-- mode bits -/
  | mode
  /-- flags of the lane that reads it -/
  | status
  /-- number of the lane that reads it -/
  | laneId
deriving DecidableEq, Repr

namespace SysReg

def all : List SysReg := [counter, mode, status, laneId]

def code : SysReg → Nat
  | counter => 0 | mode => 1 | status => 2 | laneId => 3

def ofCode? : Nat → Option SysReg
  | 0 => some counter | 1 => some mode | 2 => some status | 3 => some laneId
  | _ => none

def name : SysReg → String
  | counter => "CNTR" | mode => "MSTAT" | status => "ASTAT" | laneId => "ID"

def writable : SysReg → Bool
  | counter | mode => true
  | status | laneId => false

end SysReg

end QuadDsp
