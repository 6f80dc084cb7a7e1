import QuadDsp.Condition
import QuadDsp.Register

/-! # Operands

An operand is classified once, when its token is read; everything later looks at its form and
never at its text. `Operand.text` is how an operand stands in source text, in listings and in
diagnostics. -/

namespace QuadDsp

/-- Signedness of the two factors of a multiplication, or signed with rounding. -/
inductive MulMode
  | ss | su | us | uu | rnd
deriving DecidableEq, Repr

namespace MulMode

def all : List MulMode := [ss, su, us, uu, rnd]

def code : MulMode → Nat
  | ss => 0 | su => 1 | us => 2 | uu => 3 | rnd => 4

def ofCode? (code : Nat) : Option MulMode := all[code]?

def name : MulMode → String
  | ss => "SS" | su => "SU" | us => "US" | uu => "UU" | rnd => "RND"

theorem ofCode?_code (m : MulMode) : ofCode? m.code = some m := by cases m <;> rfl

end MulMode

/-- A mode of the core that ENA and DIS switch. -/
inductive ModeBit
  /-- saturating arithmetic -/
  | aluSat
  /-- accumulators saturate when they overflow -/
  | macSat
  /-- bit-reversed addresses from `I0` to `I3` -/
  | bitRev
deriving DecidableEq, Repr

namespace ModeBit

def all : List ModeBit := [aluSat, macSat, bitRev]

def code : ModeBit → Nat
  | aluSat => 0 | macSat => 1 | bitRev => 2

def ofCode? (code : Nat) : Option ModeBit := all[code]?

def name : ModeBit → String
  | aluSat => "AS" | macSat => "MS" | bitRev => "BR"

theorem ofCode?_code (b : ModeBit) : ofCode? b.code = some b := by cases b <;> rfl

end ModeBit

inductive Keyword
  /-- the status registers, for PUSH and POP -/
  | sts
  | mul (mode : MulMode)
  | mode (bit : ModeBit)
deriving DecidableEq, Repr

/-- Program memory can be named, but no operation of this core reads data from it. -/
inductive Space
  | data | program
deriving DecidableEq, Repr

/-- How a memory operand forms its address. In the `post` modes the access comes before the step of
the index register, in the `pre` modes after it. -/
inductive AddrMode
  | direct (addr : Nat)
  | symbol (name : String)
  | post (i m : Nat)
  | pre (m i : Nat)
  | postImm (i : Nat) (step : Int)
  | preImm (step : Int) (i : Nat)
deriving DecidableEq, Repr

/-- The index register that the address comes from. -/
def AddrMode.index? : AddrMode → Option Nat
  | post i _ | pre _ i | postImm i _ | preImm _ i => some i
  | direct _ | symbol _ => none

structure MemRef where
  space : Space
  mode : AddrMode
deriving DecidableEq, Repr

/-- A program address, absolute or by label. -/
inductive Target
  | label (name : String)
  | abs (addr : Nat)
deriving DecidableEq, Repr

inductive Operand
  | reg (r : Reg)
  | accView (acc : Nat) (view : AccView)
  | sys (s : SysReg)
  | imm (value : Int)
  | mem (ref : MemRef)
  | target (t : Target)
  | cond (c : Condition)
  | key (k : Keyword)
deriving DecidableEq, Repr

namespace Keyword

def text : Keyword → String
  | sts => "STS"
  | mul m => "(" ++ m.name ++ ")"
  | mode b => b.name

end Keyword

namespace MemRef

/-- A step of zero after the access is not written. -/
def text (r : MemRef) : String :=
  let space := match r.space with
    | .data => "DM("
    | .program => "PM("
  let inner := match r.mode with
    | .direct a => Text.hex a
    | .symbol name => name
    | .post i m => "I" ++ Text.decimal i ++ ",M" ++ Text.decimal m
    | .pre m i => "M" ++ Text.decimal m ++ ",I" ++ Text.decimal i
    | .postImm i step =>
      if step = 0 then "I" ++ Text.decimal i
      else "I" ++ Text.decimal i ++ ",#" ++ Text.decimalInt step
    | .preImm step i => "#" ++ Text.decimalInt step ++ ",I" ++ Text.decimal i
  space ++ inner ++ ")"

end MemRef

def Target.text : Target → String
  | label name => name
  | abs addr => Text.hex addr

namespace Operand

def text : Operand → String
  | reg r => r.text
  | accView acc view => "ACC" ++ Text.decimal acc ++ "." ++ view.letter
  | sys s => s.name
  | imm v => "#" ++ Text.decimalInt v
  | mem r => r.text
  | target t => t.text
  | cond c => c.name
  | key k => k.text

/-- An operand list as diagnostics show it. -/
def textList (ops : List Operand) : String := Text.join ", " (ops.map text)

def reg? : Operand → Option Reg
  | reg r => some r
  | _ => none

def isMem : Operand → Bool
  | mem _ => true
  | _ => false

def isMulMode : Operand → Bool
  | key (.mul _) => true
  | _ => false

/-- False when a register number is past the end of its file. -/
def inFile : Operand → Bool
  | reg r => r.inFile
  | accView acc _ => acc < RegClass.acc.count
  | mem ⟨_, .post i m⟩ | mem ⟨_, .pre m i⟩ =>
    i < RegClass.index.count && m < RegClass.modify.count
  | mem ⟨_, .postImm i _⟩ | mem ⟨_, .preImm _ i⟩ => i < RegClass.index.count
  | _ => true

end Operand

end QuadDsp
