import QuadDsp.Text.Blank

/-! # Conditions

The predicates of an instruction word, each with its name in source text and its five-bit code.
Codes 20 to 29 are unused. -/

namespace QuadDsp

inductive Condition
  | eq | ne | gt | le | lt | ge | av | notAv | ac | notAc | neg | pos | mv | notMv | sv | notSv
  | ce | notCe | aq | notAq | forever | always
deriving DecidableEq, Repr, Inhabited

namespace Condition

/-- All conditions, by ascending code. -/
def all : List Condition :=
  [eq, ne, gt, le, lt, ge, av, notAv, ac, notAc, neg, pos, mv, notMv, sv, notSv, ce, notCe, aq,
    notAq, forever, always]

theorem mem_all (c : Condition) : c ∈ all := by cases c <;> decide

def code : Condition → Nat
  | eq => 0 | ne => 1 | gt => 2 | le => 3 | lt => 4 | ge => 5 | av => 6 | notAv => 7
  | ac => 8 | notAc => 9 | neg => 10 | pos => 11 | mv => 12 | notMv => 13 | sv => 14
  | notSv => 15 | ce => 16 | notCe => 17 | aq => 18 | notAq => 19 | forever => 30 | always => 31

def name : Condition → String
  | eq => "EQ" | ne => "NE" | gt => "GT" | le => "LE" | lt => "LT" | ge => "GE"
  | av => "AV" | notAv => "NOT AV" | ac => "AC" | notAc => "NOT AC" | neg => "NEG" | pos => "POS"
  | mv => "MV" | notMv => "NOT MV" | sv => "SV" | notSv => "NOT SV" | ce => "CE"
  | notCe => "NOT CE" | aq => "AQ" | notAq => "NOT AQ" | forever => "FOREVER" | always => "TRUE"

def ofCode? (code : Nat) : Option Condition := all.find? (·.code == code)

theorem ofCode?_code (c : Condition) : ofCode? c.code = some c := by cases c <;> rfl

theorem code_lt (c : Condition) : c.code < 32 := by cases c <;> decide

/-- Reads a name in either case, with any blanks around and between its words. -/
def ofName? (text : List Char) : Option Condition :=
  let spaced := [' '].intercalate (Text.words text)
  all.find? fun c => Text.sameLetters c.name.toList spaced

end Condition

end QuadDsp
