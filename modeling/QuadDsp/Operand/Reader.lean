import QuadDsp.Operand.Basic
import QuadDsp.Width

/-! # Reading operands

A token is tried as each form in a fixed order, and the first form that fits wins: immediate, memory
reference, accumulator view, register, indirect target, system register, keyword, condition,
absolute address, label. `Operand.read?` reads one token and `Operand.readList` a list of them
separated by commas outside parentheses. -/

namespace QuadDsp

/-- A token that fits no form of operand. -/
structure OperandError where
  token : String
deriving DecidableEq, Repr

def OperandError.message (e : OperandError) : String :=
  "cannot parse operand `" ++ e.token ++ "`"

namespace Operand

/-- A signed integer, in hexadecimal after `0x`. The sign in front is split off first and the digits
behind it are read as a 64-bit integer, which may bring a sign of its own; of its negative the lowest 64 bits are
kept. -/
def readInteger? (s : List Char) : Option Int :=
  match Text.trim s with
  | '-' :: rest => (unsignedOrHex rest).map fun v => wrap 64 (-v)
  | '+' :: rest => unsignedOrHex rest
  | rest => unsignedOrHex rest
where
  unsignedOrHex : List Char → Option Int
    | '0' :: 'x' :: ds => (Text.readInt 16 64 ds).toOption
    | '0' :: 'X' :: ds => (Text.readInt 16 64 ds).toOption
    | ds => (Text.readInt 10 64 ds).toOption

/-- A number below `count` right behind `letters`. -/
def readNumbered? (letters : String) (count : Nat) (s : List Char) : Option Nat := do
  let ds ← letters.toList.isPrefixOf? s
  if ds.isEmpty || !ds.all Text.isDigit then none
  let n ← (Text.readNat 10 8 ds).toOption
  if n < count then some n else none

/-- A register of any file, in capitals. -/
def readReg? (s : List Char) : Option Reg :=
  [RegClass.acc, .complex, .general, .index, .modify, .length, .base].findSome? fun cls =>
    (readNumbered? cls.letters cls.count s).map (Reg.mk cls)

def readSys? (s : List Char) : Option SysReg := SysReg.all.find? (·.name.toList == s)

/-- A keyword in capitals, inside any number of opening and closing parentheses. -/
def readKeyword? (s : List Char) : Option Keyword :=
  let bare := Text.dropEnd (· == ')') (s.dropWhile (· == '('))
  if bare == "STS".toList then some .sts
  else
    ((MulMode.all.find? (·.name.toList == bare)).map Keyword.mul).or
      ((ModeBit.all.find? (·.name.toList == bare)).map Keyword.mode)

def isNameStart (c : Char) : Bool := c.isAlpha || c == '_' || c == '.'

def isNameChar (c : Char) : Bool := c.isAlphanum || c == '_' || c == '.'

/-- A letter, underscore or dot, followed by any number of those and digits. -/
def isName : List Char → Bool
  | [] => false
  | c :: cs => isNameStart c && cs.all isNameChar

def readIndex? (s : List Char) : Option Nat := readNumbered? "I" 8 s

def readModify? (s : List Char) : Option Nat := readNumbered? "M" 8 s

/-- An immediate step; it keeps its low 32 bits. -/
def readStep? : List Char → Option Int
  | '#' :: ds => (readInteger? ds).map (wrap 32)
  | _ => none

/-- A 32-bit address. -/
def toAddr? (v : Int) : Option Nat := if 0 ≤ v ∧ v < span 32 then some v.toNat else none

/-- The addressing mode between the parentheses of a memory reference, in capitals. -/
def readMode? (inner : List Char) : Option AddrMode :=
  match (Text.cut (· == ',') inner).map Text.trim with
  | [one] =>
    match readIndex? one with
    | some i => some (.postImm i 0)
    | none =>
      match readInteger? one with
      | some a => (toAddr? a).map .direct
      | none => if isName one then some (.symbol (String.ofList one)) else none
  | [a, b] =>
    match readIndex? a, readModify? b, readModify? a, readIndex? b, readStep? a, readStep? b with
    | some i, some m, _, _, _, _ => some (.post i m)
    | _, _, some m, some i, _, _ => some (.pre m i)
    | some i, _, _, _, _, some step => some (.postImm i step)
    | _, _, _, some i, some step, _ => some (.preImm step i)
    | _, _, _, _, _, _ => none
  | _ => none

/-- A memory reference, in capitals and without spaces. -/
def readMem? (s : List Char) : Option MemRef := do
  let (space, rest) ←
    match s with
    | 'D' :: 'M' :: '(' :: rest => some (Space.data, rest)
    | 'P' :: 'M' :: '(' :: rest => some (Space.program, rest)
    | _ => none
  let inner ← [')'].isSuffixOf? rest
  let mode ← readMode? inner
  return ⟨space, mode⟩

/-- Reads one token. A symbol in a memory reference is taken as written, from the fourth character
of the token up to the closing parenthesis. -/
def read? (token : List Char) : Option Operand :=
  let raw := Text.trim token
  let up := Text.upper raw
  match raw with
  | [] => none
  | '#' :: ds => (readInteger? ds).map .imm
  | _ =>
    match readMem? (up.filter (· ≠ ' ')) with
    | some ⟨space, .symbol _⟩ =>
      some (.mem ⟨space, .symbol (String.ofList (Text.trim (raw.drop 3).dropLast))⟩)
    | some ref => some (.mem ref)
    | none =>
      readView? up <|> (readReg? up).map .reg <|> readIndirect? up <|> (readSys? up).map .sys <|>
        (readKeyword? up).map .key <|> (Condition.ofName? up).map .cond <|> readTarget? raw
where
  readView? (up : List Char) : Option Operand := do
    let (acc, part) ← Text.splitFirst (· == '.') up
    let r ← readReg? acc
    let view ←
      match part with
      | ['H'] => some AccView.high
      | ['M'] => some AccView.mid
      | ['L'] => some AccView.low
      | _ => none
    if r.cls = .acc then some (.accView r.index view) else none
  /-- A jump through an index register, `(I3)`. -/
  readIndirect? (up : List Char) : Option Operand := do
    let rest ← ['('].isPrefixOf? up
    let inner ← [')'].isSuffixOf? rest
    let i ← readIndex? inner
    return .reg ⟨.index, i⟩
  readTarget? (raw : List Char) : Option Operand :=
    match readInteger? raw with
    | some v => (toAddr? v).map fun a => .target (.abs a)
    | none => if isName raw then some (.target (.label (String.ofList raw))) else none

/-- Reads one token, or names it without the blanks around it. -/
def read (token : List Char) : Except OperandError Operand :=
  match read? token with
  | some op => .ok op
  | none => .error ⟨String.ofList (Text.trim token)⟩

/-- Splits at the commas that stand outside parentheses. -/
def cutList : Nat → List Char → List (List Char)
  | _, [] => [[]]
  | depth, c :: cs =>
    if c == ',' && depth == 0 then [] :: cutList 0 cs
    else
      let depth :=
        if c == '(' then depth + 1 else if c == ')' then depth - 1 else depth
      Text.consFirst c (cutList depth cs)

/-- Reads a list of operands; what follows the last comma may be blank. -/
def readList (text : List Char) : Except OperandError (List Operand) :=
  let pieces := cutList 0 text
  let tail := pieces.getLast?.toList.filter fun p => (Text.trim p) ≠ []
  (pieces.dropLast ++ tail).mapM read

end Operand

end QuadDsp
