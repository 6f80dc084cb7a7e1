import QuadDsp.Instruction

/-! # Reading source lines

A line is a comment (`;`), a label (`name:`), a directive, or an operation with an optional
predicate `IF condition` and siblings behind `||`. Behind a mnemonic a `*` asks for conjugation, a
multiply mode stands in parentheses at the end, and `DO end UNTIL CE` is a loop with two operands.
`Instruction.read` reads one line; the line number and address are filled in by whoever collects
lines into a program. -/

namespace QuadDsp

namespace Instruction

/-- An instruction that is not yet placed anywhere. -/
def unplaced (op : Opcode) (operands : List Operand) : Instruction :=
  { line := 0, opcode := op, operands := operands }

/-- Takes `IF condition` off the front. The condition is one word, or two after NOT; what follows is
found by counting the bytes of its words and one byte between them. -/
def readPredicate (text : List Char) : Except LineError (Option Condition × List Char) :=
  match "IF ".toList.isPrefixOf? text <|> "if ".toList.isPrefixOf? text with
  | none => .ok (none, text)
  | some rest =>
    let rest := Text.trimStart rest
    let (first, behind) := (Text.splitFirst Text.isBlank rest).getD (rest, [])
    let (name, length) :=
      if Text.sameLetters first "NOT".toList then
        let second := ((Text.splitFirst Text.isBlank behind).getD (behind, [])).1
        (first ++ ' ' :: second, Text.byteLength first + 1 + Text.byteLength second)
      else (first, Text.byteLength first)
    match Condition.ofName? name with
    | none => .error (.operand ⟨String.ofList name⟩)
    | some c => .ok (some c, Text.trimStart (Text.dropBytes length rest))

/-- Splits in front of the last opening parenthesis. -/
def splitLastParen (s : List Char) : Option (List Char × List Char) :=
  if '(' ∈ s then
    let behind := s.reverse.takeWhile (· ≠ '(')
    some (s.take (s.length - behind.length - 1), '(' :: behind.reverse)
  else none

/-- Takes a multiply mode off the end, together with the blanks and then the commas before it. -/
def readMode (body : List Char) : List Char × Option Operand :=
  match splitLastParen body with
  | none => (body, none)
  | some (front, tail) =>
    match Operand.read? tail with
    | some (.key (.mul m)) =>
      (Text.dropEnd (· == ',') (Text.trimEnd front), some (.key (.mul m)))
    | _ => (body, none)

/-- One operation, without predicate and siblings. -/
def readOperation (text : List Char) : Except LineError Instruction :=
  let (word, rest) := (Text.splitFirst Text.isBlank text).getD (text, [])
  let (name, conjugate) :=
    match ['*'].isSuffixOf? word with
    | some name => (name, true)
    | none => (word, false)
  match Opcode.ofMnemonic? name with
  | none => .error (.unknownMnemonic (String.ofList name))
  | some op =>
    let body := Text.replaceText " until ".toList ", ".toList
      (Text.replaceText " UNTIL ".toList ", ".toList (Text.trim rest))
    let (body, mode) := readMode body
    match Operand.readList body with
    | .error e => .error (.operand e)
    | .ok operands => .ok { unplaced op (operands ++ mode.toList) with conjugate := conjugate }

def readPredicated (text : List Char) : Except LineError Instruction := do
  let (condition, rest) ← readPredicate text
  let i ← readOperation rest
  return { i with condition := condition }

/-- A variable's address is also its data address. -/
def withDataAddr (i : Instruction) : Instruction :=
  match i.opcode, i.operands with
  | .var, _ :: .target (.abs a) :: _ => { i with dataAddr := a }
  | _, _ => i

/-- Reads one line without blanks around it. -/
def readTrimmed (text : List Char) : Except LineError Instruction :=
  match text with
  | [] | ';' :: _ => .ok (unplaced .comment [])
  | _ =>
    match [':'].isSuffixOf? text with
    | some name =>
      .ok (unplaced .label [.target (.label (String.ofList (Text.trim name)))])
    | none => do
      let (condition, rest) ← readPredicate text
      match (Text.splitOnText "||".toList 0 rest).map Text.trim with
      | [] => .error (.unknownMnemonic "")
      | first :: others =>
        let head ← readOperation first
        let siblings ← others.mapM readPredicated
        return withDataAddr { head with condition := condition, siblings := siblings }

/-- Reads one source line. -/
def read (line : List Char) : Except LineError Instruction := readTrimmed (Text.trim line)

end Instruction

end QuadDsp
