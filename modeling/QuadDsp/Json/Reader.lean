import QuadDsp.Json.Basic

/-! # Reading JSON

Text is read in two passes, and each is a fold: `Scan.step` takes one character and may complete
tokens, `Reading.step` takes one token and completes values on a stack of open arrays and objects.
Nothing looks ahead or goes back. Arrays and objects have values down to 127 levels, and text has
one if its surrogates come in pairs; anything else in good form is `Json.unread`, which does no harm
where a value is passed over. -/

namespace QuadDsp

namespace Json

inductive Token
  | openArr | closeArr | openObj | closeObj | comma | colon
  | value (v : Json)

/-- The characters of a text so far, last first; none behind half of a surrogate pair. -/
abbrev Chars := Option (List Char)

/-- What is being read in the middle of a token. -/
inductive Scan
  | between
  | text (chars : Chars)
  /-- behind a backslash -/
  | escape (chars : Chars)
  /-- in the four digits of a `\u` escape; `high` is the first half of a surrogate pair -/
  | unit (chars : Chars) (high : Option Nat) (digits value : Nat)
  /-- a first half is read, and the escape of a second half makes it a pair -/
  | pairEscape (chars : Chars) (high : Nat)
  /-- a first half and a backslash are read -/
  | pairLetter (chars : Chars) (high : Nat)
  /-- the characters of a number, last first -/
  | numeral (chars : List Char)
  /-- the letters of a word, last first -/
  | word (chars : List Char)

def isSpace (c : Char) : Bool := c == ' ' || c == '\t' || c == '\n' || c == '\r'

def isNumeralChar (c : Char) : Bool :=
  Text.isDigit c || c == '-' || c == '+' || c == '.' || c == 'e' || c == 'E'

/-- One or more digits and what follows them. -/
def takeDigits? (s : List Char) : Option (List Char × List Char) :=
  match s.takeWhile Text.isDigit with
  | [] => none
  | ds => some (ds, s.dropWhile Text.isDigit)

/-- The part behind the decimal point and the exponent, each of which may be missing. -/
def isTail (s : List Char) : Bool :=
  match s with
  | '.' :: rest =>
    match takeDigits? rest with
    | some (_, rest) => isExponent rest
    | none => false
  | _ => isExponent s
where
  isExponent : List Char → Bool
    | [] => true
    | c :: rest =>
      if c == 'e' || c == 'E' then
        let rest :=
          match rest with
          | '+' :: r => r
          | '-' :: r => r
          | r => r
        match takeDigits? rest with
        | some (_, []) => true
        | _ => false
      else false

/-- The value of a number. A whole number that fits 64 bits, signed or unsigned, is an integer;
negative zero is not. -/
def number? (s : List Char) : Option Json :=
  let (negative, body) :=
    match s with
    | '-' :: rest => (true, rest)
    | _ => (false, s)
  match takeDigits? body with
  | none => none
  | some (ds, tail) =>
    if ds.head? == some '0' && ds.length != 1 then none
    else if !isTail tail then none
    else
      let whole := (Text.magnitude 10 (span 64 - 1) .tooLarge 0 ds).toOption
      match tail, whole, negative with
      | [], some n, false => some (int n)
      | [], some n, true =>
        if 0 < n ∧ n ≤ span 63 then some (int (-n)) else some (real (String.ofList s))
      | _, _, _ => some (real (String.ofList s))

def word? (s : List Char) : Option Json :=
  if s == "null".toList then some null
  else if s == "true".toList then some (bool true)
  else if s == "false".toList then some (bool false)
  else none

namespace Scan

/-- A character between tokens: it starts one or is one. -/
def start (c : Char) : Option (List Token × Scan) :=
  if isSpace c then some ([], between)
  else if c == '[' then some ([.openArr], between)
  else if c == ']' then some ([.closeArr], between)
  else if c == '\x7b' then some ([.openObj], between)
  else if c == '\x7d' then some ([.closeObj], between)
  else if c == ',' then some ([.comma], between)
  else if c == ':' then some ([.colon], between)
  else if c == '"' then some ([], text (some []))
  else if isNumeralChar c then some ([], numeral [c])
  else if c.isAlpha then some ([], word [c])
  else none

/-- A value is complete in front of this character. -/
def finishBefore (v : Option Json) (c : Char) : Option (List Token × Scan) := do
  let v ← v
  let (tokens, next) ← start c
  return (.value v :: tokens, next)

def isHighHalf (unit : Nat) : Bool := 0xD800 ≤ unit && unit < 0xDC00

def isLowHalf (unit : Nat) : Bool := 0xDC00 ≤ unit && unit < 0xE000

/-- The character of a surrogate pair. -/
def pairChar (high low : Nat) : Char :=
  Char.ofNat (0x10000 + (high - 0xD800) * 0x400 + (low - 0xDC00))

/-- One more character of a text. -/
def push (chars : Chars) (c : Char) : Chars := chars.map (c :: ·)

/-- The UTF-16 unit of a `\u` escape is complete. -/
def closeUnit (chars : Chars) (high : Option Nat) (unit : Nat) : Scan :=
  match high with
  | some high => text (if isLowHalf unit then push chars (pairChar high unit) else none)
  | none =>
    if isHighHalf unit then pairEscape chars unit
    else text (if isLowHalf unit then none else push chars (Char.ofNat unit))

/-- The characters that a letter behind a backslash stands for. -/
def escapes : List (Char × Char) :=
  [('"', '"'), ('\\', '\\'), ('/', '/'), ('b', Char.ofNat 8), ('f', Char.ofNat 12), ('n', '\n'),
    ('r', '\r'), ('t', '\t')]

/-- The value of a text between quotes. -/
def textValue (chars : Chars) : Json :=
  match chars with
  | some chars => str (String.ofList chars.reverse)
  | none => unread

/-- A character of a text. -/
def textStep (chars : Chars) (c : Char) : Option (List Token × Scan) :=
  if c == '"' then some ([.value (textValue chars)], between)
  else if c == '\\' then some ([], escape chars)
  else if c.toNat < 32 then none
  else some ([], text (push chars c))

/-- A character behind a backslash. -/
def escapeStep (chars : Chars) (c : Char) : Option (List Token × Scan) :=
  if c == 'u' then some ([], unit chars none 0 0)
  else (escapes.lookup c).map fun e => ([], text (push chars e))

def step (c : Char) : Scan → Option (List Token × Scan)
  | between => start c
  | text chars => textStep chars c
  | escape chars => escapeStep chars c
  | unit chars high digits value => do
    let d ← Text.digit? 16 c
    if digits < 3 then return ([], unit chars high (digits + 1) (value * 16 + d))
    else return ([], closeUnit chars high (value * 16 + d))
  | pairEscape chars high =>
    if c == '\\' then some ([], pairLetter chars high) else textStep none c
  | pairLetter chars high =>
    if c == 'u' then some ([], unit chars (some high) 0 0) else escapeStep none c
  | numeral chars =>
    if isNumeralChar c then some ([], numeral (c :: chars))
    else finishBefore (number? chars.reverse) c
  | word chars =>
    if c.isAlpha then some ([], word (c :: chars)) else finishBefore (word? chars.reverse) c

/-- The end of the text: it completes a number or a word. -/
def finish : Scan → Option (List Token)
  | between => some []
  | numeral chars => (number? chars.reverse).map fun v => [.value v]
  | word chars => (word? chars.reverse).map fun v => [.value v]
  | _ => none

end Scan

/-- An array or object that is not yet closed, last item first. The fields of an object are lost
behind a name that cannot be read. -/
inductive Frame
  | arr (items : List Json)
  | obj (fields : Option (List (String × Json))) (key : String)

inductive Expect
  | value
  /-- a value, or the end of an array just opened -/
  | firstItem
  /-- a name, or the end of an object just opened -/
  | firstName
  | name
  | colon
  | separator
  | finished (v : Json)

structure Reading where
  stack : List Frame := []
  expect : Expect := .value

namespace Reading

/-- A value is complete. -/
def put (v : Json) : List Frame → Reading
  | [] => ⟨[], .finished v⟩
  | .arr items :: rest => ⟨.arr (v :: items) :: rest, .separator⟩
  | .obj fields key :: rest => ⟨.obj (fields.map ((key, v) :: ·)) key :: rest, .separator⟩

def nestingLimit : Nat := 127

/-- Whether an array or object inside these has a value. -/
def isShallow (outer : List Frame) : Bool := (outer.drop (nestingLimit - 1)).isEmpty

/-- An array or object is complete. -/
def putNested (v : Json) (outer : List Frame) : Reading :=
  put (if isShallow outer then v else unread) outer

def startValue (stack : List Frame) : Token → Option Reading
  | .value v => some (put v stack)
  | .openArr => some ⟨.arr [] :: stack, .firstItem⟩
  | .openObj => some ⟨.obj (some []) "" :: stack, .firstName⟩
  | _ => none

/-- The name of a field. -/
def setName : Json → List Frame → Option Reading
  | str key, .obj fields _ :: rest => some ⟨.obj fields key :: rest, .colon⟩
  | unread, .obj .. :: rest => some ⟨.obj none "" :: rest, .colon⟩
  | _, _ => none

def closeArr : List Frame → Option Reading
  | .arr items :: rest => some (putNested (arr items.reverse) rest)
  | _ => none

def closeObj : List Frame → Option Reading
  | .obj (some fields) _ :: rest => some (putNested (obj fields.reverse) rest)
  | .obj none _ :: rest => some (put unread rest)
  | _ => none

def step (r : Reading) (t : Token) : Option Reading :=
  match r.expect, t with
  | .value, t => startValue r.stack t
  | .firstItem, .closeArr => closeArr r.stack
  | .firstItem, t => startValue r.stack t
  | .firstName, .closeObj => closeObj r.stack
  | .firstName, .value name => setName name r.stack
  | .name, .value name => setName name r.stack
  | .colon, .colon => some { r with expect := .value }
  | .separator, .comma =>
    match r.stack with
    | .arr _ :: _ => some { r with expect := .value }
    | .obj .. :: _ => some { r with expect := .name }
    | [] => none
  | .separator, .closeArr => closeArr r.stack
  | .separator, .closeObj => closeObj r.stack
  | _, _ => none

end Reading

def readChars? (s : List Char) : Scan → Reading → Option (Scan × Reading) :=
  match s with
  | [] => fun scan r => some (scan, r)
  | c :: cs => fun scan r =>
    match scan.step c with
    | none => none
    | some (tokens, scan) =>
      match tokens.foldlM Reading.step r with
      | none => none
      | some r => readChars? cs scan r

/-- Reads a text that holds one value. -/
def read? (text : String) : Option Json := do
  let (scan, r) ← readChars? text.toList .between {}
  let r ← (← scan.finish).foldlM Reading.step r
  match r.expect with
  | .finished v => return v
  | _ => none

end Json

end QuadDsp
