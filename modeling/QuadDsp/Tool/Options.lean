import QuadDsp.Text.Numeral

/-! # Command line options

Options have a long name and perhaps a letter. A value stands in the same argument (`--base=16`,
`-b16`) or in the next one; letters without a value can share an argument. Whatever is no option is
a plain argument, as is everything behind `--`. -/

namespace QuadDsp

structure OptionSpec where
  name : String
  letter : Option Char := none
  takesValue : Bool := true

/-- The options given, each with its value, and the plain arguments in order. -/
structure Arguments where
  values : List (String × String) := []
  plain : List String := []

namespace Arguments

def value? (a : Arguments) (name : String) : Option String := a.values.lookup name

def has (a : Arguments) (name : String) : Bool := (a.value? name).isSome

def withValue (a : Arguments) (spec : OptionSpec) (value : String) : Arguments :=
  { a with values := a.values ++ [(spec.name, value)] }

/-- What reading one argument leads to: it may ask for a value in the next one. -/
inductive Reading
  | done (a : Arguments)
  | wants (a : Arguments) (spec : OptionSpec)

/-- An argument that starts with two dashes. -/
def readLong? (specs : List OptionSpec) (a : Arguments) (text : List Char) : Option Reading := do
  let name := String.ofList (text.takeWhile (· ≠ '='))
  let spec ← specs.find? (·.name == name)
  match text.dropWhile (· ≠ '='), spec.takesValue with
  | [], true => return .wants a spec
  | [], false => return .done (a.withValue spec "")
  | _ :: v, true => return .done (a.withValue spec (String.ofList v))
  | _, false => none

/-- The letters behind one dash. -/
def readLetters? (specs : List OptionSpec) (a : Arguments) : List Char → Option Reading
  | [] => some (.done a)
  | c :: rest => do
    let spec ← specs.find? (·.letter == some c)
    if spec.takesValue then
      match rest with
      | [] => return .wants a spec
      | '=' :: v => return .done (a.withValue spec (String.ofList v))
      | v => return .done (a.withValue spec (String.ofList v))
    else readLetters? specs (a.withValue spec "") rest

/-- Reads arguments from left to right; none if an option is unknown or lacks its value. -/
def readFrom? (specs : List OptionSpec) : Reading → List String → Option Arguments
  | .done a, [] => some a
  | .wants _ _, [] => none
  | .wants a spec, arg :: rest => readFrom? specs (.done (a.withValue spec arg)) rest
  | .done a, arg :: rest =>
    match arg.toList with
    | ['-', '-'] => some { a with plain := a.plain ++ rest }
    | '-' :: '-' :: text => do readFrom? specs (← readLong? specs a text) rest
    | '-' :: c :: text => do readFrom? specs (← readLetters? specs a (c :: text)) rest
    | _ => readFrom? specs (.done { a with plain := a.plain ++ [arg] }) rest

def read? (specs : List OptionSpec) (args : List String) : Option Arguments :=
  readFrom? specs (.done {}) args

/-- The only plain argument. -/
def single? (a : Arguments) : Option String :=
  match a.plain with
  | [path] => some path
  | _ => none

/-- A decimal number of `bits` bits. Below 64 bits it is read as a signed number first, so zero may
have a minus sign. -/
def readNumber? (bits : Nat) (text : List Char) : Option Nat :=
  if bits < 64 then
    match Text.readInt 10 64 text with
    | .ok i => if 0 ≤ i ∧ i < span bits then some i.toNat else none
    | .error _ => none
  else (Text.readNat 10 bits text).toOption

/-- The number that an option has for its value; none where the option is missing. -/
def number? (a : Arguments) (name : String) (bits : Nat) : Option (Option Nat) :=
  match a.value? name with
  | none => some none
  | some text => (readNumber? bits text.toList).map some

end Arguments

end QuadDsp
