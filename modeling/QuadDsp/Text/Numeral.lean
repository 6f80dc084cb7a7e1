import QuadDsp.Width

/-! # Numerals

Numbers are written in a base between 2 and 16 without leading zeros (`digits`), and read back
digit by digit within the range of a fixed number of bits (`readNat`, `readInt`). A reader stops at
the first character at which reading fails, so of two faults in one numeral the left one is
reported. `magnitude_digits` says that written digits read back. -/

namespace QuadDsp.Text

/-- Why a numeral cannot be read. -/
inductive NumeralFault
  | empty
  | invalidDigit
  | tooLarge
  | tooSmall
deriving DecidableEq, Repr

def NumeralFault.message : NumeralFault → String
  | .empty => "cannot parse integer from empty string"
  | .invalidDigit => "invalid digit found in string"
  | .tooLarge => "number too large to fit in target type"
  | .tooSmall => "number too small to fit in target type"

/-- The value of a digit in a base of at most 16; letters count in either case. -/
def digit? (base : Nat) (c : Char) : Option Nat :=
  let n := c.toNat
  let value :=
    if 48 ≤ n ∧ n ≤ 57 then some (n - 48)
    else if 97 ≤ n ∧ n ≤ 102 then some (n - 87)
    else if 65 ≤ n ∧ n ≤ 70 then some (n - 55)
    else none
  value.filter (· < base)

def isDigit (c : Char) : Bool := (digit? 10 c).isSome

def digitChar (d : Nat) : Char := if d < 10 then Char.ofNat (48 + d) else Char.ofNat (87 + d)

/-- The digits of `n`, most significant first, with small letters. -/
def digits (base n : Nat) : List Char :=
  if _h : 2 ≤ base ∧ base ≤ n then digits base (n / base) ++ [digitChar (n % base)]
  else [digitChar n]
termination_by n
decreasing_by exact Nat.div_lt_self (by omega) (by omega)

/-- Reads digits onto an accumulator; a value past `limit` is the fault `excess`. -/
def magnitude (base limit : Nat) (excess : NumeralFault) :
    Nat → List Char → Except NumeralFault Nat
  | acc, [] => .ok acc
  | acc, c :: cs =>
    match digit? base c with
    | none => .error .invalidDigit
    | some d =>
      if limit < acc * base + d then .error excess
      else magnitude base limit excess (acc * base + d) cs

/-- An unsigned numeral of `bits` bits, with an optional plus sign. -/
def readNat (base bits : Nat) (s : List Char) : Except NumeralFault Nat :=
  match s with
  | [] => .error .empty
  | ['+'] => .error .invalidDigit
  | '+' :: ds => magnitude base (span bits - 1) .tooLarge 0 ds
  | ds => magnitude base (span bits - 1) .tooLarge 0 ds

/-- A two's complement numeral of `bits` bits, with an optional sign. -/
def readInt (base bits : Nat) (s : List Char) : Except NumeralFault Int :=
  match s with
  | [] => .error .empty
  | ['+'] => .error .invalidDigit
  | ['-'] => .error .invalidDigit
  | '+' :: ds => (magnitude base (span (bits - 1) - 1) .tooLarge 0 ds).map Int.ofNat
  | '-' :: ds => (magnitude base (span (bits - 1)) .tooSmall 0 ds).map fun n => -(n : Int)
  | ds => (magnitude base (span (bits - 1) - 1) .tooLarge 0 ds).map Int.ofNat

def decimal (n : Nat) : String := String.ofList (digits 10 n)

def decimalInt (i : Int) : String :=
  if i < 0 then "-" ++ decimal i.natAbs else decimal i.natAbs

/-- Hexadecimal with a `0x` in front. -/
def hex (n : Nat) : String := "0x" ++ String.ofList (digits 16 n)

/-- Hexadecimal with capital letters, padded with zeros to `width` digits. -/
def hexUpper (width n : Nat) : String :=
  let ds := (digits 16 n).map Char.toUpper
  String.ofList (List.replicate (width - ds.length) '0' ++ ds)

/-- Hexadecimal with a `0x` in front, padded with zeros to `width` characters in all. -/
def hexPadded (width n : Nat) : String :=
  let ds := digits 16 n
  "0x" ++ String.ofList (List.replicate (width - 2 - ds.length) '0' ++ ds)

theorem digit?_digitChar {base d : Nat} (hb : base ≤ 16) (hd : d < base) :
    digit? base (digitChar d) = some d := by
  have h16 : d < 16 := by omega
  have key : ∀ d : Fin 16, digit? 16 (digitChar d) = some d.val := by decide
  have := key ⟨d, h16⟩
  simp only [digit?, Option.filter_eq_some_iff] at this ⊢
  exact ⟨this.1, by simpa using hd⟩

theorem magnitude_append (base limit : Nat) (excess : NumeralFault) (acc : Nat)
    (s t : List Char) :
    magnitude base limit excess acc (s ++ t) =
      magnitude base limit excess acc s >>= fun n => magnitude base limit excess n t := by
  induction s generalizing acc with
  | nil => rfl
  | cons c cs ih =>
    simp only [List.cons_append, magnitude]
    split
    · rfl
    · split
      · rfl
      · exact ih _

theorem magnitude_digits {base limit n : Nat} (excess : NumeralFault) (h2 : 2 ≤ base)
    (h16 : base ≤ 16) (hn : n ≤ limit) :
    magnitude base limit excess 0 (digits base n) = .ok n := by
  induction n using digits.induct base with
  | case1 n h ih =>
    have hle : n / base ≤ limit := Nat.le_trans (Nat.div_le_self n base) hn
    have hmod : n % base < base := Nat.mod_lt n (by omega)
    have hval : n / base * base + n % base = n := by
      rw [Nat.mul_comm]; exact Nat.div_add_mod n base
    rw [digits, dif_pos h, magnitude_append, ih hle]
    change magnitude base limit excess (n / base) [digitChar (n % base)] = .ok n
    simp [magnitude, digit?_digitChar h16 hmod, hval, Nat.not_lt.mpr hn]
  | case2 n h =>
    have hlt : n < base := by omega
    rw [digits, dif_neg h]
    simp [magnitude, digit?_digitChar h16 hlt, Nat.not_lt.mpr hn]

end QuadDsp.Text
