/-! # Blanks, words and lines

Text is cut up as lists of characters. A blank is a character with the Unicode property
White_Space; `trim`, `words` and `lines` are the three ways the tools cut text at blanks. Cutting at
separators keeps everything: `cut_ne_nil` and `flatten_cut` say that a text always has a first
piece and that the pieces hold every character that is no separator, in order. -/

namespace QuadDsp.Text

/-- The characters with the Unicode property White_Space. -/
def isBlank (c : Char) : Bool :=
  let n := c.toNat
  (9 ≤ n && n ≤ 13) || n == 0x20 || n == 0x85 || n == 0xA0 || n == 0x1680 ||
    (0x2000 ≤ n && n ≤ 0x200A) || n == 0x2028 || n == 0x2029 || n == 0x202F || n == 0x205F ||
    n == 0x3000

def trimStart (s : List Char) : List Char := s.dropWhile isBlank

/-- Drops the longest ending whose characters all satisfy `p`. -/
def dropEnd (p : Char → Bool) (s : List Char) : List Char := (s.reverse.dropWhile p).reverse

def trimEnd (s : List Char) : List Char := dropEnd isBlank s

def trim (s : List Char) : List Char := trimEnd (trimStart s)

/-- Puts a character in front of the first piece. -/
def consFirst (c : Char) : List (List Char) → List (List Char)
  | [] => [[c]]
  | piece :: rest => (c :: piece) :: rest

/-- The pieces between the characters that satisfy `p`; `n` separators make `n + 1` pieces. -/
def cut (p : Char → Bool) : List Char → List (List Char)
  | [] => [[]]
  | c :: cs => if p c then [] :: cut p cs else consFirst c (cut p cs)

theorem cut_ne_nil (p : Char → Bool) (s : List Char) : cut p s ≠ [] := by
  cases s with
  | nil => simp [cut]
  | cons c cs =>
    rw [cut]
    split
    · simp
    · unfold consFirst; split <;> simp

theorem flatten_cut (p : Char → Bool) (s : List Char) :
    (cut p s).flatten = s.filter (fun c => !p c) := by
  induction s with
  | nil => rfl
  | cons c cs ih =>
    rw [cut, List.filter_cons]
    split
    · simp_all
    · cases h : cut p cs with
      | nil => exact absurd h (cut_ne_nil p cs)
      | cons piece rest => simp_all [consFirst]

/-- The maximal runs of characters that are no blanks. -/
def words (s : List Char) : List (List Char) := (cut isBlank s).filter (· ≠ [])

/-- A line ends at a line feed, together with one carriage return in front of it; what follows the
last line feed is a line only if it is not empty. -/
def lines (s : List Char) : List (List Char) :=
  let pieces := cut (· == '\n') s
  let ended := pieces.dropLast.map fun l => if l.getLast? == some '\r' then l.dropLast else l
  ended ++ (pieces.getLast?.toList.filter (· ≠ []))

/-- Splits at the first character that satisfies `p`, which is dropped. -/
def splitFirst (p : Char → Bool) (s : List Char) : Option (List Char × List Char) :=
  match s.dropWhile (fun c => !p c) with
  | [] => none
  | _ :: rest => some (s.takeWhile (fun c => !p c), rest)

/-- The pieces between the occurrences of a separator, found from the left without overlap; the
first argument counts the characters of the latest separator that are still to be passed over. -/
def splitOnText (sep : List Char) : Nat → List Char → List (List Char)
  | _, [] => [[]]
  | skip + 1, _ :: cs => splitOnText sep skip cs
  | 0, c :: cs =>
    if sep.isPrefixOf (c :: cs) then [] :: splitOnText sep (sep.length - 1) cs
    else consFirst c (splitOnText sep 0 cs)

/-- Puts `new` in the place of each occurrence of `sep`, found from the left without overlap. -/
def replaceText (sep new : List Char) (s : List Char) : List Char :=
  new.intercalate (splitOnText sep 0 s)

def upper (s : List Char) : List Char := s.map Char.toUpper

/-- Equality up to the case of ASCII letters. -/
def sameLetters (s t : List Char) : Bool := upper s == upper t

/-- Pads with blanks on the left to at least `width` characters. -/
def padLeft (width : Nat) (s : String) : String :=
  String.ofList (List.replicate (width - s.length) ' ') ++ s

/-- Pads with blanks on the right to at least `width` characters. -/
def padRight (width : Nat) (s : String) : String :=
  s ++ String.ofList (List.replicate (width - s.length) ' ')

/-- Joins with a separator between neighbours. -/
def join (sep : String) : List String → String
  | [] => ""
  | [s] => s
  | s :: rest => s ++ sep ++ join sep rest

/-- What follows the first `n` bytes of the UTF-8 form. -/
def dropBytes : Nat → List Char → List Char
  | _, [] => []
  | n, c :: cs => if n = 0 then c :: cs else dropBytes (n - c.utf8Size) cs

/-- Length of the UTF-8 form. -/
def byteLength (s : List Char) : Nat := s.foldl (fun n c => n + c.utf8Size) 0

end QuadDsp.Text
