import QuadDsp.Width

/-! # Program images

An assembled program as bytes: each word as four bytes, the most significant first. -/

namespace QuadDsp

/-- The four bytes of a word. -/
def wordBytes (w : Nat) : List UInt8 :=
  [UInt8.ofNat (w >>> 24), UInt8.ofNat (w >>> 16), UInt8.ofNat (w >>> 8), UInt8.ofNat w]

def imageBytes (words : List Nat) : List UInt8 := words.flatMap wordBytes

/-- The words of an image; none if the bytes do not fill whole words. -/
def wordsOfBytes? : List UInt8 → Option (List Nat)
  | [] => some []
  | a :: b :: c :: d :: rest =>
    (wordsOfBytes? rest).map
      ((((a.toNat * 256 + b.toNat) * 256 + c.toNat) * 256 + d.toNat) :: ·)
  | _ => none

theorem wordsOfBytes?_imageBytes {words : List Nat} (h : ∀ w ∈ words, w < span 32) :
    wordsOfBytes? (imageBytes words) = some words := by
  induction words with
  | nil => rfl
  | cons w rest ih =>
    have hw : w < 4294967296 := h w (by simp)
    have ih := ih fun v hv => h v (by simp [hv])
    change wordsOfBytes? (wordBytes w ++ imageBytes rest) = _
    simp only [wordBytes, List.cons_append, List.nil_append, wordsOfBytes?, ih, Option.map_some,
      UInt8.toNat_ofNat', Nat.shiftRight_eq_div_pow]
    congr 2
    omega

/-- Words loaded at a program address. -/
structure Image where
  base : Nat
  words : List Nat

/-- The word at a program address. -/
def Image.word? (img : Image) (addr : Nat) : Option Nat :=
  if addr < img.base then none else img.words[addr - img.base]?

/-- Why bytes are no image. -/
def imageLengthMessage (length : String) : String :=
  "binary length " ++ length ++ " is not a whole number of words"

end QuadDsp
