import Mathlib.Data.Nat.Bitwise
import Mathlib.Tactic.Ring
import QuadDsp.Proofs.Word.ErrorWord
import QuadDsp.Word.Image

/-! # The bit buffer of the encoder

An encoder that works bit by bit: it shifts the fields of a word into a buffer, or the error word in their place, and
empties the buffer into words, bytes and lines of text that it keeps side by side. At every word the buffer holds 32
bits (`Instruction.length_bits_fields`) and is empty again behind it (`Emitter.emit_eq`), so whatever words stand in
front of it, failed ones among them, a word comes out as `Instruction.assemble` has it. What is kept side by side
agrees: all of it can be told from the assembled program (`Program.foldl_emit`). -/

namespace QuadDsp

/-! ### Bits, words and bytes -/

/-- The low bits of a value, the most significant first. -/
def bitsOf (value : Nat) : Nat → List Bool
  | 0 => []
  | width + 1 => value.testBit width :: bitsOf value width

/-- Bits shifted onto a number. -/
def shiftBits (acc : Nat) (bits : List Bool) : Nat := bits.foldl (fun acc b => 2 * acc + b.toNat) acc

/-- The number in the eight bits behind `k` whole bytes. -/
def byteOfBits (bits : List Bool) (k : Nat) : Nat := shiftBits 0 ((bits.drop (8 * k)).take 8)

/-- The bytes of a buffer that holds whole bytes. -/
def bytesOfBits (bits : List Bool) : List UInt8 :=
  (List.range (bits.length / 8)).map fun k => UInt8.ofNat (byteOfBits bits k)

theorem length_bitsOf (value width : Nat) : (bitsOf value width).length = width := by
  induction width with
  | zero => rfl
  | succ width ih => rw [bitsOf, List.length_cons, ih]

theorem shiftBits_append (acc : Nat) (bits more : List Bool) :
    shiftBits acc (bits ++ more) = shiftBits (shiftBits acc bits) more := List.foldl_append

theorem shiftBits_bitsOf (acc value width : Nat) :
    shiftBits acc (bitsOf value width) = acc * span width + value % span width := by
  induction width generalizing acc with
  | zero => simp [bitsOf, shiftBits, span, Nat.mod_one]
  | succ width ih =>
    have hmod : value % span (width + 1) = value % span width + span width * (value.testBit width).toNat := by
      rw [Nat.toNat_testBit]
      exact Nat.mod_pow_succ
    rw [bitsOf, show shiftBits acc (value.testBit width :: bitsOf value width) =
      shiftBits (2 * acc + (value.testBit width).toNat) (bitsOf value width) from rfl, ih, hmod, span_succ]
    ring

theorem shiftBits_eq (acc : Nat) (bits : List Bool) :
    shiftBits acc bits = acc * span bits.length + shiftBits 0 bits ∧ shiftBits 0 bits < span bits.length := by
  induction bits generalizing acc with
  | nil => exact ⟨by simp [shiftBits, span], span_pos 0⟩
  | cons b rest ih =>
    have hcons (acc : Nat) : shiftBits acc (b :: rest) = shiftBits (2 * acc + b.toNat) rest := rfl
    have hb : b.toNat < 2 := Bool.toNat_lt b
    have hlt := (ih 0).2
    rw [hcons, hcons, (ih _).1, (ih (2 * 0 + b.toNat)).1, List.length_cons, span_succ]
    refine ⟨by ring, ?_⟩
    have hle : b.toNat * span rest.length ≤ 1 * span rest.length := Nat.mul_le_mul_right _ (by omega)
    rw [Nat.mul_zero, Nat.zero_add]
    omega

section Bytes

variable {bits : List Bool} {k : Nat}

theorem length_drop_take (h : 8 * (k + 1) ≤ bits.length) : ((bits.drop (8 * k)).take 8).length = 8 := by
  rw [List.length_take, List.length_drop]
  omega

theorem byteOfBits_lt (h : 8 * (k + 1) ≤ bits.length) : byteOfBits bits k < 256 := by
  have hlt := (shiftBits_eq 0 ((bits.drop (8 * k)).take 8)).2
  rwa [length_drop_take h] at hlt

theorem shiftBits_take (h : 8 * (k + 1) ≤ bits.length) :
    shiftBits 0 (bits.take (8 * (k + 1))) = shiftBits 0 (bits.take (8 * k)) * 256 + byteOfBits bits k := by
  rw [Nat.mul_succ, List.take_add, shiftBits_append, (shiftBits_eq _ _).1, length_drop_take h]
  rfl

theorem wordBytes_of_bytes {a b c d : Nat} (hb : b < 256) (hc : c < 256) (hd : d < 256) :
    wordBytes (((a * 256 + b) * 256 + c) * 256 + d) = [UInt8.ofNat a, UInt8.ofNat b, UInt8.ofNat c, UInt8.ofNat d] := by
  have hbyte {x y : Nat} (hxy : x % 256 = y % 256) : UInt8.ofNat x = UInt8.ofNat y := by
    rw [← UInt8.ofNat_mod_size (x := x), ← UInt8.ofNat_mod_size (x := y)]
    exact congrArg _ hxy
  simp only [wordBytes, List.cons.injEq, and_true, Nat.shiftRight_eq_div_pow]
  refine ⟨hbyte ?_, hbyte ?_, hbyte ?_, hbyte ?_⟩ <;> omega

theorem bytesOfBits_eq (h : bits.length = 32) : bytesOfBits bits = wordBytes (shiftBits 0 bits) := by
  have hlen (k : Nat) (hk : k < 4) : 8 * (k + 1) ≤ bits.length := by omega
  have hword : shiftBits 0 bits = shiftBits 0 (bits.take (8 * 4)) := by
    rw [List.take_of_length_le (by omega)]
  have hnone : shiftBits 0 (bits.take (8 * 0)) = 0 := rfl
  rw [hword, shiftBits_take (hlen 3 (by decide)), shiftBits_take (hlen 2 (by decide)),
    shiftBits_take (hlen 1 (by decide)), shiftBits_take (hlen 0 (by decide)), hnone, Nat.zero_mul, Nat.zero_add,
    wordBytes_of_bytes (byteOfBits_lt (hlen 1 (by decide)))
      (byteOfBits_lt (hlen 2 (by decide))) (byteOfBits_lt (hlen 3 (by decide))), bytesOfBits, h]
  rfl

end Bytes

/-! ### The encoder -/

/-- The values and widths of the fields of a word, with its format and its relocations. -/
def Instruction.fields (p : Program) (i : Instruction) :
    Except EncodeError (FormatId × List (Nat × Nat) × List Reloc) :=
  match checkStructure i with
  | .error e => .error (.structural e)
  | .ok () =>
    match select i with
    | .error e => .error (.shape e)
    | .ok s =>
      if i.format ≠ some s.format then .error (.unresolved i.opcode)
      else (s.encodeFields p 0 s.format.layout).map fun (values, relocs) => (s.format, values, relocs)

/-- What an encoder has put out: each word as a number, as bytes, and as a line of the listing and of the image. -/
structure Encoded where
  words : List Nat := []
  bytes : List UInt8 := []
  listing : List ListingLine := []
  imageLines : List String := []
  errors : Nat := 0
  diagnostics : List Diagnostic := []

/-- What there is to put out for the lines of an assembled program. -/
def Assembly.encoded (a : Assembly) : Encoded where
  words := a.words
  bytes := imageBytes a.words
  listing := a.listing
  imageLines := a.words.map (Text.hexUpper 8)
  errors := a.errors
  diagnostics := a.diagnostics

/-- With one more line, and its diagnostic if there is one. -/
def Encoded.extend (out : Encoded) (line : ListingLine × Option Diagnostic) : Encoded where
  words := out.words ++ [line.1.word]
  bytes := out.bytes ++ wordBytes line.1.word
  listing := out.listing ++ [line.1]
  imageLines := out.imageLines ++ [Text.hexUpper 8 line.1.word]
  errors := out.errors + line.2.toList.length
  diagnostics := out.diagnostics ++ line.2.toList

/-- Bits that are no word yet, and what is put out so far. -/
structure Emitter where
  bits : List Bool := []
  out : Encoded := {}

namespace Emitter

def pushField (e : Emitter) (field : Nat × Nat) : Emitter := { e with bits := e.bits ++ bitsOf field.1 field.2 }

/-- Puts out the word in the buffer. -/
def flush (e : Emitter) (i : Instruction) (tag : String) (relocs : List Reloc) : Emitter :=
  let word := shiftBits 0 e.bits
  { out :=
      { e.out with
        bytes := e.out.bytes ++ bytesOfBits e.bits
        words := e.out.words ++ [word]
        imageLines := e.out.imageLines ++ [Text.hexUpper 8 word]
        listing := e.out.listing ++ [⟨i.line, i.programAddr, i.mnemonics, tag, i.memAccess, word, relocs⟩] } }

/-- Reports a failure, and puts out the error word in place of whatever is in the buffer. -/
def emitError (e : Emitter) (i : Instruction) (fault : EncodeError) : Emitter :=
  let out :=
    { e.out with diagnostics := e.out.diagnostics ++ [i.encodeDiagnostic fault], errors := e.out.errors + 1 }
  (pushField { bits := [], out := out } (errorWord, wordBits)).flush i "ERROR" []

/-- Encodes one line; directives are passed over. -/
def emit (p : Program) (e : Emitter) (i : Instruction) : Emitter :=
  if i.isDirective then e
  else
    match i.fields p with
    | .ok (format, values, relocs) => (values.foldl pushField e).flush i format.tag relocs
    | .error fault => e.emitError i fault

end Emitter

section Fields

variable {p : Program} {i : Instruction}

theorem Instruction.encode_eq_fields (p : Program) (i : Instruction) :
    i.encode p = (i.fields p).map fun (_, values, relocs) => ⟨pack values, relocs⟩ := by
  unfold encode fields
  cases checkStructure i with
  | error e => rfl
  | ok =>
    cases select i with
    | error e => rfl
    | ok s =>
      dsimp only
      split
      · rfl
      · cases s.encodeFields p 0 s.format.layout <;> rfl

theorem Emitter.bits_foldl_pushField (e : Emitter) (values : List (Nat × Nat)) :
    values.foldl pushField e = { e with bits := e.bits ++ values.flatMap fun (v, w) => bitsOf v w } := by
  induction values generalizing e with
  | nil => simp
  | cons f rest ih =>
    rw [List.foldl_cons, ih, pushField, List.flatMap_cons, List.append_assoc]

theorem length_flatMap_bitsOf (values : List (Nat × Nat)) :
    (values.flatMap fun (v, w) => bitsOf v w).length = totalWidth (values.map Prod.snd) := by
  induction values with
  | nil => rfl
  | cons f rest ih =>
    rw [List.flatMap_cons, List.length_append, length_bitsOf, ih]
    rfl

theorem shiftBits_flatMap_bitsOf (acc : Nat) (values : List (Nat × Nat)) :
    shiftBits acc (values.flatMap fun (v, w) => bitsOf v w) = packOnto acc values := by
  induction values generalizing acc with
  | nil => rfl
  | cons f rest ih => rw [List.flatMap_cons, shiftBits_append, shiftBits_bitsOf, ih, packOnto]

/-- The fields of a word fill the buffer. -/
theorem Instruction.length_bits_fields {format : FormatId} {values : List (Nat × Nat)} {relocs : List Reloc}
    (h : i.fields p = .ok (format, values, relocs)) :
    i.format = some format ∧ (values.flatMap fun (v, w) => bitsOf v w).length = wordBits := by
  unfold fields at h
  split at h
  · cases h
  split at h
  · cases h
  next s _ =>
  split at h
  · cases h
  next hformat =>
  cases hf : s.encodeFields p 0 s.format.layout with
  | error err => rw [hf] at h; cases h
  | ok r =>
    rw [hf] at h
    cases h
    refine ⟨not_not.1 hformat, ?_⟩
    rw [length_flatMap_bitsOf, Selection.map_snd_encodeFields hf, ← FormatId.width, FormatId.width_layout]

end Fields

namespace Emitter

variable {p : Program} {e : Emitter} {i : Instruction}

/-- An encoder with an empty buffer puts out the line of the word, and its buffer is empty again, whether the word
encodes or not. -/
theorem emit_eq (h : e.bits = []) (hword : i.isDirective = false) :
    e.emit p i = { out := e.out.extend (i.assemble p) } := by
  have hencode := i.encode_eq_fields p
  rw [emit, hword, if_neg Bool.false_ne_true]
  cases hfields : i.fields p with
  | error fault =>
    rw [hfields] at hencode
    have hassemble : i.assemble p = (⟨i.line, i.programAddr, i.mnemonics, "ERROR", i.memAccess, errorWord, []⟩,
        some (i.encodeDiagnostic fault)) := by
      rw [Instruction.assemble, hencode]
      rfl
    have hbits : shiftBits 0 (bitsOf errorWord wordBits) = errorWord := by
      rw [shiftBits_bitsOf, Nat.zero_mul, Nat.zero_add, Nat.mod_eq_of_lt (by decide)]
    have hbytes : bytesOfBits (bitsOf errorWord wordBits) = wordBytes errorWord := by
      rw [bytesOfBits_eq (length_bitsOf errorWord wordBits), hbits]
    rw [hassemble]
    simp only [emitError, pushField, flush, Encoded.extend, List.nil_append, hbytes, hbits, Option.toList_some,
      List.length_singleton]
  | ok fields =>
    obtain ⟨format, values, relocs⟩ := fields
    obtain ⟨hformat, hlength⟩ := Instruction.length_bits_fields hfields
    rw [hfields] at hencode
    have hassemble : i.assemble p =
        (⟨i.line, i.programAddr, i.mnemonics, format.tag, i.memAccess, pack values, relocs⟩, none) := by
      rw [Instruction.assemble, hencode, hformat]
      rfl
    rw [hassemble]
    simp only [bits_foldl_pushField, h, flush, Encoded.extend, List.nil_append, bytesOfBits_eq hlength,
      shiftBits_flatMap_bitsOf, Option.toList_none, List.append_nil, List.length_nil, Nat.add_zero]
    rfl

/-- From an empty buffer on, lines come out as they are assembled, and the buffer is empty behind every one of them. -/
theorem foldl_emit (p : Program) (instrs : List Instruction) (h : e.bits = []) :
    instrs.foldl (emit p) e =
      { out := ((instrs.filter (!·.isDirective)).map (·.assemble p)).foldl Encoded.extend e.out } := by
  induction instrs generalizing e with
  | nil =>
    obtain ⟨bits, out⟩ := e
    subst h
    rfl
  | cons i rest ih =>
    rw [List.foldl_cons]
    cases hword : i.isDirective with
    | true =>
      have hpassed : e.emit p i = e := by rw [emit, hword, if_pos rfl]
      rw [hpassed, List.filter_cons_of_neg (by simp [hword])]
      exact ih h
    | false => rw [List.filter_cons_of_pos (by simp [hword]), emit_eq h hword, ih rfl, List.map_cons, List.foldl_cons]

end Emitter

/-- Line by line each collection is put together by itself. -/
theorem Encoded.foldl_extend (out : Encoded) (lines : List (ListingLine × Option Diagnostic)) :
    lines.foldl extend out =
      { words := out.words ++ lines.map (·.1.word)
        bytes := out.bytes ++ imageBytes (lines.map (·.1.word))
        listing := out.listing ++ lines.map Prod.fst
        imageLines := out.imageLines ++ lines.map fun line => Text.hexUpper 8 line.1.word
        errors := out.errors + (lines.filterMap Prod.snd).length
        diagnostics := out.diagnostics ++ lines.filterMap Prod.snd } := by
  induction lines generalizing out with
  | nil => simp [imageBytes]
  | cons line rest ih =>
    obtain ⟨line, diagnostic⟩ := line
    rw [List.foldl_cons, ih]
    cases diagnostic <;> simp [extend, imageBytes, Nat.add_assoc, Nat.add_comm 1]

/-- What is put out for a program bit by bit is what there is of its lines. -/
theorem Program.foldl_emit (p : Program) : p.instrs.foldl (Emitter.emit p) {} = { out := p.assemble.encoded } := by
  have hbits : (({} : Emitter).bits) = [] := rfl
  rw [Emitter.foldl_emit p p.instrs hbits, Encoded.foldl_extend]
  simp [assemble, Assembly.encoded, Assembly.words, Assembly.errors, words, Function.comp_def]

end QuadDsp
