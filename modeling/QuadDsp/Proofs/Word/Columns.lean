import QuadDsp.Proofs.Text.Words
import QuadDsp.Proofs.Word.Lines

/-! # Listings read back

A line of a listing is columns with blanks between them: the columns that cannot hold a blank are its words again,
whatever the others are padded with (`ListingLine.words_text`), and each of them is read as what it was written from
(`ListingLine.Readable.read_text`). Every line that is assembled has such columns, the error lines too, since a
relocation stays within the reach of its field (`Instruction.readable_assemble`). -/

namespace QuadDsp

open Text

/-! ### Relocations -/

/-- The reader takes every number of the relocation. -/
structure Reloc.Readable (r : Reloc) : Prop where
  value : Fits 64 r.value
  bitPos : r.bitPos < span 32
  width : r.width < span 8

namespace Reloc

theorem toList_text (r : Reloc) : r.text.toList = ['R', '\x7b'] ++ ((decimalInt r.value).toList ++
    ',' :: ((decimal r.bitPos).toList ++ ',' :: (decimal r.width).toList) ++ ['\x7d']) := by
  simp [text]

theorem isWord_text (r : Reloc) : IsWord r.text.toList := by
  rw [toList_text]
  refine ⟨List.cons_ne_nil _ _, ?_⟩
  simp only [List.forall_mem_append, List.forall_mem_cons]
  exact ⟨by decide, ⟨not_isBlank_decimalInt _, rfl, (isWord_decimal _).notBlank, rfl, (isWord_decimal _).notBlank⟩,
    by decide⟩

theorem Readable.read_text {r : Reloc} (h : r.Readable) : read r.text.toList = .ok r := by
  have hvalue : ∀ c ∈ (decimalInt r.value).toList, (c == ',') = false := forall_decimalInt (by decide) (by decide) _
  have hdecimal : ∀ n, ∀ c ∈ (decimal n).toList, (c == ',') = false := by
    intro n
    rw [decimal, String.toList_ofList]
    exact forall_digits (by decide) (by decide) (by decide) n
  -- the braces come off at either end, then the commas part the numbers
  rw [read, toList_text, isPrefixOf?_append]
  dsimp only
  rw [isSuffixOf?_append_singleton]
  dsimp only
  rw [cut_append hvalue rfl, cut_append (hdecimal _) rfl, cut_of_forall (hdecimal _)]
  dsimp only
  rw [readInt_decimalInt h.value, readNat_decimal h.bitPos, readNat_decimal h.width]

end Reloc

/-! ### Lines -/

/-- The reader takes every number of the line, and its names are words. -/
structure ListingLine.Readable (l : ListingLine) : Prop where
  line : l.line < span 32
  addr : l.addr < span 32
  mnemonic : IsWord l.mnemonic.toList
  tag : IsWord l.tag.toList
  word : l.word < span 32
  relocs : ∀ r ∈ l.relocs, r.Readable

namespace ListingLine

variable {l : ListingLine}

/-- The columns of a line, of which the numbers and the reference to memory are words. -/
theorem words_text (l : ListingLine) : words l.text.toList =
    (decimal l.line).toList :: (hexUpper 4 l.addr).toList :: (words l.mnemonic.toList ++ (words l.tag.toList ++
      l.access.text.toList :: (hexUpper 8 l.word).toList :: l.relocs.map fun r => r.text.toList)) := by
  have haccess : IsWord l.access.text.toList := by
    cases l.access <;> exact ⟨by decide, by decide⟩
  have hjoin : (l.relocs.map fun r => " " ++ r.text) = (l.relocs.map Reloc.text).map fun t => " " ++ t :=
    (List.map_map).symm
  have hrelocs : ((l.relocs.map Reloc.text).flatMap fun t => words t.toList) = l.relocs.map fun r => r.text.toList := by
    rw [flatMap_words (List.forall_mem_map.2 fun r _ => r.isWord_text), List.map_map]
    rfl
  rw [text, hjoin, words_append_join, hrelocs]
  simp only [words_space, words_padLeft, words_padRight, (isWord_decimal _).words_eq, (isWord_hexUpper _ _).words_eq,
    haccess.words_eq, List.append_assoc, List.cons_append, List.nil_append]

/-- A line is read as the one that it was written from. -/
theorem Readable.read_text (h : l.Readable) : read l.text.toList = .ok l := by
  have hrelocs : (l.relocs.map fun r => r.text.toList).mapM Reloc.read = .ok l.relocs := by
    rw [mapM_eq_ok_iff, List.forall₂_map_left_iff, List.forall₂_same]
    exact fun r hr => (h.relocs r hr).read_text
  rw [read, words_text, h.mnemonic.words_eq, h.tag.words_eq]
  simp only [List.singleton_append, column, bind, Except.bind, readNat_decimal h.line, readNat_hexUpper 4 h.addr,
    readNat_hexUpper 8 h.word, numeral, MemAccess.ofText_text, hrelocs, String.ofList_toList]
  rfl

end ListingLine

/-! ### Assembled lines -/

theorem Opcode.isWord_mnemonic (op : Opcode) : IsWord op.mnemonic.toList := by
  cases op <;> exact ⟨by decide, by decide⟩

theorem FormatId.isWord_tag (f : FormatId) : IsWord f.tag.toList := by
  cases f <;> exact ⟨by decide, by decide⟩

theorem Instruction.isWord_mnemonics (i : Instruction) : IsWord i.mnemonics.toList := by
  refine isWord_join ⟨by decide, by decide⟩ (List.cons_ne_nil _ _) fun a ha => ?_
  obtain ⟨j, -, rfl⟩ := List.mem_map.1 ha
  exact j.opcode.isWord_mnemonic

namespace Selection

variable {s : Selection} {p : Program} {f : Field} {v : Int}

theorem bounds_of_relocValue (h : s.relocValue p f = .ok v) : -(span f.width : Int) ≤ v ∧ v < span f.width := by
  have hreach {target addr : Nat} {low high x : Int} (hlow : -(span f.width : Int) ≤ low) (hhigh : high ≤ span f.width)
      (hx : (if low ≤ x ∧ x < high then Except.ok x
        else .error (EncodeError.targetOutOfRange target addr f.width)) = .ok v) :
      -(span f.width : Int) ≤ v ∧ v < span f.width := by
    split_ifs at hx with hin
    cases hx
    omega
  unfold relocValue at h
  dsimp only at h
  -- the reach of each kind of field: an address, a distance to a target, the end of a loop
  split at h
  · split at h
    · split at h
      · cases h
      · cases h
      · exact hreach (by omega) (by omega) h
    · split at h
      · cases h
      · exact hreach (by omega) (by omega) h
    · split at h
      · cases h
      · exact hreach (by omega) (by omega) h
    · cases h
  · cases h

theorem of_encodeField {pos x : Nat} {r : Reloc} (h : s.encodeField p pos f = .ok (x, some r)) :
    s.relocValue p f = .ok r.value ∧ r.bitPos ≤ wordBits ∧ r.width = f.width := by
  unfold encodeField at h
  split at h
  · cases h
  · cases h
  · obtain ⟨value, hvalue, hr⟩ := map_eq_ok_iff.1 h
    cases hr
    exact ⟨hvalue, Nat.sub_le _ _, rfl⟩

/-- The relocations of a layout are those of its fields. -/
theorem exists_of_mem_relocs {pos : Nat} {fields : List Field} {values : List (Nat × Nat)} {relocs : List Reloc}
    (h : s.encodeFields p pos fields = .ok (values, relocs)) : ∀ r ∈ relocs, ∃ f ∈ fields,
      s.relocValue p f = .ok r.value ∧ r.bitPos ≤ wordBits ∧ r.width = f.width := by
  induction fields generalizing pos values relocs with
  | nil =>
    cases h
    exact List.forall_mem_nil _
  | cons f rest ih =>
    rw [encodeFields] at h
    split at h
    · cases h
    · next x reloc hfield =>
      split at h
      · cases h
      · next hrest =>
        cases h
        intro r hr
        rcases List.mem_append.1 hr with hr | hr
        · obtain rfl := Option.mem_toList.1 hr
          exact ⟨f, List.mem_cons_self, of_encodeField hfield⟩
        · obtain ⟨f', hf', hreloc⟩ := ih hrest r hr
          exact ⟨f', List.mem_cons_of_mem _ hf', hreloc⟩

end Selection

theorem le_totalWidth {ws : List Nat} : ∀ w ∈ ws, w ≤ totalWidth ws := by
  induction ws with
  | nil => exact List.forall_mem_nil _
  | cons w rest ih => exact List.forall_mem_cons.2 ⟨Nat.le_add_right _ _, fun x hx => Nat.le_add_left_of_le (ih x hx)⟩

theorem FormatId.width_le_wordBits (f : FormatId) : ∀ fd ∈ f.layout, fd.width ≤ wordBits := by
  intro fd hfd
  rw [← f.width_layout]
  exact le_totalWidth _ (List.mem_map_of_mem hfd)

namespace Instruction

variable {p : Program} {i : Instruction}

/-- A word has the format that its instruction was given, and its relocations fit where they are written. -/
theorem readable_of_encode {e : EncodedWord} (h : i.encode p = .ok e) :
    (∃ f, i.format = some f) ∧ ∀ r ∈ e.relocs, r.Readable := by
  obtain ⟨-, s, values, -, hformat, hfields, -⟩ := exists_of_encode h
  refine ⟨⟨s.format, hformat⟩, fun r hr => ?_⟩
  obtain ⟨f, hf, hvalue, hpos, hwidth⟩ := Selection.exists_of_mem_relocs hfields r hr
  have hle : f.width ≤ wordBits := s.format.width_le_wordBits f hf
  have hspan : span f.width ≤ span wordBits := Nat.pow_le_pow_right (by decide) hle
  have h32 : span wordBits = 4294967296 := rfl
  have h63 : span 63 = 9223372036854775808 := rfl
  obtain ⟨hlow, hhigh⟩ := Selection.bounds_of_relocValue hvalue
  exact
    { value := by
        show -(span 63 : Int) ≤ r.value ∧ r.value < span 63
        omega
      bitPos := Nat.lt_of_le_of_lt hpos (by decide)
      width := Nat.lt_of_le_of_lt (hwidth.trans_le hle) (by decide) }

/-- What is assembled has a line that can be read, whether it can be encoded or not. -/
theorem readable_assemble (hline : i.line < span 32) (haddr : i.programAddr < span 32) : (i.assemble p).1.Readable := by
  unfold assemble
  split
  · next e he =>
    obtain ⟨⟨f, hf⟩, hrelocs⟩ := readable_of_encode he
    rw [hf]
    exact ⟨hline, haddr, i.isWord_mnemonics, f.isWord_tag, encode_lt he, hrelocs⟩
  · have hword : errorWord < span 32 := by decide
    have herror : IsWord "ERROR".toList := ⟨by decide, by decide⟩
    exact ⟨hline, haddr, i.isWord_mnemonics, herror, hword, List.forall_mem_nil _⟩

end Instruction

/-- Line by line, the text of a listing is read as the listing. -/
theorem Program.read_listingText (p : Program) (h : ∀ i ∈ p.words, i.line < span 32 ∧ i.programAddr < span 32) :
    (lines p.assemble.listingText.toList).mapM ListingLine.read = .ok p.assemble.listing := by
  rw [lines_listingText, mapM_eq_ok_iff]
  show List.Forall₂ _ _ ((p.words.map (·.assemble p)).map Prod.fst)
  rw [List.map_map, List.forall₂_map_left_iff, List.forall₂_map_right_iff, List.forall₂_same]
  intro i hi
  obtain ⟨hline, haddr⟩ := h i hi
  exact (i.readable_assemble hline haddr).read_text

/-- A bundle, a jump back to a label and one to a name that is not there; lines and addresses outgrow their columns. -/
def wideListing : Program where
  instrs :=
    [{ line := 7, opcode := .add, format := some .bAluLd
       operands := [.reg ⟨.general, 2⟩, .reg ⟨.general, 0⟩, .reg ⟨.general, 1⟩]
       siblings := [{ line := 7, opcode := .ld, operands := [.reg ⟨.general, 3⟩, .mem ⟨.data, .post 0 0⟩] }] },
      { line := 123456, opcode := .jump, address := 0x12345, format := some .brRel
        operands := [.target (.label "BACK")] },
      { line := 123457, opcode := .jump, address := 0x12346, operands := [.target (.label "NOWHERE")] }]
  symbols := ⟨[("BACK", ⟨0x12340, .code, false, false⟩)]⟩

theorem Program.read_listingText_wideListing :
    (∀ i ∈ wideListing.words, i.line < span 32 ∧ i.programAddr < span 32) ∧ wideListing.assemble.errors = 1 ∧
      wideListing.assemble.listing.map (·.relocs) = [[], [⟨-5, 5, 19⟩], []] ∧
      (lines wideListing.assemble.listingText.toList).mapM ListingLine.read = .ok wideListing.assemble.listing := by
  have hnumbers : ∀ i ∈ wideListing.words, i.line < span 32 ∧ i.programAddr < span 32 := by decide
  exact ⟨hnumbers, rfl, rfl, read_listingText _ hnumbers⟩

end QuadDsp
