import QuadDsp.Proofs.Text.Lines
import QuadDsp.Word.Listing

/-! # One line for each word

What the assembler writes of a word holds no character that ends a line (`Instruction.unbroken_assemble`), so the text
of a listing falls into the lines of its words again (`Program.lines_listingText`), and that of an image into their
numerals (`Assembly.lines_imageText`). -/

namespace QuadDsp

open Text

theorem Opcode.unbroken_mnemonic (op : Opcode) : Unbroken op.mnemonic := by
  cases op <;> decide

theorem FormatId.unbroken_tag (f : FormatId) : Unbroken f.tag := by
  cases f <;> decide

theorem Reloc.unbroken_text (r : Reloc) : Unbroken r.text := by
  refine Unbroken.append (.append (.append (.append (.append (.append ?_ ?_) ?_) ?_) ?_) ?_) ?_
  · decide
  · exact unbroken_decimalInt _
  · decide
  · exact unbroken_decimal _
  · decide
  · exact unbroken_decimal _
  · decide

theorem ListingLine.unbroken_text {l : ListingLine} (hmnemonic : Unbroken l.mnemonic) (htag : Unbroken l.tag) :
    Unbroken l.text := by
  have hblank : Unbroken " " := by decide
  have haccess : Unbroken l.access.text := by
    cases l.access <;> decide
  have hrelocs : ∀ s ∈ l.relocs.map fun r => " " ++ r.text, Unbroken s := by
    intro s hs
    obtain ⟨r, -, rfl⟩ := List.mem_map.1 hs
    exact hblank.append r.unbroken_text
  have hline := (unbroken_decimal l.line).padLeft 5
  have hfront := ((hline.append hblank).append (unbroken_hexUpper 4 l.addr)).append hblank
  have hnames := (((hfront.append (hmnemonic.padRight 12)).append hblank).append (htag.padRight 12)).append hblank
  exact (((hnames.append haccess).append hblank).append (unbroken_hexUpper 8 l.word)).append
    (unbroken_stringJoin hrelocs)

/-- The line of a word is one line. -/
theorem Instruction.unbroken_assemble (p : Program) (i : Instruction) : Unbroken (i.assemble p).1.text := by
  have hmnemonics : Unbroken i.mnemonics := by
    refine unbroken_join (by decide) fun s hs => ?_
    obtain ⟨j, -, rfl⟩ := List.mem_map.1 hs
    exact j.opcode.unbroken_mnemonic
  have htag : Unbroken ((i.format.map FormatId.tag).getD "") := by
    cases i.format with
    | none => exact fun c hc => absurd hc List.not_mem_nil
    | some f => exact f.unbroken_tag
  have herror : Unbroken "ERROR" := by decide
  unfold assemble
  split
  · exact ListingLine.unbroken_text hmnemonics htag
  · exact ListingLine.unbroken_text hmnemonics herror

/-- The lines of the listing are those of the words, one behind the other. -/
theorem Program.lines_listingText (p : Program) :
    lines p.assemble.listingText.toList = p.words.map fun i => (i.assemble p).1.text.toList := by
  have htext : p.assemble.listingText =
      String.join ((p.words.map fun i => (i.assemble p).1.text).map fun s => s ++ "\n") := by
    simp [assemble, Assembly.listingText, Function.comp_def]
  rw [htext, lines_ended, List.map_map]
  · rfl
  · intro s hs
    obtain ⟨i, -, rfl⟩ := List.mem_map.1 hs
    exact i.unbroken_assemble p

/-- The lines of the text image are the words, each in eight digits. -/
theorem Assembly.lines_imageText (a : Assembly) :
    lines a.imageText.toList = a.words.map fun w => (hexUpper 8 w).toList := by
  have htext : a.imageText = String.join ((a.words.map (hexUpper 8)).map fun s => s ++ "\n") := by
    rw [imageText, List.map_map]
    rfl
  rw [htext, lines_ended, List.map_map]
  · rfl
  · intro s hs
    obtain ⟨w, -, rfl⟩ := List.mem_map.1 hs
    exact unbroken_hexUpper 8 w

end QuadDsp
