import QuadDsp.Proofs.Program.Symbols
import QuadDsp.Proofs.Word.Alike
import QuadDsp.Proofs.Word.Buffer
import QuadDsp.Proofs.Word.Lines

/-! # Images in line with their programs

Addresses are counted three times: by the builder that places the lines, by the labels, and by the position of a word
in the image. The three agree for every text that can be read, resolved or not and whatever words of it fail
(`Builder.aligned_of_readText`): a word has the address of its place in the image, and a label that of the word behind
it. -/

namespace QuadDsp

section Image

variable {words : List Nat} {k w : Nat}

theorem length_imageBytes (words : List Nat) : (imageBytes words).length = 4 * words.length := by
  induction words with
  | nil => rfl
  | cons w rest ih =>
    rw [imageBytes, List.flatMap_cons, List.length_append, ← imageBytes, ih]
    simp only [wordBytes, List.length_cons, List.length_nil]
    omega

theorem take_drop_imageBytes (h : words[k]? = some w) : ((imageBytes words).drop (4 * k)).take 4 = wordBytes w := by
  obtain ⟨hk, rfl⟩ := List.getElem?_eq_some_iff.1 h
  have hfront : 4 * k = (imageBytes (words.take k)).length := by
    rw [length_imageBytes, List.length_take, Nat.min_eq_left (Nat.le_of_lt hk)]
  have hsplit := calc
    imageBytes words = imageBytes (words.take k ++ words[k] :: words.drop (k + 1)) := by
      rw [← List.drop_eq_getElem_cons hk, List.take_append_drop]
    _ = imageBytes (words.take k) ++ (wordBytes words[k] ++ imageBytes (words.drop (k + 1))) := by
      rw [imageBytes, List.flatMap_append, List.flatMap_cons]
      rfl
  rw [hsplit, hfront, List.drop_left]
  rfl

end Image

namespace Program

variable {p q : Program} {origin : Nat}

/-- What is put out for a program stands in line with its words: the word at a place has the address of the place and
gives one word of the image, one group of four bytes and one line of each text, in that order. -/
structure Aligned (origin : Nat) (p : Program) : Prop where
  addr : ∀ k i, p.words[k]? = some i → i.programAddr = origin + k
  listing : p.assemble.listing = p.words.map fun i => (i.assemble p).1
  /-- the line of a word names its place in the text and in the program -/
  placed : ∀ i : Instruction, (i.assemble p).1.line = i.line ∧ (i.assemble p).1.addr = i.programAddr
  words : p.assemble.words = p.words.map fun i => (i.assemble p).1.word
  size : (imageBytes p.assemble.words).length = 4 * p.words.length
  group : ∀ k i, p.words[k]? = some i →
    ((imageBytes p.assemble.words).drop (4 * k)).take 4 = wordBytes (i.assemble p).1.word
  imageLines : Text.lines p.assemble.imageText.toList =
    p.words.map fun i => (Text.hexUpper 8 (i.assemble p).1.word).toList
  listingLines : Text.lines p.assemble.listingText.toList = p.words.map fun i => (i.assemble p).1.text.toList
  /-- a word that fails is reported, and marked in the listing -/
  marked : ∀ i : Instruction, (i.assemble p).1.isError = (i.assemble p).2.isSome
  errors : p.assemble.errors = p.assemble.listing.countP ListingLine.isError ∧
    p.assemble.errors = p.assemble.diagnostics.length
  /-- bit by bit the same is put out in each collection, and no bit is left over behind a line -/
  emitted : p.instrs.foldl (Emitter.emit p) {} = { out := p.assemble.encoded }
  emptied : ∀ k, ((p.instrs.take k).foldl (Emitter.emit p) {}).bits = []
  /-- nothing counts for the line of a word but the word and the symbols -/
  own : ∀ q : Program, q.symbols = p.symbols → ∀ (k l : Nat) (i : Instruction), p.words[k]? = some i →
      q.words[l]? = some i →
    q.assemble.listing[l]? = p.assemble.listing[k]? ∧ q.assemble.words[l]? = p.assemble.words[k]?
  readBack : wordsOfBytes? (imageBytes p.assemble.words) = some p.assemble.words
  found : ∀ i ∈ p.words, Image.word? ⟨origin, p.assemble.words⟩ i.programAddr = some (i.assemble p).1.word

theorem listing_assemble (p : Program) : p.assemble.listing = p.words.map fun i => (i.assemble p).1 := by
  rw [assemble, List.map_map]
  rfl

theorem words_assemble (p : Program) : p.assemble.words = p.words.map fun i => (i.assemble p).1.word := by
  rw [Assembly.words, listing_assemble, List.map_map]
  rfl

theorem placed_assemble (p : Program) (i : Instruction) :
    (i.assemble p).1.line = i.line ∧ (i.assemble p).1.addr = i.programAddr := by
  unfold Instruction.assemble
  split <;> exact ⟨rfl, rfl⟩

theorem isError_assemble (p : Program) (i : Instruction) : (i.assemble p).1.isError = (i.assemble p).2.isSome :=
  Bool.eq_iff_iff.2 (isError_assemble_iff.trans isSome_assemble_iff.symm)

theorem word_assemble_lt (p : Program) (i : Instruction) : (i.assemble p).1.word < span wordBits := by
  unfold Instruction.assemble
  split
  · next hencode => exact Instruction.encode_lt hencode
  · exact (by decide : errorWord < span wordBits)

theorem errors_assemble (p : Program) : p.assemble.errors = p.assemble.listing.countP ListingLine.isError := by
  rw [Assembly.errors, assemble, List.length_filterMap_eq_countP, List.countP_map, List.countP_map, List.countP_map]
  refine List.countP_congr fun i _ => ?_
  rw [Function.comp_apply, Function.comp_apply, Function.comp_apply, isError_assemble]

theorem LaidFrom.aligned (h : p.LaidFrom origin) : p.Aligned origin where
  addr _ _ := h.words
  listing := p.listing_assemble
  placed := p.placed_assemble
  words := p.words_assemble
  size := by rw [length_imageBytes, length_words_assemble]
  group k i hi := take_drop_imageBytes (by rw [words_assemble, List.getElem?_map, hi]; rfl)
  imageLines := by rw [Assembly.lines_imageText, words_assemble, List.map_map]; rfl
  listingLines := p.lines_listingText
  marked := p.isError_assemble
  errors := ⟨p.errors_assemble, rfl⟩
  emitted := p.foldl_emit
  emptied k := by rw [Emitter.foldl_emit p _ rfl]
  own q hsymbols k l i hi hi' := by
    rw [listing_assemble, listing_assemble, words_assemble, words_assemble]
    simp only [List.getElem?_map, hi, hi', Option.map_some, Instruction.assemble_congr hsymbols, and_self]
  readBack := wordsOfBytes?_imageBytes fun w hw => by
    rw [words_assemble] at hw
    obtain ⟨i, -, rfl⟩ := List.mem_map.1 hw
    exact p.word_assemble_lt i
  found i hi := by
    obtain ⟨k, hk⟩ := List.getElem?_of_mem hi
    rw [h.words hk, Image.word?, if_neg (by dsimp only; omega)]
    dsimp only
    rw [Nat.add_sub_cancel_left, words_assemble, List.getElem?_map, hk]
    rfl

theorem LaidFrom.resolve (h : p.LaidFrom origin) (delaySlots : Bool) : (p.resolve delaySlots).1.LaidFrom origin := by
  intro idx j hj
  have hlines := p.forall₂_resolve delaySlots
  obtain ⟨i, hi, hij⟩ := exists_getElem?_of_forall₂ hlines hj
  have hnumber : (p.resolve delaySlots).1.number idx = p.number idx := by
    rw [← length_filter_take, ← length_filter_take]
    have htake := List.forall₂_take idx hlines
    exact (List.Forall₂.length_eq (List.rel_filter (fun i j hij => by simp [hij.1]) htake)).symm
  rw [hij.2, h idx i hi, hnumber]

end Program

/-- The image of a text that does not run out of addresses stands in line with its words, before and after resolution,
and a label that no other line declares stands for the address of the word behind it. -/
theorem Builder.aligned_of_readText {first : Nat} {text : String} {b : Builder}
    (h : (Builder.origin first).readText text = (b, none)) (hroom : first + b.program.words.length < span addrBits) :
    b.program.Aligned first ∧ ∀ delaySlots, (b.program.resolve delaySlots).1.Aligned first ∧
      ∀ idx name, b.program.LabelledOnce idx name →
        (b.program.resolve delaySlots).1.symbols.addr name = .ok (first + b.program.number idx) ∧
        ∀ next j, b.program.nextWord? idx = some next → (b.program.resolve delaySlots).1.instrs[next]? = some j →
          (b.program.resolve delaySlots).1.symbols.addr name = .ok j.programAddr := by
  have hlaid : b.Laid first := by
    have hread := (Builder.Laid.origin first).readLines (Text.lines text.toList)
    rwa [show (Builder.origin first).readLines (Text.lines text.toList) = (b, none) from h] at hread
  have hfrom := hlaid.laidFrom hroom
  refine ⟨hfrom.aligned, fun delaySlots => ⟨(hfrom.resolve delaySlots).aligned, fun idx name hlabel => ?_⟩⟩
  refine ⟨hlabel.addr hfrom rfl delaySlots, fun next j hnext hj => ?_⟩
  obtain ⟨i, hi, hij⟩ := exists_getElem?_of_forall₂ (b.program.forall₂_resolve delaySlots) hj
  rw [hij.2]
  exact hlabel.addr_nextWord? hfrom rfl delaySlots hnext hi

/-- A label in front of a word that does not encode. -/
def strayStart : String := "START:\nJUMP NOWHERE\nNOP"

/-- The failing word takes its place in the image. -/
theorem Builder.aligned_of_readText_strayStart :
    ∃ b, (Builder.origin 5).readText strayStart = (b, none) ∧ 5 + b.program.words.length < span addrBits ∧
      b.program.Aligned 5 ∧
      (b.program.resolve true).1.Aligned 5 ∧ b.program.LabelledOnce 0 "START" ∧
      (b.program.resolve true).1.symbols.addr "START" = .ok 5 := by
  have hread : (Builder.origin 5).readText strayStart =
      ({ placed := [{ line := 3, opcode := .nop, address := 6 },
          { line := 2, opcode := .jump, address := 5, operands := [.target (.label "NOWHERE")] },
          { line := 1, opcode := .label, address := 5, operands := [.target (.label "START")] }]
         addr := 7
         line := 3 }, none) := by rfl
  have hroom : 5 + 2 < span addrBits := by decide
  obtain ⟨haligned, hresolved⟩ := Builder.aligned_of_readText hread hroom
  refine ⟨_, hread, hroom, haligned, (hresolved true).1, ?label, ((hresolved true).2 0 "START" ?label).1⟩
  refine ⟨⟨_, rfl, rfl, rfl⟩, fun k j hj hdeclares => ?_⟩
  have hk : k < 3 := (List.getElem?_eq_some_iff.1 hj).1
  obtain rfl | rfl | rfl : k = 0 ∨ k = 1 ∨ k = 2 := by omega
  · rfl
  · cases hj
    cases hdeclares
  · cases hj
    cases hdeclares

end QuadDsp
