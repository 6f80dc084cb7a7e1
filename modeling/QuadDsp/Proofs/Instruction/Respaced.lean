import QuadDsp.Program.Builder
import QuadDsp.Proofs.Instruction.Respell

/-! # Spaces in predicates

A line is read as the same instruction whatever runs of spaces stand in a predicate of it, at its head or in front of
a sibling. Only between NOT and the word behind it one space must stand, or the line is refused
(`Builder.readLine_spaced_iff`). -/

namespace QuadDsp

namespace Instruction

open Text

variable {s t : List Char}

/-- A line with a predicate at its head, or behind the operations in front of a sibling. -/
structure PredicatedLine where
  /-- the operations in front, without the bars behind them -/
  front : List (List Char)
  indent : List Char
  keyword : List Char
  cond : Condition
  words : List (List Char)
  /-- the operation of the predicate, and what stands behind it -/
  text : List Char
  noBar : ∀ op ∈ front, '|' ∉ op
  noComment : ∀ op ∈ front.head?, ∀ c ∈ (trimStart op).head?, c ≠ ';'
  blank : ∀ c ∈ indent, isBlank c = true
  starts : keyword ∈ keywords
  wording : Wording cond words
  operation : ∃ c ∈ text.head?, isBlank c = false ∧ c ≠ '|'
  noLabel : ∀ c ∈ (trimEnd text).getLast?, c ≠ ':'

namespace PredicatedLine

/-- The line with runs of spaces behind the words of the predicate. -/
def spaced (l : PredicatedLine) (gaps : Gaps) : List Char :=
  l.front.flatMap (· ++ "||".toList) ++ (l.indent ++ (predicate l.keyword l.words gaps ++ l.text))

end PredicatedLine

/-! ### Blanks at the ends -/

theorem trimEnd_append (h : ∃ c ∈ t, isBlank c = false) (s : List Char) : trimEnd (s ++ t) = s ++ trimEnd t := by
  obtain ⟨c, hc, hblank⟩ := h
  have hne : ¬(t.reverse.dropWhile isBlank).isEmpty = true := by
    rw [List.isEmpty_iff, List.dropWhile_eq_nil_iff]
    intro hall
    rw [hall c (List.mem_reverse.2 hc)] at hblank
    cases hblank
  rw [trimEnd, dropEnd, List.reverse_append, List.dropWhile_append, if_neg hne, List.reverse_append,
    List.reverse_reverse]
  rfl

theorem head?_trimEnd {c : Char} (h : c ∈ s.head?) (hc : isBlank c = false) : c ∈ (trimEnd s).head? := by
  obtain ⟨cs, rfl⟩ := List.head?_eq_some_iff.1 h
  have hmem : c ∈ trimEnd (c :: cs) := mem_dropEnd hc List.mem_cons_self
  obtain ⟨x, xs, hx⟩ := List.exists_cons_of_ne_nil (List.ne_nil_of_mem hmem)
  obtain ⟨rest, hrest⟩ := dropEnd_prefix isBlank (c :: cs)
  rw [← trimEnd, hx] at hrest
  rw [hx, ← (List.cons.inj hrest).1]
  rfl

/-! ### Pieces -/

theorem splitOnText_flatMap {ops : List (List Char)} (h : ∀ op ∈ ops, '|' ∉ op) (t : List Char) :
    splitOnText "||".toList 0 (ops.flatMap (· ++ "||".toList) ++ t) = ops ++ splitOnText "||".toList 0 t := by
  induction ops with
  | nil => rfl
  | cons op ops ih =>
    obtain ⟨hop, hops⟩ := List.forall_mem_cons.1 h
    rw [List.flatMap_cons, List.append_assoc, List.append_assoc, List.cons_append, ← ih hops]
    exact splitOnText_append hop

theorem splitOnText_of_front (h : '|' ∉ s) {piece : List Char} {pieces : List (List Char)}
    (ht : splitOnText "||".toList 0 t = piece :: pieces) :
    splitOnText "||".toList 0 (s ++ t) = (s ++ piece) :: pieces := by
  induction s with
  | nil => exact ht
  | cons c cs ih =>
    have hc : c ≠ '|' := fun hc => h (by simp [hc])
    have hcs : '|' ∉ cs := fun hcs => h (List.mem_cons_of_mem _ hcs)
    have hstart : ¬"||".toList.isPrefixOf (c :: (cs ++ t)) = true := by simp [Ne.symm hc]
    rw [List.cons_append, splitOnText, if_neg hstart, ih hcs]
    rfl

/-! ### The parts of a line -/

theorem Wording.notMem_bar {c : Condition} {words : List (List Char)} (h : Wording c words) :
    ∀ word ∈ words, '|' ∉ word := by
  have hname {s : List Char} (hs : Condition.ofName? s = some c) : '|' ∉ s := fun hbar => by
    rw [ofName?_of_bar hbar] at hs
    cases hs
  cases words with
  | nil => cases h
  | cons first rest =>
    cases rest with
    | nil => exact List.forall_mem_singleton.2 (hname h.one_not.2.2)
    | cons second rest =>
      obtain rfl : rest = [] := by cases h; rfl
      have hboth := hname h.two_not.2.2.2
      refine List.forall_mem_cons.2 ⟨fun hbar => hboth (List.mem_append_left _ hbar),
        List.forall_mem_singleton.2 fun hbar => ?_⟩
      exact hboth (List.mem_append_right _ (List.mem_cons_of_mem _ hbar))

theorem notMem_run (n : Nat) : '|' ∉ run n := by
  rw [run, List.mem_cons, List.mem_replicate]
  rintro (hbar | ⟨-, hbar⟩) <;> cases hbar

theorem Wording.notMem_intercalate {c : Condition} {words : List (List Char)} (h : Wording c words) (n : Nat) :
    '|' ∉ (run n).intercalate words := by
  have hbar := h.notMem_bar
  cases h with
  | one => simpa using hbar
  | two => simpa [List.intercalate, notMem_run] using hbar

/-- Reads an operation behind its predicate. -/
def readConditional (p : Option Condition × List Char) : Except LineError Instruction := do
  let i ← readOperation p.2
  return { i with condition := p.1 }

theorem readPredicated_eq (text : List Char) : readPredicated text = readPredicate text >>= readConditional := by
  unfold readPredicated
  cases readPredicate text <;> rfl

theorem readOperations_eq {condition : Option Condition} {rest first : List Char} {others : List (List Char)}
    (h : splitOnText "||".toList 0 rest = first :: others) :
    readOperations condition rest = do
      let head ← readOperation (trim first)
      let siblings ← (others.map trim).mapM readPredicated
      return withDataAddr { head with condition := condition, siblings := siblings } := by
  unfold readOperations
  rw [h]
  rfl

namespace PredicatedLine

variable (l : PredicatedLine) (gaps : Gaps)

theorem notMem_bar : '|' ∉ predicate l.keyword l.words gaps := by
  have hkeyword : ∀ keyword ∈ keywords, '|' ∉ keyword := by decide
  simp only [predicate, List.mem_append, not_or]
  exact ⟨hkeyword _ l.starts, notMem_run _, l.wording.notMem_intercalate _, notMem_run _⟩

theorem predicate_head : ∃ c ∈ (predicate l.keyword l.words gaps).head?, isBlank c = false ∧ c ≠ ';' := by
  rcases List.mem_pair.1 l.starts with h | h
  · exact ⟨'I', by rw [predicate, h]; rfl, by decide, by decide⟩
  · exact ⟨'i', by rw [predicate, h]; rfl, by decide, by decide⟩

theorem trimStart_indent (t : List Char) : trimStart (l.indent ++ (predicate l.keyword l.words gaps ++ t)) =
    predicate l.keyword l.words gaps ++ t := by
  obtain ⟨c, hc, hblank, -⟩ := l.predicate_head gaps
  obtain ⟨cs, hcs⟩ := List.head?_eq_some_iff.1 hc
  rw [hcs, trimStart, List.dropWhile_append_of_pos l.blank]
  exact trimStart_cons hblank _

theorem trim_piece {t : List Char} (h : ∃ c ∈ t, isBlank c = false) :
    trim (l.indent ++ (predicate l.keyword l.words gaps ++ t)) = predicate l.keyword l.words gaps ++ trimEnd t := by
  rw [trim, l.trimStart_indent gaps, trimEnd_append h]

theorem exists_text : ∃ c cs, trimEnd l.text = c :: cs ∧ isBlank c = false ∧ c ≠ '|' := by
  obtain ⟨c, hc, hblank, hbar⟩ := l.operation
  obtain ⟨cs, hcs⟩ := List.head?_eq_some_iff.1 (head?_trimEnd hc hblank)
  exact ⟨c, cs, hcs, hblank, hbar⟩

/-- A line is read from its predicate and its operations. -/
theorem read_spaced {front : List Char} (hfront : trimStart (l.spaced gaps) = front ++ l.text)
    (hcomment : ∃ c ∈ front.head?, c ≠ ';') :
    read (l.spaced gaps) = readPredicate (front ++ trimEnd l.text) >>= fun p => readOperations p.1 p.2 := by
  obtain ⟨c, hc, hblank, -⟩ := l.operation
  obtain ⟨x, xs, htext, -⟩ := l.exists_text
  obtain ⟨y, hy, hcomment⟩ := hcomment
  have hne : trimEnd l.text ≠ [] := htext ▸ List.cons_ne_nil x xs
  rw [read, trim, hfront, trimEnd_append ⟨c, List.mem_of_mem_head? hc, hblank⟩]
  refine readTrimmed_eq (List.append_ne_nil_of_right_ne_nil _ hne) ?_ ?_
  · rw [List.head?_append, Option.mem_def.1 hy]
    rintro _ ⟨⟩
    exact hcomment
  · rw [List.getLast?_append_of_ne_nil _ hne]
    exact l.noLabel

/-- What stands behind the bars of the first operation. -/
def behindBars (ops : List (List Char)) : List Char :=
  ops.flatMap (· ++ "||".toList) ++ (l.indent ++ (predicate l.keyword l.words gaps ++ trimEnd l.text))

/-- The piece that the predicate stands in, among the pieces of its line. -/
theorem exists_piece {ops : List (List Char)} (hops : ∀ op ∈ ops, '|' ∉ op) :
    ∃ piece pieces, (∃ c ∈ piece, isBlank c = false) ∧ ∀ gaps, splitOnText "||".toList 0 (l.behindBars gaps ops) =
      ops ++ (l.indent ++ (predicate l.keyword l.words gaps ++ piece)) :: pieces := by
  obtain ⟨c, cs, htext, hblank, hbar⟩ := l.exists_text
  have hindent : '|' ∉ l.indent := fun h => by cases l.blank _ h
  obtain ⟨piece, pieces, hsplit⟩ := List.exists_cons_of_ne_nil (splitOnText_ne_nil "||".toList 0 cs)
  have hstart : ¬"||".toList.isPrefixOf (c :: cs) = true := by simp [Ne.symm hbar]
  have hsplit' : splitOnText "||".toList 0 (trimEnd l.text) = (c :: piece) :: pieces := by
    rw [htext, splitOnText, if_neg hstart, hsplit]
    rfl
  refine ⟨c :: piece, pieces, ⟨c, List.mem_cons_self, hblank⟩, fun gaps => ?_⟩
  rw [behindBars, splitOnText_flatMap hops,
    splitOnText_of_front hindent (splitOnText_of_front (l.notMem_bar gaps) hsplit')]

theorem read_spaced_of_cons {op : List Char} {ops : List (List Char)} (hfront : l.front = op :: ops) :
    read (l.spaced gaps) =
      readPredicate (trimStart op ++ '|' :: ('|' :: l.behindBars gaps ops)) >>= fun p => readOperations p.1 p.2 := by
  have hspaced : trimStart (l.spaced gaps) = (trimStart op ++ '|' :: ('|' :: (ops.flatMap (· ++ "||".toList) ++
      (l.indent ++ predicate l.keyword l.words gaps)))) ++ l.text := by
    have hbars : l.spaced gaps = op ++ '|' :: ('|' :: (ops.flatMap (· ++ "||".toList) ++
        (l.indent ++ (predicate l.keyword l.words gaps ++ l.text)))) := by
      simp [spaced, hfront]
    rw [hbars, trimStart_bar]
    simp
  rw [l.read_spaced gaps hspaced]
  · simp [behindBars]
  · cases htrim : trimStart op with
    | nil => exact ⟨'|', rfl, by decide⟩
    | cons c cs => exact ⟨c, rfl, l.noComment op (by rw [hfront]; rfl) c (by rw [htrim]; rfl)⟩

/-- The reader takes the predicate off one text, whatever it does before and after. -/
theorem exists_reading :
    ∃ (w : List Char) (f : Except LineError (Option Condition × List Char) → Except LineError Instruction),
      (∀ e i, f (.error e) ≠ .ok i) ∧
        ∀ gaps i, read (l.spaced gaps) = .ok i ↔ f (readPredicate (predicate l.keyword l.words gaps ++ w)) = .ok i := by
  cases hfront : l.front with
  | nil =>
    refine ⟨trimEnd l.text, fun x => x >>= fun p => readOperations p.1 p.2, nofun, fun gaps i => ?_⟩
    obtain ⟨c, hc, -, hcomment⟩ := l.predicate_head gaps
    rw [l.read_spaced gaps ?_ ⟨c, hc, hcomment⟩]
    rw [spaced, hfront]
    exact l.trimStart_indent gaps l.text
  | cons op ops =>
    obtain ⟨hop, hops⟩ := List.forall_mem_cons.1 (hfront ▸ l.noBar)
    rcases readPredicate_bar (trimStart op) with herror | ⟨cond, taken, back, hback, hok⟩
    · refine ⟨[], fun _ => .error (.unknownMnemonic ""), nofun, fun gaps i => ?_⟩
      obtain ⟨e, he⟩ := herror ('|' :: l.behindBars gaps ops)
      rw [l.read_spaced_of_cons gaps hfront, he]
      exact iff_of_false nofun nofun
    · have hbar : '|' ∉ back := fun hmem => by
        have hstart : '|' ∈ trimStart op := hback ▸ List.mem_append_right taken hmem
        exact hop ((List.dropWhile_suffix isBlank).subset hstart)
      obtain ⟨piece, pieces, hpiece, hsplit⟩ := l.exists_piece hops
      refine ⟨trimEnd piece, fun x => do
        let head ← readOperation (trim back)
        let before ← (ops.map trim).mapM readPredicated
        let sibling ← x >>= readConditional
        let behind ← (pieces.map trim).mapM readPredicated
        return withDataAddr { head with condition := cond, siblings := before ++ sibling :: behind },
        ?_, fun gaps i => ?_⟩
      · intro e i h
        obtain ⟨head, -, h⟩ := bind_eq_ok_iff.1 h
        obtain ⟨before, -, h⟩ := bind_eq_ok_iff.1 h
        cases h
      · have hpieces : splitOnText "||".toList 0 (back ++ '|' :: ('|' :: l.behindBars gaps ops)) =
            back :: (ops ++ (l.indent ++ (predicate l.keyword l.words gaps ++ piece)) :: pieces) := by
          rw [← hsplit]
          exact splitOnText_append hbar
        have hread : read (l.spaced gaps) = readOperations cond (back ++ '|' :: ('|' :: l.behindBars gaps ops)) := by
          rw [l.read_spaced_of_cons gaps hfront, hok]
          rfl
        rw [hread, readOperations_eq hpieces, List.map_append, List.map_cons, l.trim_piece gaps hpiece,
          List.mapM_append, List.mapM_cons, readPredicated_eq]
        simp only [bind_assoc, pure_bind]

/-- Gaps of any width leave the instruction as it is, but for one between two words, where no line is read. -/
theorem read_spaced_iff (i : Instruction) : read (l.spaced gaps) = .ok i ↔
    read (l.spaced {}) = .ok i ∧ (l.words.length = 2 → gaps.betweenWords = 0) := by
  obtain ⟨w, f, herror, hread⟩ := l.exists_reading
  rw [hread, hread]
  by_cases hgap : l.words.length = 2 → gaps.betweenWords = 0
  · rw [readPredicate_predicate l.starts l.wording hgap, readPredicate_predicate l.starts l.wording fun _ => rfl]
    exact (and_iff_left hgap).symm
  · obtain ⟨hlength, hwide⟩ := Classical.not_imp.1 hgap
    obtain ⟨e, he⟩ := readPredicate_predicate_wide l.starts l.wording hlength hwide w
    rw [he]
    exact iff_of_false (herror e i) fun h => hgap h.2

end PredicatedLine

end Instruction

namespace Builder

open Instruction

/-- A line places the same instruction whatever runs of spaces stand in its predicate, if only one space stands
between two words of the condition; it is refused if more stand there. -/
theorem readLine_spaced_iff (b b' : Builder) (l : PredicatedLine) (gaps : Gaps) :
    b.readLine (l.spaced gaps) = .ok b' ↔
      b.readLine (l.spaced {}) = .ok b' ∧ (l.words.length = 2 → gaps.betweenWords = 0) := by
  have hline (gaps : Gaps) : b.readLine (l.spaced gaps) = .ok b' ↔
      ∃ i, read (l.spaced gaps) = .ok i ∧ (b.enterSection i).push i = b' := map_eq_ok_iff
  rw [hline, hline]
  constructor
  · rintro ⟨i, hread, hpush⟩
    obtain ⟨hread, hgap⟩ := (l.read_spaced_iff gaps i).1 hread
    exact ⟨⟨i, hread, hpush⟩, hgap⟩
  · rintro ⟨⟨i, hread, hpush⟩, hgap⟩
    exact ⟨i, (l.read_spaced_iff gaps i).2 ⟨hread, hgap⟩, hpush⟩

/-- A jump without overflow, as the sibling of another operation. -/
def jumpSibling : PredicatedLine where
  front := ["NOP ".toList]
  indent := " ".toList
  keyword := "IF".toList
  cond := .notAv
  words := ["NOT".toList, "AV".toList]
  text := "JUMP start".toList
  noBar := by decide
  noComment := by decide
  blank := by decide
  starts := by decide
  wording := .two (by decide) (by decide) (by decide)
  operation := ⟨'J', rfl, by decide, by decide⟩
  noLabel := by decide

theorem readLine_spaced_iff_jumpSibling :
    (∃ b, (origin 0).readLine "NOP || IF   NOT AV  JUMP start".toList = .ok b) ∧
      ¬∃ b, (origin 0).readLine "NOP || IF NOT  AV JUMP start".toList = .ok b := by
  have hsingle : ∃ b, (origin 0).readLine (jumpSibling.spaced {}) = .ok b := by
    have hok : ((origin 0).readLine (jumpSibling.spaced {})).toBool = true := by decide +kernel
    cases hread : (origin 0).readLine (jumpSibling.spaced {}) with
    | ok b => exact ⟨b, rfl⟩
    | error e =>
      rw [hread] at hok
      cases hok
  constructor
  · obtain ⟨b, hb⟩ := hsingle
    exact ⟨b, (readLine_spaced_iff (origin 0) b jumpSibling ⟨2, 0, 1⟩).2 ⟨hb, fun _ => rfl⟩⟩
  · rintro ⟨b, hb⟩
    cases ((readLine_spaced_iff (origin 0) b jumpSibling ⟨0, 1, 0⟩).1 hb).2 rfl

end Builder

end QuadDsp
