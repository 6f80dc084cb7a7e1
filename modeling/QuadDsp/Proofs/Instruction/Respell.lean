import QuadDsp.Proofs.Instruction.Operands
import QuadDsp.Proofs.Instruction.Predicate

/-! # Source lines read back

The text of an instruction is a source line that reads as the instruction (`Instruction.read_text`), though
bare of where it stands, and with its condition only where the text has one. Each reader undoes what the
text adds: the predicate in front (`readPredicate_text`), the siblings behind bars (`map_trim_splitOnText`), and
the mnemonic with its star (`readOperation_operationText`). -/

namespace QuadDsp

namespace Instruction

open Text

/-! ### Mnemonics -/

/-- A mnemonic with the star that asks for conjugation. -/
def mnemonicText (op : Opcode) (conjugate : Bool) : List Char := op.mnemonic.toList ++ if conjugate then ['*'] else []

theorem mnemonic_chars (op : Opcode) : ∀ c ∈ op.mnemonic.toList, isBlank c = false ∧ c ≠ '|' ∧ c ≠ '*' ∧ c ≠ ':' := by
  cases op <;> decide

theorem ofMnemonic?_mnemonic (op : Opcode) : Opcode.ofMnemonic? op.mnemonic.toList = some op := by
  have hall : ∀ op ∈ Opcode.all, Opcode.ofMnemonic? op.mnemonic.toList = some op := by decide +kernel
  exact hall op op.mem_all

theorem operationText_eq (i : Instruction) :
    i.operationText.toList = mnemonicText i.opcode i.conjugate ++ (operandsText i.opcode 0 " " i.operands).toList := by
  rw [operationText, String.toList_append, String.toList_append, mnemonicText]
  cases i.conjugate <;> rfl

theorem mnemonicText_chars (op : Opcode) (conjugate : Bool) :
    ∀ c ∈ mnemonicText op conjugate, isBlank c = false ∧ c ≠ '|' ∧ c ≠ ':' := by
  have hchars := mnemonic_chars op
  rw [mnemonicText, List.forall_mem_append]
  refine ⟨fun c hc => ⟨(hchars c hc).1, (hchars c hc).2.1, (hchars c hc).2.2.2⟩, ?_⟩
  cases conjugate <;> decide

/-! ### Operations -/

/-- The operation by itself: not where it stands, nor under which condition. -/
def bare (i : Instruction) : Instruction := { unplaced i.opcode i.operands with conjugate := i.conjugate }

/-- One operation, from its word and what stands behind it. -/
theorem readOperation_of_split {op : Opcode} {conjugate : Bool} {text rest : List Char}
    (hsplit : (splitFirst isBlank text).getD (text, []) = (mnemonicText op conjugate, rest)) :
    readOperation text = ((readBody (trim rest)).mapError LineError.operand).map fun operands =>
      { unplaced op operands with conjugate := conjugate } := by
  obtain ⟨list, mode, hmode⟩ : ∃ list mode, readMode (replaceUntil (trim rest)) = (list, mode) := ⟨_, _, rfl⟩
  have hbody : readBody (trim rest) = (Operand.readList list).map (· ++ mode.toList) := by rw [readBody, hmode]
  unfold replaceUntil at hmode
  unfold readOperation
  rw [hsplit, hbody]
  cases conjugate with
  | true =>
    have hstar : ['*'].isSuffixOf? (mnemonicText op true) = some op.mnemonic.toList := by
      rw [mnemonicText, if_pos rfl, isSuffixOf?_append_singleton]
    simp only [hstar, ofMnemonic?_mnemonic, hmode]
    cases Operand.readList list <;> rfl
  | false =>
    have hword : mnemonicText op false = op.mnemonic.toList := List.append_nil _
    have hnot : ['*'].isSuffixOf? op.mnemonic.toList = none :=
      isSuffixOf?_eq_none fun c hc => (mnemonic_chars op c (List.mem_of_getLast? hc)).2.2.1
    simp only [hword, hnot, ofMnemonic?_mnemonic, hmode]
    cases Operand.readList list <;> rfl

/-- The reader of an operation gets what stands behind its mnemonic. -/
theorem readOperation_operationText {i : Instruction} (h : ∀ o ∈ i.operands, BetweenBars o.text.toList) :
    readOperation i.operationText.toList =
      ((readBody (bodyText i.opcode i.operands)).mapError LineError.operand).map fun operands =>
        { unplaced i.opcode operands with conjugate := i.conjugate } := by
  have hword : ∀ c ∈ mnemonicText i.opcode i.conjugate, isBlank c = false :=
    fun c hc => (mnemonicText_chars _ _ c hc).1
  rw [operationText_eq]
  by_cases hne : i.operands = []
  · have hempty : (operandsText i.opcode 0 " " i.operands).toList = [] := by
      rw [hne]
      rfl
    have hbody : bodyText i.opcode i.operands = trim [] := by
      rw [bodyText, hempty]
      rfl
    rw [hempty, List.append_nil, hbody]
    refine readOperation_of_split ?_
    rw [splitFirst_of_forall hword]
    rfl
  · have hbody := trim_eq_self (betweenBars_body i.opcode hne h).trimmed
    rw [operandsText_eq i.opcode hne, ← hbody]
    refine readOperation_of_split ?_
    rw [hbody, splitFirst_append hword rfl]
    rfl

/-- An operation is read as what it is, unless a name in it is misread. -/
theorem readOperation_text_iff {i : Instruction} (h : InOrder i.operands) :
    readOperation i.operationText.toList = .ok i.bare ↔ misread i.operands = false := by
  rw [readOperation_operationText h.betweenBars, ← readBody_iff i.opcode h, bare]
  cases readBody (bodyText i.opcode i.operands) with
  | error e => simp [Except.mapError, Except.map]
  | ok operands => simp [Except.mapError, Except.map, unplaced]

/-- Whatever is read as an operation stands by itself. -/
theorem bare_of_readOperation {i j : Instruction} (h : ∀ o ∈ i.operands, BetweenBars o.text.toList)
    (hread : readOperation i.operationText.toList = .ok j) : j.bare = j := by
  rw [readOperation_operationText h] at hread
  obtain ⟨operands, -, rfl⟩ := map_eq_ok_iff.1 hread
  rfl

theorem betweenBars_operationText {i : Instruction} (h : ∀ o ∈ i.operands, BetweenBars o.text.toList) :
    BetweenBars i.operationText.toList := by
  have hchars := mnemonicText_chars i.opcode i.conjugate
  have hne : mnemonicText i.opcode i.conjugate ≠ [] := by
    cases i.opcode <;> exact List.append_ne_nil_of_left_ne_nil (by decide) _
  have hword : BetweenBars (mnemonicText i.opcode i.conjugate) := by
    refine ⟨hne, .of_forall fun c hc => (hchars c hc).1, fun hc => (hchars _ hc).2.1 rfl, fun c hc => ?_⟩
    exact (hchars c (List.mem_of_getLast? hc)).2.2
  rw [operationText_eq]
  by_cases hnil : i.operands = []
  · rw [hnil]
    exact (List.append_nil _).symm ▸ hword
  · have hbody := betweenBars_body i.opcode hnil h
    have hlast : (mnemonicText i.opcode i.conjugate ++ ' ' :: bodyText i.opcode i.operands).getLast? =
        (bodyText i.opcode i.operands).getLast? := by
      rw [List.append_cons, List.getLast?_append_of_ne_nil _ hbody.ne]
    rw [operandsText_eq i.opcode hnil]
    refine ⟨List.append_ne_nil_of_left_ne_nil hne _, ⟨?_, hlast ▸ hbody.trimmed.last⟩, ?_, hlast ▸ hbody.last⟩
    · rw [List.head?_append_of_ne_nil _ hne]
      exact hword.trimmed.head
    · rw [List.mem_append, List.mem_cons]
      rintro (hbar | hbar | hbar)
      · exact hword.bar hbar
      · cases hbar
      · exact hbody.bar hbar

/-! ### Lines -/

/-- The condition that the text says. -/
def shownCondition? (i : Instruction) : Option Condition :=
  if !i.isDirective && i.cond != .always && i.opcode != .loop then some i.cond else none

theorem readPredicate_mnemonic (op : Opcode) (t : List Char) :
    readPredicate (op.mnemonic.toList ++ t) = .ok (none, op.mnemonic.toList ++ t) := by
  cases op <;> rfl

theorem readPredicate_if (c : Condition) (t : List Char) :
    readPredicate ("IF ".toList ++ (c.name.toList ++ ' ' :: t)) = .ok (some c, trimStart t) := by
  have hstart : trimStart (c.name.toList ++ ' ' :: t) = c.name.toList ++ ' ' :: t := by
    cases c <;> rfl
  have htext : "IF ".toList ++ (c.name.toList ++ ' ' :: t) = "IF".toList ++ ' ' :: (c.name.toList ++ ' ' :: t) := rfl
  rw [htext, readPredicate_keyword (by decide), hstart]
  rcases words_of_name c with ⟨hword, -⟩ | ⟨second, hname, hsecond⟩
  · exact readCondition_one (.one hword (beq_self_eq_true _)) t
  · have hwording : Wording c ["NOT".toList, second] :=
      .two (by decide) hsecond (by rw [hname]; exact beq_self_eq_true _)
    rw [hname, List.append_assoc]
    exact readCondition_two hwording t

theorem trimStart_mnemonic (op : Opcode) (t : List Char) :
    trimStart (op.mnemonic.toList ++ t) = op.mnemonic.toList ++ t := by
  cases op <;> rfl

/-- The predicate in front of the operations is read as the condition that it shows. -/
theorem readPredicate_text (i : Instruction) (op : Opcode) (t : List Char) :
    readPredicate (i.predicateText.toList ++ (op.mnemonic.toList ++ t)) =
      .ok (i.shownCondition?, op.mnemonic.toList ++ t) := by
  unfold predicateText shownCondition?
  split
  · have hif : ("IF " ++ i.cond.name ++ " ").toList ++ (op.mnemonic.toList ++ t) =
        "IF ".toList ++ (i.cond.name.toList ++ ' ' :: (op.mnemonic.toList ++ t)) := by
      simp
    rw [hif, readPredicate_if, trimStart_mnemonic]
  · exact readPredicate_mnemonic op t

theorem exists_operationText (i : Instruction) : ∃ t, i.operationText.toList = i.opcode.mnemonic.toList ++ t := by
  rw [operationText_eq, mnemonicText, List.append_assoc]
  exact ⟨_, rfl⟩

theorem toList_join (sep s : String) (rest : List String) :
    (join sep (s :: rest)).toList = s.toList ++ rest.flatMap fun r => sep.toList ++ r.toList := by
  induction rest generalizing s with
  | nil => exact (List.append_nil _).symm
  | cons r rest ih =>
    have hcons : join sep (s :: r :: rest) = s ++ sep ++ join sep (r :: rest) := rfl
    rw [hcons, String.toList_append, String.toList_append, ih, List.flatMap_cons, List.append_assoc, List.append_assoc]

/-- The texts between the bars are the ones that were joined. -/
theorem map_trim_splitOnText {s x : List Char} {rest : List String} (hs : trim s = x) (hs' : trim (s ++ [' ']) = x)
    (hbar : '|' ∉ s) (h : ∀ r ∈ rest, BetweenBars r.toList) :
    (splitOnText "||".toList 0 (s ++ rest.flatMap fun r => " || ".toList ++ r.toList)).map trim =
      x :: rest.map String.toList := by
  induction rest generalizing s x with
  | nil =>
    have hsplit : splitOnText "||".toList 0 s = [s] := splitOnText_of_notMem hbar
    rw [List.flatMap_nil, List.append_nil, hsplit, List.map_singleton, hs, List.map_nil]
  | cons r rest ih =>
    obtain ⟨hr, hrest⟩ := List.forall_mem_cons.1 h
    have hcons : s ++ (r :: rest).flatMap (fun r => " || ".toList ++ r.toList) =
        (s ++ [' ']) ++ ("||".toList ++ ((' ' :: r.toList) ++ rest.flatMap fun r => " || ".toList ++ r.toList)) := by
      simp
    have hbar' : '|' ∉ s ++ [' '] := by simpa using hbar
    have hnext : '|' ∉ ' ' :: r.toList := by simpa using hr.bar
    have hsplit (t : List Char) : splitOnText "||".toList 0 ((s ++ [' ']) ++ ("||".toList ++ t)) =
        (s ++ [' ']) :: splitOnText "||".toList 0 t := splitOnText_append hbar'
    rw [hcons, hsplit, List.map_cons, hs', List.map_cons]
    exact congrArg (x :: ·) (ih (trim_eq_self hr.trimmed) (trim_append_blank hr.trimmed) hnext hrest)

/-- A sibling shows no condition. -/
theorem readPredicated_operationText {i : Instruction} (h : ∀ o ∈ i.operands, BetweenBars o.text.toList) :
    readPredicated i.operationText.toList = readOperation i.operationText.toList := by
  obtain ⟨t, ht⟩ := i.exists_operationText
  have hpredicate : readPredicate i.operationText.toList = .ok (none, i.operationText.toList) := by
    rw [ht]
    exact readPredicate_mnemonic i.opcode t
  rw [readPredicated, hpredicate]
  simp only [bind, Except.bind]
  cases hread : readOperation i.operationText.toList with
  | error e => rfl
  | ok j =>
    rw [← bare_of_readOperation h hread]
    rfl

/-- The operations of the word, with the bars between them. -/
def joinedText (i : Instruction) : List Char :=
  i.operationText.toList ++ (i.siblings.map operationText).flatMap fun s => " || ".toList ++ s.toList

theorem text_eq (i : Instruction) : i.text.toList = i.predicateText.toList ++ i.joinedText := by
  rw [text, String.toList_append, members, List.map_cons, toList_join, joinedText]

theorem getLast?_joinedText {i : Instruction} (h : ∀ m ∈ i.members, BetweenBars m.operationText.toList) :
    ∃ m ∈ i.members, i.joinedText.getLast? = m.operationText.toList.getLast? := by
  have hpieces : ∀ s ∈ i.siblings.map operationText, " || ".toList ++ s.toList ≠ [] :=
    fun s _ => List.append_ne_nil_of_left_ne_nil (by decide) _
  rcases getLast?_append_flatMap (s := i.operationText.toList) hpieces with hlast | ⟨s, hs, hlast⟩
  · exact ⟨i, List.mem_cons_self, hlast⟩
  · obtain ⟨m, hm, rfl⟩ := List.mem_map.1 hs
    have hmem : m ∈ i.members := List.mem_cons_of_mem _ hm
    exact ⟨m, hmem, hlast.trans (List.getLast?_append_of_ne_nil _ (h m hmem).ne)⟩

/-- No line starts with a blank, nor as a comment does. -/
theorem head_text (i : Instruction) : ∃ c cs, i.text.toList = c :: cs ∧ c ≠ ';' ∧ isBlank c = false := by
  obtain ⟨t, ht⟩ := i.exists_operationText
  have hmnemonic : ∃ c cs, i.opcode.mnemonic.toList = c :: cs ∧ c ≠ ';' ∧ isBlank c = false := by
    cases i.opcode <;> exact ⟨_, _, rfl, by decide, by decide⟩
  obtain ⟨c, cs, hc, hhead⟩ := hmnemonic
  rw [text_eq, joinedText, ht, hc]
  unfold predicateText
  split
  · rw [String.toList_append, String.toList_append]
    exact ⟨'I', _, rfl, by decide, by decide⟩
  · exact ⟨c, _, rfl, hhead⟩

/-- Reads the operations between the bars, behind the predicate of the first one. -/
def readOperations (condition : Option Condition) (rest : List Char) : Except LineError Instruction :=
  match (splitOnText "||".toList 0 rest).map trim with
  | [] => .error (.unknownMnemonic "")
  | first :: others => do
    let head ← readOperation first
    let siblings ← others.mapM readPredicated
    return withDataAddr { head with condition := condition, siblings := siblings }

/-- A line that is neither a comment nor a label holds operations. -/
theorem readTrimmed_eq {text : List Char} (hne : text ≠ []) (hcomment : ∀ c ∈ text.head?, c ≠ ';')
    (hlabel : ∀ c ∈ text.getLast?, c ≠ ':') :
    readTrimmed text = readPredicate text >>= fun p => readOperations p.1 p.2 := by
  unfold readTrimmed
  split
  · exact absurd rfl hne
  · exact absurd rfl (hcomment ';' rfl)
  · rw [isSuffixOf?_eq_none hlabel]
    rfl

/-- A line is read operation by operation. -/
theorem read_text_eq {i : Instruction} (h : ∀ m ∈ i.members, ∀ o ∈ m.operands, BetweenBars o.text.toList) :
    read i.text.toList = (do
      let head ← readOperation i.operationText.toList
      let siblings ← (i.siblings.map fun s => s.operationText.toList).mapM readOperation
      return withDataAddr { head with condition := i.shownCondition?, siblings := siblings }) := by
  obtain ⟨hi, hsiblings⟩ := List.forall_mem_cons.1 h
  have hmembers : ∀ m ∈ i.members, BetweenBars m.operationText.toList := fun m hm => betweenBars_operationText (h m hm)
  have hbars := betweenBars_operationText hi
  have hjoined : i.joinedText ≠ [] := List.append_ne_nil_of_left_ne_nil hbars.ne _
  obtain ⟨t, ht⟩ := i.exists_operationText
  obtain ⟨m, hm, hlast⟩ : ∃ m ∈ i.members, i.text.toList.getLast? = m.operationText.toList.getLast? := by
    obtain ⟨m, hm, hlast⟩ := getLast?_joinedText hmembers
    exact ⟨m, hm, by rw [text_eq, List.getLast?_append_of_ne_nil _ hjoined, hlast]⟩
  obtain ⟨c, cs, htext, hcomment, hblank⟩ := i.head_text
  have htrimmed : Trimmed i.text.toList := by
    refine ⟨?_, hlast ▸ (hmembers m hm).trimmed.last⟩
    rw [htext]
    rintro _ ⟨⟩
    exact hblank
  have hpredicate : readPredicate i.text.toList = .ok (i.shownCondition?, i.joinedText) := by
    rw [text_eq, joinedText, ht, List.append_assoc]
    exact readPredicate_text i i.opcode _
  have hsplit : (splitOnText "||".toList 0 i.joinedText).map trim =
      i.operationText.toList :: i.siblings.map fun s => s.operationText.toList := by
    have hbetween : ∀ r ∈ i.siblings.map operationText, BetweenBars r.toList := by
      intro r hr
      obtain ⟨s, hs, rfl⟩ := List.mem_map.1 hr
      exact betweenBars_operationText (hsiblings s hs)
    rw [joinedText, map_trim_splitOnText (trim_eq_self hbars.trimmed) (trim_append_blank hbars.trimmed) hbars.bar
      hbetween, List.map_map]
    rfl
  have hmap : (i.siblings.map fun s => s.operationText.toList).mapM readPredicated =
      (i.siblings.map fun s => s.operationText.toList).mapM readOperation :=
    mapM_congr (List.forall_mem_map.2 fun s hs => readPredicated_operationText (hsiblings s hs))
  have hread : readTrimmed i.text.toList = readPredicate i.text.toList >>= fun p => readOperations p.1 p.2 := by
    refine readTrimmed_eq (htext ▸ List.cons_ne_nil c cs) ?_ (hlast ▸ (hmembers m hm).last)
    rw [htext]
    rintro _ ⟨⟩
    exact hcomment
  rw [read, trim_eq_self htrimmed, hread, hpredicate]
  simp only [bind, Except.bind, readOperations, hsplit, hmap]

/-- The instruction as its text says it. -/
def respelled (i : Instruction) : Instruction :=
  { i.bare with condition := i.shownCondition?, siblings := i.siblings.map bare }

theorem read_text_of_not_misread {i : Instruction} (h : ∀ m ∈ i.members, InOrder m.operands)
    (hmisread : ∀ m ∈ i.members, misread m.operands = false) : read i.text.toList = .ok (withDataAddr i.respelled) := by
  have hread : ∀ m ∈ i.members, readOperation m.operationText.toList = .ok m.bare :=
    fun m hm => (readOperation_text_iff (h m hm)).2 (hmisread m hm)
  obtain ⟨hhead, hsiblings⟩ := List.forall_mem_cons.1 hread
  have hmap : (i.siblings.map fun s => s.operationText.toList).mapM readOperation = .ok (i.siblings.map bare) := by
    rw [mapM_eq_ok_iff, List.forall₂_map_left_iff, List.forall₂_map_right_iff, List.forall₂_same]
    exact hsiblings
  rw [read_text_eq fun m hm => (h m hm).betweenBars, hhead, hmap]
  rfl

/-! ### Lines without names -/

/-- Operands without names, in order. -/
structure SpelledOperands (operands : List Operand) : Prop where
  inOrder : InOrder operands
  spelled : ∀ o ∈ operands, o.Spelled

theorem SpelledOperands.misread_eq {operands : List Operand} (h : SpelledOperands operands) :
    misread operands = false := by
  have hunnamed := fun o ho => (h.spelled o ho).unnamed
  have hlose : losesUntil operands.dropLast = false := by
    rw [← Bool.not_eq_true]
    intro hlose
    obtain ⟨o, rest, w, hfront, huntil⟩ := exists_of_losesUntil hlose
    have hmem : w ∈ operands := List.dropLast_subset _ (hfront ▸ by simp)
    rw [(hunnamed w hmem).2.1] at huntil
    cases huntil
  have hholds : operands.any Operand.holdsUntil = false :=
    List.any_eq_false.2 fun o ho => Bool.eq_false_iff.1 (hunnamed o ho).2.2
  rw [misread, any_getLast? fun o ho => (hunnamed o ho).1, hlose, hholds, Bool.and_false]
  rfl

theorem withDataAddr_of_ne {i : Instruction} (h : i.opcode ≠ .var) : withDataAddr i = i := by
  unfold withDataAddr
  split
  · next hop _ => exact absurd hop h
  · rfl

/-- The text of an instruction without names is read as the instruction. -/
theorem read_text {i : Instruction} (hdir : i.isDirective = false)
    (h : ∀ m ∈ i.members, SpelledOperands m.operands) : read i.text.toList = .ok i.respelled := by
  have hvar : i.respelled.opcode ≠ .var := by
    intro hop
    have hop : i.opcode = .var := hop
    rw [isDirective, hop] at hdir
    cases hdir
  rw [read_text_of_not_misread (fun m hm => (h m hm).inOrder) fun m hm => (h m hm).misread_eq, withDataAddr_of_ne hvar]

end Instruction

end QuadDsp
