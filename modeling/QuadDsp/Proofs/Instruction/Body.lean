import QuadDsp.Instruction.Reader
import QuadDsp.Proofs.Operand.Forms

/-! # What stands behind a mnemonic

Operands stand behind a mnemonic, a multiply mode behind all others, and in a loop the word UNTIL in front of the
condition. The reader of an operation puts a comma for that word wherever it finds it
(`Instruction.replaceUntil`). What it gets is a list of the operands (`replaceUntil_list`), with the mode behind it
(`replaceUntil_mode`), but for two kinds of names: the label `UNTIL` right in front of the mode is taken for that
word (`replaceUntil_lost`), and a symbol with that word between blanks is cut (`pieceText_symbol`). -/

namespace QuadDsp

open Text

namespace Instruction

/-! ### The word of a loop -/

/-- Both spellings of the word of a loop are looked for. -/
def replaceUntil (s : List Char) : List Char :=
  replaceText " until ".toList ", ".toList (replaceText " UNTIL ".toList ", ".toList s)

@[simp] theorem replaceUntil_nil : replaceUntil [] = [] := rfl

theorem followed_ne {s : List Char} (h : followed ' ' (fun c => c.toUpper != 'U') s = true) {u : Char}
    (hu : u.toUpper = 'U') : followed ' ' (· != u) s = true := by
  refine followed_mono (fun c hc => ?_) h
  rw [bne_iff_ne] at hc ⊢
  rintro rfl
  exact hc hu

theorem replaceUntil_append {s : List Char} (h : followed ' ' (fun c => c.toUpper != 'U') s = true) (t : List Char) :
    replaceUntil (s ++ t) = s ++ replaceUntil t := by
  have hlarge : replaceText " UNTIL ".toList ", ".toList (s ++ t) = s ++ replaceText " UNTIL ".toList ", ".toList t :=
    replaceText_append_of_followed (followed_ne h rfl)
  rw [replaceUntil, hlarge]
  exact replaceText_append_of_followed (followed_ne h rfl)

theorem replaceUntil_eq_self {s : List Char} (h : followed ' ' (fun c => c.toUpper != 'U') s = true) :
    replaceUntil s = s := by
  have hself := replaceUntil_append h []
  rwa [replaceUntil_nil, List.append_nil] at hself

theorem replaceUntil_until {s : List Char} (h : followed ' ' (fun c => c.toUpper != 'U') (", ".toList ++ s) = true)
    (t : List Char) : replaceUntil (" UNTIL ".toList ++ (s ++ t)) = ", ".toList ++ (s ++ replaceUntil t) := by
  have hlarge : replaceText " UNTIL ".toList ", ".toList (" UNTIL ".toList ++ (s ++ t)) =
      ", ".toList ++ (s ++ replaceText " UNTIL ".toList ", ".toList t) :=
    replaceText_sep_append.trans
      (congrArg (", ".toList ++ ·) (replaceText_append_of_followed (followed_ne (followed_of_append h) rfl)))
  rw [replaceUntil, hlarge, ← List.append_assoc, ← List.append_assoc]
  exact replaceText_append_of_followed (followed_ne h rfl)

/-- The word of a loop does not reach across commas and parentheses. -/
theorem replaceUntil_append_cons {c : Char} (hc : c ∉ " UNTIL ".toList ∧ c ∉ " until ".toList) (s t : List Char) :
    replaceUntil (s ++ c :: t) = replaceUntil s ++ c :: replaceUntil t := by
  have hlarge : " UNTIL ".toList ≠ [] := by decide
  have hsmall : " until ".toList ≠ [] := by decide
  rw [replaceUntil, replaceText_append_cons hlarge hc.1, replaceText_append_cons hsmall hc.2]
  rfl

theorem replaceUntil_of_not_hasUntil {s : List Char} (h : ¬Operand.HasUntil s) : replaceUntil s = s := by
  rw [Operand.HasUntil, not_or] at h
  rw [replaceUntil, replaceText_eq_self h.1, replaceText_eq_self h.2]

theorem comma_mem_replaceUntil {s : List Char} (h : Operand.HasUntil s) : ',' ∈ replaceUntil s := by
  by_cases hlarge : " UNTIL ".toList <:+: s
  · exact mem_replaceText_of_mem (by decide) (by decide)
      (mem_replaceText_of_new (by decide) (by decide) hlarge)
  · rw [replaceUntil, replaceText_eq_self hlarge]
    exact mem_replaceText_of_new (by decide) (by decide) (h.resolve_left hlarge)

/-- Only the comma and the blank behind it are new. -/
theorem mem_of_mem_replaceUntil {c : Char} {s : List Char} (h : c ∈ replaceUntil s) : c ∈ s ∨ c ∈ [',', ' '] := by
  rcases mem_of_mem_replaceText h with h | h
  · exact mem_of_mem_replaceText h
  · exact .inr h

/-! ### Operands in a list -/

/-- An operand as the reader of the list gets it. -/
def pieceText (o : Operand) : List Char := replaceUntil o.text.toList

theorem pieceText_of_listed {o : Operand} (h : Operand.Listed o.text.toList) : pieceText o = o.text.toList :=
  replaceUntil_eq_self h.blank

theorem blank_notMem_of_isName {name : List Char} (h : Operand.isName name = true) : ' ' ∉ name :=
  fun hmem => Operand.ne_of_isNameChar (Operand.forall_isNameChar h _ hmem) (by decide) rfl

theorem followed_of_isName {name : List Char} (h : Operand.isName name = true) :
    followed ' ' (fun c => c.toUpper != 'U') name = true :=
  followed_of_notMem (blank_notMem_of_isName h)

theorem pieceText_label {name : String} (h : Operand.isName name.toList = true) :
    pieceText (.target (.label name)) = name.toList :=
  replaceUntil_eq_self (followed_of_isName h)

/-- What stands between the parentheses of a memory reference is replaced by itself. -/
theorem replaceUntil_memText {p : List Char} (hp : p ∈ [[], [' ']]) (space : Space) (inner t : List Char) :
    replaceUntil (p ++ (Operand.memText space inner ++ t)) =
      p ++ (Operand.memText space (replaceUntil inner) ++ replaceUntil t) := by
  have hopen : followed ' ' (fun c => c.toUpper != 'U') (p ++ [Operand.spaceLetter space, 'M', '(']) = true := by
    simp only [List.mem_cons, List.not_mem_nil, or_false] at hp
    rcases hp with rfl | rfl <;> cases space <;> rfl
  have hsplit : p ++ (Operand.memText space inner ++ t) =
      (p ++ [Operand.spaceLetter space, 'M', '(']) ++ (inner ++ ')' :: t) := by
    simp [Operand.memText]
  rw [hsplit, replaceUntil_append hopen, replaceUntil_append_cons (by decide)]
  simp [Operand.memText]

theorem pieceText_symbol (space : Space) (name : String) :
    pieceText (.mem ⟨space, .symbol name⟩) = Operand.memText space (replaceUntil name.toList) := by
  have hmem := replaceUntil_memText (p := []) (by simp) space name.toList []
  rw [replaceUntil_nil, List.append_nil, List.append_nil, List.nil_append, List.nil_append] at hmem
  rw [pieceText, Operand.symbol_text, hmem]

theorem replaceUntil_text_append {o : Operand} (h : o.Plain) (t : List Char) :
    replaceUntil (o.text.toList ++ t) = pieceText o ++ replaceUntil t := by
  rcases h.cases with ⟨-, hlisted⟩ | ⟨name, rfl, hname⟩ | ⟨space, name, rfl, -⟩
  · rw [pieceText_of_listed hlisted, replaceUntil_append hlisted.blank]
  · rw [pieceText_label hname]
    exact replaceUntil_append (followed_of_isName hname) t
  · have hmem := replaceUntil_memText (p := []) (by simp) space name.toList t
    rwa [pieceText_symbol, Operand.symbol_text]

/-- A label is the word of a loop only as a whole, and with blanks on both sides. -/
theorem eq_of_infix_label {w name t : List Char} (hw : Operand.isName w = true) (hname : Operand.isName name = true)
    (ht : t ∈ [[], [' ']]) (h : ' ' :: (w ++ [' ']) <:+: ' ' :: (name ++ t)) : t = [' '] ∧ name = w := by
  simp only [List.mem_cons, List.not_mem_nil, or_false] at ht
  rcases List.infix_cons_iff.1 h with hfirst | hinside
  · obtain ⟨rest, hrest⟩ := (List.cons_prefix_cons.1 hfirst).2
    have hback : w = name := by
      have htake := congrArg (List.takeWhile Operand.isNameChar) hrest
      rw [List.append_assoc, List.takeWhile_append_of_pos (Operand.forall_isNameChar hw),
        List.takeWhile_append_of_pos (Operand.forall_isNameChar hname)] at htake
      rcases ht with rfl | rfl <;> simpa [Operand.isNameChar] using htake
    rw [hback, List.append_assoc, List.append_cancel_left_eq] at hrest
    refine ⟨ht.resolve_left ?_, hback.symm⟩
    rintro rfl
    cases hrest
  · exfalso
    have hcount := hinside.sublist.count_le ' '
    have hnone : name.count ' ' = 0 := List.count_eq_zero.2 (blank_notMem_of_isName hname)
    rw [List.count_cons_self, List.count_append, List.count_append, hnone] at hcount
    rcases ht with rfl | rfl <;> simp at hcount

theorem not_hasUntil_label {name : String} (h : Operand.isName name.toList = true) {t : List Char}
    (ht : t = [] ∨ t = [' '] ∧ (Operand.target (.label name)).namesUntil = false) :
    ¬Operand.HasUntil (' ' :: (name.toList ++ t)) := by
  have hmem : t ∈ [[], [' ']] := by
    rcases ht with rfl | ⟨rfl, -⟩ <;> simp
  have hno {w : String} (hw : Operand.isName w.toList = true) (huntil : (Operand.target (.label w)).namesUntil = true) :
      ¬(' ' :: (w.toList ++ [' ']) <:+: ' ' :: (name.toList ++ t)) := by
    intro hinside
    obtain ⟨rfl, hname⟩ := eq_of_infix_label hw h hmem hinside
    obtain rfl : name = w := String.toList_inj.1 hname
    rcases ht with ht | ⟨-, hnot⟩
    · cases ht
    · rw [huntil] at hnot
      cases hnot
  rintro (hinside | hinside)
  · exact hno (w := "UNTIL") rfl rfl hinside
  · exact hno (w := "until") rfl rfl hinside

/-- What can stand behind an operand without making it the word of a loop. -/
def Closes (o : Operand) (t : List Char) : Prop :=
  t = [] ∨ (∃ u, t = ',' :: u) ∨ o.namesUntil = false ∧ ∃ u, t = ' ' :: '(' :: u

theorem replaceUntil_blank_label {name : String} (h : Operand.isName name.toList = true) {t : List Char}
    (ht : Closes (.target (.label name)) t) :
    replaceUntil (' ' :: (name.toList ++ t)) = ' ' :: (name.toList ++ replaceUntil t) := by
  have hself : replaceUntil (' ' :: name.toList) = ' ' :: name.toList :=
    replaceUntil_of_not_hasUntil (by simpa using not_hasUntil_label h (.inl rfl))
  rcases ht with rfl | ⟨u, rfl⟩ | ⟨huntil, u, rfl⟩
  · rw [replaceUntil_nil, List.append_nil, hself]
  · have hcut := replaceUntil_append_cons (c := ',') (by decide) (' ' :: name.toList) u
    have hcomma : replaceUntil (',' :: u) = ',' :: replaceUntil u := replaceUntil_append_cons (by decide) [] u
    rw [hcomma, ← List.cons_append, hcut, hself]
    rfl
  · have hspaced : replaceUntil (' ' :: (name.toList ++ [' '])) = ' ' :: (name.toList ++ [' ']) :=
      replaceUntil_of_not_hasUntil (not_hasUntil_label h (.inr ⟨rfl, huntil⟩))
    have hcut := replaceUntil_append_cons (c := '(') (by decide) (' ' :: (name.toList ++ [' '])) u
    have hparen : replaceUntil (' ' :: '(' :: u) = ' ' :: '(' :: replaceUntil u :=
      replaceUntil_append_cons (by decide) [' '] u
    have hsplit : ' ' :: (name.toList ++ ' ' :: '(' :: u) = (' ' :: (name.toList ++ [' '])) ++ '(' :: u := by simp
    rw [hparen, hsplit, hcut, hspaced]
    simp

theorem replaceUntil_blank_text {o : Operand} (h : o.Plain) {t : List Char} (ht : Closes o t) :
    replaceUntil (' ' :: (o.text.toList ++ t)) = ' ' :: (pieceText o ++ replaceUntil t) := by
  rcases h.cases with ⟨-, hlisted⟩ | ⟨name, rfl, hname⟩ | ⟨space, name, rfl, -⟩
  · have hblank : followed ' ' (fun c => c.toUpper != 'U') (' ' :: o.text.toList) = true := by
      obtain ⟨c, cs, htext⟩ := List.exists_cons_of_ne_nil hlisted.ne
      have hhead := hlisted.head c (by rw [htext]; rfl)
      rw [followed, hlisted.blank, htext]
      simpa using hhead
    rw [pieceText_of_listed hlisted]
    exact replaceUntil_append hblank t
  · rw [pieceText_label hname]
    exact replaceUntil_blank_label hname ht
  · have hmem := replaceUntil_memText (p := [' ']) (by simp) space name.toList t
    rwa [pieceText_symbol, Operand.symbol_text]

/-- What stands in front of an operand that is not the first. -/
def jointText (op : Opcode) (pos : Nat) : Operand → String
  | .cond _ => if op = .loop ∧ pos = 1 then " UNTIL " else ", "
  | _ => ", "

theorem operandsText_cons (op : Opcode) (pos : Nat) {o : Operand} (ho : o.isMulMode = false) (rest : List Operand) :
    operandsText op pos ", " (o :: rest) = jointText op pos o ++ o.text ++ operandsText op (pos + 1) ", " rest := by
  cases o with
  | key k =>
    cases k with
    | mul m => cases ho
    | _ => rfl
  | cond c =>
    rw [operandsText, jointText]
    split <;> rfl
  | _ => rfl

/-- The first operand has a blank in front of it, whatever it is. -/
theorem operandsText_first (op : Opcode) (o : Operand) (rest : List Operand) :
    ∃ sep, operandsText op 0 " " (o :: rest) = " " ++ o.text ++ operandsText op 1 sep rest ∧
      (o.isMulMode = false → sep = ", ") := by
  cases o with
  | key k =>
    cases k with
    | mul m => exact ⟨" ", rfl, fun h => by cases h⟩
    | _ => exact ⟨", ", rfl, fun _ => rfl⟩
  | cond c =>
    refine ⟨", ", ?_, fun _ => rfl⟩
    rw [operandsText, if_neg fun h => absurd h.2 Nat.zero_ne_one]
  | _ => exact ⟨", ", rfl, fun _ => rfl⟩

theorem replaceUntil_joint (op : Opcode) (pos : Nat) {o : Operand} (h : o.Plain) {t : List Char} (ht : Closes o t) :
    replaceUntil ((jointText op pos o).toList ++ (o.text.toList ++ t)) =
      ',' :: ' ' :: (pieceText o ++ replaceUntil t) := by
  have hcomma : replaceUntil (", ".toList ++ (o.text.toList ++ t)) = ',' :: ' ' :: (pieceText o ++ replaceUntil t) := by
    have hcut := replaceUntil_append_cons (c := ',') (by decide) [] (' ' :: (o.text.toList ++ t))
    rw [replaceUntil_blank_text h ht] at hcut
    exact hcut
  unfold jointText
  split
  · next c =>
    split
    · rw [pieceText_of_listed (o := .cond c) (Operand.listed_cond c)]
      exact replaceUntil_until (by cases c <;> rfl) t
    · exact hcomma
  · exact hcomma

/-- The operands behind the first one, as the reader of the list gets them. -/
def moreText (ops : List Operand) : List Char := ops.flatMap fun o => ',' :: ' ' :: pieceText o

theorem replaceUntil_more (op : Opcode) {ops : List Operand} (h : ∀ o ∈ ops, o.Plain) {t : List Char}
    (ht : ∀ o ∈ ops.getLast?, Closes o t) {pos : Nat} (hpos : 1 ≤ pos) :
    replaceUntil ((operandsText op pos ", " ops).toList ++ t) = moreText ops ++ replaceUntil t := by
  induction ops generalizing pos with
  | nil => rfl
  | cons o rest ih =>
    obtain ⟨ho, hrest⟩ := List.forall_mem_cons.1 h
    have hcloses : Closes o ((operandsText op (pos + 1) ", " rest).toList ++ t) := by
      cases rest with
      | nil => exact ht o rfl
      | cons o' rest =>
        have hjoint : jointText op (pos + 1) o' = ", " := by
          unfold jointText
          split
          · exact if_neg fun hop => by omega
          · rfl
        rw [operandsText_cons op _ (hrest o' List.mem_cons_self).noMode, hjoint]
        exact .inr (.inl ⟨' ' :: (o'.text.toList ++ ((operandsText op (pos + 1 + 1) ", " rest).toList ++ t)), by simp⟩)
    have hlast : ∀ o' ∈ rest.getLast?, Closes o' t := by
      intro o' ho'
      refine ht o' ?_
      rw [List.getLast?_cons, Option.mem_def.1 ho']
      rfl
    rw [operandsText_cons op pos ho.noMode, String.toList_append, String.toList_append, List.append_assoc,
      List.append_assoc, replaceUntil_joint op pos ho hcloses, ih hrest hlast (Nat.le_succ_of_le hpos)]
    simp [moreText]

/-! ### What stands behind a mnemonic -/

/-- What stands behind the blank behind a mnemonic. -/
def bodyText (op : Opcode) (operands : List Operand) : List Char := (operandsText op 0 " " operands).toList.tail

theorem operandsText_eq (op : Opcode) {operands : List Operand} (hne : operands ≠ []) :
    (operandsText op 0 " " operands).toList = ' ' :: bodyText op operands := by
  obtain ⟨o, rest, rfl⟩ := List.exists_cons_of_ne_nil hne
  obtain ⟨sep, htext, -⟩ := operandsText_first op o rest
  rw [bodyText, htext]
  simp

theorem bodyText_cons (op : Opcode) {o : Operand} (ho : o.isMulMode = false) (rest : List Operand) :
    bodyText op (o :: rest) = o.text.toList ++ (operandsText op 1 ", " rest).toList := by
  obtain ⟨sep, htext, hsep⟩ := operandsText_first op o rest
  rw [bodyText, htext, hsep ho]
  simp

/-- A multiply mode as an operand. -/
abbrev modeOperand (m : MulMode) : Operand := .key (.mul m)

theorem modeOperand_text (m : MulMode) : (modeOperand m).text.toList = '(' :: (m.name.toList ++ [')']) := by
  cases m <;> rfl

theorem operandsText_append (op : Opcode) (pos : Nat) {ops : List Operand} (h : ∀ o ∈ ops, o.Plain)
    (tail : List Operand) : (operandsText op pos ", " (ops ++ tail)).toList =
      (operandsText op pos ", " ops).toList ++ (operandsText op (pos + ops.length) ", " tail).toList := by
  induction ops generalizing pos with
  | nil => rfl
  | cons o rest ih =>
    obtain ⟨ho, hrest⟩ := List.forall_mem_cons.1 h
    have hpos : pos + (o :: rest).length = pos + 1 + rest.length := by
      rw [List.length_cons]
      omega
    rw [List.cons_append, operandsText_cons op pos ho.noMode, operandsText_cons op pos ho.noMode, hpos]
    simp [ih (pos + 1) hrest]

theorem operandsText_mode (op : Opcode) (pos : Nat) (m : MulMode) :
    (operandsText op pos ", " [modeOperand m]).toList = ' ' :: '(' :: (m.name.toList ++ [')']) := by
  rw [← modeOperand_text]
  simp [operandsText]

theorem partsText_eq (o : Operand) (rest : List Operand) :
    Operand.partsText ((o :: rest).map pieceText) = pieceText o ++ moreText rest := by
  rw [List.map_cons, Operand.partsText, List.flatMap_map, moreText]

theorem replaceUntil_list (op : Opcode) {ops : List Operand} (h : ∀ o ∈ ops, o.Plain) :
    replaceUntil (bodyText op ops) = Operand.partsText (ops.map pieceText) := by
  cases ops with
  | nil => rfl
  | cons o rest =>
    obtain ⟨ho, hrest⟩ := List.forall_mem_cons.1 h
    have hmore := replaceUntil_more op hrest (t := []) (fun _ _ => .inl rfl) (Nat.le_refl 1)
    rw [replaceUntil_nil, List.append_nil, List.append_nil] at hmore
    rw [bodyText_cons op ho.noMode, replaceUntil_text_append ho, hmore, partsText_eq]

/-- The label `UNTIL` stands right in front of a multiply mode, and behind another operand. -/
def losesUntil : List Operand → Bool
  | [] => false
  | _ :: rest => rest.getLast?.any Operand.namesUntil

theorem exists_of_losesUntil {ops : List Operand} (h : losesUntil ops = true) :
    ∃ o rest w, ops = o :: rest ++ [w] ∧ w.namesUntil = true := by
  cases ops with
  | nil => cases h
  | cons o more =>
    rcases List.eq_nil_or_concat more with rfl | ⟨rest, w, rfl⟩
    · cases h
    · rw [losesUntil, List.concat_eq_append, List.getLast?_concat] at h
      exact ⟨o, rest, w, by simp, h⟩

theorem replaceUntil_paren (m : MulMode) (gap : List Char) (hgap : gap ∈ [[], [' ']]) :
    replaceUntil (gap ++ '(' :: (m.name.toList ++ [')'])) = gap ++ '(' :: (m.name.toList ++ [')']) := by
  simp only [List.mem_cons, List.not_mem_nil, or_false] at hgap
  rcases hgap with rfl | rfl <;> cases m <;> rfl

theorem replaceUntil_mode (op : Opcode) {ops : List Operand} (h : ∀ o ∈ ops, o.Plain) (hlose : losesUntil ops = false)
    (m : MulMode) : ∃ gap ∈ ["".toList, " ".toList], replaceUntil (bodyText op (ops ++ [modeOperand m])) =
      Operand.partsText (ops.map pieceText) ++ gap ++ '(' :: (m.name.toList ++ [')']) := by
  cases ops with
  | nil =>
    have hbody : bodyText op [modeOperand m] = (modeOperand m).text.toList := by simp [bodyText, operandsText]
    refine ⟨_, List.mem_cons_self, ?_⟩
    rw [List.nil_append, hbody, modeOperand_text]
    exact replaceUntil_paren m [] (by simp)
  | cons o rest =>
    obtain ⟨ho, hrest⟩ := List.forall_mem_cons.1 h
    refine ⟨" ".toList, by simp, ?_⟩
    have hcloses : ∀ o' ∈ rest.getLast?, Closes o' (' ' :: '(' :: (m.name.toList ++ [')'])) := by
      intro o' ho'
      refine .inr (.inr ⟨?_, _, rfl⟩)
      rw [losesUntil, Option.mem_def.1 ho'] at hlose
      exact hlose
    have hparen := replaceUntil_paren m [' '] (by simp)
    rw [List.cons_append, bodyText_cons op ho.noMode, operandsText_append op 1 hrest, operandsText_mode,
      replaceUntil_text_append ho, replaceUntil_more op hrest hcloses (Nat.le_refl 1), partsText_eq]
    rw [List.singleton_append] at hparen
    rw [hparen]
    simp

/-- Between a comma and a multiply mode, the label `UNTIL` is replaced by one more comma. -/
theorem replaceUntil_lost (op : Opcode) {o w : Operand} {rest : List Operand} (h : ∀ o' ∈ o :: rest, o'.Plain)
    (huntil : w.namesUntil = true) (m : MulMode) :
    replaceUntil (bodyText op (o :: rest ++ [w] ++ [modeOperand m])) =
      Operand.partsText ((o :: rest).map pieceText) ++ ",, ".toList ++ '(' :: (m.name.toList ++ [')']) := by
  obtain ⟨ho, hrest⟩ := List.forall_mem_cons.1 h
  obtain ⟨name, rfl, hname⟩ : ∃ name, w = .target (.label name) ∧ (name = "UNTIL" ∨ name = "until") := by
    unfold Operand.namesUntil at huntil
    split at huntil
    · next name => exact ⟨name, rfl, by simpa using huntil⟩
    · cases huntil
  have htail (pos : Nat) : (operandsText op pos ", " [.target (.label name), modeOperand m]).toList =
      ',' :: ' ' :: (name.toList ++ ' ' :: '(' :: (m.name.toList ++ [')'])) := by
    rw [operandsText_cons op pos rfl, String.toList_append, operandsText_mode]
    simp [jointText, Operand.text, Target.text]
  have hlost : replaceUntil (',' :: ' ' :: (name.toList ++ ' ' :: '(' :: (m.name.toList ++ [')']))) =
      ",, ".toList ++ '(' :: (m.name.toList ++ [')']) := by
    rcases hname with rfl | rfl <;> cases m <;> rfl
  have hcloses : ∀ o' ∈ rest.getLast?,
      Closes o' (',' :: ' ' :: (name.toList ++ ' ' :: '(' :: (m.name.toList ++ [')']))) :=
    fun _ _ => .inr (.inl ⟨_, rfl⟩)
  have hsplit : o :: rest ++ [.target (.label name)] ++ [modeOperand m] =
      o :: (rest ++ [.target (.label name), modeOperand m]) := by simp
  rw [hsplit, bodyText_cons op ho.noMode, operandsText_append op 1 hrest, htail, replaceUntil_text_append ho,
    replaceUntil_more op hrest hcloses (Nat.le_refl 1), hlost, partsText_eq]
  simp

/-! ### Between bars -/

/-- What can stand between the bars of a bundle, and at the end of a line. -/
structure BetweenBars (s : List Char) : Prop where
  ne : s ≠ []
  trimmed : Trimmed s
  bar : '|' ∉ s
  last : ∀ c ∈ s.getLast?, c ≠ ':'

theorem betweenBars_text {o : Operand} (h : o.Plain) : BetweenBars o.text.toList := by
  rcases h.cases with ⟨-, hlisted⟩ | ⟨name, rfl, hname⟩ | ⟨space, name, rfl, hchars⟩
  · exact ⟨hlisted.ne, hlisted.trimmed, hlisted.bar, fun c hc => (hlisted.last c hc).2⟩
  · have hpart := Operand.part_of_isName hname
    have hne := fun c hc => Operand.ne_of_isNameChar (d := ':') (Operand.forall_isNameChar hname c hc) (by decide)
    refine ⟨hpart.ne, hpart.trimmed, fun hbar => ?_, fun c hc => hne c (List.mem_of_getLast? hc)⟩
    exact Operand.ne_of_isNameChar (Operand.forall_isNameChar hname _ hbar) (by decide) rfl
  · rw [Operand.symbol_text]
    refine ⟨List.cons_ne_nil _ _, Operand.trimmed_memText space _, ?_, ?_⟩
    · exact Operand.notMem_memText space (by decide) fun hbar =>
        Operand.ne_of_symbolChar (hchars _ hbar) (by decide) rfl
    · rw [Operand.getLast?_memText]
      rintro _ ⟨⟩
      decide

theorem betweenBars_mode (m : MulMode) : BetweenBars (modeOperand m).text.toList := by
  cases m <;> exact ⟨by decide, ⟨by decide, by decide⟩, by decide, by decide⟩

theorem operandsText_step (op : Opcode) (pos : Nat) {sep : String} (hsep : '|' ∉ sep.toList) (o : Operand)
    (rest : List Operand) : ∃ gap sep' : String, '|' ∉ gap.toList ∧ '|' ∉ sep'.toList ∧
      operandsText op pos sep (o :: rest) = gap ++ o.text ++ operandsText op (pos + 1) sep' rest := by
  have hnext : ∃ gap sep' : String, '|' ∉ gap.toList ∧ '|' ∉ sep'.toList ∧
      sep ++ o.text ++ operandsText op (pos + 1) ", " rest = gap ++ o.text ++ operandsText op (pos + 1) sep' rest :=
    ⟨sep, ", ", hsep, by decide, rfl⟩
  cases o with
  | key k =>
    cases k with
    | mul m => exact ⟨" ", sep, by decide, hsep, rfl⟩
    | _ => exact hnext
  | cond c =>
    rw [operandsText]
    split
    · exact ⟨" UNTIL ", sep, by decide, hsep, rfl⟩
    · exact hnext
  | _ => exact hnext

/-- Neither a bar nor a new end comes from what stands among operands. -/
theorem operandsText_between (op : Opcode) (pos : Nat) (sep : String) (hsep : '|' ∉ sep.toList)
    {operands : List Operand} (hne : operands ≠ []) (h : ∀ o ∈ operands, BetweenBars o.text.toList) :
    '|' ∉ (operandsText op pos sep operands).toList ∧
      ∃ o ∈ operands, (operandsText op pos sep operands).toList.getLast? = o.text.toList.getLast? := by
  induction operands generalizing pos sep with
  | nil => exact absurd rfl hne
  | cons o rest ih =>
    obtain ⟨ho, hrest⟩ := List.forall_mem_cons.1 h
    obtain ⟨gap, sep', hgap, hsep', htext⟩ := operandsText_step op pos hsep o rest
    rw [htext, String.toList_append, String.toList_append]
    cases rest with
    | nil =>
      have hnil : (operandsText op (pos + 1) sep' []).toList = [] := rfl
      rw [hnil, List.append_nil, List.mem_append, List.getLast?_append_of_ne_nil _ ho.ne]
      exact ⟨fun hbar => hbar.elim hgap ho.bar, o, List.mem_cons_self, rfl⟩
    | cons o' rest =>
      obtain ⟨hbar, m, hm, hlast⟩ := ih (pos + 1) sep' hsep' (List.cons_ne_nil _ _) hrest
      have hback : (operandsText op (pos + 1) sep' (o' :: rest)).toList ≠ [] := by
        intro hnil
        rw [hnil] at hlast
        exact (hrest m hm).ne (List.getLast?_eq_none_iff.1 hlast.symm)
      rw [List.mem_append, List.mem_append, List.getLast?_append_of_ne_nil _ hback]
      refine ⟨?_, m, List.mem_cons_of_mem _ hm, hlast⟩
      rintro ((hbar' | hbar') | hbar')
      · exact hgap hbar'
      · exact ho.bar hbar'
      · exact hbar hbar'

theorem betweenBars_body (op : Opcode) {operands : List Operand} (hne : operands ≠ [])
    (h : ∀ o ∈ operands, BetweenBars o.text.toList) : BetweenBars (bodyText op operands) := by
  obtain ⟨hbar, m, hm, hlast⟩ := operandsText_between op 0 " " (by decide) hne h
  have hbody : bodyText op operands ≠ [] ∧ ∀ c ∈ (bodyText op operands).head?, isBlank c = false := by
    obtain ⟨o, rest, rfl⟩ := List.exists_cons_of_ne_nil hne
    obtain ⟨sep, htext, -⟩ := operandsText_first op o rest
    have ho := h o List.mem_cons_self
    have htail : bodyText op (o :: rest) = o.text.toList ++ (operandsText op 1 sep rest).toList := by
      rw [bodyText, htext]
      simp
    rw [htail, List.head?_append_of_ne_nil _ ho.ne]
    exact ⟨List.append_ne_nil_of_left_ne_nil ho.ne _, ho.trimmed.head⟩
  rw [operandsText_eq op hne, List.mem_cons, not_or] at hbar
  rw [operandsText_eq op hne, ← List.singleton_append, List.getLast?_append_of_ne_nil _ hbody.1] at hlast
  exact ⟨hbody.1, ⟨hbody.2, hlast ▸ (h m hm).trimmed.last⟩, hbar.2, hlast ▸ (h m hm).last⟩

end Instruction

end QuadDsp
