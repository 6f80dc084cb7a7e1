import QuadDsp.Proofs.Instruction.Body

/-! # Operands read back

Behind a mnemonic the reader of an operation takes a multiply mode off the end, in front of the last
parenthesis that opens, and cuts the rest at its commas. So it finds the operands again, but for three kinds of
names (`Instruction.readBody_iff`, `Instruction.misread`): to the ones that the word of a loop makes it lose or cut
comes a symbol at the end that a multiply mode has the name of (`readMode_symbol`). -/

namespace QuadDsp

open Text

namespace Instruction

/-! ### Multiply modes -/

theorem upper_name (m : MulMode) : upper m.name.toList = m.name.toList := by cases m <;> rfl

theorem notMem_name (m : MulMode) : ' ' ∉ m.name.toList ∧ ',' ∉ m.name.toList ∧ '(' ∉ m.name.toList := by
  cases m <;> decide

theorem splitLastParen_append {s t : List Char} (ht : '(' ∉ t) :
    splitLastParen (s ++ '(' :: t) = some (s, '(' :: t) := by
  have hbehind : (s ++ '(' :: t).reverse.takeWhile (· ≠ '(') = t.reverse := by
    have hnot : ∀ c ∈ t.reverse, decide (c ≠ '(') = true := by
      intro c hc
      rw [decide_eq_true_iff]
      rintro rfl
      exact ht (List.mem_reverse.1 hc)
    rw [List.reverse_append, List.reverse_cons, List.append_assoc, List.takeWhile_append_of_pos hnot]
    simp
  have hmem : '(' ∈ s ++ '(' :: t := by simp
  have hlength : (s ++ '(' :: t).length - t.reverse.length - 1 = s.length := by
    rw [List.length_append, List.length_cons, List.length_reverse]
    omega
  rw [splitLastParen, if_pos hmem, hbehind]
  dsimp only
  rw [hlength, List.take_left, List.reverse_reverse]

theorem exists_splitLastParen {s : List Char} (h : '(' ∈ s) :
    ∃ front behind, s = front ++ '(' :: behind ∧ '(' ∉ behind := by
  induction s with
  | nil => cases h
  | cons c cs ih =>
    by_cases hcs : '(' ∈ cs
    · obtain ⟨front, behind, rfl, hbehind⟩ := ih hcs
      exact ⟨c :: front, behind, rfl, hbehind⟩
    · obtain rfl : '(' = c := (List.mem_cons.1 h).resolve_right hcs
      exact ⟨[], cs, rfl, hcs⟩

/-- What is read as a multiply mode behind a parenthesis is its name, but for closing parentheses. -/
theorem name_of_read? {behind : List Char} (hparen : '(' ∉ behind) (htrimmed : Trimmed ('(' :: behind)) {m : MulMode}
    (h : Operand.read? ('(' :: behind) = some (.key (.mul m))) :
    dropEnd (· == ')') (upper behind) = m.name.toList := by
  have hkey : Operand.readKeyword? (upper ('(' :: behind)) = some (.mul m) := by
    have hform := Operand.form_of_read? h
    rw [trim_eq_self htrimmed] at hform
    cases hform with
    | key h => exact h
  have hbare : (upper ('(' :: behind)).dropWhile (· == '(') = upper behind := by
    have hhead : ∀ c ∈ (upper behind).head?, (c == '(') = false := by
      intro c hc
      obtain ⟨d, hd, rfl⟩ := List.mem_map.1 (List.mem_of_mem_head? hc)
      rw [beq_eq_false_iff_ne]
      intro hd'
      exact hparen (Operand.eq_of_toUpper hd' rfl ▸ hd)
    exact dropWhile_eq_self hhead
  rw [Operand.readKeyword?, hbare] at hkey
  split at hkey
  · cases hkey
  · rw [Option.or_eq_some_iff] at hkey
    rcases hkey with hkey | ⟨-, hkey⟩
    · obtain ⟨m', hm', ⟨⟩⟩ := Option.map_eq_some_iff.1 hkey
      have hm := List.find?_some hm'
      exact (eq_of_beq hm).symm
    · obtain ⟨_, _, ⟨⟩⟩ := Option.map_eq_some_iff.1 hkey

theorem read?_name {name : List Char} {m : MulMode} (h : upper name = m.name.toList) :
    Operand.read? ('(' :: (name ++ [')'])) = some (.key (.mul m)) := by
  have htrimmed : Trimmed ('(' :: (name ++ [')'])) := by
    have hlast : ('(' :: (name ++ [')'])).getLast? = some ')' := by
      rw [← List.cons_append, List.getLast?_concat]
    refine ⟨?_, ?_⟩
    · rintro _ ⟨⟩
      rfl
    · rw [hlast]
      rintro _ ⟨⟩
      rfl
  have hupper : upper ('(' :: (name ++ [')'])) = '(' :: (m.name.toList ++ [')']) := by
    rw [← h]
    simp [upper]
  rw [Operand.read?_of_readMem? (trim_eq_self htrimmed) (List.cons_ne_nil _ _) (fun c hc => by cases hc; decide)
    (by rw [hupper]; cases m <;> rfl), hupper]
  cases m <;> rfl

/-- Behind operands stands a multiply mode, or the reader leaves them alone. -/
theorem readMode_cases {s : List Char} (hlast : ∀ c ∈ s.getLast?, isBlank c = false) :
    readMode s = (s, none) ∨ ∃ front behind, ∃ m : MulMode, s = front ++ '(' :: behind ∧ '(' ∉ behind ∧
      dropEnd (· == ')') (upper behind) = m.name.toList := by
  by_cases hparen : '(' ∈ s
  · obtain ⟨front, behind, rfl, hbehind⟩ := exists_splitLastParen hparen
    have htrimmed : Trimmed ('(' :: behind) := by
      rw [List.getLast?_append_of_ne_nil _ (List.cons_ne_nil _ _)] at hlast
      refine ⟨?_, hlast⟩
      rintro _ ⟨⟩
      rfl
    rw [readMode, splitLastParen_append hbehind]
    dsimp only
    split
    · next m hread => exact .inr ⟨front, behind, m, rfl, hbehind, name_of_read? hbehind htrimmed hread⟩
    · exact .inl rfl
  · exact .inl (by rw [readMode, splitLastParen, if_neg hparen])

theorem readMode_append (s : List Char) {name : List Char} {m : MulMode} (h : upper name = m.name.toList) :
    readMode (s ++ '(' :: (name ++ [')'])) = (dropEnd (· == ',') (trimEnd s), some (.key (.mul m))) := by
  have hparen : '(' ∉ name ++ [')'] := by
    rw [List.mem_append, List.mem_singleton]
    rintro (hmem | hmem)
    · exact (notMem_name m).2.2 (h ▸ List.mem_map_of_mem (f := Char.toUpper) hmem)
    · cases hmem
  rw [readMode, splitLastParen_append hparen]
  dsimp only
  rw [read?_name h]

theorem front_eq_self {s t : List Char} (hs : ∀ c ∈ s.getLast?, isBlank c = false ∧ c ≠ ',')
    (ht : t ∈ ["".toList, " ".toList, ",, ".toList]) : dropEnd (· == ',') (trimEnd (s ++ t)) = s := by
  have hblank : trimEnd s = s := dropEnd_eq_self fun c hc => (hs c hc).1
  have hcomma : dropEnd (· == ',') s = s := dropEnd_eq_self fun c hc => beq_eq_false_iff_ne.2 (hs c hc).2
  have hcommas : dropEnd (· == ',') (s ++ [',', ',']) = s := by
    rw [List.append_cons, dropEnd_append_singleton rfl, dropEnd_append_singleton rfl, hcomma]
  have hend : trimEnd (s ++ [',', ',']) = s ++ [',', ','] := by
    refine dropEnd_eq_self fun c hc => ?_
    rw [List.getLast?_append_of_ne_nil _ (List.cons_ne_nil _ _)] at hc
    cases hc
    rfl
  simp only [List.mem_cons, List.not_mem_nil, or_false] at ht
  rcases ht with rfl | rfl | rfl
  · have hnil : s ++ "".toList = s := List.append_nil s
    rw [hnil, hblank, hcomma]
  · have hdrop : trimEnd (s ++ " ".toList) = trimEnd s := dropEnd_append_singleton rfl s
    rw [hdrop, hblank, hcomma]
  · have hdrop : trimEnd (s ++ ",, ".toList) = trimEnd (s ++ [',', ',']) := by
      have hsplit : s ++ ",, ".toList = (s ++ [',', ',']) ++ [' '] := by simp
      rw [hsplit]
      exact dropEnd_append_singleton rfl _
    rw [hdrop, hend, hcommas]

/-! ### What is read behind a mnemonic -/

theorem ne_paren_of_symbol {name : List Char} (h : ∀ c ∈ name, isBlank c = true ∨ Operand.isNameChar c = true) :
    ∀ c ∈ replaceUntil name, c ≠ '(' ∧ c ≠ ')' := by
  intro c hc
  rcases mem_of_mem_replaceUntil hc with hc | hc
  · exact ⟨Operand.ne_of_symbolChar (h c hc) (by decide), Operand.ne_of_symbolChar (h c hc) (by decide)⟩
  · have hboth : ∀ c ∈ [',', ' '], c ≠ '(' ∧ c ≠ ')' := by decide
    exact hboth c hc

theorem part_pieceText {o : Operand} (h : o.Plain) : Operand.Part (pieceText o) := by
  rcases h.cases with ⟨-, hlisted⟩ | ⟨name, rfl, hname⟩ | ⟨space, name, rfl, hchars⟩
  · rw [pieceText_of_listed hlisted]
    exact hlisted.toPart
  · rw [pieceText_label hname]
    exact Operand.part_of_isName hname
  · rw [pieceText_symbol]
    exact Operand.part_memText space (ne_paren_of_symbol hchars)

theorem last_pieceText {o : Operand} (h : o.Plain) : ∀ c ∈ (pieceText o).getLast?, isBlank c = false ∧ c ≠ ',' := by
  refine fun c hc => ⟨(part_pieceText h).trimmed.last c hc, ?_⟩
  rcases h.cases with ⟨-, hlisted⟩ | ⟨name, rfl, hname⟩ | ⟨space, name, rfl, -⟩
  · rw [pieceText_of_listed hlisted] at hc
    exact (hlisted.last c hc).1
  · rw [pieceText_label hname] at hc
    exact Operand.ne_of_isNameChar (Operand.forall_isNameChar hname c (List.mem_of_getLast? hc)) (by decide)
  · rw [pieceText_symbol, Operand.getLast?_memText] at hc
    cases hc
    decide

theorem read_pieceText_iff {o : Operand} (h : o.Plain) :
    Operand.read (pieceText o) = .ok o ↔ o.holdsUntil = false := by
  rcases h.cases with ⟨hspelled, hlisted⟩ | ⟨name, rfl, hname⟩ | ⟨space, name, rfl, hchars⟩
  · rw [pieceText_of_listed hlisted]
    exact iff_of_true h.read hspelled.unnamed.2.2
  · rw [pieceText_label hname]
    exact iff_of_true h.read rfl
  · rw [Operand.holdsUntil, decide_eq_false_iff_not]
    refine ⟨fun hread huntil => ?_, fun huntil => ?_⟩
    · rw [pieceText_symbol, Operand.read] at hread
      split at hread
      · next hsome =>
        cases hread
        have hcomma := Operand.chars_of_symbol hsome ',' (comma_mem_replaceUntil huntil)
        exact Operand.ne_of_symbolChar hcomma (by decide) rfl
      · cases hread
    · have hself : pieceText (.mem ⟨space, .symbol name⟩) = (Operand.mem ⟨space, .symbol name⟩).text.toList := by
        rw [pieceText_symbol, replaceUntil_of_not_hasUntil huntil, Operand.symbol_text]
      rw [hself, h.read]

theorem readList_pieces_iff {ops : List Operand} (h : ∀ o ∈ ops, o.Plain) :
    Operand.readList (Operand.partsText (ops.map pieceText)) = .ok ops ↔ ops.any Operand.holdsUntil = false := by
  rw [Operand.readList_parts (List.forall_mem_map.2 fun o ho => part_pieceText (h o ho)), mapM_eq_ok_iff,
    List.forall₂_map_left_iff, List.forall₂_same, List.any_eq_false]
  exact forall₂_congr fun o ho => (read_pieceText_iff (h o ho)).trans Bool.eq_false_iff

theorem length_of_readList_pieces {ops ops' : List Operand} (h : ∀ o ∈ ops, o.Plain)
    (hread : Operand.readList (Operand.partsText (ops.map pieceText)) = .ok ops') : ops'.length = ops.length := by
  rw [Operand.readList_parts (List.forall_mem_map.2 fun o ho => part_pieceText (h o ho)), mapM_eq_ok_iff,
    List.forall₂_map_left_iff] at hread
  exact hread.length_eq.symm

theorem last_pieces {ops : List Operand} (h : ∀ o ∈ ops, o.Plain) :
    ∀ c ∈ (Operand.partsText (ops.map pieceText)).getLast?, isBlank c = false ∧ c ≠ ',' := by
  rcases List.eq_nil_or_concat ops with rfl | ⟨init, o, rfl⟩
  · exact fun c hc => by cases hc
  · have ho : o.Plain := h o (by simp)
    obtain ⟨front, hfront, -⟩ := Operand.partsText_concat (init.map pieceText) (pieceText o)
    rw [List.concat_eq_append, List.map_append, List.map_singleton, hfront,
      List.getLast?_append_of_ne_nil _ (part_pieceText ho).ne]
    exact last_pieceText ho

theorem readMode_mode (op : Opcode) {ops : List Operand} (h : ∀ o ∈ ops, o.Plain) (hlose : losesUntil ops = false)
    (m : MulMode) : readMode (replaceUntil (bodyText op (ops ++ [modeOperand m]))) =
      (Operand.partsText (ops.map pieceText), some (modeOperand m)) := by
  obtain ⟨gap, hgap, hbody⟩ := replaceUntil_mode op h hlose m
  rw [hbody, readMode_append _ (upper_name m), front_eq_self (last_pieces h) (List.mem_append_left [",, ".toList] hgap)]

theorem readMode_lost (op : Opcode) {o w : Operand} {rest : List Operand} (h : ∀ o' ∈ o :: rest, o'.Plain)
    (huntil : w.namesUntil = true) (m : MulMode) :
    readMode (replaceUntil (bodyText op (o :: rest ++ [w] ++ [modeOperand m]))) =
      (Operand.partsText ((o :: rest).map pieceText), some (modeOperand m)) := by
  rw [replaceUntil_lost op h huntil, readMode_append _ (upper_name m), front_eq_self (last_pieces h) (by simp)]

/-- What a multiply mode is named, for capitals and parentheses, is in the last part of a list. -/
theorem exists_of_mode {parts : List (List Char)} {s front behind : List Char} {m : MulMode}
    (hsplit : Operand.partsText (parts ++ [s]) = front ++ '(' :: behind)
    (hname : dropEnd (· == ')') (upper behind) = m.name.toList) : ∃ u, s = u ++ '(' :: behind := by
  have hblank : ' ' ∉ behind := by
    intro hmem
    have hup : ' ' ∈ dropEnd (· == ')') (upper behind) := mem_dropEnd rfl (List.mem_map.2 ⟨' ', hmem, rfl⟩)
    exact (notMem_name m).1 (hname ▸ hup)
  obtain ⟨init, hinit, hlast⟩ := Operand.partsText_concat parts s
  rcases List.append_eq_append_iff.1 (hinit.symm.trans hsplit) with ⟨u, rfl, hu⟩ | ⟨u, rfl, hu⟩
  · exact ⟨u, hu⟩
  · cases u with
    | nil => exact ⟨[], hu.symm⟩
    | cons c u =>
      obtain ⟨rfl, rfl⟩ := List.cons.inj hu
      rw [List.getLast?_append_of_ne_nil _ (List.cons_ne_nil _ _)] at hlast
      have hend := List.getLast?_eq_some_getLast (List.cons_ne_nil '(' u)
      have hspace := hlast _ hend
      rcases List.mem_cons.1 (List.getLast_mem (List.cons_ne_nil '(' u)) with hmem | hmem
      · rw [hspace] at hmem
        cases hmem
      · rw [hspace] at hmem
        exact absurd (List.mem_append_left _ hmem) hblank

theorem startsMode_of_name {behind : List Char} {m : MulMode}
    (h : dropEnd (· == ')') (upper behind) = m.name.toList) :
    ∃ c cs, behind = c :: cs ∧ Operand.startsMode c = true := by
  obtain ⟨c, cs, hc, hstart⟩ : ∃ c cs, m.name.toList = c :: cs ∧ c ∈ ['S', 'U', 'R'] := by
    cases m <;> exact ⟨_, _, rfl, by decide⟩
  have hfirst : c :: cs <+: upper behind := by
    rw [← hc, ← h]
    exact dropEnd_prefix _ _
  cases behind with
  | nil => cases List.prefix_nil.1 hfirst
  | cons d ds =>
    obtain ⟨rfl, -⟩ := List.cons_prefix_cons.1 hfirst
    exact ⟨d, ds, rfl, decide_eq_true hstart⟩

theorem namesMode_symbol_iff {space : Space} {name : String} :
    (Operand.mem ⟨space, .symbol name⟩).namesMode = true ↔ ∃ m : MulMode, upper name.toList = m.name.toList := by
  have hall (m : MulMode) : m ∈ MulMode.all := by cases m <;> decide
  simp [Operand.namesMode, hall]

theorem behind_of_memText {space : Space} {inner u behind : List Char} (hinner : '(' ∉ inner) (hparen : '(' ∉ behind)
    (h : Operand.memText space inner = u ++ '(' :: behind) : behind = inner ++ [')'] := by
  have hnot : '(' ∉ inner ++ [')'] := by simpa using hinner
  have hback := splitLastParen_append (s := [Operand.spaceLetter space, 'M']) hnot
  have hfront := splitLastParen_append (s := u) hparen
  rw [← h] at hfront
  exact (List.cons.inj (Prod.mk.inj (Option.some.inj (hfront.symm.trans hback))).2).2

theorem dropEnd_upper {inner : List Char} (h : ')' ∉ inner) :
    dropEnd (· == ')') (upper (inner ++ [')'])) = upper inner := by
  have happend : upper (inner ++ [')']) = upper inner ++ [')'] := List.map_append
  rw [happend, dropEnd_append_singleton rfl, dropEnd_eq_self]
  intro c hc
  obtain ⟨d, hd, rfl⟩ := List.mem_map.1 (List.mem_of_getLast? hc)
  rw [beq_eq_false_iff_ne]
  exact fun hd' => h (Operand.eq_of_toUpper hd' rfl ▸ hd)

/-- Only a symbol that has its name can be taken for a multiply mode. -/
theorem namesMode_of_pieceText {o : Operand} (h : o.Plain) {u behind : List Char} (hparen : '(' ∉ behind)
    (hsplit : pieceText o = u ++ '(' :: behind) {m : MulMode}
    (hname : dropEnd (· == ')') (upper behind) = m.name.toList) : o.namesMode = true := by
  rcases h.cases with ⟨-, hlisted⟩ | ⟨name, rfl, hlabel⟩ | ⟨space, name, rfl, hchars⟩
  · obtain ⟨c, cs, rfl, hstart⟩ := startsMode_of_name hname
    have hparen := hlisted.paren
    rw [← pieceText_of_listed hlisted, hsplit] at hparen
    have hno := head_of_followed hparen
    rw [hstart] at hno
    cases hno
  · rw [pieceText_label hlabel] at hsplit
    have hmem : '(' ∈ name.toList := by
      rw [hsplit]
      simp
    exact absurd rfl (Operand.ne_of_isNameChar (Operand.forall_isNameChar hlabel _ hmem) (by decide))
  · have hinner := ne_paren_of_symbol hchars
    rw [pieceText_symbol] at hsplit
    obtain rfl := behind_of_memText (fun hmem => (hinner _ hmem).1 rfl) hparen hsplit
    rw [dropEnd_upper fun hmem => (hinner _ hmem).2 rfl] at hname
    -- a comma that the word of a loop left behind is in no mode
    have huntil : ¬Operand.HasUntil name.toList := by
      intro huntil
      have hcomma := List.mem_map_of_mem (f := Char.toUpper) (comma_mem_replaceUntil huntil)
      exact (notMem_name m).2.1 (hname ▸ hcomma)
    rw [replaceUntil_of_not_hasUntil huntil] at hname
    exact namesMode_symbol_iff.2 ⟨m, hname⟩

theorem readMode_list (op : Opcode) {ops : List Operand} (h : ∀ o ∈ ops, o.Plain)
    (hmode : ops.getLast?.any Operand.namesMode = false) :
    readMode (replaceUntil (bodyText op ops)) = (Operand.partsText (ops.map pieceText), none) := by
  rw [replaceUntil_list op h]
  rcases readMode_cases fun c hc => (last_pieces h c hc).1 with hnone | ⟨front, behind, m, hsplit, hparen, hname⟩
  · exact hnone
  · exfalso
    rcases List.eq_nil_or_concat ops with rfl | ⟨init, o, rfl⟩
    · simp [Operand.partsText] at hsplit
    · rw [List.concat_eq_append, List.map_append, List.map_singleton] at hsplit
      obtain ⟨u, hu⟩ := exists_of_mode hsplit hname
      have htrue := namesMode_of_pieceText (h o (by simp)) hparen hu hname
      rw [List.concat_eq_append, List.getLast?_concat] at hmode
      exact Bool.false_ne_true (hmode.symm.trans htrue)

/-- A symbol at the end that a multiply mode has the name of is taken for the mode. -/
theorem readMode_symbol (op : Opcode) {ops : List Operand} (h : ∀ o ∈ ops, o.Plain)
    (hmode : ops.getLast?.any Operand.namesMode = true) :
    ∃ list m, readMode (replaceUntil (bodyText op ops)) = (list, some (modeOperand m)) := by
  rw [replaceUntil_list op h]
  rcases List.eq_nil_or_concat ops with rfl | ⟨init, o, rfl⟩
  · cases hmode
  · rw [List.concat_eq_append, List.getLast?_concat] at hmode
    have hmode : o.namesMode = true := hmode
    obtain ⟨space, name, rfl⟩ : ∃ space name, o = .mem ⟨space, .symbol name⟩ := by
      unfold Operand.namesMode at hmode
      split at hmode
      · exact ⟨_, _, rfl⟩
      · cases hmode
    obtain ⟨m, hname⟩ := namesMode_symbol_iff.1 hmode
    have huntil : ¬Operand.HasUntil name.toList := by
      intro huntil
      have hblank : ' ' ∈ name.toList := by rcases huntil with h | h <;> exact h.subset (by decide)
      exact (notMem_name m).1 (hname ▸ List.mem_map_of_mem (f := Char.toUpper) hblank)
    obtain ⟨front, hfront, -⟩ :=
      Operand.partsText_concat (init.map pieceText) (pieceText (.mem ⟨space, .symbol name⟩))
    have hsplit : front ++ Operand.memText space name.toList =
        (front ++ [Operand.spaceLetter space, 'M']) ++ '(' :: (name.toList ++ [')']) := by
      simp [Operand.memText]
    rw [List.concat_eq_append, List.map_append, List.map_singleton, hfront, pieceText_symbol,
      replaceUntil_of_not_hasUntil huntil, hsplit, readMode_append _ hname]
    exact ⟨_, m, rfl⟩

/-! ### Operands in order -/

/-- Operands as an assembler takes them: legible ones, and behind them at most one multiply mode. -/
inductive InOrder : List Operand → Prop
  | list {ops : List Operand} (h : ∀ o ∈ ops, o.Plain) : InOrder ops
  | mode {ops : List Operand} (h : ∀ o ∈ ops, o.Plain) (m : MulMode) : InOrder (ops ++ [modeOperand m])

theorem InOrder.betweenBars {operands : List Operand} (h : InOrder operands) :
    ∀ o ∈ operands, BetweenBars o.text.toList := by
  cases h with
  | list h => exact fun o ho => betweenBars_text (h o ho)
  | mode h m =>
    rw [List.forall_mem_append, List.forall_mem_singleton]
    exact ⟨fun o ho => betweenBars_text (h o ho), betweenBars_mode m⟩

/-- A name among the operands is taken for something else: a symbol at the end for a multiply mode, a label in front
of a multiply mode for the word of a loop, or a part of a symbol for that word. -/
def misread (operands : List Operand) : Bool :=
  operands.getLast?.any Operand.namesMode ||
    operands.getLast?.any Operand.isMulMode && losesUntil operands.dropLast || operands.any Operand.holdsUntil

theorem any_getLast? {p : Operand → Bool} {operands : List Operand} (h : ∀ o ∈ operands, p o = false) :
    operands.getLast?.any p = false := by
  cases hlast : operands.getLast? with
  | none => rfl
  | some o => exact h o (List.mem_of_getLast? hlast)

/-- What the reader makes of the text behind a mnemonic. -/
def readBody (body : List Char) : Except OperandError (List Operand) :=
  let (list, mode) := readMode (replaceUntil body)
  (Operand.readList list).map (· ++ mode.toList)

/-- Operands in order are read as what they are, unless a name is misread. -/
theorem readBody_iff (op : Opcode) {operands : List Operand} (h : InOrder operands) :
    readBody (bodyText op operands) = .ok operands ↔ misread operands = false := by
  cases h with
  | list h =>
    -- a mode that was never written stands where the symbol was
    have hnomode : operands.getLast?.any Operand.isMulMode = false := any_getLast? fun o ho => (h o ho).noMode
    by_cases hmode : operands.getLast?.any Operand.namesMode = true
    · obtain ⟨list, m, hread⟩ := readMode_symbol op h hmode
      refine iff_of_false (fun hbody => ?_) (by simp [misread, hmode])
      rw [readBody, hread] at hbody
      obtain ⟨ops, -, rfl⟩ := map_eq_ok_iff.1 hbody
      rw [Option.toList_some, List.getLast?_concat] at hmode
      cases hmode
    · rw [Bool.not_eq_true] at hmode
      have hmisread : misread operands = operands.any Operand.holdsUntil := by simp [misread, hmode, hnomode]
      rw [hmisread, ← readList_pieces_iff h, readBody, readMode_list op h hmode]
      simp [map_eq_ok_iff]
  | @mode ops h m =>
    have hmisread : misread (ops ++ [modeOperand m]) = (losesUntil ops || ops.any Operand.holdsUntil) := by
      simp [misread, Operand.namesMode, Operand.isMulMode, Operand.holdsUntil]
    rw [hmisread]
    -- without its label the list is too short
    by_cases hlose : losesUntil ops = true
    · obtain ⟨o, rest, w, rfl, huntil⟩ := exists_of_losesUntil hlose
      have hfront : ∀ o' ∈ o :: rest, o'.Plain := fun o' ho' => h o' (List.mem_append_left [w] ho')
      refine iff_of_false (fun hbody => ?_) (by rw [hlose]; simp)
      rw [readBody, readMode_lost op hfront huntil] at hbody
      obtain ⟨ops', hread, heq⟩ := map_eq_ok_iff.1 hbody
      have hlength := congrArg List.length heq
      simp [length_of_readList_pieces hfront hread] at hlength
    · rw [Bool.not_eq_true] at hlose
      rw [hlose, Bool.false_or, ← readList_pieces_iff h, readBody, readMode_mode op h hlose]
      simp [map_eq_ok_iff]

end Instruction

end QuadDsp
