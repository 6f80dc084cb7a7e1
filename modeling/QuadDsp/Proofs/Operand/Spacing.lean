import QuadDsp.Proofs.Operand.Integers

/-! # Spaces in memory references

A memory reference is read from its text without spaces, so it reads the same with any others, as long as it holds no
symbol (`Operand.read?_of_refers`). The name of a symbol alone is taken out of the text as it stands, behind the third
character. That is the name between the parentheses only where no space stands in front of them or in the name
(`Operand.respaced_iff`). -/

namespace QuadDsp

namespace Text

variable {s t : List Char}

/-! ### Texts without their spaces -/

/-- A text without its spaces. -/
def unspaced (s : List Char) : List Char := s.filter (· ≠ ' ')

theorem unspaced_eq_self (h : ' ' ∉ s) : unspaced s = s :=
  List.filter_eq_self.2 fun _ hc => decide_eq_true fun heq => h (heq ▸ hc)

theorem unspaced_append (s t : List Char) : unspaced (s ++ t) = unspaced s ++ unspaced t := List.filter_append s t

theorem unspaced_cons {c : Char} (hc : c ≠ ' ') (s : List Char) : unspaced (c :: s) = c :: unspaced s :=
  List.filter_cons_of_pos (decide_eq_true hc)

theorem mem_unspaced {c : Char} : c ∈ unspaced s ↔ c ∈ s ∧ c ≠ ' ' := by
  rw [unspaced, List.mem_filter, decide_eq_true_eq]

theorem toUpper_eq_space {c : Char} : c.toUpper = ' ' ↔ c = ' ' :=
  ⟨fun h => Operand.eq_of_toUpper h rfl, fun h => by rw [h]; rfl⟩

theorem unspaced_upper (s : List Char) : unspaced (upper s) = upper (unspaced s) := by
  rw [unspaced, upper, List.filter_map]
  refine congrArg (List.map Char.toUpper) (List.filter_congr fun c _ => ?_)
  exact decide_eq_decide.2 (not_congr toUpper_eq_space)

theorem trim_upper (s : List Char) : trim (upper s) = upper (trim s) := by
  have hblank : isBlank ∘ Char.toUpper = isBlank := funext isBlank_toUpper
  unfold trim trimStart trimEnd dropEnd upper
  rw [List.dropWhile_map, hblank, ← List.map_reverse, List.dropWhile_map, hblank, List.map_reverse]

/-- Spaces are blanks, so it is the same to take them out before or after the blanks at the ends. -/
theorem trim_unspaced (s : List Char) : trim (unspaced s) = unspaced (trim s) := by
  have hblank (c : Char) : (!decide (c ≠ ' ') || isBlank c) = isBlank c := by
    by_cases hc : c = ' '
    · rw [hc]
      rfl
    · rw [decide_eq_true hc]
      rfl
  unfold trim trimStart trimEnd dropEnd unspaced
  rw [List.dropWhile_filter, ← List.filter_reverse, List.dropWhile_filter, ← List.filter_reverse]
  simp only [hblank]

theorem head?_dropWhile {p : Char → Bool} : ∀ c ∈ (s.dropWhile p).head?, p c = false := by
  intro c hc
  have hnot := List.head?_dropWhile_not p s
  rwa [Option.mem_def.1 hc] at hnot

theorem trimmed_trim (s : List Char) : Trimmed (trim s) := by
  refine ⟨fun c hc => head?_dropWhile (s := s) c ?_, fun c hc => ?_⟩
  · obtain ⟨rest, hrest⟩ := dropEnd_prefix isBlank (trimStart s)
    rw [trimStart] at hrest
    rw [← hrest, List.head?_append, ← trimStart, ← trimEnd, ← trim, Option.mem_def.1 hc]
    rfl
  · rw [trim, trimEnd, dropEnd, List.getLast?_reverse] at hc
    exact head?_dropWhile c hc

theorem cut_filter {p q : Char → Bool} (h : ∀ c, p c = true → q c = true) (s : List Char) :
    cut p (s.filter q) = (cut p s).map (·.filter q) := by
  induction s with
  | nil => rfl
  | cons c cs ih =>
    rw [cut, List.filter_cons]
    split
    · next hq =>
      rw [cut]
      split
      · rw [ih, List.map_cons, List.filter_nil]
      · obtain ⟨piece, rest, hcut⟩ := List.exists_cons_of_ne_nil (cut_ne_nil p cs)
        rw [ih, hcut, consFirst, List.map_cons, List.map_cons, consFirst, List.filter_cons_of_pos hq]
    · next hq =>
      rw [if_neg fun hp => hq (h c hp), ih]
      obtain ⟨piece, rest, hcut⟩ := List.exists_cons_of_ne_nil (cut_ne_nil p cs)
      rw [hcut, consFirst, List.map_cons, List.map_cons, List.filter_cons_of_neg hq]

theorem cut_map {p : Char → Bool} {f : Char → Char} (h : ∀ c, p (f c) = p c) (s : List Char) :
    cut p (s.map f) = (cut p s).map (·.map f) := by
  induction s with
  | nil => rfl
  | cons c cs ih =>
    rw [List.map_cons, cut, cut, h, ih]
    split
    · rw [List.map_cons, List.map_nil]
    · obtain ⟨piece, rest, hcut⟩ := List.exists_cons_of_ne_nil (cut_ne_nil p cs)
      rw [hcut, List.map_cons, consFirst, consFirst, List.map_cons, List.map_cons]

theorem mem_intercalate_words {c : Char} (hc : isBlank c = false) (h : c ∈ s) : c ∈ [' '].intercalate (words s) := by
  have hjoin {pieces : List (List Char)} {piece : List Char} (hpiece : piece ∈ pieces) (hc : c ∈ piece) :
      c ∈ [' '].intercalate pieces := by
    induction pieces with
    | nil => cases hpiece
    | cons head rest ih =>
      cases rest with
      | nil =>
        cases List.mem_singleton.1 hpiece
        simpa using hc
      | cons next rest =>
        rw [List.intercalate_cons_cons]
        rcases List.mem_cons.1 hpiece with rfl | hpiece
        · exact List.mem_append_left _ (List.mem_append_left _ hc)
        · exact List.mem_append_right _ (ih hpiece)
  have hflatten : c ∈ (cut isBlank s).flatten := by
    rw [flatten_cut]
    exact List.mem_filter.2 ⟨h, by rw [hc]; rfl⟩
  obtain ⟨piece, hpiece, hmem⟩ := List.mem_flatten.1 hflatten
  exact hjoin (List.mem_filter.2 ⟨hpiece, decide_eq_true (List.ne_nil_of_mem hmem)⟩) hmem

end Text

namespace Operand

open Text

variable {s t inner token : List Char} {space : Space} {mode : AddrMode} {ref : MemRef}

/-! ### References -/

theorem readMem?_eq_some_iff :
    readMem? s = some ⟨space, mode⟩ ↔ ∃ inner, s = memText space inner ∧ readMode? inner = some mode := by
  constructor
  · intro h
    unfold readMem? at h
    have hrefers {space' : Space} {rest : List Char}
        (h : ([')'].isSuffixOf? rest).bind
          (fun inner => (readMode? inner).bind fun mode => some (MemRef.mk space' mode)) = some ⟨space, mode⟩) :
        ∃ inner, spaceLetter space' :: 'M' :: '(' :: rest = memText space inner ∧ readMode? inner = some mode := by
      obtain ⟨inner, hinner, h⟩ := Option.bind_eq_some_iff.1 h
      obtain ⟨mode', hmode, heq⟩ := Option.bind_eq_some_iff.1 h
      cases heq
      rw [List.isSuffixOf?_eq_some_iff_append_eq] at hinner
      exact ⟨inner, congrArg (spaceLetter space :: 'M' :: '(' :: ·) hinner.symm, hmode⟩
    split at h
    · exact hrefers h
    · exact hrefers h
    · cases h
  · rintro ⟨inner, rfl, hmode⟩
    rw [readMem?_memText, hmode]
    rfl

/-- The token is the name of a space in front of parentheses, with any spaces in it. -/
def Refers (space : Space) (inner token : List Char) : Prop :=
  ∃ head, trim token = head ++ '(' :: (inner ++ [')']) ∧ upper (unspaced head) = [spaceLetter space, 'M']

theorem Refers.unspaced_eq (h : Refers space inner token) :
    unspaced (upper (trim token)) = memText space (unspaced (upper inner)) := by
  obtain ⟨head, htoken, hhead⟩ := h
  have hopen : upper ('(' :: (inner ++ [')'])) = '(' :: (upper inner ++ [')']) := by simp [upper]
  have hclose : unspaced [')'] = [')'] := rfl
  rw [htoken, upper, List.map_append, ← upper, ← upper, hopen, unspaced_append, unspaced_upper head, hhead,
    unspaced_cons (by decide), unspaced_append, hclose]
  rfl

/-- What is a reference without spaces and in capitals is one. -/
theorem exists_refers {inner' : List Char} (h : unspaced (upper (trim token)) = memText space inner') :
    ∃ inner, Refers space inner token ∧ unspaced (upper inner) = inner' := by
  have hmem : '(' ∈ upper (trim token) := (mem_unspaced.1 (h ▸ by simp [memText])).1
  obtain ⟨c, hc, hopen⟩ := List.mem_map.1 hmem
  obtain rfl : c = '(' := eq_of_toUpper hopen rfl
  obtain ⟨head, rest, hraw, hhead⟩ := List.eq_append_cons_of_mem hc
  -- both texts are split where their first parenthesis opens
  have hhead' : ∀ c ∈ upper (unspaced head), (c == '(') = false := fun d hd => by
    obtain ⟨c, hc, rfl⟩ := List.mem_map.1 hd
    refine beq_eq_false_iff_ne.2 fun hopen => hhead ?_
    exact eq_of_toUpper hopen rfl ▸ (mem_unspaced.1 hc).1
  have hname : ∀ c ∈ [spaceLetter space, 'M'], (c == '(') = false := by cases space <;> decide
  have hsplit : upper (unspaced head) ++ '(' :: upper (unspaced rest) =
      [spaceLetter space, 'M'] ++ '(' :: (inner' ++ [')']) := by
    refine Eq.trans ?_ h
    rw [unspaced_upper, hraw, unspaced_append, unspaced_cons (by decide), upper, upper, upper, List.map_append]
    rfl
  have hsplit' := congrArg (splitFirst (· == '(')) hsplit
  rw [splitFirst_append hhead' rfl, splitFirst_append hname rfl, Option.some.injEq, Prod.mk.injEq] at hsplit'
  obtain ⟨hspace, hrest⟩ := hsplit'
  rcases List.eq_nil_or_concat rest with rfl | ⟨inner, last, rfl⟩
  · simp [unspaced, upper] at hrest
  · have hblank : isBlank last = false := by
      refine (trimmed_trim token).last last ?_
      rw [hraw, List.concat_eq_append, ← List.cons_append, ← List.append_assoc, List.getLast?_concat]
      rfl
    have hlast : last ≠ ' ' := by
      rintro rfl
      cases hblank
    rw [List.concat_eq_append, unspaced_append, unspaced_cons hlast, upper, List.map_append] at hrest
    obtain ⟨hinner, hclose⟩ := List.append_inj' hrest rfl
    obtain rfl : last = ')' := eq_of_toUpper (List.cons.inj hclose).1 rfl
    rw [List.concat_eq_append] at hraw
    exact ⟨inner, ⟨head, hraw, hspace⟩, by rw [unspaced_upper]; exact hinner⟩

/-! ### Tokens that are no word -/

section NoWord

variable {c x : Char} {cs : List Char}

theorem toUpper_of_isAlpha (h : x.isAlpha = false) : x.toUpper = x := by
  unfold Char.isAlpha at h
  rw [Bool.or_eq_false_iff] at h
  unfold Char.toUpper
  refine dif_neg fun hlower => ?_
  unfold Char.isLower at h
  rw [decide_eq_true hlower.1, decide_eq_true hlower.2] at h
  cases h.2

theorem not_isUpper_of_isAlpha (h : x.isAlpha = false) : x.isUpper = false := by
  unfold Char.isAlpha at h
  rw [Bool.or_eq_false_iff] at h
  exact h.1

theorem ne_of_isAlpha {name : List Char} (hx : x ∈ s) (hword : x.isAlpha = false)
    (hname : ∀ d ∈ name, d.isUpper = true) :
    name ≠ s := by
  rintro rfl
  have hupper := hname x hx
  rw [not_isUpper_of_isAlpha hword] at hupper
  cases hupper

theorem readSys?_eq_none (hx : x ∈ s) (hword : x.isAlpha = false) : readSys? s = none := by
  refine List.find?_eq_none.2 fun r _ hname => ?_
  exact ne_of_isAlpha hx hword (by cases r <;> decide) (eq_of_beq hname)

theorem readKeyword?_eq_none (hhead : ∀ c ∈ s.head?, c ≠ '(') (hx : x ∈ s) (hword : x.isAlpha = false)
    (hclose : x ≠ ')') : readKeyword? s = none := by
  have hbare : x ∈ dropEnd (· == ')') (s.dropWhile (· == '(')) := by
    rw [dropWhile_eq_self fun c hc => beq_eq_false_iff_ne.2 (hhead c hc)]
    exact mem_dropEnd (beq_eq_false_iff_ne.2 hclose) hx
  have hsts : "STS".toList ≠ dropEnd (· == ')') (s.dropWhile (· == '(')) := ne_of_isAlpha hbare hword (by decide)
  have hmul : MulMode.all.find? (·.name.toList == dropEnd (· == ')') (s.dropWhile (· == '('))) = none := by
    refine List.find?_eq_none.2 fun m _ hname => ?_
    exact ne_of_isAlpha hbare hword (by cases m <;> decide) (eq_of_beq hname)
  have hbit : ModeBit.all.find? (·.name.toList == dropEnd (· == ')') (s.dropWhile (· == '('))) = none := by
    refine List.find?_eq_none.2 fun b _ hname => ?_
    exact ne_of_isAlpha hbare hword (by cases b <;> decide) (eq_of_beq hname)
  unfold readKeyword?
  dsimp only
  rw [if_neg fun h => hsts (eq_of_beq h).symm, hmul, hbit]
  rfl

theorem ofName?_eq_none (hx : x ∈ s) (hword : x.isAlpha = false) (hblank : isBlank x = false) :
    Condition.ofName? s = none := by
  refine List.find?_eq_none.2 fun cond _ hsame => ?_
  have hname : ∀ d ∈ upper cond.name.toList, d = ' ' ∨ d.isUpper = true := by cases cond <;> decide
  have hmem : x ∈ upper cond.name.toList := by
    rw [eq_of_beq hsame, ← toUpper_of_isAlpha hword]
    exact List.mem_map_of_mem (mem_intercalate_words hblank hx)
  rcases hname x hmem with rfl | hupper
  · cases hblank
  · rw [not_isUpper_of_isAlpha hword] at hupper
    cases hupper

theorem readView?_of_head (h : c ∉ ['A', 'C', 'R', 'I', 'M', 'L', 'B']) : read?.readView? (c :: cs) = none := by
  rw [read?.readView?]
  cases hsplit : splitFirst (· == '.') (c :: cs) with
  | none => rfl
  | some parts =>
    obtain ⟨acc, part⟩ := parts
    have hacc : acc = (c :: cs).takeWhile (!· == '.') := by
      unfold splitFirst at hsplit
      split at hsplit <;> cases hsplit
      rfl
    have hreg : readReg? acc = none := by
      rw [hacc, List.takeWhile_cons]
      split
      · exact readReg?_of_head h
      · rfl
    simp [hreg]

/-- A token that starts no other form and has a character that no word has is an address or a label. -/
theorem read?_eq_readTarget? (hraw : trim token = c :: cs) (hhash : c ≠ '#')
    (hhead : c.toUpper ∉ ['A', 'C', 'R', 'I', 'M', 'L', 'B', '(']) (hmem : readMem? (unspaced (upper (c :: cs))) = none)
    (hx : x ∈ c :: cs) (hword : x.isAlpha = false) (hblank : isBlank x = false) (hclose : x ≠ ')') :
    read? token = read?.readTarget? (c :: cs) := by
  have hparen : c.toUpper ≠ '(' := fun h => hhead (by simp [h])
  have hregister : c.toUpper ∉ ['A', 'C', 'R', 'I', 'M', 'L', 'B'] := fun h => hhead (List.mem_append_left ['('] h)
  have hx' : x ∈ upper (c :: cs) := by
    rw [← toUpper_of_isAlpha hword]
    exact List.mem_map_of_mem hx
  have hhead' : ∀ d ∈ (upper (c :: cs)).head?, d ≠ '(' := by
    rintro _ ⟨⟩
    exact hparen
  have hindirect : read?.readIndirect? (upper (c :: cs)) = none := by
    have hprefix : ['('].isPrefixOf? (upper (c :: cs)) = none := by
      simp [upper, List.isPrefixOf?, Ne.symm hparen]
    rw [read?.readIndirect?, hprefix]
    rfl
  rw [read?_of_readMem? hraw (List.cons_ne_nil _ _) (by rintro _ ⟨⟩; exact hhash) hmem, hindirect,
    readSys?_eq_none hx' hword, readKeyword?_eq_none hhead' hx' hword hclose, ofName?_eq_none hx' hword hblank]
  rw [upper, List.map_cons, readView?_of_head hregister, readReg?_of_head hregister]
  rfl

end NoWord

/-! ### Reading references -/

/-- What stands behind the third character, up to the closing parenthesis. -/
def cutName (token : List Char) : List Char := trim ((trim token).drop 3).dropLast

/-- The name of a symbol is taken from the token as it stands. -/
def named (token : List Char) : AddrMode → AddrMode
  | .symbol _ => .symbol (String.ofList (cutName token))
  | mode => mode

theorem Refers.head (h : Refers space inner token) :
    ∃ c cs, trim token = c :: cs ∧ c.toUpper = spaceLetter space ∧ '(' ∈ c :: cs := by
  obtain ⟨head, htoken, hhead⟩ := h
  have hopen : '(' ∈ trim token := by simp [htoken]
  cases head with
  | nil => cases hhead
  | cons c head =>
    have hblank : isBlank c = false := (trimmed_trim token).head c (by simp [htoken])
    have hspace : c ≠ ' ' := by
      rintro rfl
      cases hblank
    rw [unspaced_cons hspace] at hhead
    rw [htoken] at hopen
    exact ⟨c, _, htoken, (List.cons.inj hhead).1, hopen⟩

theorem readTarget?_of_paren (h : '(' ∈ s) (hs : Trimmed s) : read?.readTarget? s = none := by
  have hinteger : readInteger? s = none := by
    refine Option.eq_none_iff_forall_ne_some.2 fun v hv => ?_
    rw [readInteger?_eq_some_iff, trim_eq_self hs] at hv
    cases hv.isIntegerChar _ h
  have hname : ¬isName s = true := fun hname => by cases forall_isNameChar hname _ h
  unfold read?.readTarget?
  rw [hinteger]
  exact if_neg hname

/-- A reference is read from its text without spaces, but for the name of a symbol. -/
theorem read?_of_refers (h : Refers space inner token) :
    read? token = (readMode? (unspaced (upper inner))).map fun mode => .mem ⟨space, named token mode⟩ := by
  have hmem : readMem? (unspaced (upper (trim token))) =
      (readMode? (unspaced (upper inner))).map (MemRef.mk space) := by
    rw [h.unspaced_eq, readMem?_memText]
  obtain ⟨c, cs, hraw, hc, hopen⟩ := h.head
  have hletter : c.toUpper ∈ ['D', 'P'] := by
    rw [hc]
    cases space <;> decide
  have hhash : c ≠ '#' := by
    rintro rfl
    revert hletter
    decide
  rw [hraw] at hmem
  cases hmode : readMode? (unspaced (upper inner)) with
  | none =>
    have hhead : ∀ c ∈ ['D', 'P'], c ∉ ['A', 'C', 'R', 'I', 'M', 'L', 'B', '('] := by decide
    rw [hmode] at hmem
    rw [read?_eq_readTarget? hraw hhash (hhead _ hletter) hmem hopen rfl rfl (by decide),
      readTarget?_of_paren hopen (hraw ▸ trimmed_trim token)]
    rfl
  | some mode =>
    rw [hmode] at hmem
    cases mode with
    | symbol name =>
      unfold read?
      rw [hraw]
      dsimp only
      split
      · next heq => cases heq
      · next heq =>
        cases heq
        exact absurd rfl hhash
      · rw [← unspaced, hmem, ← hraw]
        rfl
    | _ => exact read?_of_mem hraw hhash hmem fun name hname => by cases hname

/-- Only a reference is read as one. -/
theorem refers_of_read? (h : read? token = some (.mem ref)) :
    ∃ inner mode, Refers ref.space inner token ∧ readMode? (unspaced (upper inner)) = some mode ∧
      ref.mode = named token mode := by
  have hrefers {space : Space} {mode : AddrMode} (h : readMem? (unspaced (upper (trim token))) = some ⟨space, mode⟩) :
      ∃ inner, Refers space inner token ∧ readMode? (unspaced (upper inner)) = some mode := by
    obtain ⟨inner', heq, hmode⟩ := readMem?_eq_some_iff.1 h
    obtain ⟨inner, hrefers, rfl⟩ := exists_refers heq
    exact ⟨inner, hrefers, hmode⟩
  cases form_of_read? h with
  | symbol hmem =>
    obtain ⟨inner, hrefers, hmode⟩ := hrefers hmem
    exact ⟨inner, _, hrefers, hmode, rfl⟩
  | mem hmem hmode' =>
    obtain ⟨inner, hrefers, hmode⟩ := hrefers hmem
    refine ⟨inner, ref.mode, hrefers, hmode, ?_⟩
    cases href : ref.mode with
    | symbol name => exact absurd href (hmode' name)
    | _ => rfl

/-! ### Names of symbols -/

/-- What stands in front of the parentheses. -/
def keyword (token : List Char) : List Char := (trim token).takeWhile (· ≠ '(')

/-- What stands between the parentheses, without blanks around it. -/
def writtenName (token : List Char) : List Char := trim ((trim token).dropWhile (· ≠ '(')).tail.dropLast

/-- No space stands in front of the parentheses or in the name. -/
def Tight (token : List Char) : Prop := ' ' ∉ keyword token ∧ ' ' ∉ writtenName token

instance (token : List Char) : Decidable (Tight token) := inferInstanceAs (Decidable (_ ∧ _))

theorem Refers.split (h : Refers space inner token) : trim token = keyword token ++ '(' :: (inner ++ [')']) ∧
    (unspaced (keyword token)).length = 2 ∧ writtenName token = trim inner := by
  obtain ⟨head, htoken, hhead⟩ := h
  have hopen : ∀ c ∈ head, decide (c ≠ '(') = true := by
    intro c hc
    refine decide_eq_true ?_
    rintro rfl
    have hmem : '(' ∈ upper (unspaced head) := List.mem_map.2 ⟨'(', mem_unspaced.2 ⟨hc, by decide⟩, rfl⟩
    rw [hhead] at hmem
    revert hmem
    cases space <;> decide
  have hkeyword : keyword token = head := by
    rw [keyword, htoken, List.takeWhile_append_of_pos hopen]
    simp
  refine ⟨by rw [hkeyword, htoken], ?_, ?_⟩
  · rw [hkeyword, ← List.length_map, ← upper, hhead]
    rfl
  · rw [writtenName, htoken, List.dropWhile_append_of_pos hopen]
    simp

theorem Refers.cutName_eq (h : Refers space inner token) (hkeyword : ' ' ∉ keyword token) :
    cutName token = trim inner := by
  obtain ⟨htoken, hlength, -⟩ := h.split
  rw [unspaced_eq_self hkeyword] at hlength
  have hdrop : (trim token).drop 3 = inner ++ [')'] := by
    rw [htoken, List.drop_append, hlength, List.drop_of_length_le (by omega)]
    rfl
  rw [cutName, hdrop, List.dropLast_concat]

theorem Refers.paren_mem_cutName (h : Refers space inner token) (hkeyword : ' ' ∈ keyword token) :
    '(' ∈ cutName token := by
  obtain ⟨htoken, hlength, -⟩ := h.split
  have hlong : 3 ≤ (keyword token).length := by
    have hlt : (unspaced (keyword token)).length < (keyword token).length :=
      List.length_filter_lt_length_iff_exists.2 ⟨' ', hkeyword, by decide⟩
    omega
  have hdrop : ((trim token).drop 3).dropLast = (keyword token).drop 3 ++ '(' :: inner := by
    rw [htoken, List.drop_append_of_le_length hlong, ← List.cons_append, ← List.append_assoc, List.dropLast_concat]
  rw [cutName, hdrop]
  exact mem_trim rfl (List.mem_append_right _ List.mem_cons_self)

theorem Refers.unspaced_inner (h : Refers space inner token) :
    unspaced inner = ((unspaced (trim token)).drop 3).dropLast := by
  obtain ⟨htoken, hlength, -⟩ := h.split
  have hclose : unspaced [')'] = [')'] := rfl
  rw [htoken, unspaced_append, unspaced_cons (by decide), unspaced_append, hclose, List.drop_append, hlength,
    List.drop_of_length_le (by omega)]
  exact List.dropLast_concat.symm

/-- A symbol has a name only if it is written tight. -/
theorem Refers.tight (h : Refers space inner token) (hname : isName (cutName token) = true) : Tight token := by
  have hchars := forall_isNameChar hname
  have hkeyword : ' ' ∉ keyword token := fun hspace => by cases hchars _ (h.paren_mem_cutName hspace)
  refine ⟨hkeyword, fun hspace => ?_⟩
  rw [h.split.2.2, ← h.cutName_eq hkeyword] at hspace
  cases hchars _ hspace

theorem Tight.cutName_eq (htight : Tight token) (h : Refers space inner token) :
    cutName token = writtenName token ∧ writtenName token = trim (unspaced inner) := by
  obtain ⟨-, -, hwritten⟩ := h.split
  refine ⟨by rw [h.cutName_eq htight.1, hwritten], ?_⟩
  rw [trim_unspaced, hwritten, unspaced_eq_self (hwritten ▸ htight.2)]

theorem isName_of_upper (h : isName (upper s) = true) : isName s = true := by
  cases s with
  | nil => cases h
  | cons c cs =>
    rw [upper, List.map_cons, isName, Bool.and_eq_true, List.all_map] at h
    rw [isName, Bool.and_eq_true]
    refine ⟨?_, List.all_eq_true.2 fun d hd => isNameChar_of_toUpper (List.all_eq_true.1 h.2 d hd)⟩
    cases halpha : c.isAlpha with
    | true =>
      rw [isNameStart, halpha]
      rfl
    | false =>
      have hstart := h.1
      rwa [toUpper_of_isAlpha halpha] at hstart

/-- Other spaces in a token leave it the same reference, and its symbol, if any, the name that is written, exactly if
no symbol of it has spaces in front of the parentheses or in its name, before or after. -/
theorem respaced_iff (hread : read? s = some (.mem ref)) (hsame : unspaced s = unspaced t) :
    (read? t = some (.mem ref) ∧
      ∀ name, ref.mode = .symbol name → isName name.toList = true ∧ name.toList = writtenName s) ↔
    ∀ name, ref.mode = .symbol name → Tight s ∧ Tight t := by
  obtain ⟨inner, mode, hs, hmode, href⟩ := refers_of_read? hread
  have hraw : unspaced (trim s) = unspaced (trim t) := by rw [← trim_unspaced, ← trim_unspaced, hsame]
  obtain ⟨inner', ht, hinner⟩ : ∃ inner', Refers ref.space inner' t ∧
      unspaced (upper inner') = unspaced (upper inner) := by
    refine exists_refers ?_
    rw [unspaced_upper, ← hraw, ← unspaced_upper, hs.unspaced_eq]
  have hread' : read? t = some (.mem ⟨ref.space, named t mode⟩) := by
    rw [read?_of_refers ht, hinner, hmode]
    rfl
  obtain ⟨space, mode'⟩ := ref
  cases href
  cases mode with
  | symbol name =>
    have hname : isName (trim (unspaced inner)) = true := by
      refine isName_of_upper ?_
      rw [← trim_upper, ← unspaced_upper]
      exact (readMode?_eq_symbol hmode).2
    constructor
    · rintro ⟨hsymbol, hwritten⟩ _ -
      obtain ⟨hisName, -⟩ := hwritten _ rfl
      rw [String.toList_ofList] at hisName
      have hcut : cutName t = cutName s := by
        rw [hread'] at hsymbol
        have hofList : String.ofList (cutName t) = String.ofList (cutName s) := by simpa [named] using hsymbol
        exact String.ofList_injective hofList
      exact ⟨hs.tight hisName, ht.tight (hcut ▸ hisName)⟩
    · intro htight
      obtain ⟨hcut, hwritten⟩ := (htight _ rfl).1.cutName_eq hs
      obtain ⟨hcut', hwritten'⟩ := (htight _ rfl).2.cutName_eq ht
      have hinner' : unspaced inner' = unspaced inner := by rw [ht.unspaced_inner, hs.unspaced_inner, hraw]
      have hcuts : cutName t = cutName s := by rw [hcut, hcut', hwritten, hwritten', hinner']
      refine ⟨?_, ?_⟩
      · simp only [hread', named, hcuts]
      · rintro _ ⟨⟩
        rw [String.toList_ofList]
        refine ⟨?_, hcut⟩
        rw [hcut, hwritten]
        exact hname
  | _ => exact iff_of_true ⟨hread', fun name h => by cases h⟩ fun name h => by cases h

def coeffs : MemRef := ⟨.data, .symbol "coeffs"⟩

/-- Spaces around the name are lost, one in front of the parentheses is not. -/
theorem respaced_iff_coeffs :
    read? "DM( coeffs )".toList = some (.mem coeffs) ∧ read? "DM (coeffs)".toList ≠ some (.mem coeffs) := by
  have hread : read? "DM(coeffs)".toList = some (.mem coeffs) := by decide +kernel
  have hinside := respaced_iff (t := "DM( coeffs )".toList) hread (by decide)
  have hbefore := respaced_iff (t := "DM (coeffs)".toList) hread (by decide)
  obtain ⟨hsame, hname⟩ := hinside.2 fun _ _ => by decide
  refine ⟨hsame, fun hsame' => ?_⟩
  have htight : ¬Tight "DM (coeffs)".toList := by decide
  exact htight (hbefore.1 ⟨hsame', hname⟩ _ rfl).2

end Operand

end QuadDsp
