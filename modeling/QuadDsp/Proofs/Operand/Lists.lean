import QuadDsp.Proofs.Operand.Respell
import QuadDsp.Proofs.Results

/-! # Lists of operands read back

Operands are separated by a comma and a blank. Their own commas stand in parentheses, so the list is cut
where it was joined, and read part by part (`Operand.readList_parts`). What the reader of a whole operation looks
for, a multiply mode in parentheses or the word of a loop, is in no operand without a name (`Operand.Listed`). -/

namespace QuadDsp

namespace Operand

open Text

/-! ### Cutting a list -/

/-- How many parentheses are open behind a text; none if a comma stands outside of them. -/
def depthAfter : Nat → List Char → Option Nat
  | depth, [] => some depth
  | depth, c :: cs =>
    if c == ',' && depth == 0 then none
    else depthAfter (if c == '(' then depth + 1 else if c == ')' then depth - 1 else depth) cs

theorem cutList_append {depth depth' : Nat} {s t piece : List Char} {pieces : List (List Char)}
    (h : depthAfter depth s = some depth') (ht : cutList depth' t = piece :: pieces) :
    cutList depth (s ++ t) = (s ++ piece) :: pieces := by
  induction s generalizing depth with
  | nil =>
    cases h
    exact ht
  | cons c cs ih =>
    rw [depthAfter] at h
    split at h
    · cases h
    · next hc =>
      rw [List.cons_append, cutList, if_neg hc]
      dsimp only
      rw [ih h]
      rfl

theorem cutList_of_depthAfter {s : List Char} (h : depthAfter 0 s = some 0) : cutList 0 s = [s] := by
  have hcut := cutList_append (t := []) h rfl
  rwa [List.append_nil] at hcut

theorem cutList_comma {s t : List Char} (h : depthAfter 0 s = some 0) :
    cutList 0 (s ++ ',' :: t) = s :: cutList 0 t := by
  have hcut := cutList_append (t := ',' :: t) h rfl
  rwa [List.append_nil] at hcut

theorem depthAfter_append {depth depth' : Nat} {s t : List Char} (h : depthAfter depth s = some depth') :
    depthAfter depth (s ++ t) = depthAfter depth' t := by
  induction s generalizing depth with
  | nil =>
    cases h
    rfl
  | cons c cs ih =>
    rw [depthAfter] at h
    split at h
    · cases h
    · next hc =>
      rw [List.cons_append, depthAfter, if_neg hc]
      exact ih h

/-- Without parentheses and commas, or with commas inside of parentheses only, the depth stays. -/
theorem depthAfter_of_forall {depth : Nat} {s : List Char}
    (h : ∀ c ∈ s, c ≠ '(' ∧ c ≠ ')' ∧ (depth = 0 → c ≠ ',')) : depthAfter depth s = some depth := by
  induction s with
  | nil => rfl
  | cons c cs ih =>
    obtain ⟨⟨hopen, hclose, hcomma⟩, hcs⟩ := List.forall_mem_cons.1 h
    have hno : ¬(c == ',' && depth == 0) = true := by
      rw [Bool.and_eq_true, beq_iff_eq, beq_iff_eq]
      exact fun hc => hcomma hc.2 hc.1
    rw [depthAfter, if_neg hno, if_neg (by simpa using hopen), if_neg (by simpa using hclose)]
    exact ih hcs

/-! ### Texts in a list -/

/-- What can stand between the commas of a list. -/
structure Part (s : List Char) : Prop where
  ne : s ≠ []
  trimmed : Trimmed s
  depth : depthAfter 0 s = some 0

/-- The characters that a multiply mode can start with. -/
def startsMode (c : Char) : Bool := c.toUpper ∈ ['S', 'U', 'R']

/-- What the readers of lists, operations and lines need of the text of an operand without a name. -/
structure Listed (s : List Char) : Prop extends Part s where
  bar : '|' ∉ s
  /-- no blank stands in front of the word of a loop, nor is the text that word -/
  blank : followed ' ' (fun c => c.toUpper != 'U') s = true
  head : ∀ c ∈ s.head?, c.toUpper ≠ 'U'
  /-- no parenthesis opens a multiply mode -/
  paren : followed '(' (fun c => !startsMode c) s = true
  last : ∀ c ∈ s.getLast?, c ≠ ',' ∧ c ≠ ':'

/-- The characters of all operands but memory references, conditions and keywords. -/
def plainChars : List Char := digitChars ++ "x#-.ABCDGHIKLMNPRST".toList

theorem Listed.of_plain {s : List Char} (hne : s ≠ []) (h : ∀ c ∈ s, c ∈ plainChars) : Listed s := by
  have hchars : ∀ c ∈ plainChars, isBlank c = false ∧ c ≠ '(' ∧ c ≠ ')' ∧ c ≠ ',' ∧ c ≠ '|' ∧ c ≠ ' ' ∧
      c.toUpper ≠ 'U' ∧ c ≠ ':' := by decide
  have hall := fun c hc => hchars c (h c hc)
  exact {
    ne := hne
    trimmed := .of_forall fun c hc => (hall c hc).1
    depth := depthAfter_of_forall fun c hc => ⟨(hall c hc).2.1, (hall c hc).2.2.1, fun _ => (hall c hc).2.2.2.1⟩
    bar := fun hc => (hall _ hc).2.2.2.2.1 rfl
    blank := followed_of_notMem fun hc => (hall _ hc).2.2.2.2.2.1 rfl
    head := fun c hc => (hall c (List.mem_of_mem_head? hc)).2.2.2.2.2.2.1
    paren := followed_of_notMem fun hc => (hall _ hc).2.1 rfl
    last := fun c hc => ⟨(hall c (List.mem_of_getLast? hc)).2.2.2.1, (hall c (List.mem_of_getLast? hc)).2.2.2.2.2.2.2⟩ }

theorem listed_cond (c : Condition) : Listed c.name.toList := by
  cases c <;>
    exact ⟨⟨by decide, ⟨by decide, by decide⟩, by decide⟩, by decide, by decide, by decide, by decide, by decide⟩

theorem head_modeText {mode : AddrMode} (h : mode.Spelled) :
    ∃ c cs, modeText mode = c :: cs ∧ startsMode c = false := by
  cases mode with
  | postImm i step =>
    rw [modeText]
    split <;> exact ⟨_, _, rfl, by decide⟩
  | symbol => exact h.elim
  | _ => exact ⟨_, _, rfl, by decide⟩

theorem part_memText (space : Space) {inner : List Char} (h : ∀ c ∈ inner, c ≠ '(' ∧ c ≠ ')') :
    Part (memText space inner) := by
  refine ⟨List.cons_ne_nil _ _, trimmed_memText space inner, ?_⟩
  have hopen : depthAfter 0 [spaceLetter space, 'M', '('] = some 1 := by cases space <;> rfl
  have hinner : depthAfter 1 inner = some 1 :=
    depthAfter_of_forall fun c hc => ⟨(h c hc).1, (h c hc).2, fun h => absurd h (by decide)⟩
  show depthAfter 0 ([spaceLetter space, 'M', '('] ++ (inner ++ [')'])) = some 0
  rw [depthAfter_append hopen, depthAfter_append hinner]
  rfl

theorem notMem_memText (space : Space) {inner : List Char} {c : Char} (hc : c ∉ ['D', 'P', 'M', '(', ')'])
    (h : c ∉ inner) : c ∉ memText space inner := by
  simp only [List.mem_cons, List.not_mem_nil, or_false, not_or] at hc
  cases space <;> simp [memText, spaceLetter, hc, h]

theorem listed_mem {ref : MemRef} (h : ref.mode.Spelled) : Listed (Operand.mem ref).text.toList := by
  have hchars : ∀ c ∈ modeChars, c ≠ '(' ∧ c ≠ ')' ∧ c ≠ '|' ∧ c ≠ ' ' := by decide
  have hmode := fun c hc => hchars c (mem_modeChars h c hc)
  obtain ⟨c, cs, hhead, hstart⟩ := head_modeText h
  rw [mem_text]
  exact {
    toPart := part_memText ref.space fun c hc => ⟨(hmode c hc).1, (hmode c hc).2.1⟩
    bar := notMem_memText ref.space (by decide) fun hc => (hmode _ hc).2.2.1 rfl
    blank := followed_of_notMem (notMem_memText ref.space (by decide) fun hc => (hmode _ hc).2.2.2 rfl)
    head := fun c hc => by
      cases hc
      cases ref.space <;> decide
    paren := by
      have hrest : followed '(' (fun c => !startsMode c) (modeText ref.mode ++ [')']) = true := by
        refine followed_of_notMem fun hc => ?_
        rcases List.mem_append.1 hc with hc | hc
        · exact (hmode _ hc).1 rfl
        · cases List.mem_singleton.1 hc
      have hopen : followed '(' (fun c => !startsMode c) ('(' :: (modeText ref.mode ++ [')'])) = true := by
        rw [followed, hrest, hhead]
        simp [hstart]
      have hbefore : followed '(' (fun c => !startsMode c) [spaceLetter ref.space, 'M'] = true := by
        cases ref.space <;> rfl
      exact followed_append hbefore hopen
    last := by
      rw [getLast?_memText]
      rintro _ ⟨⟩
      decide }

theorem Spelled.listed {o : Operand} (h : o.Spelled) (hmode : o.isMulMode = false) : Listed o.text.toList := by
  have hdecimal (n : Nat) : ∀ c ∈ digits 10 n, c ∈ plainChars := forall_digits (by decide) (by decide) (by decide) n
  cases o with
  | reg r =>
    obtain ⟨cls, k⟩ := r
    rw [reg_text]
    refine .of_plain (List.append_ne_nil_of_right_ne_nil _ (digits_ne_nil 10 k)) ?_
    have hletters : ∀ c ∈ cls.letters.toList, c ∈ plainChars := by cases cls <;> decide
    exact List.forall_mem_append.2 ⟨hletters, hdecimal k⟩
  | accView a view =>
    rw [accView_text]
    refine .of_plain (List.append_ne_nil_of_right_ne_nil _ (List.cons_ne_nil _ _)) ?_
    exact List.forall_mem_append.2 ⟨List.forall_mem_append.2 ⟨by decide, hdecimal a⟩, by cases view <;> decide⟩
  | imm v =>
    rw [imm_text]
    refine .of_plain (List.cons_ne_nil _ _) (List.forall_mem_cons.2 ⟨by decide, ?_⟩)
    by_cases hv : v < 0
    · rw [decimalInt_of_neg hv]
      exact List.forall_mem_cons.2 ⟨by decide, hdecimal _⟩
    · rw [decimalInt_of_nonneg hv]
      exact hdecimal _
  | mem ref => exact listed_mem h
  | target t =>
    cases t with
    | abs a =>
      rw [target_text]
      refine .of_plain (List.cons_ne_nil _ _)
        (List.forall_mem_cons.2 ⟨by decide, List.forall_mem_cons.2 ⟨by decide, ?_⟩⟩)
      exact forall_digits (by decide) (by decide) (by decide) a
    | label => exact h.elim
  | sys r => exact .of_plain (by cases r <;> decide) (by cases r <;> decide)
  | cond c => exact listed_cond c
  | key k =>
    cases k with
    | sts => exact .of_plain (by decide) (by decide)
    | mul m => cases hmode
    | mode b => exact .of_plain (by cases b <;> decide) (by cases b <;> decide)

/-! ### The list -/

/-- Parts of a list with a comma and a blank between neighbours. -/
def partsText : List (List Char) → List Char
  | [] => []
  | s :: rest => s ++ rest.flatMap fun t => ',' :: ' ' :: t

theorem partsText_concat (parts : List (List Char)) (s : List Char) :
    ∃ front, partsText (parts ++ [s]) = front ++ s ∧ ∀ c ∈ front.getLast?, c = ' ' := by
  cases parts with
  | nil => exact ⟨[], List.append_nil s, fun c hc => by cases hc⟩
  | cons t rest =>
    refine ⟨t ++ (rest.flatMap fun t => ',' :: ' ' :: t) ++ [',', ' '], ?_, ?_⟩
    · rw [List.cons_append, partsText]
      simp
    · rw [List.getLast?_append_of_ne_nil _ (List.cons_ne_nil _ _)]
      rintro _ ⟨⟩
      rfl

theorem cutList_parts {s : List Char} {rest : List (List Char)} (hs : depthAfter 0 s = some 0)
    (h : ∀ t ∈ rest, depthAfter 0 t = some 0) : cutList 0 (partsText (s :: rest)) = s :: rest.map (' ' :: ·) := by
  induction rest generalizing s with
  | nil =>
    have hnil : partsText [s] = s := List.append_nil s
    rw [hnil, cutList_of_depthAfter hs]
    rfl
  | cons t rest ih =>
    obtain ⟨ht, hrest⟩ := List.forall_mem_cons.1 h
    have hblank : depthAfter 0 (' ' :: t) = some 0 := ht
    have hcons : partsText (s :: t :: rest) = s ++ ',' :: partsText ((' ' :: t) :: rest) := rfl
    rw [hcons, cutList_comma hs, ih hblank hrest]
    rfl

theorem dropLast_append_filter {pieces : List (List Char)} (h : ∀ piece ∈ pieces, trim piece ≠ []) :
    pieces.dropLast ++ pieces.getLast?.toList.filter (fun piece => trim piece ≠ []) = pieces := by
  rcases List.eq_nil_or_concat pieces with rfl | ⟨init, last, rfl⟩
  · rfl
  · have hlast : trim last ≠ [] := h last (by simp)
    simp [hlast]

theorem read?_congr {s t : List Char} (h : trim s = trim t) : read? s = read? t := by
  unfold read?
  rw [h]

theorem read_blank_cons (s : List Char) : read (' ' :: s) = read s := by
  rw [read, read, read?_congr (trim_blank_cons s), trim_blank_cons]

/-- A list is read part by part. -/
theorem readList_parts {parts : List (List Char)} (h : ∀ s ∈ parts, Part s) :
    readList (partsText parts) = parts.mapM read := by
  cases parts with
  | nil => rfl
  | cons s rest =>
    obtain ⟨hs, hrest⟩ := List.forall_mem_cons.1 h
    have hne : ∀ piece ∈ s :: rest.map (' ' :: ·), trim piece ≠ [] := by
      refine List.forall_mem_cons.2 ⟨by rw [trim_eq_self hs.trimmed]; exact hs.ne, List.forall_mem_map.2 fun t ht => ?_⟩
      rw [trim_blank_cons, trim_eq_self (hrest t ht).trimmed]
      exact (hrest t ht).ne
    have hcut := cutList_parts hs.depth fun t ht => (hrest t ht).depth
    rw [readList, hcut, dropLast_append_filter hne, List.mapM_cons, List.mapM_cons, List.mapM_map]
    simp only [Function.comp_def, read_blank_cons]

end Operand

end QuadDsp
