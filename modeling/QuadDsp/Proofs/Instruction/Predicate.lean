import QuadDsp.Instruction.Reader
import QuadDsp.Proofs.Operand.Spacing

/-! # Predicates in front of operations

A predicate is taken off the front of an operation by its words. Runs of spaces around it do not count, but between
the two words of a condition only one space may stand (`Instruction.readPredicate_predicate`). A predicate never takes
a bar with it (`Instruction.readPredicate_bar`). -/

namespace QuadDsp

namespace Instruction

open Text

variable {c : Condition} {s t : List Char}

/-! ### Bytes -/

theorem byteLength_cons (c : Char) (s : List Char) : byteLength (c :: s) = c.utf8Size + byteLength s := by
  have hfold (n : Nat) : s.foldl (fun n c => n + c.utf8Size) n = n + s.foldl (fun n c => n + c.utf8Size) 0 := by
    induction s generalizing n with
    | nil => rfl
    | cons d ds ih =>
      rw [List.foldl_cons, List.foldl_cons, ih, ih (0 + d.utf8Size)]
      omega
  rw [byteLength, List.foldl_cons, hfold, Nat.zero_add, byteLength]

theorem byteLength_append (s t : List Char) : byteLength (s ++ t) = byteLength s + byteLength t := by
  induction s with
  | nil => exact (Nat.zero_add _).symm
  | cons c cs ih => rw [List.cons_append, byteLength_cons, byteLength_cons, ih, Nat.add_assoc]

theorem dropBytes_append (s t : List Char) : dropBytes (byteLength s) (s ++ t) = t := by
  induction s with
  | nil =>
    cases t with
    | nil => rfl
    | cons c cs => exact if_pos rfl
  | cons c cs ih =>
    have hpos : c.utf8Size + byteLength cs ≠ 0 := by
      have hsize := c.utf8Size_pos
      omega
    rw [byteLength_cons, List.cons_append, dropBytes, if_neg hpos, Nat.add_sub_cancel_left, ih]

theorem exists_dropBytes {n : Nat} (h : n ≤ byteLength s) :
    ∃ front back, s = front ++ back ∧ ∀ t, dropBytes n (s ++ t) = back ++ t := by
  induction s generalizing n with
  | nil =>
    obtain rfl : n = 0 := Nat.le_zero.1 h
    refine ⟨[], [], rfl, fun t => ?_⟩
    cases t <;> rfl
  | cons c cs ih =>
    by_cases hn : n = 0
    · exact ⟨[], c :: cs, rfl, fun t => by rw [List.cons_append, dropBytes, if_pos hn]⟩
    · rw [byteLength_cons] at h
      obtain ⟨front, back, hsplit, hdrop⟩ := ih (n := n - c.utf8Size) (by omega)
      refine ⟨c :: front, back, by rw [hsplit]; rfl, fun t => ?_⟩
      rw [List.cons_append, dropBytes, if_neg hn, hdrop]

/-! ### Words -/

/-- A condition is one word, or NOT and another one. -/
theorem words_of_name (c : Condition) :
    (∀ x ∈ c.name.toList, isBlank x = false) ∧ sameLetters c.name.toList "NOT".toList = false ∨
      ∃ second, c.name.toList = "NOT".toList ++ ' ' :: second ∧ ∀ x ∈ second, isBlank x = false := by
  cases c with
  | notAv | notAc | notMv | notSv | notCe | notAq => exact .inr ⟨_, rfl, by decide⟩
  | _ => exact .inl (by decide)

/-- The words of the condition, in letters of either case. -/
inductive Wording (c : Condition) : List (List Char) → Prop
  | one {word : List Char} (hword : ∀ x ∈ word, isBlank x = false) (h : sameLetters c.name.toList word = true) :
    Wording c [word]
  | two {first second : List Char} (hfirst : ∀ x ∈ first, isBlank x = false) (hsecond : ∀ x ∈ second, isBlank x = false)
    (h : sameLetters c.name.toList (first ++ ' ' :: second) = true) : Wording c [first, second]

theorem ofName?_of_sameLetters (h : sameLetters c.name.toList ([' '].intercalate (words s)) = true) :
    Condition.ofName? s = some c := by
  have hall : ∀ c ∈ Condition.all,
      Condition.all.find? (fun d => upper d.name.toList == upper c.name.toList) = some c := by
    decide +kernel
  unfold Condition.ofName? sameLetters
  dsimp only
  rw [← eq_of_beq h]
  exact hall c c.mem_all

theorem upper_condition (c : Condition) : upper c.name.toList = c.name.toList := by cases c <;> decide

theorem isBlank_of_sameLetters (h : sameLetters s t = true) (ht : ∀ x ∈ t, isBlank x = false) :
    ∀ x ∈ s, isBlank x = false := by
  intro x hx
  obtain ⟨y, hy, hxy⟩ := List.mem_map.1 (eq_of_beq h ▸ List.mem_map_of_mem hx : x.toUpper ∈ upper t)
  rw [← isBlank_toUpper, ← hxy, isBlank_toUpper]
  exact ht y hy

theorem Wording.one_not {word : List Char} (h : Wording c [word]) :
    (∀ x ∈ word, isBlank x = false) ∧ sameLetters word "NOT".toList = false ∧ Condition.ofName? word = some c := by
  cases h with
  | one hword h =>
    have hname : ∀ x ∈ c.name.toList, isBlank x = false := isBlank_of_sameLetters h hword
    have hne : word ≠ [] := by
      rintro rfl
      revert h
      cases c <;> decide
    have hwords : words word = [word] := by
      rw [words, cut_of_forall hword]
      exact List.filter_cons_of_pos (decide_eq_true hne)
    refine ⟨hword, ?_, ofName?_of_sameLetters (by rw [hwords]; simpa using h)⟩
    rcases words_of_name c with ⟨-, hnot⟩ | ⟨second, hname', -⟩
    · rw [sameLetters, ← eq_of_beq h]
      exact hnot
    · cases hname ' ' (by simp [hname'])

theorem Wording.two_not {first second : List Char} (h : Wording c [first, second]) :
    (∀ x ∈ first, isBlank x = false) ∧ (∀ x ∈ second, isBlank x = false) ∧ sameLetters first "NOT".toList = true ∧
      Condition.ofName? (first ++ ' ' :: second) = some c := by
  cases h with
  | two hfirst hsecond h =>
    have hletters := eq_of_beq h
    rcases words_of_name c with ⟨hname, -⟩ | ⟨word, hname, hword⟩
    · have hspace : ' ' ∈ c.name.toList := by
        rw [← upper_condition, hletters]
        exact List.mem_map.2 ⟨' ', by simp, rfl⟩
      cases hname ' ' hspace
    · have hsplit : upper first ++ ' ' :: upper second = "NOT".toList ++ ' ' :: word := by
        rw [← hname, ← upper_condition, hletters, upper, upper, upper, List.map_append]
        rfl
      have hupper : ∀ x ∈ upper first, isBlank x = false :=
        List.forall_mem_map.2 fun x hx => by rw [isBlank_toUpper]; exact hfirst x hx
      have hsplit' := congrArg (splitFirst isBlank) hsplit
      rw [splitFirst_append hupper rfl, splitFirst_append (by decide) rfl, Option.some.injEq, Prod.mk.injEq] at hsplit'
      obtain ⟨hnot, hrest⟩ := hsplit'
      have hne : first ≠ [] := by
        rintro rfl
        cases hnot
      have hne' : second ≠ [] := by
        rintro rfl
        revert hname
        rw [← hrest]
        cases c <;> decide
      have hwords : words (first ++ ' ' :: second) = [first, second] := by
        rw [words_append_blank, IsWord.words_eq ⟨hne, hfirst⟩, IsWord.words_eq ⟨hne', hsecond⟩]
        rfl
      refine ⟨hfirst, hsecond, ?_, ofName?_of_sameLetters (by rw [hwords]; simpa using h)⟩
      rw [sameLetters, hnot]
      rfl

/-! ### Conditions in front of a text -/

/-- The name of the condition in front of a text, and how many bytes are passed over for it. -/
def conditionName (rest : List Char) : List Char × Nat :=
  let (first, behind) := (splitFirst isBlank rest).getD (rest, [])
  if sameLetters first "NOT".toList then
    let second := ((splitFirst isBlank behind).getD (behind, [])).1
    (first ++ ' ' :: second, byteLength first + 1 + byteLength second)
  else (first, byteLength first)

/-- Takes a condition off the front, behind the word `IF`. -/
def readCondition (rest : List Char) : Except LineError (Option Condition × List Char) :=
  match Condition.ofName? (conditionName rest).1 with
  | none => .error (.operand ⟨String.ofList (conditionName rest).1⟩)
  | some c => .ok (some c, trimStart (dropBytes (conditionName rest).2 rest))

theorem conditionName_of_not {rest first behind : List Char} (hsplit : splitFirst isBlank rest = some (first, behind))
    (hnot : sameLetters first "NOT".toList = true) :
    conditionName rest = (first ++ ' ' :: ((splitFirst isBlank behind).getD (behind, [])).1,
      byteLength first + 1 + byteLength ((splitFirst isBlank behind).getD (behind, [])).1) := by
  unfold conditionName
  rw [hsplit]
  exact if_pos hnot

theorem conditionName_of_word {rest first behind : List Char} (hsplit : splitFirst isBlank rest = some (first, behind))
    (hnot : sameLetters first "NOT".toList = false) : conditionName rest = (first, byteLength first) := by
  unfold conditionName
  rw [hsplit]
  exact if_neg (Bool.eq_false_iff.1 hnot)

/-- The words that start a predicate. -/
def keywords : List (List Char) := ["IF".toList, "if".toList]

theorem readPredicate_keyword {keyword : List Char} (h : keyword ∈ keywords) (rest : List Char) :
    readPredicate (keyword ++ ' ' :: rest) = readCondition (trimStart rest) := by
  rcases List.mem_pair.1 h with rfl | rfl <;> rfl

theorem readPredicate_of_no_keyword (h : ∀ keyword ∈ keywords, ¬keyword ++ [' '] <+: s) :
    readPredicate s = .ok (none, s) := by
  have hnone {start : List Char} (hstart : ¬start <+: s) : start.isPrefixOf? s = none := by
    refine Option.eq_none_iff_forall_ne_some.2 fun rest hrest => hstart ?_
    exact ⟨rest, List.isPrefixOf?_eq_some_iff_append_eq.1 hrest⟩
  have hupper : "IF ".toList.isPrefixOf? s = none := hnone (h "IF".toList (by decide))
  have hlower : "if ".toList.isPrefixOf? s = none := hnone (h "if".toList (by decide))
  unfold readPredicate
  rw [hupper, hlower]
  rfl

/-- The texts that a condition is read from give it back, with what stands behind the blanks. -/
theorem readCondition_one {word : List Char} (h : Wording c [word]) (t : List Char) :
    readCondition (word ++ ' ' :: t) = .ok (some c, trimStart t) := by
  obtain ⟨hword, hnot, hname⟩ := h.one_not
  have hsplit : splitFirst isBlank (word ++ ' ' :: t) = some (word, t) := splitFirst_append hword rfl
  rw [readCondition, conditionName_of_word hsplit hnot, hname]
  dsimp only
  rw [dropBytes_append]
  rfl

theorem readCondition_two {first second : List Char} (h : Wording c [first, second]) (t : List Char) :
    readCondition (first ++ ' ' :: (second ++ ' ' :: t)) = .ok (some c, trimStart t) := by
  obtain ⟨hfirst, hsecond, hnot, hname⟩ := h.two_not
  have hsplit : splitFirst isBlank (first ++ ' ' :: (second ++ ' ' :: t)) = some (first, second ++ ' ' :: t) :=
    splitFirst_append hfirst rfl
  have hsplit' : splitFirst isBlank (second ++ ' ' :: t) = some (second, t) := splitFirst_append hsecond rfl
  have hspace : Char.utf8Size ' ' = 1 := rfl
  have hlength : byteLength first + 1 + byteLength second = byteLength (first ++ ' ' :: second) := by
    rw [byteLength_append, byteLength_cons, hspace, Nat.add_assoc]
  have hdrop : dropBytes (byteLength (first ++ ' ' :: second)) (first ++ ' ' :: (second ++ ' ' :: t)) = ' ' :: t := by
    rw [← List.cons_append, ← List.append_assoc, dropBytes_append]
  rw [readCondition, conditionName_of_not hsplit hnot, hsplit', Option.getD_some, hname]
  dsimp only
  rw [hlength, hdrop]
  rfl

/-- Behind NOT and two spaces, no word is found. -/
theorem readCondition_wide {first second : List Char} (h : Wording c [first, second]) (t : List Char) :
    ∃ e, readCondition (first ++ ' ' :: ' ' :: t) = .error e := by
  obtain ⟨hfirst, -, hnot, -⟩ := h.two_not
  have hsplit : splitFirst isBlank (first ++ ' ' :: ' ' :: t) = some (first, ' ' :: t) := splitFirst_append hfirst rfl
  have hsplit' : splitFirst isBlank (' ' :: t) = some ([], t) := rfl
  have hwords : [' '].intercalate (words (first ++ [' '])) = first := by
    have hcut : cut isBlank (first ++ [' ']) = [first, []] := cut_append hfirst rfl
    rw [words, hcut]
    cases first <;> simp
  have hname : Condition.ofName? (first ++ [' ']) = none := by
    have hall : ∀ d : Condition, upper d.name.toList ≠ upper "NOT".toList := by
      intro d
      cases d <;> decide
    refine List.find?_eq_none.2 fun d _ hsame => hall d ?_
    rw [eq_of_beq hsame, hwords, ← eq_of_beq hnot]
  refine ⟨.operand ⟨String.ofList (first ++ [' '])⟩, ?_⟩
  rw [readCondition, conditionName_of_not hsplit hnot, hsplit', Option.getD_some, hname]

/-! ### Predicates with runs of spaces -/

/-- How many more spaces stand in a predicate than must. -/
structure Gaps where
  behindIf : Nat := 0
  betweenWords : Nat := 0
  behindName : Nat := 0

/-- At least one space. -/
def run (n : Nat) : List Char := ' ' :: List.replicate n ' '

/-- A predicate with runs of spaces behind its words. -/
def predicate (keyword : List Char) (words : List (List Char)) (gaps : Gaps) : List Char :=
  keyword ++ (run gaps.behindIf ++ ((run gaps.betweenWords).intercalate words ++ run gaps.behindName))

theorem trimStart_replicate (n : Nat) (t : List Char) : trimStart (List.replicate n ' ' ++ t) = trimStart t := by
  refine List.dropWhile_append_of_pos fun x hx => ?_
  rw [List.eq_of_mem_replicate hx]
  rfl

theorem trimStart_cons {x : Char} (hx : isBlank x = false) (t : List Char) : trimStart (x :: t) = x :: t :=
  dropWhile_eq_self (by rintro _ ⟨⟩; exact hx)

theorem trimStart_append (hne : s ≠ []) (hs : ∀ x ∈ s, isBlank x = false) (t : List Char) :
    trimStart (s ++ t) = s ++ t := by
  obtain ⟨x, xs, rfl⟩ := List.exists_cons_of_ne_nil hne
  exact trimStart_cons (hs x List.mem_cons_self) _

theorem Wording.ne_nil {word : List Char} {rest : List (List Char)} (h : Wording c (word :: rest)) : word ≠ [] := by
  rintro rfl
  cases h with
  | one _ h =>
    revert h
    cases c <;> decide
  | two hfirst hsecond h =>
    obtain ⟨-, -, hnot, -⟩ := (Wording.two hfirst hsecond h).two_not
    cases hnot

theorem readPredicate_run {keyword : List Char} (hkeyword : keyword ∈ keywords) (n : Nat) (t : List Char) :
    readPredicate (keyword ++ (run n ++ t)) = readCondition (trimStart t) := by
  rw [run, List.cons_append, readPredicate_keyword hkeyword, trimStart_replicate]

/-- Whatever runs of spaces stand in a predicate, it is read as its condition if two words have one space between. -/
theorem readPredicate_predicate {keyword : List Char} {words : List (List Char)} {gaps : Gaps}
    (hkeyword : keyword ∈ keywords)
    (h : Wording c words) (hgap : words.length = 2 → gaps.betweenWords = 0) (t : List Char) :
    readPredicate (predicate keyword words gaps ++ t) = .ok (some c, trimStart t) := by
  rw [predicate, List.append_assoc, List.append_assoc, List.append_assoc, readPredicate_run hkeyword]
  have hrun : trimStart (List.replicate gaps.behindName ' ' ++ t) = trimStart t := trimStart_replicate _ t
  cases words with
  | nil => cases h
  | cons first rest =>
    cases rest with
    | nil =>
      rw [List.intercalate_singleton, trimStart_append h.ne_nil h.one_not.1, run, List.cons_append,
        readCondition_one h, hrun]
    | cons second rest =>
      obtain rfl : rest = [] := by cases h; rfl
      have hsingle : (run gaps.betweenWords).intercalate [first, second] ++ (run gaps.behindName ++ t) =
          first ++ ' ' :: (second ++ ' ' :: (List.replicate gaps.behindName ' ' ++ t)) := by
        rw [hgap rfl]
        simp [run, List.intercalate]
      rw [hsingle, trimStart_append h.ne_nil h.two_not.1, readCondition_two h, hrun]

/-- Two words with more than one space between are no condition. -/
theorem readPredicate_predicate_wide {keyword : List Char} {words : List (List Char)} {gaps : Gaps}
    (hkeyword : keyword ∈ keywords) (h : Wording c words) (hlength : words.length = 2) (hgap : gaps.betweenWords ≠ 0)
    (t : List Char) : ∃ e, readPredicate (predicate keyword words gaps ++ t) = .error e := by
  obtain ⟨first, second, rfl⟩ := List.length_eq_two.1 hlength
  obtain ⟨n, hn⟩ := Nat.exists_eq_succ_of_ne_zero hgap
  have hwide : (run gaps.betweenWords).intercalate [first, second] ++ (run gaps.behindName ++ t) =
      first ++ ' ' :: ' ' :: (List.replicate n ' ' ++ (second ++ (run gaps.behindName ++ t))) := by
    rw [hn]
    simp [run, List.intercalate, List.replicate_succ]
  rw [predicate, List.append_assoc, List.append_assoc, List.append_assoc, readPredicate_run hkeyword, hwide,
    trimStart_append h.ne_nil h.two_not.1]
  exact readCondition_wide h _

/-! ### Predicates in front of bars -/

theorem splitFirst_eq_some {p : Char → Bool} {a b : List Char} (h : splitFirst p s = some (a, b)) :
    ∃ x, s = a ++ x :: b ∧ p x = true ∧ ∀ y ∈ a, p y = false := by
  unfold splitFirst at h
  split at h
  · cases h
  · next x rest hrest =>
    cases h
    refine ⟨x, ?_, ?_, fun y hy => ?_⟩
    · rw [← hrest, List.takeWhile_append_dropWhile]
    · have hhead := head?_dropWhile (s := s) x (by rw [hrest]; rfl)
      simpa using hhead
    · simpa using List.mem_takeWhile_imp hy

theorem splitFirst_eq_none {p : Char → Bool} (h : splitFirst p s = none) : ∀ y ∈ s, p y = false := by
  intro y hy
  unfold splitFirst at h
  split at h
  · next hnil => simpa using List.dropWhile_eq_nil_iff.1 hnil y hy
  · cases h

theorem mem_word_bar (hs : ∀ x ∈ s, isBlank x = false) (t : List Char) :
    '|' ∈ ((splitFirst isBlank (s ++ '|' :: t)).getD (s ++ '|' :: t, [])).1 := by
  cases hsplit : splitFirst isBlank (s ++ '|' :: t) with
  | none => simp
  | some parts =>
    obtain ⟨a, b⟩ := parts
    obtain ⟨x, hx, hblank, -⟩ := splitFirst_eq_some hsplit
    rcases List.append_eq_append_iff.1 hx with ⟨u, rfl, hu⟩ | ⟨u, rfl, hu⟩
    · cases u with
      | nil =>
        obtain ⟨rfl, -⟩ := List.cons.inj hu
        cases hblank
      | cons y ys =>
        obtain ⟨rfl, -⟩ := List.cons.inj hu
        simp
    · cases u with
      | nil =>
        obtain ⟨rfl, -⟩ := List.cons.inj hu
        cases hblank
      | cons y ys =>
        obtain ⟨rfl, -⟩ := List.cons.inj hu
        rw [hs x (by simp)] at hblank
        cases hblank

theorem ofName?_of_bar (h : '|' ∈ s) : Condition.ofName? s = none := Operand.ofName?_eq_none h rfl rfl

theorem trimStart_bar (s t : List Char) : trimStart (s ++ '|' :: t) = trimStart s ++ '|' :: t := by
  unfold trimStart
  rw [List.dropWhile_append]
  split
  · next hempty =>
    rw [List.isEmpty_iff.1 hempty]
    rfl
  · rfl

theorem conditionName_bar (s : List Char) : (∀ t, '|' ∈ (conditionName (s ++ '|' :: t)).1) ∨
    ∃ name length, length ≤ byteLength s ∧ ∀ t, conditionName (s ++ '|' :: t) = (name, length) := by
  cases hsplit : splitFirst isBlank s with
  | none =>
    refine .inl fun t => ?_
    have hmem := mem_word_bar (splitFirst_eq_none hsplit) t
    unfold conditionName
    dsimp only
    split
    · exact List.mem_append_left _ hmem
    · exact hmem
  | some parts =>
    obtain ⟨first, behind⟩ := parts
    obtain ⟨x, rfl, hx, hfirst⟩ := splitFirst_eq_some hsplit
    have hsplit' (t : List Char) :
        splitFirst isBlank ((first ++ x :: behind) ++ '|' :: t) = some (first, behind ++ '|' :: t) := by
      rw [List.append_assoc]
      exact splitFirst_append hfirst hx
    have hsize := x.utf8Size_pos
    cases hnot : sameLetters first "NOT".toList with
    | false =>
      refine .inr ⟨first, byteLength first, ?_, fun t => conditionName_of_word (hsplit' t) hnot⟩
      rw [byteLength_append]
      exact Nat.le_add_right _ _
    | true =>
      cases hbehind : splitFirst isBlank behind with
      | none =>
        refine .inl fun t => ?_
        rw [conditionName_of_not (hsplit' t) hnot]
        exact List.mem_append_right _ (List.mem_cons_of_mem _ (mem_word_bar (splitFirst_eq_none hbehind) t))
      | some parts =>
        obtain ⟨second, rest⟩ := parts
        obtain ⟨y, rfl, hy, hsecond⟩ := splitFirst_eq_some hbehind
        refine .inr ⟨first ++ ' ' :: second, byteLength first + 1 + byteLength second, ?_, fun t => ?_⟩
        · rw [byteLength_append, byteLength_cons, byteLength_append]
          omega
        · have hsecond' : splitFirst isBlank ((second ++ y :: rest) ++ '|' :: t) = some (second, rest ++ '|' :: t) := by
            rw [List.append_assoc]
            exact splitFirst_append hsecond hy
          rw [conditionName_of_not (hsplit' t) hnot, hsecond', Option.getD_some]

theorem readCondition_bar (s : List Char) : (∀ t, ∃ e, readCondition (s ++ '|' :: t) = .error e) ∨
    ∃ c front back, s = front ++ back ∧ ∀ t, readCondition (s ++ '|' :: t) = .ok (c, back ++ '|' :: t) := by
  rcases conditionName_bar s with hbar | ⟨name, length, hlength, hname⟩
  · refine .inl fun t => ⟨.operand ⟨String.ofList (conditionName (s ++ '|' :: t)).1⟩, ?_⟩
    rw [readCondition, ofName?_of_bar (hbar t)]
  · cases hcond : Condition.ofName? name with
    | none =>
      refine .inl fun t => ⟨.operand ⟨String.ofList name⟩, ?_⟩
      rw [readCondition, hname, hcond]
    | some c =>
      obtain ⟨front, back, hsplit, hdrop⟩ := exists_dropBytes hlength
      refine .inr ⟨some c, front ++ back.takeWhile isBlank, trimStart back, ?_, fun t => ?_⟩
      · rw [List.append_assoc, trimStart, List.takeWhile_append_dropWhile, hsplit]
      · rw [readCondition, hname, hcond]
        dsimp only
        rw [hdrop, trimStart_bar]

theorem prefix_of_prefix_bar {start : List Char} (hbar : '|' ∉ start) (h : start <+: s ++ '|' :: t) : start <+: s := by
  rcases List.prefix_or_prefix_of_prefix h (List.prefix_append s ('|' :: t)) with hstart | ⟨u, rfl⟩
  · exact hstart
  · rw [List.prefix_append_right_inj] at h
    cases u with
    | nil => exact ⟨[], by simp⟩
    | cons x u =>
      obtain ⟨rfl, -⟩ := List.cons_prefix_cons.1 h
      exact absurd (by simp) hbar

/-- A predicate that is read in front of a bar does not take the bar. -/
theorem readPredicate_bar (s : List Char) : (∀ t, ∃ e, readPredicate (s ++ '|' :: t) = .error e) ∨
    ∃ c front back, s = front ++ back ∧ ∀ t, readPredicate (s ++ '|' :: t) = .ok (c, back ++ '|' :: t) := by
  by_cases hkeyword : ∃ keyword ∈ keywords, keyword ++ [' '] <+: s
  · obtain ⟨keyword, hmem, rest, rfl⟩ := hkeyword
    have hread (t : List Char) : readPredicate ((keyword ++ [' '] ++ rest) ++ '|' :: t) =
        readCondition (trimStart rest ++ '|' :: t) := by
      rw [← trimStart_bar, ← readPredicate_keyword hmem]
      simp
    rcases readCondition_bar (trimStart rest) with herror | ⟨c, front, back, hsplit, hok⟩
    · exact .inl fun t => by rw [hread]; exact herror t
    · refine .inr ⟨c, keyword ++ [' '] ++ (rest.takeWhile isBlank ++ front), back, ?_, fun t => by rw [hread, hok]⟩
      have hrest : rest.takeWhile isBlank ++ (front ++ back) = rest := by
        rw [← hsplit, trimStart, List.takeWhile_append_dropWhile]
      rw [List.append_assoc (keyword ++ [' ']), List.append_assoc (rest.takeWhile isBlank), hrest]
  · refine .inr ⟨none, [], s, rfl, fun t => ?_⟩
    refine readPredicate_of_no_keyword fun keyword hmem hprefix => hkeyword ⟨keyword, hmem, ?_⟩
    have hbar : '|' ∉ keyword ++ [' '] := by
      rcases List.mem_pair.1 hmem with rfl | rfl <;> decide
    exact prefix_of_prefix_bar hbar hprefix

end Instruction

end QuadDsp
