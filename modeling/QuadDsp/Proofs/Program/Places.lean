import QuadDsp.Proofs.Machine.Reachable

/-! # Places of words

Directives stand between the words of a program, and nothing that runs sees them. The number of a place
counts the words in front of it; the word at a place is the one of that number (`Program.words_number`). In
two programs whose words correspond one by one, the searches for a word end at the same number
(`Program.SamePlace`), wherever the directives stand. -/

namespace QuadDsp

section Lists

variable {α β : Type} {l : List α} {keep test : α → Bool}

/-- Searching among the kept elements ends at the same element, if every element searched for is kept. -/
theorem findIdx?_filter (h : ∀ a, test a = true → keep a = true) (l : List α) :
    (l.filter keep).findIdx? test = (l.findIdx? test).map fun n => (l.take n).countP keep := by
  induction l with
  | nil => rfl
  | cons a l ih =>
    rw [List.findIdx?_cons]
    by_cases htest : test a = true
    · rw [if_pos htest, List.filter_cons_of_pos (h a htest), List.findIdx?_cons, if_pos htest]
      rfl
    · rw [if_neg htest, Option.map_map]
      by_cases hkeep : keep a = true
      · rw [List.filter_cons_of_pos hkeep, List.findIdx?_cons, if_neg htest, ih, Option.map_map]
        refine congrArg (Option.map · _) (funext fun n => ?_)
        simp [List.countP_cons_of_pos hkeep]
      · rw [List.filter_cons_of_neg hkeep, ih]
        refine congrArg (Option.map · _) (funext fun n => ?_)
        simp [List.countP_cons_of_neg hkeep]

theorem filter_around {a : α} {n : Nat} (ha : l[n]? = some a) (hkeep : keep a = true) :
    l.filter keep = (l.take n).filter keep ++ a :: (l.drop (n + 1)).filter keep := by
  obtain ⟨hn, rfl⟩ := List.getElem?_eq_some_iff.1 ha
  conv_lhs => rw [← List.take_append_drop n l, List.drop_eq_getElem_cons hn]
  rw [List.filter_append, List.filter_cons_of_pos hkeep]

theorem exists_of_filter {a : α} {n : Nat} (h : (l.filter keep)[n]? = some a) :
    ∃ idx, l[idx]? = some a ∧ (l.take idx).countP keep = n := by
  induction l generalizing n with
  | nil => cases h
  | cons b l ih =>
    by_cases hkeep : keep b = true
    · rw [List.filter_cons_of_pos hkeep] at h
      cases n with
      | zero => exact ⟨0, h, rfl⟩
      | succ n =>
        obtain ⟨idx, hidx, hn⟩ := ih h
        exact ⟨idx + 1, hidx, by rw [List.take_succ_cons, List.countP_cons_of_pos hkeep, hn]⟩
    · rw [List.filter_cons_of_neg hkeep] at h
      obtain ⟨idx, hidx, hn⟩ := ih h
      exact ⟨idx + 1, hidx, by rw [List.take_succ_cons, List.countP_cons_of_neg hkeep, hn]⟩

theorem findIdx?_eq_of_forall₂ {R : α → β → Prop} {r : List β} {test' : β → Bool} (h : List.Forall₂ R l r)
    (htest : ∀ a b, R a b → test' b = test a) : r.findIdx? test' = l.findIdx? test := by
  induction h with
  | nil => rfl
  | cons hab _ ih => rw [List.findIdx?_cons, List.findIdx?_cons, htest _ _ hab, ih]

end Lists

namespace Program

/-- The number of words in front of a place. -/
def number (p : Program) (idx : Nat) : Nat := (p.instrs.take idx).countP fun i => !i.isDirective

variable {p q : Program} {idx idx' : Nat} {i j : Instruction}

theorem words_around (hi : p.instrs[idx]? = some i) (hword : i.isDirective = false) :
    p.words = (p.instrs.take idx).filter (!·.isDirective) ++
      i :: (p.instrs.drop (idx + 1)).filter (!·.isDirective) :=
  filter_around hi (by rw [hword]; rfl)

theorem length_filter_take : ((p.instrs.take idx).filter (!·.isDirective)).length = p.number idx :=
  List.countP_eq_length_filter.symm

/-- The word at a place is the one of its number. -/
theorem words_number (hi : p.instrs[idx]? = some i) (hword : i.isDirective = false) :
    p.words[p.number idx]? = some i := by
  rw [words_around hi hword, ← length_filter_take, List.getElem?_append_right (Nat.le_refl _), Nat.sub_self]
  rfl

theorem drop_words (hi : p.instrs[idx]? = some i) (hword : i.isDirective = false) :
    p.words.drop (p.number idx + 1) = (p.instrs.drop (idx + 1)).filter (!·.isDirective) := by
  rw [words_around hi hword, ← length_filter_take, List.drop_append]
  simp

theorem number_behind (hi : p.instrs[idx]? = some i) (hword : i.isDirective = false) (n : Nat) :
    p.number (idx + 1 + n) = p.number idx + 1 + ((p.instrs.drop (idx + 1)).take n).countP (!·.isDirective) := by
  obtain ⟨hidx, rfl⟩ := List.getElem?_eq_some_iff.1 hi
  rw [number, number, List.take_add, List.take_succ_eq_append_getElem hidx, List.countP_append, List.countP_append,
    List.countP_singleton, if_pos (by rw [hword]; rfl)]

theorem number_firstWord? (p : Program) : p.firstWord?.map p.number = p.words.findIdx? (!·.isDirective) :=
  (findIdx?_filter (fun _ => id) p.instrs).symm

theorem number_indexOf? (p : Program) (addr : Nat) :
    (p.indexOf? addr).map p.number = p.words.findIdx? fun i => !i.isDirective && i.programAddr == addr :=
  (findIdx?_filter (fun _ hi => (Bool.and_eq_true_iff.1 hi).1) p.instrs).symm

theorem number_nextWord? (hi : p.instrs[idx]? = some i) (hword : i.isDirective = false) :
    (p.nextWord? idx).map p.number =
      ((p.words.drop (p.number idx + 1)).findIdx? (!·.isDirective)).map (p.number idx + 1 + ·) := by
  rw [drop_words hi hword, findIdx?_filter (fun _ => id), nextWord?, Option.map_map, Option.map_map]
  exact congrArg (Option.map · _) (funext fun n => number_behind hi hword n)

theorem number_append {more : List Instruction} (h : q.instrs = p.instrs ++ more) (hidx : idx ≤ p.instrs.length) :
    q.number idx = p.number idx := by
  rw [number, number, h, List.take_append_of_le_length hidx]

theorem number_length (p : Program) : p.number p.instrs.length = p.words.length := by
  rw [number, List.take_length, List.countP_eq_length_filter, words]

theorem number_le (p : Program) (idx : Nat) : p.number idx ≤ p.words.length := by
  rw [words, ← List.countP_eq_length_filter]
  exact (List.take_sublist idx p.instrs).countP_le

theorem isDirective_of_words {n : Nat} (h : p.words[n]? = some i) : i.isDirective = false := by
  simpa using (List.mem_filter.1 (List.mem_of_getElem? h)).2

theorem exists_of_words {n : Nat} (h : p.words[n]? = some i) :
    ∃ idx, p.instrs[idx]? = some i ∧ i.isDirective = false ∧ p.number idx = n := by
  obtain ⟨idx, hidx, hn⟩ := exists_of_filter h
  exact ⟨idx, hidx, isDirective_of_words h, hn⟩

theorem number_of_nextWord? (hi : p.instrs[idx]? = some i) (hword : i.isDirective = false)
    (h : p.nextWord? idx = some idx') : p.number idx' = p.number idx + 1 := by
  have hmap := number_nextWord? hi hword
  rw [h, Option.map_some, eq_comm, Option.map_eq_some_iff] at hmap
  obtain ⟨n, hn, hnumber⟩ := hmap
  obtain ⟨hlt, -, hfirst⟩ := List.findIdx?_eq_some_iff_getElem.1 hn
  cases n with
  | zero => omega
  | succ n =>
    -- no word stands in front of the first one
    refine absurd ?_ (hfirst 0 (Nat.succ_pos n))
    rw [List.getElem_drop, isDirective_of_words (List.getElem?_eq_getElem _)]
    rfl

theorem length_words_le (hi : p.instrs[idx]? = some i) (hword : i.isDirective = false) (h : p.nextWord? idx = none) :
    p.words.length ≤ p.number idx + 1 := by
  have hmap := number_nextWord? hi hword
  rw [h, Option.map_none, eq_comm, Option.map_eq_none_iff, List.findIdx?_eq_none_iff] at hmap
  by_contra hle
  have hlt : p.number idx + 1 < p.words.length := Nat.lt_of_not_le hle
  have hget := List.getElem?_eq_getElem hlt
  have hmem : p.words[p.number idx + 1] ∈ p.words.drop (p.number idx + 1) := by
    rw [List.drop_eq_getElem_cons hlt]
    exact List.mem_cons_self
  have hdir := hmap _ hmem
  rw [isDirective_of_words hget] at hdir
  cases hdir

theorem number_lt_number (hi : p.instrs[idx]? = some i) (hword : i.isDirective = false) (h : idx < idx') :
    p.number idx < p.number idx' := by
  obtain ⟨n, rfl⟩ := Nat.exists_eq_add_of_lt h
  rw [show idx + n + 1 = idx + 1 + n by omega, number_behind hi hword]
  omega

theorem eq_of_number (hidx : p.IsWord idx) (hidx' : p.IsWord idx') (h : p.number idx = p.number idx') :
    idx = idx' := by
  obtain ⟨i, hi, hword⟩ := hidx
  obtain ⟨j, hj, hword'⟩ := hidx'
  rcases Nat.lt_trichotomy idx idx' with hlt | heq | hlt
  · exact absurd h (Nat.ne_of_lt (number_lt_number hi hword hlt))
  · exact heq
  · exact absurd h.symm (Nat.ne_of_lt (number_lt_number hj hword' hlt))

/-- Places of words are the same, if their numbers are. -/
theorem eq_of_map_number {place place' : Option Nat} (hword : ∀ idx, place = some idx → p.IsWord idx)
    (hword' : ∀ idx, place' = some idx → p.IsWord idx) (h : place.map p.number = place'.map p.number) :
    place = place' := by
  cases place with
  | none =>
    cases place' with
    | none => rfl
    | some idx' => cases h
  | some idx =>
    cases place' with
    | none => cases h
    | some idx' => exact congrArg some (eq_of_number (hword idx rfl) (hword' idx' rfl) (Option.some.inj h))

theorem Ran.words (h : p.Ran q) : List.Forall₂ Instruction.Reran p.words q.words :=
  List.rel_filter (fun i j hij => by simp [hij.isDirective]) h.instrs

theorem Ran.number (h : p.Ran q) (idx : Nat) : q.number idx = p.number idx := by
  have hfront := List.forall₂_take idx h.instrs
  rw [← length_filter_take, ← length_filter_take]
  exact (List.Forall₂.length_eq (List.rel_filter (fun i j hij => by simp [hij.isDirective]) hfront)).symm

theorem Ran.indexOf? (h : p.Ran q) (addr : Nat) : q.indexOf? addr = p.indexOf? addr :=
  findIdx?_eq_of_forall₂ h.instrs fun i j hij => by rw [hij.isDirective, hij.programAddr]

theorem Ran.nextWord? (h : p.Ran q) (idx : Nat) : q.nextWord? idx = p.nextWord? idx :=
  congrArg (Option.map _) (findIdx?_eq_of_forall₂ (List.forall₂_drop (idx + 1) h.instrs) fun i j hij => by
    rw [hij.isDirective])

theorem Ran.loopCondition (h : p.Ran q) (first : Nat) : q.loopCondition first = p.loopCondition first := by
  have hoperands (addr : Nat) : (q.wordAt? addr).bind (·.operands[1]?) = (p.wordAt? addr).bind (·.operands[1]?) := by
    rw [show q.wordAt? addr = (q.indexOf? addr).bind (q.instrs[·]?) from rfl, h.indexOf?]
    rw [show p.wordAt? addr = (p.indexOf? addr).bind (p.instrs[·]?) from rfl]
    cases hindex : p.indexOf? addr with
    | none => rfl
    | some idx =>
      obtain ⟨i, hi, -⟩ := isWord_of_indexOf? hindex
      obtain ⟨j, hj, hij⟩ := exists_getElem?_of_forall₂ h.instrs.flip hi
      have hij : i.Reran j := hij
      simp only [Option.bind_some, hi, hj]
      rw [hij]
  unfold Program.loopCondition
  rw [hoperands]

/-- Places of two programs with words of the same number, or no places. -/
inductive SamePlace (p q : Program) : Option Nat → Option Nat → Prop
  | none : SamePlace p q none none
  | some {idx idx' : Nat} {i j : Instruction} (hi : p.instrs[idx]? = some i) (hword : i.isDirective = false)
      (hj : q.instrs[idx']? = some j) (hword' : j.isDirective = false) (hnumber : q.number idx' = p.number idx) :
      SamePlace p q (some idx) (some idx')

theorem samePlace_of_map {place place' : Option Nat} (hword : ∀ idx, place = some idx → p.IsWord idx)
    (hword' : ∀ idx, place' = some idx → q.IsWord idx) (h : place'.map q.number = place.map p.number) :
    p.SamePlace q place place' := by
  cases place with
  | none =>
    cases place' with
    | none => exact .none
    | some idx' => cases h
  | some idx =>
    cases place' with
    | none => cases h
    | some idx' =>
      obtain ⟨i, hi, hdir⟩ := hword idx rfl
      obtain ⟨j, hj, hdir'⟩ := hword' idx' rfl
      exact .some hi hdir hj hdir' (Option.some.inj h)

/-- Two programs whose words correspond. -/
structure Corresponds (R : Instruction → Instruction → Prop) (p q : Program) : Prop where
  words : List.Forall₂ R p.words q.words
  addr : ∀ i j, R i j → j.programAddr = i.programAddr

namespace Corresponds

variable {R : Instruction → Instruction → Prop} (h : Corresponds R p q)

include h

theorem related (hi : p.instrs[idx]? = some i) (hword : i.isDirective = false) (hj : q.instrs[idx']? = some j)
    (hword' : j.isDirective = false) (hnumber : q.number idx' = p.number idx) : R i j := by
  obtain ⟨hn, rfl⟩ := List.getElem?_eq_some_iff.1 (words_number hi hword)
  obtain ⟨hn', rfl⟩ := List.getElem?_eq_some_iff.1 (words_number hj hword')
  have hrel := h.words.get hn (hnumber ▸ hn')
  simpa [hnumber] using hrel

theorem words_and :
    List.Forall₂ (fun i j => R i j ∧ i.isDirective = false ∧ j.isDirective = false) p.words q.words := by
  rw [List.forall₂_iff_get]
  refine ⟨h.words.length_eq, fun n hn hn' => ⟨h.words.get hn hn', ?_, ?_⟩⟩
  · simpa using (List.mem_filter.1 (List.get_mem p.words ⟨n, hn⟩)).2
  · simpa using (List.mem_filter.1 (List.get_mem q.words ⟨n, hn'⟩)).2

theorem samePlace_firstWord? : p.SamePlace q p.firstWord? q.firstWord? := by
  refine samePlace_of_map (fun _ => isWord_of_firstWord?) (fun _ => isWord_of_firstWord?) ?_
  rw [number_firstWord?, number_firstWord?]
  exact findIdx?_eq_of_forall₂ h.words_and fun i j hij => by rw [hij.2.1, hij.2.2]

theorem samePlace_indexOf? (addr : Nat) : p.SamePlace q (p.indexOf? addr) (q.indexOf? addr) := by
  refine samePlace_of_map (fun _ => isWord_of_indexOf?) (fun _ => isWord_of_indexOf?) ?_
  rw [number_indexOf?, number_indexOf?]
  exact findIdx?_eq_of_forall₂ h.words_and fun i j hij => by rw [h.addr i j hij.1, hij.2.1, hij.2.2]

theorem samePlace_nextWord? (hi : p.instrs[idx]? = some i) (hword : i.isDirective = false)
    (hj : q.instrs[idx']? = some j) (hword' : j.isDirective = false) (hnumber : q.number idx' = p.number idx) :
    p.SamePlace q (p.nextWord? idx) (q.nextWord? idx') := by
  refine samePlace_of_map (fun _ => isWord_of_nextWord?) (fun _ => isWord_of_nextWord?) ?_
  rw [number_nextWord? hj hword', number_nextWord? hi hword, hnumber]
  refine congrArg (Option.map _) (findIdx?_eq_of_forall₂ (List.forall₂_drop _ h.words_and) fun i j hij => ?_)
  rw [hij.2.1, hij.2.2]

end Corresponds

end Program

end QuadDsp
