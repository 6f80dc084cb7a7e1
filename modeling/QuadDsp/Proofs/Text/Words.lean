import QuadDsp.Proofs.Text.Integers

/-! # Words between blanks

A blank parts the words in front of it from those behind it (`words_append_blank`), so columns fall into their words
again, whatever they are padded with. A number that is written is one word, and the readers of numerals give the number
back (`readInt_decimalInt`, `readNat_decimal`, `readNat_hexUpper`). -/

namespace QuadDsp.Text

variable {base bits n : Nat} {s t : List Char}

theorem words_append_blank (s t : List Char) : words (s ++ ' ' :: t) = words s ++ words t := by
  rw [words, cut_append_append rfl, List.filter_append]
  rfl

theorem words_replicate_append (n : Nat) (s : List Char) : words (List.replicate n ' ' ++ s) = words s := by
  induction n with
  | zero => rfl
  | succ n ih =>
    rw [List.replicate_succ, List.cons_append]
    exact (words_append_blank [] _).trans ih

theorem words_append_replicate (n : Nat) (s : List Char) : words (s ++ List.replicate n ' ') = words s := by
  cases n with
  | zero => rw [List.replicate_zero, List.append_nil]
  | succ n =>
    have hblank : words (List.replicate n ' ') = [] := by
      rw [← List.append_nil (List.replicate n ' '), words_replicate_append]
      rfl
    rw [List.replicate_succ, words_append_blank, hblank, List.append_nil]

/-! ### Columns -/

theorem words_space (a b : String) : words (a ++ " " ++ b).toList = words a.toList ++ words b.toList := by
  rw [String.toList_append, String.toList_append, List.append_assoc]
  exact words_append_blank _ _

theorem words_padLeft (width : Nat) (a : String) : words (padLeft width a).toList = words a.toList := by
  rw [padLeft, String.toList_append, String.toList_ofList]
  exact words_replicate_append _ _

theorem words_padRight (width : Nat) (a : String) : words (padRight width a).toList = words a.toList := by
  rw [padRight, String.toList_append, String.toList_ofList]
  exact words_append_replicate _ _

theorem words_append_join (a : String) (bs : List String) :
    words (a ++ String.join (bs.map fun b => " " ++ b)).toList =
      words a.toList ++ bs.flatMap fun b => words b.toList := by
  rw [String.toList_append, String.toList_join]
  induction bs generalizing a with
  | nil => simp
  | cons b rest ih =>
    have hnext := ih (a ++ " " ++ b)
    rw [words_space, List.append_assoc] at hnext
    rw [List.flatMap_cons, ← hnext]
    simp

/-- At least one character, and no blank among them. -/
structure IsWord (s : List Char) : Prop where
  ne_nil : s ≠ []
  notBlank : ∀ c ∈ s, isBlank c = false

theorem IsWord.append (hs : IsWord s) (ht : IsWord t) : IsWord (s ++ t) :=
  ⟨List.append_ne_nil_of_left_ne_nil hs.ne_nil t, List.forall_mem_append.2 ⟨hs.notBlank, ht.notBlank⟩⟩

theorem IsWord.words_eq (h : IsWord s) : words s = [s] := by
  rw [words, cut_of_forall h.notBlank]
  exact List.filter_eq_self.2 (by simp [h.ne_nil])

theorem IsWord.trimmed (hs : IsWord s) (ht : IsWord t) (between : List Char) : Trimmed (s ++ (between ++ t)) where
  head := by
    rw [List.head?_append_of_ne_nil _ hs.ne_nil]
    exact fun c hc => hs.notBlank c (List.mem_of_mem_head? hc)
  last := by
    rw [← List.append_assoc, List.getLast?_append_of_ne_nil _ ht.ne_nil]
    exact fun c hc => ht.notBlank c (List.mem_of_getLast? hc)

theorem isWord_join {a : String} (ha : IsWord a.toList) {ss : List String} (hne : ss ≠ [])
    (h : ∀ b ∈ ss, IsWord b.toList) : IsWord (join a ss).toList := by
  induction ss with
  | nil => exact absurd rfl hne
  | cons b rest ih =>
    obtain ⟨hb, hrest⟩ := List.forall_mem_cons.1 h
    cases rest with
    | nil => exact hb
    | cons c rest =>
      show IsWord (b ++ a ++ join a (c :: rest)).toList
      rw [String.toList_append, String.toList_append]
      exact (hb.append ha).append (ih (List.cons_ne_nil _ _) hrest)

theorem flatMap_words {ss : List String} (h : ∀ a ∈ ss, IsWord a.toList) :
    (ss.flatMap fun a => words a.toList) = ss.map String.toList := by
  induction ss with
  | nil => rfl
  | cons a rest ih =>
    obtain ⟨ha, hrest⟩ := List.forall_mem_cons.1 h
    rw [List.flatMap_cons, ha.words_eq, ih hrest]
    rfl

/-! ### Numbers -/

theorem isWord_decimal (n : Nat) : IsWord (decimal n).toList := by
  rw [decimal, String.toList_ofList]
  exact ⟨digits_ne_nil 10 n, not_isBlank_digits (by decide) (by decide) n⟩

theorem hexUpper_ne_nil (width n : Nat) : (hexUpper width n).toList ≠ [] := by
  rw [hexUpper, String.toList_ofList]
  refine List.append_ne_nil_of_right_ne_nil _ ?_
  simpa using digits_ne_nil 16 n

theorem isWord_hexUpper (width n : Nat) : IsWord (hexUpper width n).toList :=
  ⟨hexUpper_ne_nil width n, forall_hexUpper (by decide) width n⟩

theorem numeral_digits (h2 : 2 ≤ base) (h16 : base ≤ 16) (n : Nat) : Numeral base (digits base n) n :=
  have hread := magnitude_digits .tooLarge h2 h16 (Nat.le_refl n)
  ((magnitude_zero_eq_ok_iff (Nat.lt_of_lt_of_le Nat.zero_lt_two h2) (digits_ne_nil base n)).1 hread).1

theorem signed_decimalInt (v : Int) : Signed (Numeral 10) (decimalInt v).toList v := by
  have hnumeral := numeral_digits (by decide) (by decide : 10 ≤ 16) v.natAbs
  by_cases hv : v < 0
  · rw [decimalInt_of_neg hv, signed_minus_iff]
    rwa [show -v = (v.natAbs : Int) by omega]
  · have hsign :=
      forall_digits (by decide) (by decide) (by decide : ∀ c ∈ digitChars.take 10, isSign c = false) v.natAbs
    rw [decimalInt_of_nonneg hv, signed_plain_iff fun c hc => hsign c (List.mem_of_mem_head? hc)]
    rwa [show v = (v.natAbs : Int) by omega]

theorem readInt_decimalInt {v : Int} (h : Fits bits v) : readInt 10 bits (decimalInt v).toList = .ok v :=
  (readInt_eq_ok_iff (by decide)).2 ⟨signed_decimalInt v, h⟩

theorem readNat_decimal (h : n < span bits) : readNat 10 bits (decimal n).toList = .ok n := by
  rw [decimal, String.toList_ofList]
  exact readNat_digits (by decide) (by decide) h

theorem magnitude_replicate {limit : Nat} {excess : NumeralFault} (hbase : 0 < base) (k : Nat) (ds : List Char) :
    magnitude base limit excess 0 (List.replicate k '0' ++ ds) = magnitude base limit excess 0 ds := by
  have hzero : digit? base '0' = some 0 := by simp [digit?, hbase]
  induction k with
  | zero => rfl
  | succ k ih =>
    rw [List.replicate_succ, List.cons_append, magnitude, hzero]
    simpa using ih

theorem readNat_hexUpper (width : Nat) (h : n < span bits) : readNat 16 bits (hexUpper width n).toList = .ok n := by
  have hplus : ∀ c ∈ (hexUpper width n).toList, c ≠ '+' := forall_hexUpper (by decide) width n
  rw [readNat_of_forall (hexUpper_ne_nil width n) hplus, hexUpper, String.toList_ofList,
    magnitude_replicate (by decide)]
  show magnitude 16 (span bits - 1) .tooLarge 0 (upper (digits 16 n)) = .ok n
  rw [magnitude_upper fun c hc => List.mem_of_mem_take (mem_digits (by decide) (by decide) c hc)]
  exact magnitude_digits _ (by decide) (by decide) (Nat.le_sub_one_of_lt h)

end QuadDsp.Text
