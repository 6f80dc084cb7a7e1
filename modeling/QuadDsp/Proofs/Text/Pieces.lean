import Mathlib.Data.List.Basic
import Mathlib.Data.List.TakeWhile
import QuadDsp.Text.Blank
import QuadDsp.Text.Numeral

/-! # Cutting up what was put together

A reader finds the pieces that a text was put together from as long as none of them holds what it cuts at.
Numerals read back (`readNat_digits`, `readInt_of_forall`), in capitals too (`magnitude_upper`), and hold
nothing but digits (`mem_digits`). Where a text is replaced, characters that the separator does not have stay where they
are (`replaceText_append_cons`). -/

namespace QuadDsp.Text

-- A statement about the characters of a text can also be decided by trying every character there is, which
-- does not end in reasonable time.
instance (priority := 2000) decidableForallMem (s : List Char) (p : Char → Prop) [DecidablePred p] :
    Decidable (∀ c ∈ s, p c) := List.decidableBAll p s

instance (priority := 2000) decidableForallMemOption (o : Option Char) (p : Char → Prop) [DecidablePred p] :
    Decidable (∀ c ∈ o, p c) := o.decidableForallMem

/-! ### Blanks -/

/-- No blank at either end. -/
structure Trimmed (s : List Char) : Prop where
  head : ∀ c ∈ s.head?, isBlank c = false
  last : ∀ c ∈ s.getLast?, isBlank c = false

theorem dropWhile_eq_self {p : Char → Bool} {s : List Char} (h : ∀ c ∈ s.head?, p c = false) :
    s.dropWhile p = s := by
  cases s with
  | nil => rfl
  | cons c cs => rw [List.dropWhile_cons_of_neg (by simp [h c rfl])]

theorem dropEnd_eq_self {p : Char → Bool} {s : List Char} (h : ∀ c ∈ s.getLast?, p c = false) :
    dropEnd p s = s := by
  rw [dropEnd, dropWhile_eq_self (by simpa using h), List.reverse_reverse]

theorem trim_eq_self {s : List Char} (h : Trimmed s) : trim s = s := by
  rw [trim, trimStart, dropWhile_eq_self h.head, trimEnd, dropEnd_eq_self h.last]

theorem trim_blank_cons (s : List Char) : trim (' ' :: s) = trim s := rfl

theorem dropEnd_append_singleton {p : Char → Bool} {c : Char} (hc : p c = true) (s : List Char) :
    dropEnd p (s ++ [c]) = dropEnd p s := by
  rw [dropEnd, List.reverse_append, List.reverse_singleton, List.singleton_append,
    List.dropWhile_cons_of_pos hc, dropEnd]

theorem trim_append_blank {s : List Char} (h : Trimmed s) : trim (s ++ [' ']) = s := by
  cases s with
  | nil => rfl
  | cons c cs =>
    have hstart : trimStart (c :: cs ++ [' ']) = c :: cs ++ [' '] :=
      dropWhile_eq_self (s := c :: cs ++ [' ']) h.head
    rw [trim, hstart, trimEnd, dropEnd_append_singleton rfl, dropEnd_eq_self h.last]

theorem Trimmed.of_forall {s : List Char} (h : ∀ c ∈ s, isBlank c = false) : Trimmed s :=
  ⟨fun c hc => h c (List.mem_of_mem_head? hc), fun c hc => h c (List.mem_of_getLast? hc)⟩

theorem mem_dropWhile {p : Char → Bool} {c : Char} {s : List Char} (hc : p c = false) (h : c ∈ s) :
    c ∈ s.dropWhile p := by
  rw [← List.takeWhile_append_dropWhile (p := p) (l := s), List.mem_append] at h
  refine h.resolve_left fun htake => ?_
  rw [List.mem_takeWhile_imp htake] at hc
  cases hc

theorem dropEnd_prefix (p : Char → Bool) (s : List Char) : dropEnd p s <+: s := by
  rw [dropEnd, ← List.reverse_suffix, List.reverse_reverse]
  exact List.dropWhile_suffix p

theorem mem_dropEnd {p : Char → Bool} {c : Char} {s : List Char} (hc : p c = false) (h : c ∈ s) : c ∈ dropEnd p s :=
  List.mem_reverse.2 (mem_dropWhile hc (List.mem_reverse.2 h))

theorem mem_trim {c : Char} {s : List Char} (hc : isBlank c = false) (h : c ∈ s) : c ∈ trim s :=
  mem_dropEnd hc (mem_dropWhile hc h)

theorem getLast?_append_flatMap {α : Type} {f : α → List Char} {s : List Char} {l : List α} (h : ∀ x ∈ l, f x ≠ []) :
    (s ++ l.flatMap f).getLast? = s.getLast? ∨ ∃ x ∈ l, (s ++ l.flatMap f).getLast? = (f x).getLast? := by
  induction l generalizing s with
  | nil => exact .inl (congrArg List.getLast? (List.append_nil s))
  | cons x rest ih =>
    obtain ⟨hx, hrest⟩ := List.forall_mem_cons.1 h
    rw [List.flatMap_cons, ← List.append_assoc]
    rcases ih (s := s ++ f x) hrest with hlast | ⟨y, hy, hlast⟩
    · exact .inr ⟨x, List.mem_cons_self, hlast.trans (List.getLast?_append_of_ne_nil _ hx)⟩
    · exact .inr ⟨y, List.mem_cons_of_mem _ hy, hlast⟩

/-! ### Capitals -/

theorem toNat_toUpper (c : Char) :
    c.toUpper.toNat = if 97 ≤ c.toNat ∧ c.toNat ≤ 122 then c.toNat - 32 else c.toNat := by
  unfold Char.toUpper
  split
  · next h =>
    have hlow : 97 ≤ c.toNat := UInt32.le_iff_toNat_le.1 h.1
    have hhigh : c.toNat ≤ 122 := UInt32.le_iff_toNat_le.1 h.2
    rw [if_pos ⟨hlow, hhigh⟩]
    show (c.val + ('A'.val - 'a'.val)).toNat = _
    have hval : c.val.toNat = c.toNat := rfl
    have hshift : ('A'.val - 'a'.val).toNat = 4294967264 := rfl
    rw [UInt32.toNat_add, hval, hshift]
    omega
  · next h =>
    rw [if_neg]
    rintro ⟨hlow, hhigh⟩
    exact h ⟨UInt32.le_iff_toNat_le.2 hlow, UInt32.le_iff_toNat_le.2 hhigh⟩

theorem isBlank_toUpper (c : Char) : isBlank c.toUpper = isBlank c := by
  rw [Bool.eq_iff_iff]
  simp only [isBlank, toNat_toUpper, Bool.or_eq_true, Bool.and_eq_true, decide_eq_true_eq, beq_iff_eq]
  split_ifs <;> omega

/-! ### Separators -/

theorem splitFirst_append {p : Char → Bool} {s t : List Char} {c : Char} (hs : ∀ x ∈ s, p x = false)
    (hc : p c = true) : splitFirst p (s ++ c :: t) = some (s, t) := by
  have hnot : ∀ x ∈ s, (!p x) = true := fun x hx => by rw [hs x hx]; rfl
  rw [splitFirst, List.dropWhile_append_of_pos hnot, List.takeWhile_append_of_pos hnot]
  simp [hc]

theorem splitFirst_of_forall {p : Char → Bool} {s : List Char} (hs : ∀ x ∈ s, p x = false) :
    splitFirst p s = none := by
  have hnil : s.dropWhile (fun c => !p c) = [] := List.dropWhile_eq_nil_iff.2 fun x hx => by rw [hs x hx]; rfl
  rw [splitFirst, hnil]

theorem cut_of_forall {p : Char → Bool} {s : List Char} (hs : ∀ x ∈ s, p x = false) : cut p s = [s] := by
  induction s with
  | nil => rfl
  | cons c cs ih =>
    obtain ⟨hc, hcs⟩ := List.forall_mem_cons.1 hs
    rw [cut, hc, if_neg Bool.false_ne_true, ih hcs]
    rfl

theorem cut_append_append {p : Char → Bool} {c : Char} (hc : p c = true) (s t : List Char) :
    cut p (s ++ c :: t) = cut p s ++ cut p t := by
  induction s with
  | nil => exact if_pos hc
  | cons x xs ih =>
    rw [List.cons_append, cut, cut, ih]
    split
    · rfl
    · obtain ⟨piece, rest, hcut⟩ := List.exists_cons_of_ne_nil (cut_ne_nil p xs)
      rw [hcut]
      rfl

theorem cut_append {p : Char → Bool} {s t : List Char} {c : Char} (hs : ∀ x ∈ s, p x = false) (hc : p c = true) :
    cut p (s ++ c :: t) = s :: cut p t := by
  rw [cut_append_append hc, cut_of_forall hs]
  rfl

theorem cut_eq_singleton {p : Char → Bool} {s t : List Char} (h : cut p s = [t]) : t = s ∧ ∀ x ∈ s, p x = false := by
  induction s generalizing t with
  | nil =>
    cases h
    exact ⟨rfl, List.forall_mem_nil _⟩
  | cons c cs ih =>
    rw [cut] at h
    split at h
    · exact absurd (List.cons.inj h).2 (cut_ne_nil p cs)
    · next hc =>
      obtain ⟨piece, rest, hcut⟩ := List.exists_cons_of_ne_nil (cut_ne_nil p cs)
      rw [hcut] at h
      cases h
      obtain ⟨rfl, hcs⟩ := ih hcut
      exact ⟨rfl, List.forall_mem_cons.2 ⟨Bool.eq_false_iff.2 hc, hcs⟩⟩

/-- Every `a` in the text is followed by a character that is allowed there. -/
def followed (a : Char) (p : Char → Bool) : List Char → Bool
  | [] => true
  | c :: cs => (c != a || cs.head?.any p) && followed a p cs

theorem followed_of_notMem {a : Char} {p : Char → Bool} {s : List Char} (h : a ∉ s) : followed a p s = true := by
  induction s with
  | nil => rfl
  | cons c cs ih =>
    obtain ⟨hc, hcs⟩ := List.ne_and_not_mem_of_not_mem_cons h
    rw [followed, ih hcs, Bool.and_true, bne_iff_ne.2 (Ne.symm hc), Bool.true_or]

theorem followed_append {a : Char} {p : Char → Bool} {s t : List Char} (hs : followed a p s = true)
    (ht : followed a p t = true) : followed a p (s ++ t) = true := by
  induction s with
  | nil => exact ht
  | cons c cs ih =>
    rw [followed, Bool.and_eq_true] at hs
    rw [List.cons_append, followed, ih hs.2, Bool.and_true]
    cases cs with
    | nil =>
      have hc : (c != a) = true := by simpa using hs.1
      rw [hc, Bool.true_or]
    | cons d ds => exact hs.1

theorem followed_mono {a : Char} {p q : Char → Bool} (hpq : ∀ c, p c = true → q c = true) {s : List Char}
    (h : followed a p s = true) : followed a q s = true := by
  induction s with
  | nil => rfl
  | cons c cs ih =>
    rw [followed, Bool.and_eq_true, Bool.or_eq_true] at h ⊢
    refine ⟨h.1.imp_right fun hhead => ?_, ih h.2⟩
    cases cs with
    | nil => cases hhead
    | cons d ds => exact hpq d hhead

theorem followed_of_append {a : Char} {p : Char → Bool} {s t : List Char} (h : followed a p (s ++ t) = true) :
    followed a p t = true := by
  induction s with
  | nil => exact h
  | cons x xs ih =>
    rw [List.cons_append, followed, Bool.and_eq_true] at h
    exact ih h.2

theorem head_of_followed {a c : Char} {p : Char → Bool} {s t : List Char} (h : followed a p (s ++ a :: c :: t) = true) :
    p c = true := by
  have hback := followed_of_append h
  rw [followed, Bool.and_eq_true] at hback
  simpa using hback.1

section Split

variable {a : Char} {sep s t : List Char}

theorem splitOnText_of_notMem (h : a ∉ s) : splitOnText (a :: sep) 0 s = [s] := by
  induction s with
  | nil => rfl
  | cons c cs ih =>
    obtain ⟨hc, hcs⟩ := List.ne_and_not_mem_of_not_mem_cons h
    have hno : (a :: sep).isPrefixOf (c :: cs) = false := by simp [List.isPrefixOf, hc]
    rw [splitOnText, hno, if_neg Bool.false_ne_true, ih hcs]
    rfl

theorem splitOnText_skip (n : Nat) (h : s.length = n) : splitOnText sep n (s ++ t) = splitOnText sep 0 t := by
  induction s generalizing n with
  | nil =>
    rw [← h]
    rfl
  | cons c cs ih =>
    rw [← h, List.length_cons, List.cons_append, splitOnText]
    exact ih _ rfl

theorem splitOnText_append (h : a ∉ s) :
    splitOnText (a :: sep) 0 (s ++ (a :: sep ++ t)) = s :: splitOnText (a :: sep) 0 t := by
  induction s with
  | nil =>
    have hstart : (a :: sep).isPrefixOf (a :: (sep ++ t)) = true := by simp
    have hskip : (a :: sep).length - 1 = sep.length := rfl
    rw [List.nil_append, List.cons_append, splitOnText, if_pos hstart, hskip, splitOnText_skip _ rfl]
  | cons c cs ih =>
    obtain ⟨hc, hcs⟩ := List.ne_and_not_mem_of_not_mem_cons h
    have hno : (a :: sep).isPrefixOf (c :: (cs ++ (a :: sep ++ t))) = false := by simp [List.isPrefixOf, hc]
    rw [List.cons_append, splitOnText, hno, if_neg Bool.false_ne_true, ih hcs]
    rfl

end Split

/-! ### Replacement -/

section Replace

variable {a b c : Char} {sep new s t : List Char}

theorem splitOnText_ne_nil (sep : List Char) (n : Nat) (s : List Char) : splitOnText sep n s ≠ [] := by
  induction s generalizing n with
  | nil => cases n <;> exact List.cons_ne_nil _ _
  | cons c cs ih =>
    cases n with
    | zero =>
      rw [splitOnText]
      split
      · exact List.cons_ne_nil _ _
      · unfold consFirst
        split <;> exact List.cons_ne_nil _ _
    | succ n => exact ih n

/-- What is left to replace behind `n` characters of a separator. -/
def replaceFrom (sep new : List Char) (n : Nat) (s : List Char) : List Char := new.intercalate (splitOnText sep n s)

theorem replaceFrom_nil (sep new : List Char) (n : Nat) : replaceFrom sep new n [] = [] := by
  cases n <;> simp [replaceFrom, splitOnText, List.intercalate]

theorem replaceFrom_zero (sep new : List Char) (c : Char) (s : List Char) :
    replaceFrom sep new 0 (c :: s) =
      if sep.isPrefixOf (c :: s) then new ++ replaceFrom sep new (sep.length - 1) s
      else c :: replaceFrom sep new 0 s := by
  rw [replaceFrom, splitOnText]
  split
  · obtain ⟨x, xs, hsplit⟩ := List.exists_cons_of_ne_nil (splitOnText_ne_nil sep (sep.length - 1) s)
    rw [replaceFrom, hsplit]
    cases xs <;> simp [List.intercalate]
  · obtain ⟨x, xs, hsplit⟩ := List.exists_cons_of_ne_nil (splitOnText_ne_nil sep 0 s)
    rw [replaceFrom, hsplit]
    cases xs <;> simp [List.intercalate, consFirst]

theorem replaceFrom_append_cons (hne : sep ≠ []) (hc : c ∉ sep) {n : Nat} (hn : n ≤ s.length) :
    replaceFrom sep new n (s ++ c :: t) = replaceFrom sep new n s ++ c :: replaceFrom sep new 0 t := by
  induction s generalizing n with
  | nil =>
    obtain rfl : n = 0 := Nat.le_zero.1 hn
    have hno : ¬sep.isPrefixOf (c :: t) = true := by
      rw [List.isPrefixOf_iff_prefix]
      intro hstart
      obtain ⟨d, ds, rfl⟩ := List.exists_cons_of_ne_nil hne
      obtain ⟨rfl, -⟩ := List.cons_prefix_cons.1 hstart
      exact hc List.mem_cons_self
    rw [List.nil_append, replaceFrom_zero, if_neg hno, replaceFrom_nil, List.nil_append]
  | cons d ds ih =>
    cases n with
    | succ n => exact ih (Nat.le_of_succ_le_succ hn)
    | zero =>
      -- an occurrence of the separator does not reach the character
      have hstart : sep.isPrefixOf (d :: (ds ++ c :: t)) = true ↔ sep.isPrefixOf (d :: ds) = true := by
        rw [List.isPrefixOf_iff_prefix, List.isPrefixOf_iff_prefix]
        refine ⟨fun h => ?_, fun h => h.trans (List.prefix_append (d :: ds) _)⟩
        obtain ⟨u, hu⟩ := h
        rcases List.append_eq_append_iff.1 (show sep ++ u = (d :: ds) ++ c :: t from hu) with ⟨v, hv, -⟩ | ⟨v, hv, hc'⟩
        · exact ⟨v, hv.symm⟩
        · cases v with
          | nil => exact ⟨[], by rw [hv]; simp⟩
          | cons x xs =>
            obtain ⟨rfl, -⟩ := List.cons.inj hc'
            exact absurd (hv ▸ by simp) hc
      rw [List.cons_append, replaceFrom_zero, replaceFrom_zero]
      simp only [hstart]
      split
      · next hsep =>
        have hlength : sep.length - 1 ≤ ds.length := by
          have := (List.isPrefixOf_iff_prefix.1 hsep).length_le
          rw [List.length_cons] at this
          omega
        rw [ih hlength, List.append_assoc]
      · rw [ih (Nat.zero_le _), List.cons_append]

theorem replaceText_append_cons (hne : sep ≠ []) (hc : c ∉ sep) :
    replaceText sep new (s ++ c :: t) = replaceText sep new s ++ c :: replaceText sep new t :=
  replaceFrom_append_cons hne hc (Nat.zero_le _)

/-- Where each first character of the separator is followed by another one than its second, nothing is replaced. -/
theorem replaceText_append_of_followed (h : followed a (· != b) s = true) :
    replaceText (a :: b :: sep) new (s ++ t) = s ++ replaceText (a :: b :: sep) new t := by
  induction s with
  | nil => rfl
  | cons c cs ih =>
    rw [followed, Bool.and_eq_true, Bool.or_eq_true] at h
    have hno : ¬(a :: b :: sep).isPrefixOf (c :: (cs ++ t)) = true := by
      rcases h.1 with hc | hc
      · simp [List.isPrefixOf, Ne.symm (bne_iff_ne.1 hc)]
      · cases cs with
        | nil => cases hc
        | cons d ds => simp [List.isPrefixOf, Ne.symm (bne_iff_ne.1 hc : d ≠ b)]
    rw [List.cons_append]
    refine (replaceFrom_zero _ _ _ _).trans ?_
    rw [if_neg hno]
    exact congrArg (c :: ·) (ih h.2)

theorem replaceText_sep_append : replaceText (a :: sep) new (a :: sep ++ t) = new ++ replaceText (a :: sep) new t := by
  have hstart : (a :: sep).isPrefixOf (a :: (sep ++ t)) = true := by simp
  rw [List.cons_append]
  refine (replaceFrom_zero _ _ _ _).trans ?_
  rw [if_pos hstart, replaceFrom, replaceText]
  exact congrArg (fun pieces => new ++ new.intercalate pieces) (splitOnText_skip _ rfl)

theorem replaceText_eq_self (h : ¬sep <:+: s) : replaceText sep new s = s := by
  induction s with
  | nil => exact replaceFrom_nil _ _ _
  | cons c cs ih =>
    have hno : ¬sep.isPrefixOf (c :: cs) = true := fun hstart => h (List.isPrefixOf_iff_prefix.1 hstart).isInfix
    refine (replaceFrom_zero _ _ _ _).trans ?_
    rw [if_neg hno]
    exact congrArg (c :: ·) (ih fun hcs => h (hcs.trans (List.suffix_cons c cs).isInfix))

theorem mem_replaceText_of_new (hne : sep ≠ []) (hc : c ∈ new) (h : sep <:+: s) : c ∈ replaceText sep new s := by
  induction s with
  | nil => exact absurd (List.infix_nil.1 h) hne
  | cons d ds ih =>
    rw [show replaceText sep new (d :: ds) = _ from replaceFrom_zero _ _ _ _]
    split
    · exact List.mem_append_left _ hc
    · next hno =>
      rw [List.isPrefixOf_iff_prefix] at hno
      exact List.mem_cons_of_mem d (ih ((List.infix_cons_iff.1 h).resolve_left hno))

theorem mem_replaceText_of_mem (hne : sep ≠ []) (hc : c ∉ sep) (h : c ∈ s) : c ∈ replaceText sep new s := by
  obtain ⟨front, back, rfl⟩ := List.append_of_mem h
  rw [replaceText_append_cons hne hc]
  simp

theorem mem_of_mem_replaceFrom {n : Nat} (h : c ∈ replaceFrom sep new n s) : c ∈ s ∨ c ∈ new := by
  induction s generalizing n with
  | nil =>
    rw [replaceFrom_nil] at h
    cases h
  | cons d ds ih =>
    cases n with
    | succ n => exact (ih h).imp_left (List.mem_cons_of_mem d)
    | zero =>
      rw [replaceFrom_zero] at h
      split at h
      · rcases List.mem_append.1 h with h | h
        · exact .inr h
        · exact (ih h).imp_left (List.mem_cons_of_mem d)
      · rcases List.mem_cons.1 h with rfl | h
        · exact .inl List.mem_cons_self
        · exact (ih h).imp_left (List.mem_cons_of_mem d)

theorem mem_of_mem_replaceText (h : c ∈ replaceText sep new s) : c ∈ s ∨ c ∈ new := mem_of_mem_replaceFrom h

end Replace

theorem isPrefixOf?_append (s t : List Char) : s.isPrefixOf? (s ++ t) = some t := by
  induction s with
  | nil => rfl
  | cons c cs ih => simp [List.isPrefixOf?, ih]

theorem isSuffixOf?_append_singleton (s : List Char) (c : Char) : [c].isSuffixOf? (s ++ [c]) = some s := by
  simp [List.isSuffixOf?, List.isPrefixOf?]

theorem isSuffixOf?_eq_none {s : List Char} {c : Char} (h : ∀ x ∈ s.getLast?, x ≠ c) : [c].isSuffixOf? s = none := by
  cases hlast : s.reverse with
  | nil => simp [List.isSuffixOf?, List.isPrefixOf?, hlast]
  | cons x xs =>
    have hx : x ≠ c := h x (by rw [← List.head?_reverse, hlast]; rfl)
    simp [List.isSuffixOf?, List.isPrefixOf?, hlast, Ne.symm hx]

/-! ### Numerals -/

/-- The digits of hexadecimal numerals; those of decimal ones are the first ten. -/
def digitChars : List Char := "0123456789abcdef".toList

theorem mem_digits {base n : Nat} (h2 : 2 ≤ base) (h16 : base ≤ 16) :
    ∀ c ∈ digits base n, c ∈ digitChars.take base := by
  have hall : ∀ base : Fin 17, ∀ d : Fin base.val, digitChar d.val ∈ digitChars.take base.val := by decide
  have hdigit {d : Nat} (hd : d < base) : digitChar d ∈ digitChars.take base :=
    hall ⟨base, Nat.lt_succ_of_le h16⟩ ⟨d, hd⟩
  induction n using digits.induct base with
  | case1 n h ih =>
    rw [digits, dif_pos h]
    intro c hc
    rcases List.mem_append.1 hc with hc | hc
    · exact ih c hc
    · rw [List.mem_singleton.1 hc]
      exact hdigit (Nat.mod_lt n (by omega))
  | case2 n h =>
    rw [digits, dif_neg h]
    intro c hc
    rw [List.mem_singleton.1 hc]
    exact hdigit (by omega)

theorem digits_ne_nil (base n : Nat) : digits base n ≠ [] := by
  unfold digits
  split <;> simp

theorem forall_digits {P : Char → Prop} {base : Nat} (h2 : 2 ≤ base) (h16 : base ≤ 16)
    (h : ∀ c ∈ digitChars.take base, P c) (n : Nat) : ∀ c ∈ digits base n, P c :=
  fun c hc => h c (mem_digits h2 h16 c hc)

theorem readNat_of_forall {base bits : Nat} {ds : List Char} (hne : ds ≠ []) (h : ∀ c ∈ ds, c ≠ '+') :
    readNat base bits ds = magnitude base (span bits - 1) .tooLarge 0 ds := by
  cases ds with
  | nil => exact absurd rfl hne
  | cons c cs =>
    have hc : c ≠ '+' := h c List.mem_cons_self
    unfold readNat
    split <;> simp_all

theorem readNat_digits {base bits n : Nat} (h2 : 2 ≤ base) (h16 : base ≤ 16) (hn : n < span bits) :
    readNat base bits (digits base n) = .ok n := by
  have hplus : ∀ c ∈ digitChars, c ≠ '+' := by decide
  rw [readNat_of_forall (digits_ne_nil base n)
    (forall_digits h2 h16 (fun c hc => hplus c (List.mem_of_mem_take hc)) n),
    magnitude_digits _ h2 h16 (by omega)]

theorem readInt_of_forall {base bits : Nat} {ds : List Char} (hne : ds ≠ []) (hplus : ∀ c ∈ ds, c ≠ '+')
    (hminus : ∀ c ∈ ds, c ≠ '-') :
    readInt base bits ds = (magnitude base (span (bits - 1) - 1) .tooLarge 0 ds).map Int.ofNat := by
  cases ds with
  | nil => exact absurd rfl hne
  | cons c cs =>
    have hc : c ≠ '+' := hplus c List.mem_cons_self
    have hc' : c ≠ '-' := hminus c List.mem_cons_self
    unfold readInt
    split <;> simp_all

/-- Capitals are read like small letters. -/
theorem magnitude_upper {limit : Nat} {excess : NumeralFault} {ds : List Char} (h : ∀ c ∈ ds, c ∈ digitChars)
    (acc : Nat) : magnitude 16 limit excess acc (upper ds) = magnitude 16 limit excess acc ds := by
  have hall : ∀ c ∈ digitChars, digit? 16 c.toUpper = digit? 16 c := by decide
  induction ds generalizing acc with
  | nil => rfl
  | cons c cs ih =>
    obtain ⟨hc, hcs⟩ := List.forall_mem_cons.1 h
    have hupper : upper (c :: cs) = c.toUpper :: upper cs := rfl
    rw [hupper, magnitude, magnitude, hall c hc]
    split
    · rfl
    · split
      · rfl
      · exact ih hcs _

/-! ### Written numbers -/

theorem decimalInt_of_neg {v : Int} (h : v < 0) : (decimalInt v).toList = '-' :: digits 10 v.natAbs := by
  rw [decimalInt, if_pos h, String.toList_append, decimal, String.toList_ofList (l := digits 10 v.natAbs)]
  rfl

theorem decimalInt_of_nonneg {v : Int} (h : ¬v < 0) : (decimalInt v).toList = digits 10 v.natAbs := by
  rw [decimalInt, if_neg h, decimal, String.toList_ofList]

theorem forall_decimalInt {P : Char → Prop} (hminus : P '-') (h : ∀ c ∈ digitChars.take 10, P c) (v : Int) :
    ∀ c ∈ (decimalInt v).toList, P c := by
  have hdigits := forall_digits (by decide) (by decide) h v.natAbs
  by_cases hv : v < 0
  · rw [decimalInt_of_neg hv]
    exact List.forall_mem_cons.2 ⟨hminus, hdigits⟩
  · rwa [decimalInt_of_nonneg hv]

theorem forall_hexUpper {P : Char → Prop} (h : ∀ c ∈ digitChars.take 16, P c.toUpper) (width n : Nat) :
    ∀ c ∈ (hexUpper width n).toList, P c := by
  rw [hexUpper, String.toList_ofList]
  intro c hc
  rcases List.mem_append.1 hc with hc | hc
  · rw [List.eq_of_mem_replicate hc]
    exact h '0' (by decide)
  · obtain ⟨d, hd, rfl⟩ := List.mem_map.1 hc
    exact forall_digits (by decide) (by decide) h n d hd

theorem isBlank_of_digit : ∀ c ∈ digitChars, isBlank c = false := by decide

theorem not_isBlank_digits {base : Nat} (h2 : 2 ≤ base) (h16 : base ≤ 16) (n : Nat) :
    ∀ c ∈ digits base n, isBlank c = false :=
  forall_digits h2 h16 (fun c hc => isBlank_of_digit c (List.mem_of_mem_take hc)) n

theorem not_isBlank_decimalInt (v : Int) : ∀ c ∈ (decimalInt v).toList, isBlank c = false :=
  forall_decimalInt (by decide) (by decide) v

end QuadDsp.Text
