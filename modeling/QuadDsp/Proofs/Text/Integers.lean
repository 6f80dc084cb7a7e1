import Mathlib.Data.Nat.Digits.Defs
import QuadDsp.Proofs.Results
import QuadDsp.Proofs.Text.Pieces

/-! # Integers as they are written

A written integer is a number in digits, decimal or hexadecimal behind `0x`, with at most one sign in front of it
(`Written`). The readers of numerals take exactly the digits of their base and give the number that they write, as
long as it fits (`magnitude_eq_ok_iff`, `readInt_eq_ok_iff`). Capitals write the same number. -/

namespace QuadDsp.Text

variable {base limit bits n : Nat} {excess : NumeralFault} {c : Char} {s ds : List Char} {v w : Int}

/-! ### Digits -/

/-- Digits stand in three ranges of characters; a decimal one in the first. -/
theorem range_of_digit? (h : (digit? base c).isSome = true) : 48 ≤ c.toNat ∧ c.toNat ≤ 57 ∨
    10 < base ∧ (65 ≤ c.toNat ∧ c.toNat ≤ 70 ∨ 97 ≤ c.toNat ∧ c.toNat ≤ 102) := by
  obtain ⟨d, hd⟩ := Option.isSome_iff_exists.1 h
  simp only [digit?, Option.filter_eq_some_iff, decide_eq_true_eq] at hd
  obtain ⟨hvalue, hlt⟩ := hd
  split at hvalue
  · exact .inl ‹_›
  · split at hvalue
    · cases hvalue
      omega
    · split at hvalue
      · cases hvalue
        omega
      · cases hvalue

theorem isBlank_of_digit? (h : (digit? base c).isSome = true) : isBlank c = false := by
  rw [← Bool.not_eq_true]
  intro hblank
  simp only [isBlank, Bool.or_eq_true, Bool.and_eq_true, decide_eq_true_eq, beq_iff_eq] at hblank
  have hrange := range_of_digit? h
  omega

theorem digit?_toUpper (base : Nat) (c : Char) : digit? base c.toUpper = digit? base c := by
  unfold digit?
  rw [toNat_toUpper]
  generalize c.toNat = n
  dsimp only
  congr 1
  by_cases hletter : 97 ≤ n ∧ n ≤ 122
  · rw [if_pos hletter]
    split_ifs <;> first | omega | exact congrArg some (by omega) | rfl
  · rw [if_neg hletter]

/-- Digits of a base, at least one and the most significant first, with the number that they write. -/
def Numeral (base : Nat) (ds : List Char) (v : Int) : Prop :=
  ds ≠ [] ∧ ∃ values, ds.mapM (digit? base) = some values ∧ v = Nat.ofDigits base values.reverse

theorem Numeral.unique (h : Numeral base ds v) (h' : Numeral base ds w) : v = w := by
  obtain ⟨-, values, hvalues, rfl⟩ := h
  obtain ⟨-, values', hvalues', rfl⟩ := h'
  cases hvalues.symm.trans hvalues'
  rfl

theorem Numeral.nonneg (h : Numeral base ds v) : 0 ≤ v := by
  obtain ⟨-, values, -, rfl⟩ := h
  exact Int.natCast_nonneg _

theorem Numeral.isSome_digit? (h : Numeral base ds v) : ∀ c ∈ ds, (digit? base c).isSome = true := by
  obtain ⟨-, values, hvalues, -⟩ := h
  intro c hc
  obtain ⟨d, -, hd⟩ := exists_right_of_forall₂ (mapM_eq_some_iff.1 hvalues) hc
  rw [hd]
  rfl

theorem numeral_upper : Numeral base (upper ds) v ↔ Numeral base ds v := by
  have hmap : (upper ds).mapM (digit? base) = ds.mapM (digit? base) := by
    rw [upper, List.mapM_map]
    exact congrArg (List.mapM · ds) (funext (digit?_toUpper base))
  rw [Numeral, Numeral, hmap, upper, ne_eq, List.map_eq_nil_iff]

theorem foldl_eq_ofDigits (base : Nat) (values : List Nat) :
    values.foldl (fun n d => n * base + d) 0 = Nat.ofDigits base values.reverse := by
  rw [Nat.ofDigits_eq_foldr, List.foldr_reverse]
  congr 1
  funext n d
  rw [Nat.cast_id, Nat.mul_comm, Nat.add_comm]

theorem le_foldl_digits (hbase : 0 < base) (values : List Nat) (acc : Nat) :
    acc ≤ values.foldl (fun n d => n * base + d) acc := by
  induction values generalizing acc with
  | nil => exact Nat.le_refl _
  | cons d rest ih =>
    calc
      acc ≤ acc * base := Nat.le_mul_of_pos_right acc hbase
      _ ≤ acc * base + d := Nat.le_add_right _ _
      _ ≤ _ := ih _

/-- Digits are read onto what is read already, within the limit at each of them if at the last. -/
theorem magnitude_eq_ok_iff (hbase : 0 < base) {acc : Nat} : magnitude base limit excess acc ds = .ok n ↔
    ∃ values, ds.mapM (digit? base) = some values ∧ values.foldl (fun n d => n * base + d) acc = n ∧
      (ds = [] ∨ n ≤ limit) := by
  induction ds generalizing acc with
  | nil => simp [magnitude]
  | cons c cs ih =>
    rw [magnitude, List.mapM_cons]
    cases hd : digit? base c with
    | none => simp
    | some d =>
      dsimp only
      simp only [Option.bind_eq_bind, Option.bind_some, Option.bind_eq_some_iff, Option.pure_def, Option.some.injEq,
        reduceCtorEq, false_or]
      split
      · next hlimit =>
        constructor
        · intro h
          cases h
        · rintro ⟨_, ⟨values, -, rfl⟩, hn, hle⟩
          rw [List.foldl_cons] at hn
          have hge := le_foldl_digits hbase values (acc * base + d)
          omega
      · next hlimit =>
        rw [ih]
        constructor
        · rintro ⟨values, hvalues, hn, hle⟩
          refine ⟨d :: values, ⟨values, hvalues, rfl⟩, hn, ?_⟩
          rcases hle with rfl | hle
          · cases hvalues
            rw [← hn]
            exact Nat.le_of_not_lt hlimit
          · exact hle
        · rintro ⟨_, ⟨values, hvalues, rfl⟩, hn, hle⟩
          exact ⟨values, hvalues, hn, .inr hle⟩

theorem magnitude_zero_eq_ok_iff (hbase : 0 < base) (hne : ds ≠ []) :
    magnitude base limit excess 0 ds = .ok n ↔ Numeral base ds n ∧ n ≤ limit := by
  rw [magnitude_eq_ok_iff hbase, Numeral]
  constructor
  · rintro ⟨values, hvalues, rfl, hle⟩
    rw [foldl_eq_ofDigits] at hle ⊢
    exact ⟨⟨hne, values, hvalues, rfl⟩, hle.resolve_left hne⟩
  · rintro ⟨⟨-, values, hvalues, hn⟩, hle⟩
    refine ⟨values, hvalues, ?_, .inr hle⟩
    rw [foldl_eq_ofDigits]
    exact (Int.ofNat_inj.1 hn).symm

/-! ### Signs and bases -/

def isSign (c : Char) : Bool := c == '+' || c == '-'

theorem isSign_of_digit? (h : (digit? base c).isSome = true) : isSign c = false := by
  rw [← Bool.not_eq_true, isSign, Bool.or_eq_true, beq_iff_eq, beq_iff_eq]
  rintro (rfl | rfl) <;> cases h

/-- At most one sign, and behind it what `P` says. -/
inductive Signed (P : List Char → Int → Prop) : List Char → Int → Prop
  | plain {s : List Char} {v : Int} (hs : ∀ c ∈ s.head?, isSign c = false) (h : P s v) : Signed P s v
  | plus {s : List Char} {v : Int} (h : P s v) : Signed P ('+' :: s) v
  | minus {s : List Char} {v : Int} (h : P s v) : Signed P ('-' :: s) (-v)

/-- Decimal, or hexadecimal behind `0x`. -/
inductive Based (P : Nat → List Char → Int → Prop) : List Char → Int → Prop
  | decimal {s : List Char} {v : Int} (h : P 10 s v) : Based P s v
  | hex {x : Char} {s : List Char} {v : Int} (hx : x = 'x' ∨ x = 'X') (h : P 16 s v) : Based P ('0' :: x :: s) v

/-- An integer as it is written. -/
def Written : List Char → Int → Prop := Signed (Based Numeral)

section Signed

variable {P Q : List Char → Int → Prop}

theorem signed_plus_iff : Signed P ('+' :: s) v ↔ P s v := by
  refine ⟨fun h => ?_, .plus⟩
  cases h with
  | plain hs _ => cases hs '+' rfl
  | plus h => exact h

theorem signed_minus_iff : Signed P ('-' :: s) v ↔ P s (-v) := by
  constructor
  · intro h
    cases h with
    | plain hs _ => cases hs '-' rfl
    | minus h => rwa [Int.neg_neg]
  · intro h
    rw [← Int.neg_neg v]
    exact .minus h

theorem signed_plain_iff (hs : ∀ c ∈ s.head?, isSign c = false) : Signed P s v ↔ P s v := by
  refine ⟨fun h => ?_, .plain hs⟩
  cases h with
  | plain _ h => exact h
  | plus _ => cases hs '+' rfl
  | minus _ => cases hs '-' rfl

theorem Signed.unique (hP : ∀ s v w, P s v → P s w → v = w) (h : Signed P s v)
    (h' : Signed P s w) : v = w := by
  cases h with
  | plain hs h =>
    cases h' with
    | plain _ h' => exact hP _ _ _ h h'
    | plus _ => cases hs '+' rfl
    | minus _ => cases hs '-' rfl
  | plus h =>
    cases h' with
    | plain hs _ => cases hs '+' rfl
    | plus h' => exact hP _ _ _ h h'
  | minus h =>
    cases h' with
    | plain hs _ => cases hs '-' rfl
    | minus h' => exact congrArg (-·) (hP _ _ _ h h')

end Signed

theorem Numeral.not_hex {x : Char} (hx : x = 'x' ∨ x = 'X') (h : Numeral 10 ('0' :: x :: s) v) : False := by
  have hdigit := h.isSome_digit? x (by simp)
  rcases hx with rfl | rfl <;> cases hdigit

theorem Based.unique (h : Based Numeral s v) (h' : Based Numeral s w) : v = w := by
  cases h with
  | decimal h =>
    cases h' with
    | decimal h' => exact h.unique h'
    | hex hx _ => exact (h.not_hex hx).elim
  | hex hx h =>
    cases h' with
    | decimal h' => exact (h'.not_hex hx).elim
    | hex _ h' => exact h.unique h'

/-- A text writes one integer at most. -/
theorem Written.unique (h : Written s v) (h' : Written s w) : v = w :=
  Signed.unique (P := Based Numeral) (fun _ _ _ => Based.unique) h h'

theorem Signed.forall_mem {P : List Char → Int → Prop} {p : Char → Prop} (hsign : ∀ c, isSign c = true → p c)
    (hP : ∀ s v, P s v → ∀ c ∈ s, p c) (h : Signed P s v) : ∀ c ∈ s, p c := by
  cases h with
  | plain _ h => exact hP _ _ h
  | plus h => exact List.forall_mem_cons.2 ⟨hsign '+' rfl, hP _ _ h⟩
  | minus h => exact List.forall_mem_cons.2 ⟨hsign '-' rfl, hP _ _ h⟩

theorem Based.forall_mem {P : Nat → List Char → Int → Prop} {p : Char → Prop} (hmark : ∀ c ∈ ['0', 'x', 'X'], p c)
    (hP : ∀ base s v, base ≤ 16 → P base s v → ∀ c ∈ s, p c) (h : Based P s v) : ∀ c ∈ s, p c := by
  cases h with
  | decimal h => exact hP 10 _ _ (by decide) h
  | hex hx h =>
    refine List.forall_mem_cons.2 ⟨hmark _ (by decide), List.forall_mem_cons.2 ⟨?_, hP 16 _ _ (by decide) h⟩⟩
    rcases hx with rfl | rfl <;> exact hmark _ (by decide)

/-- The characters of integers: hexadecimal digits, signs and the letter in front of hexadecimal digits. -/
def isIntegerChar (c : Char) : Bool := (digit? 16 c).isSome || isSign c || c == 'x' || c == 'X'

theorem isIntegerChar_of_digit? (hbase : base ≤ 16) (h : (digit? base c).isSome = true) : isIntegerChar c = true := by
  obtain ⟨d, hd⟩ := Option.isSome_iff_exists.1 h
  have hd' : digit? 16 c = some d := by
    simp only [digit?, Option.filter_eq_some_iff, decide_eq_true_eq] at hd ⊢
    exact ⟨hd.1, Nat.lt_of_lt_of_le hd.2 hbase⟩
  rw [isIntegerChar, hd']
  rfl

theorem Signed.isIntegerChar {P : List Char → Int → Prop} (hP : ∀ s v, P s v → ∀ c ∈ s, Text.isIntegerChar c = true)
    (h : Signed P s v) : ∀ c ∈ s, Text.isIntegerChar c = true := by
  refine h.forall_mem (fun c hc => ?_) hP
  rw [Text.isIntegerChar, hc, Bool.or_true]
  rfl

/-! ### Readers -/

theorem map_magnitude_eq_ok_iff (hbase : 0 < base) (hne : ds ≠ []) :
    (magnitude base (span (bits - 1) - 1) excess 0 ds).map Int.ofNat = .ok v ↔ Numeral base ds v ∧ Fits bits v := by
  have hspan := span_pos (bits - 1)
  rw [map_eq_ok_iff]
  constructor
  · rintro ⟨n, hn, rfl⟩
    obtain ⟨hnumeral, hle⟩ := (magnitude_zero_eq_ok_iff hbase hne).1 hn
    refine ⟨hnumeral, ?_, ?_⟩ <;> rw [Int.ofNat_eq_natCast] <;> omega
  · rintro ⟨hnumeral, -, hlt⟩
    obtain ⟨n, rfl⟩ := Int.eq_ofNat_of_zero_le hnumeral.nonneg
    exact ⟨n, (magnitude_zero_eq_ok_iff hbase hne).2 ⟨hnumeral, by omega⟩, rfl⟩

theorem map_neg_magnitude_eq_ok_iff (hbase : 0 < base) (hne : ds ≠ []) :
    ((magnitude base (span (bits - 1)) excess 0 ds).map fun n => -(n : Int)) = .ok v ↔
      Numeral base ds (-v) ∧ Fits bits v := by
  have hspan := span_pos (bits - 1)
  rw [map_eq_ok_iff]
  constructor
  · rintro ⟨w, hw, rfl⟩
    obtain ⟨n, hn, hw⟩ := bind_eq_ok_iff.1 hw
    obtain ⟨hnumeral, hle⟩ := (magnitude_zero_eq_ok_iff hbase hne).1 hn
    cases hw
    rw [Int.neg_neg]
    refine ⟨hnumeral, ?_, ?_⟩ <;> omega
  · rintro ⟨hnumeral, hge, -⟩
    obtain ⟨n, hn⟩ := Int.eq_ofNat_of_zero_le hnumeral.nonneg
    refine ⟨n, bind_eq_ok_iff.2 ⟨n, (magnitude_zero_eq_ok_iff hbase hne).2 ⟨hn ▸ hnumeral, by omega⟩, rfl⟩, by omega⟩

/-- A numeral with at most one sign is read if its value fits. -/
theorem readInt_eq_ok_iff (hbase : 0 < base) :
    readInt base bits s = .ok v ↔ Signed (Numeral base) s v ∧ Fits bits v := by
  unfold readInt
  split
  · refine ⟨nofun, fun h => ?_⟩
    rw [signed_plain_iff (by simp)] at h
    exact absurd rfl h.1.1
  · refine ⟨nofun, fun h => ?_⟩
    rw [signed_plus_iff] at h
    exact absurd rfl h.1.1
  · refine ⟨nofun, fun h => ?_⟩
    rw [signed_minus_iff] at h
    exact absurd rfl h.1.1
  · next ds hne =>
    rw [signed_plus_iff]
    exact map_magnitude_eq_ok_iff hbase fun hnil => hne (hnil ▸ rfl)
  · next ds hne =>
    rw [signed_minus_iff]
    exact map_neg_magnitude_eq_ok_iff hbase fun hnil => hne (hnil ▸ rfl)
  · next hne _ _ hplus hminus =>
    have hhead : ∀ c ∈ s.head?, isSign c = false := by
      intro c hc
      obtain ⟨cs, rfl⟩ := List.head?_eq_some_iff.1 hc
      rw [← Bool.not_eq_true, isSign, Bool.or_eq_true, beq_iff_eq, beq_iff_eq]
      rintro (rfl | rfl)
      · exact hplus cs rfl
      · exact hminus cs rfl
    rw [signed_plain_iff hhead]
    exact map_magnitude_eq_ok_iff hbase fun hnil => hne hnil

end QuadDsp.Text
