import QuadDsp.Proofs.Operand.Forms
import QuadDsp.Proofs.Text.Integers

/-! # Integers in operands

The reader of integers takes more than what is written with one sign: the number behind the sign may bring a sign of
its own (`Operand.readInteger?_eq_some_iff`). Where no sign stands but in front, it reads exactly the integer that is
written, unless that has 64 bits or more (`Operand.Readable.written`, `Operand.readInteger?_of_written`). -/

namespace QuadDsp

namespace Operand

open Text

variable {s : List Char} {v w : Int}

/-- A numeral with a sign of its own that fits in 64 bits. -/
def SignedWord (base : Nat) (s : List Char) (v : Int) : Prop := Signed (Numeral base) s v ∧ Fits 64 v

/-- An integer with a 64-bit number behind its sign, and behind `0x`, that may have a sign as well. -/
def SignedTwice : List Char → Int → Prop := Signed (Based SignedWord)

/-- An integer as it is read: of two signs the lowest 64 bits are left. -/
def Readable (s : List Char) (v : Int) : Prop := ∃ w, SignedTwice s w ∧ wrap 64 w = v

theorem unsignedOrHex_eq_some_iff : readInteger?.unsignedOrHex s = some v ↔ Based SignedWord s v := by
  have hdecimal (hx : ∀ x ds, s = '0' :: x :: ds → x ≠ 'x' ∧ x ≠ 'X') :
      (readInt 10 64 s).toOption = some v ↔ Based SignedWord s v := by
    rw [toOption_eq_some_iff, readInt_eq_ok_iff (by decide)]
    refine ⟨fun h => .decimal h, fun h => ?_⟩
    cases h with
    | decimal h => exact h
    | hex hx' _ => exact absurd hx' (not_or.2 (hx _ _ rfl))
  -- nothing behind `0x` is decimal
  have hhex {x : Char} (hx : x = 'x' ∨ x = 'X') (ds : List Char) : (readInt 16 64 ds).toOption = some v ↔
      Based SignedWord ('0' :: x :: ds) v := by
    rw [toOption_eq_some_iff, readInt_eq_ok_iff (by decide)]
    refine ⟨fun h => .hex hx h, fun h => ?_⟩
    cases h with
    | decimal h =>
      obtain ⟨h, -⟩ := h
      rw [signed_plain_iff (by rintro _ ⟨⟩; rfl)] at h
      exact (h.not_hex hx).elim
    | hex _ h => exact h
  unfold readInteger?.unsignedOrHex
  split
  · exact hhex (.inl rfl) _
  · exact hhex (.inr rfl) _
  · next hx hX =>
    refine hdecimal fun x ds hs => ⟨?_, ?_⟩ <;> rintro rfl
    · exact hx ds hs
    · exact hX ds hs

theorem Based.fits (h : Based SignedWord s v) : Fits 64 v := by
  cases h with
  | decimal h => exact h.2
  | hex _ h => exact h.2

/-- What has 64 bits is kept. -/
theorem exists_wrap_iff {P : Int → Prop} (h : ∀ w, P w → Fits 64 w) : (∃ w, P w ∧ wrap 64 w = v) ↔ P v := by
  have hself (w : Int) (hw : P w) : wrap 64 w = w := (wrap_eq_self_iff (by decide) w).2 (h w hw)
  constructor
  · rintro ⟨w, hw, rfl⟩
    rwa [hself w hw]
  · intro hv
    exact ⟨v, hv, hself v hv⟩

/-- The reader takes the sign off the front and leaves the rest to the readers of numerals. -/
theorem readInteger?_eq_some_iff : readInteger? s = some v ↔ Readable (trim s) v := by
  unfold readInteger? Readable SignedTwice
  split
  · next rest heq =>
    simp only [heq, signed_minus_iff, Option.map_eq_some_iff]
    constructor
    · rintro ⟨w, hw, rfl⟩
      exact ⟨-w, by rw [Int.neg_neg]; exact unsignedOrHex_eq_some_iff.1 hw, rfl⟩
    · rintro ⟨w, hw, rfl⟩
      exact ⟨-w, unsignedOrHex_eq_some_iff.2 hw, by rw [Int.neg_neg]⟩
  · next rest heq =>
    simp only [heq, signed_plus_iff]
    exact unsignedOrHex_eq_some_iff.trans (exists_wrap_iff fun _ => Based.fits).symm
  · next hminus hplus =>
    have hhead : ∀ c ∈ (trim s).head?, isSign c = false := by
      intro c hc
      obtain ⟨cs, hs⟩ := List.head?_eq_some_iff.1 hc
      rw [← Bool.not_eq_true, isSign, Bool.or_eq_true, beq_iff_eq, beq_iff_eq]
      rintro (rfl | rfl)
      · exact hplus cs hs
      · exact hminus cs hs
    simp only [signed_plain_iff hhead]
    exact unsignedOrHex_eq_some_iff.trans (exists_wrap_iff fun _ => Based.fits).symm

/-! ### Signs -/

/-- A sign stands nowhere but in front. -/
def SignInFront (s : List Char) : Prop := ∀ c ∈ s.tail, isSign c = false

instance (s : List Char) : Decidable (SignInFront s) := inferInstanceAs (Decidable (∀ c ∈ s.tail, _))

theorem not_isSign_of_based (h : Based Numeral s v) : ∀ c ∈ s, isSign c = false :=
  h.forall_mem (by decide) fun _ _ _ _ h c hc => isSign_of_digit? (h.isSome_digit? c hc)

theorem Written.signInFront (h : Written s v) : SignInFront s := by
  cases h with
  | plain _ h => exact fun c hc => not_isSign_of_based h c (List.mem_of_mem_tail hc)
  | plus h => exact not_isSign_of_based h
  | minus h => exact not_isSign_of_based h

theorem based_of_not_isSign (h : Based SignedWord s v)
    (hs : ∀ c ∈ s, isSign c = false) : Based Numeral s v ∧ v.natAbs < span 63 := by
  have hplain {base : Nat} {ds : List Char} (h : SignedWord base ds v)
      (hds : ∀ c ∈ ds, isSign c = false) : Numeral base ds v ∧ v.natAbs < span 63 := by
    obtain ⟨h, hfits⟩ := h
    rw [signed_plain_iff fun c hc => hds c (List.mem_of_mem_head? hc)] at h
    have hnonneg := h.nonneg
    have hlt : v < span 63 := hfits.2
    exact ⟨h, by omega⟩
  cases h with
  | decimal h =>
    obtain ⟨h, hlt⟩ := hplain h hs
    exact ⟨.decimal h, hlt⟩
  | hex hx h =>
    obtain ⟨h, hlt⟩ := hplain h fun c hc => hs c (List.mem_cons_of_mem _ (List.mem_cons_of_mem _ hc))
    exact ⟨.hex hx h, hlt⟩

theorem SignedTwice.written (h : SignedTwice s v) (hs : SignInFront s) : Written s v ∧ v.natAbs < span 63 := by
  cases h with
  | plain hhead h =>
    have hall : ∀ c ∈ s, isSign c = false := by
      cases s with
      | nil => exact List.forall_mem_nil _
      | cons c cs => exact List.forall_mem_cons.2 ⟨hhead c rfl, hs⟩
    obtain ⟨h, hlt⟩ := based_of_not_isSign h hall
    exact ⟨.plain hhead h, hlt⟩
  | plus h =>
    obtain ⟨h, hlt⟩ := based_of_not_isSign h hs
    exact ⟨.plus h, hlt⟩
  | minus h =>
    obtain ⟨h, hlt⟩ := based_of_not_isSign h hs
    exact ⟨.minus h, by rwa [Int.natAbs_neg]⟩

/-- Where no sign stands but in front, what is read is written. -/
theorem Readable.written (h : Readable s v) (hs : SignInFront s) : Written s v ∧ v.natAbs < span 63 := by
  obtain ⟨w, hw, rfl⟩ := h
  obtain ⟨hwritten, hlt⟩ := SignedTwice.written hw hs
  rw [(wrap_eq_self_iff (by decide) w).2 (fits_of_natAbs_lt hlt)]
  exact ⟨hwritten, hlt⟩

theorem based_of_lt (h : Based Numeral s v) (hv : v.natAbs < span 63) :
    Based SignedWord s v := by
  have hplain {base : Nat} {ds : List Char} (h : Numeral base ds v) : SignedWord base ds v :=
    ⟨.plain (fun c hc => isSign_of_digit? (h.isSome_digit? c (List.mem_of_mem_head? hc))) h, fits_of_natAbs_lt hv⟩
  cases h with
  | decimal h => exact .decimal (hplain h)
  | hex hx h => exact .hex hx (hplain h)

theorem Written.readable (h : Written s v) (hv : v.natAbs < span 63) : Readable s v := by
  refine ⟨v, ?_, (wrap_eq_self_iff (by decide) v).2 (fits_of_natAbs_lt hv)⟩
  cases h with
  | plain hhead h => exact .plain hhead (based_of_lt h hv)
  | plus h => exact .plus (based_of_lt h hv)
  | minus h => exact .minus (based_of_lt h (by rwa [Int.natAbs_neg] at hv))

/-- An integer that is written is read, unless it is too large. -/
theorem readInteger?_of_written (h : Written (trim s) w) :
    readInteger? s = if w.natAbs < span 63 then some w else none := by
  split
  · next hw => exact readInteger?_eq_some_iff.2 (Written.readable h hw)
  · next hw =>
    cases hread : readInteger? s with
    | none => rfl
    | some v =>
      obtain ⟨hv, hlt⟩ := (readInteger?_eq_some_iff.1 hread).written (Written.signInFront h)
      rw [Written.unique hv h] at hlt
      exact absurd hlt hw

/-! ### Characters -/

theorem Written.isIntegerChar (h : Written s v) : ∀ c ∈ s, isIntegerChar c = true :=
  Signed.isIntegerChar (fun _ _ h => h.forall_mem (by decide) fun _ _ _ hbase h c hc =>
    isIntegerChar_of_digit? hbase (h.isSome_digit? c hc)) h

theorem Readable.isIntegerChar (h : Readable s v) : ∀ c ∈ s, isIntegerChar c = true := by
  obtain ⟨w, h, -⟩ := h
  exact Signed.isIntegerChar (fun _ _ h => h.forall_mem (by decide) fun _ _ _ hbase h =>
    Signed.isIntegerChar (fun _ _ h c hc => isIntegerChar_of_digit? hbase (h.isSome_digit? c hc)) h.1) h

/-! ### Capitals -/

theorem isSign_toUpper (c : Char) : isSign c.toUpper = isSign c := by
  have hself {d : Char} (hd : d.isUpper = false) (hd' : d.toUpper = d) : c.toUpper = d ↔ c = d :=
    ⟨fun h => eq_of_toUpper h hd, fun h => by rw [h, hd']⟩
  have hplus := hself (d := '+') rfl rfl
  have hminus := hself (d := '-') rfl rfl
  rw [Bool.eq_iff_iff]
  simp only [isSign, Bool.or_eq_true, beq_iff_eq, hplus, hminus]

theorem signInFront_upper : SignInFront (upper s) ↔ SignInFront s := by
  unfold SignInFront upper
  rw [← List.map_tail, List.forall_mem_map]
  simp only [isSign_toUpper]

theorem signed_upper {P : List Char → Int → Prop} (hP : ∀ s v, P (upper s) v ↔ P s v) :
    Signed P (upper s) v ↔ Signed P s v := by
  cases s with
  | nil =>
    rw [signed_plain_iff (s := upper []) (by rintro _ ⟨⟩), signed_plain_iff (by rintro _ ⟨⟩)]
    exact hP [] v
  | cons c cs =>
    by_cases hsign : isSign c = true
    · rw [isSign, Bool.or_eq_true, beq_iff_eq, beq_iff_eq] at hsign
      rcases hsign with rfl | rfl
      · exact signed_plus_iff.trans ((hP cs v).trans signed_plus_iff.symm)
      · exact signed_minus_iff.trans ((hP cs (-v)).trans signed_minus_iff.symm)
    · rw [Bool.not_eq_true] at hsign
      rw [signed_plain_iff (s := upper (c :: cs)) (by rintro _ ⟨⟩; rwa [isSign_toUpper]),
        signed_plain_iff (s := c :: cs) (by rintro _ ⟨⟩; exact hsign)]
      exact hP (c :: cs) v

theorem based_upper {P : Nat → List Char → Int → Prop} (hP : ∀ base s v, P base (upper s) v ↔ P base s v) :
    Based P (upper s) v ↔ Based P s v := by
  constructor
  · generalize heq : upper s = t
    intro h
    cases h with
    | decimal h =>
      subst heq
      exact .decimal ((hP _ _ _).1 h)
    | hex hx h =>
      obtain ⟨zero, s, rfl, hzero, heq⟩ := List.map_eq_cons_iff.1 heq
      obtain ⟨x, s, rfl, rfl, rfl⟩ := List.map_eq_cons_iff.1 heq
      obtain rfl : zero = '0' := eq_of_toUpper hzero rfl
      refine .hex ?_ ((hP _ _ _).1 h)
      rcases hx with hx | hx
      · exact .inl (eq_of_toUpper hx rfl)
      · have hnat := toNat_toUpper x
        rw [hx, show 'X'.toNat = 88 from rfl] at hnat
        split at hnat
        · exact .inl (Char.toNat_inj.1 (show x.toNat = 120 by omega))
        · exact .inr (Char.toNat_inj.1 hnat.symm)
  · intro h
    cases h with
    | decimal h => exact .decimal ((hP _ _ _).2 h)
    | hex hx h =>
      refine .hex (.inr ?_) ((hP _ _ _).2 h)
      rcases hx with rfl | rfl <;> rfl

theorem written_upper : Written (upper s) v ↔ Written s v :=
  signed_upper fun _ _ => based_upper fun _ _ _ => numeral_upper

end Operand

end QuadDsp
