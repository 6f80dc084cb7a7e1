import QuadDsp.Proofs.Operand.Spacing

/-! # Integers of whole operands

An integer stands at one of five places of an operand (`Operand.IntegerPlace`). What is written at such a place is read
as it is written, or the token is refused, but for a step: of that the lowest 32 bits are kept
(`Operand.integers_written`). What is read at a place is written there only if no sign stands behind another character
and no space stands between the digits. -/

namespace QuadDsp

namespace Operand

open Text

variable {s t inner token : List Char} {space : Space} {i : Nat} {v w : Int}

/-! ### Places -/

/-- The integer of an operand. -/
def integer? : Operand → Option Int
  | .imm v => some v
  | .target (.abs a) => some a
  | .mem ⟨_, .direct a⟩ => some a
  | .mem ⟨_, .postImm _ step⟩ => some step
  | .mem ⟨_, .preImm step _⟩ => some step
  | _ => none

/-- Where an integer stands in an operand. -/
inductive IntegerPlace
  | immediate
  | target
  | address (space : Space)
  /-- the step of an index register, behind it -/
  | stepBehind (space : Space) (i : Nat)
  /-- the step of an index register, in front of it -/
  | stepAhead (space : Space) (i : Nat)

/-- What stands between the commas, without blanks around it. -/
def pieces (inner : List Char) : List (List Char) := (cut (· == ',') inner).map trim

namespace IntegerPlace

/-- The token has the text at the place. -/
def Holds : IntegerPlace → List Char → List Char → Prop
  | immediate, token, s => ∃ ds, trim token = '#' :: ds ∧ trim ds = s
  | target, token, s => trim token = s
  | address space, token, s => ∃ inner, Refers space inner token ∧ pieces inner = [s]
  | stepBehind space i, token, s => ∃ inner register step, Refers space inner token ∧
      pieces inner = [register, '#' :: step] ∧ readIndex? (unspaced (upper register)) = some i ∧ trim step = s
  | stepAhead space i, token, s => ∃ inner register step, Refers space inner token ∧
      pieces inner = ['#' :: step, register] ∧ readIndex? (unspaced (upper register)) = some i ∧ trim step = s

/-- The operand with an integer at the place. -/
def operand : IntegerPlace → Int → Operand
  | immediate, v => .imm v
  | target, v => .target (.abs v.toNat)
  | address space, v => .mem ⟨space, .direct v.toNat⟩
  | stepBehind space i, v => .mem ⟨space, .postImm i v⟩
  | stepAhead space i, v => .mem ⟨space, .preImm v i⟩

/-- The integers of the type at the place. -/
def InRange : IntegerPlace → Int → Prop
  | immediate, v => Fits 64 v
  | target, v => 0 ≤ v ∧ v < span 32
  | address _, v => 0 ≤ v ∧ v < span 32
  | stepBehind _ _, v => Fits 32 v
  | stepAhead _ _, v => Fits 32 v

/-- The integers that the reader takes at the place. -/
def Accepts : IntegerPlace → Int → Prop
  | target, v => 0 ≤ v ∧ v < span 32
  | address _, v => 0 ≤ v ∧ v < span 32
  | _, v => v.natAbs < span 63

instance : (place : IntegerPlace) → (v : Int) → Decidable (place.Accepts v)
  | target, _ | address _, _ => inferInstanceAs (Decidable (_ ∧ _))
  | immediate, _ | stepBehind _ _, _ | stepAhead _ _, _ => inferInstanceAs (Decidable (_ < _))

def IsStep : IntegerPlace → Prop
  | stepBehind _ _ => True
  | stepAhead _ _ => True
  | _ => False

/-- What is kept of an integer at the place: of a step the lowest 32 bits. -/
def kept : IntegerPlace → Int → Int
  | stepBehind _ _, v => wrap 32 v
  | stepAhead _ _, v => wrap 32 v
  | _, v => v

end IntegerPlace

/-! ### Pieces -/

theorem pieces_unspaced_upper (inner : List Char) :
    pieces (unspaced (upper inner)) = (pieces inner).map fun s => unspaced (upper s) := by
  have hcomma (c : Char) : (c.toUpper == ',') = (c == ',') := by
    rw [Bool.eq_iff_iff, beq_iff_eq, beq_iff_eq]
    exact ⟨fun h => eq_of_toUpper h rfl, fun h => by rw [h]; rfl⟩
  have hfilter : ∀ c : Char, (c == ',') = true → decide (c ≠ ' ') = true := by
    intro c hc
    rw [eq_of_beq hc]
    rfl
  unfold pieces
  rw [unspaced, cut_filter hfilter, upper, cut_map hcomma, List.map_map, List.map_map, List.map_map]
  refine List.map_congr_left fun s _ => ?_
  show trim (unspaced (upper s)) = unspaced (upper (trim s))
  rw [trim_unspaced, trim_upper]

theorem trimmed_of_mem_pieces (h : s ∈ pieces inner) : Trimmed s := by
  obtain ⟨piece, -, rfl⟩ := List.mem_map.1 h
  exact trimmed_trim piece

/-! ### What is written -/

theorem Written.head (h : Written s v) : ∃ c cs, s = c :: cs ∧ 43 ≤ c.toNat ∧ c.toNat ≤ 57 := by
  cases h with
  | plain _ h =>
    cases h with
    | decimal h =>
      obtain ⟨c, cs, rfl⟩ := List.exists_cons_of_ne_nil h.1
      have hrange := range_of_digit? (h.isSome_digit? c List.mem_cons_self)
      exact ⟨c, cs, rfl, by omega, by omega⟩
    | hex => exact ⟨_, _, rfl, by decide, by decide⟩
  | plus => exact ⟨_, _, rfl, by decide, by decide⟩
  | minus => exact ⟨_, _, rfl, by decide, by decide⟩

theorem toNat_of_isAlpha {c : Char} (h : c.isAlpha = true) : 65 ≤ c.toNat := by
  unfold Char.isAlpha Char.isUpper Char.isLower at h
  simp only [Bool.or_eq_true, Bool.and_eq_true, decide_eq_true_eq, UInt32.le_iff_toNat_le] at h
  rcases h with h | h
  · exact h.1
  · exact Nat.le_trans (by decide) h.1

theorem Written.notMem_space (h : Written s v) : ' ' ∉ s := fun hspace => by cases Written.isIntegerChar h _ hspace

theorem trimmed_of_isIntegerChar (h : ∀ c ∈ s, isIntegerChar c = true) : Trimmed s := by
  refine .of_forall fun c hc => ?_
  have hchar := h c hc
  simp only [isIntegerChar, Bool.or_eq_true, beq_iff_eq] at hchar
  rcases hchar with ((hdigit | hsign) | rfl) | rfl
  · exact isBlank_of_digit? hdigit
  · rw [isSign, Bool.or_eq_true, beq_iff_eq, beq_iff_eq] at hsign
    rcases hsign with rfl | rfl <;> rfl
  · rfl
  · rfl

theorem Written.not_isName (h : Written s v) : ¬isName s = true := by
  obtain ⟨c, cs, rfl, hlow, hhigh⟩ := Written.head h
  have hchar := Written.isIntegerChar h c List.mem_cons_self
  rw [isName, Bool.and_eq_true]
  rintro ⟨hstart, -⟩
  rw [isNameStart, Bool.or_eq_true, Bool.or_eq_true, beq_iff_eq, beq_iff_eq] at hstart
  rcases hstart with (halpha | rfl) | rfl
  · have hletter := toNat_of_isAlpha halpha
    omega
  · cases hchar
  · cases hchar

theorem readInteger?_unspaced_upper (h : Written (trim s) w) :
    readInteger? (unspaced (upper s)) = if w.natAbs < span 63 then some w else none := by
  refine readInteger?_of_written ?_
  rw [trim_unspaced, trim_upper, unspaced_upper, unspaced_eq_self (Written.notMem_space h)]
  exact written_upper.2 h

theorem ne_of_head {c d : Char} (hlow : 43 ≤ c.toNat) (hhigh : c.toNat ≤ 57)
    (hd : d.toNat < 43 ∨ 57 < d.toNat) : c ≠ d := by
  rintro rfl
  omega

theorem readMode?_of_address (h : pieces inner = [s]) (hs : Written s w) :
    readMode? (unspaced (upper inner)) = if 0 ≤ w ∧ w < span 32 then some (.direct w.toNat) else none := by
  have hpieces : (cut (· == ',') (unspaced (upper inner))).map trim = [unspaced (upper s)] := by
    have hall := pieces_unspaced_upper inner
    rwa [h, List.map_singleton] at hall
  have hinteger : readInteger? (unspaced (upper s)) = if w.natAbs < span 63 then some w else none := by
    refine readInteger?_unspaced_upper ?_
    rwa [trim_eq_self (trimmed_of_isIntegerChar (Written.isIntegerChar hs))]
  have hupper : unspaced (upper s) = upper s := by
    rw [unspaced_upper, unspaced_eq_self (Written.notMem_space hs)]
  have hindex : readIndex? (unspaced (upper s)) = none := by
    rw [hupper]
    obtain ⟨c, cs, hcons, hlow, hhigh⟩ := Written.head (written_upper.2 hs)
    rw [hcons]
    exact readIndex?_of_head (ne_of_head hlow hhigh (by decide)) cs
  have hname : ¬isName (unspaced (upper s)) = true := by
    rw [hupper]
    exact Written.not_isName (written_upper.2 hs)
  have hspan : span 32 < span 63 := by decide
  by_cases hw : w.natAbs < span 63
  · simp only [readMode?, hpieces, hindex, hinteger, if_pos hw, toAddr?]
    split <;> rfl
  · simp only [readMode?, hpieces, hindex, hinteger, if_neg hw, if_neg hname]
    rw [if_neg (by omega)]

theorem readStep?_of_written (h : Written (trim s) w) :
    readStep? (unspaced (upper ('#' :: s))) = if w.natAbs < span 63 then some (wrap 32 w) else none := by
  have hcons : unspaced (upper ('#' :: s)) = '#' :: unspaced (upper s) := rfl
  rw [hcons, readStep?, readInteger?_unspaced_upper h]
  split <;> rfl

theorem readIndex?_head (h : readIndex? s = some i) : ∃ cs, s = 'I' :: cs := by
  cases s with
  | nil => cases h
  | cons c cs =>
    by_cases hc : c = 'I'
    · exact ⟨cs, by rw [hc]⟩
    · rw [readIndex?_of_head hc] at h
      cases h

theorem other_of_readIndex? (h : readIndex? s = some i) : readModify? s = none ∧ readStep? s = none := by
  obtain ⟨cs, rfl⟩ := readIndex?_head h
  exact ⟨readModify?_of_head (by decide) cs, rfl⟩

theorem other_of_hash (s : List Char) :
    readIndex? (unspaced (upper ('#' :: s))) = none ∧ readModify? (unspaced (upper ('#' :: s))) = none :=
  ⟨readIndex?_of_head (by decide) _, readModify?_of_head (by decide) _⟩

theorem readMode?_of_stepBehind {register step : List Char} (h : pieces inner = [register, '#' :: step])
    (hi : readIndex? (unspaced (upper register)) = some i) (hw : Written (trim step) w) :
    readMode? (unspaced (upper inner)) = if w.natAbs < span 63 then some (.postImm i (wrap 32 w)) else none := by
  have hpieces := pieces_unspaced_upper inner
  rw [h, pieces] at hpieces
  obtain ⟨hindex, hmodify⟩ := other_of_hash step
  obtain ⟨hmodify', hstep⟩ := other_of_readIndex? hi
  simp only [readMode?, hpieces, List.map_cons, List.map_nil, hi, hindex, hmodify, hmodify', hstep,
    readStep?_of_written hw]
  split_ifs <;> rfl

theorem readMode?_of_stepAhead {register step : List Char} (h : pieces inner = ['#' :: step, register])
    (hi : readIndex? (unspaced (upper register)) = some i) (hw : Written (trim step) w) :
    readMode? (unspaced (upper inner)) = if w.natAbs < span 63 then some (.preImm (wrap 32 w) i) else none := by
  have hpieces := pieces_unspaced_upper inner
  rw [h, pieces] at hpieces
  obtain ⟨hindex, hmodify⟩ := other_of_hash step
  obtain ⟨hmodify', hstep⟩ := other_of_readIndex? hi
  simp only [readMode?, hpieces, List.map_cons, List.map_nil, hi, hindex, hmodify, hmodify', hstep,
    readStep?_of_written hw]
  split_ifs <;> rfl

theorem read?_of_hash {ds : List Char} (h : trim token = '#' :: ds) : read? token = (readInteger? ds).map .imm := by
  unfold read?
  rw [h]
  rfl

theorem read?_of_target (hs : Written (trim token) w) :
    read? token = if 0 ≤ w ∧ w < span 32 then some (.target (.abs w.toNat)) else none := by
  obtain ⟨c, cs, hraw, hlow, hhigh⟩ := Written.head hs
  have hne {d : Char} (hd : d.toNat < 43 ∨ 57 < d.toNat) : c ≠ d := ne_of_head hlow hhigh hd
  have halpha : c.isAlpha = false := by
    rw [← Bool.not_eq_true]
    intro h
    have hletter := toNat_of_isAlpha h
    omega
  have hchar := Written.isIntegerChar hs c (hraw ▸ List.mem_cons_self)
  have hspace : c ≠ ' ' := hne (by decide)
  have hhead : c.toUpper ∉ ['A', 'C', 'R', 'I', 'M', 'L', 'B', '('] := by
    have hall : ∀ d ∈ ['A', 'C', 'R', 'I', 'M', 'L', 'B', '('], d.toNat < 43 ∨ 57 < d.toNat := by decide
    rw [toUpper_of_isAlpha halpha]
    exact fun hmem => hne (hall c hmem) rfl
  have hmem : readMem? (unspaced (upper (c :: cs))) = none := by
    rw [unspaced_upper, unspaced_cons hspace, upper, List.map_cons, toUpper_of_isAlpha halpha]
    exact readMem?_of_head (hne (by decide)) (hne (by decide)) _
  have hblank : isBlank c = false := (trimmed_trim token).head c (by rw [hraw]; rfl)
  rw [read?_eq_readTarget? hraw (hne (by decide)) hhead hmem List.mem_cons_self halpha hblank (hne (by decide)), ← hraw]
  have hinteger : readInteger? (trim token) = if w.natAbs < span 63 then some w else none := by
    refine readInteger?_of_written ?_
    rwa [trim_eq_self (trimmed_trim token)]
  have hspan : span 32 < span 63 := by decide
  unfold read?.readTarget?
  rw [hinteger]
  by_cases hw : w.natAbs < span 63
  · simp only [if_pos hw, toAddr?]
    split <;> rfl
  · simp only [if_neg hw, if_neg (Written.not_isName hs)]
    rw [if_neg (by omega)]

namespace IntegerPlace

variable {place : IntegerPlace}

/-- What is written at a place is read, or the token is refused. -/
theorem Holds.read?_eq (h : place.Holds token s) (hs : Written s w) :
    read? token = if place.Accepts w then some (place.operand (place.kept w)) else none := by
  cases place with
  | immediate =>
    obtain ⟨ds, hraw, rfl⟩ := h
    rw [read?_of_hash hraw, readInteger?_of_written hs, apply_ite (Option.map _)]
    exact if_congr Iff.rfl rfl rfl
  | target =>
    obtain rfl : trim token = s := h
    rw [read?_of_target hs]
    exact if_congr Iff.rfl rfl rfl
  | address space =>
    obtain ⟨inner, hrefers, hpieces⟩ := h
    rw [read?_of_refers hrefers, readMode?_of_address hpieces hs, apply_ite (Option.map _)]
    exact if_congr Iff.rfl rfl rfl
  | stepBehind space i =>
    obtain ⟨inner, register, step, hrefers, hpieces, hi, rfl⟩ := h
    rw [read?_of_refers hrefers, readMode?_of_stepBehind hpieces hi hs, apply_ite (Option.map _)]
    exact if_congr Iff.rfl rfl rfl
  | stepAhead space i =>
    obtain ⟨inner, register, step, hrefers, hpieces, hi, rfl⟩ := h
    rw [read?_of_refers hrefers, readMode?_of_stepAhead hpieces hi hs, apply_ite (Option.map _)]
    exact if_congr Iff.rfl rfl rfl

end IntegerPlace

/-! ### What is read -/

/-- The pieces that an addressing mode is read from. -/
inductive ModeForm : List (List Char) → AddrMode → Prop
  | index {s : List Char} {i : Nat} (h : readIndex? s = some i) : ModeForm [s] (.postImm i 0)
  | direct {s : List Char} {v : Int} {a : Nat} (h : readInteger? s = some v) (ha : toAddr? v = some a) :
    ModeForm [s] (.direct a)
  | symbol {s : List Char} (h : isName s = true) : ModeForm [s] (.symbol (String.ofList s))
  | post {s t : List Char} {i m : Nat} (hi : readIndex? s = some i) (hm : readModify? t = some m) :
    ModeForm [s, t] (.post i m)
  | pre {s t : List Char} {i m : Nat} (hm : readModify? s = some m) (hi : readIndex? t = some i) :
    ModeForm [s, t] (.pre m i)
  | postImm {s t : List Char} {i : Nat} {step : Int} (hi : readIndex? s = some i) (hstep : readStep? t = some step) :
    ModeForm [s, t] (.postImm i step)
  | preImm {s t : List Char} {i : Nat} {step : Int} (hstep : readStep? s = some step) (hi : readIndex? t = some i) :
    ModeForm [s, t] (.preImm step i)

theorem modeForm_of_readMode? {mode : AddrMode} (h : readMode? inner = some mode) : ModeForm (pieces inner) mode := by
  unfold readMode? at h
  unfold pieces
  generalize (cut (· == ',') inner).map trim = parts at h ⊢
  split at h
  · split at h
    · next hi =>
      cases h
      exact .index hi
    · split at h
      · next hv =>
        obtain ⟨a, ha, rfl⟩ := Option.map_eq_some_iff.1 h
        exact .direct hv ha
      · split at h
        · next hname =>
          cases h
          exact .symbol hname
        · cases h
  · split at h
    · next hi hm =>
      cases h
      exact .post hi hm
    · next hm hi _ =>
      cases h
      exact .pre hm hi
    · next hi hstep _ _ =>
      cases h
      exact .postImm hi hstep
    · next hi hstep _ _ _ =>
      cases h
      exact .preImm hstep hi
    · cases h
  · cases h

theorem readStep?_unspaced_upper (ht : Trimmed t) (h : readStep? (unspaced (upper t)) = some v) :
    ∃ ds w, t = '#' :: ds ∧ readInteger? (unspaced (upper ds)) = some w ∧ v = wrap 32 w := by
  cases t with
  | nil => cases h
  | cons c cs =>
    have hspace : c ≠ ' ' := by
      rintro rfl
      cases ht.head ' ' rfl
    have hcons : unspaced (upper (c :: cs)) = c.toUpper :: unspaced (upper cs) := by
      rw [upper, List.map_cons, unspaced_cons fun h => hspace (toUpper_eq_space.1 h)]
      rfl
    rw [hcons] at h
    unfold readStep? at h
    split at h
    · next hhash =>
      obtain ⟨hc, rfl⟩ := List.cons.inj hhash
      obtain ⟨w, hw, rfl⟩ := Option.map_eq_some_iff.1 h
      exact ⟨cs, w, by rw [eq_of_toUpper hc rfl], hw, rfl⟩
    · cases h

theorem toAddr?_eq_some_iff {a : Nat} : toAddr? v = some a ↔ (0 ≤ v ∧ v < span 32) ∧ v.toNat = a := by
  unfold toAddr?
  split <;> simp_all

namespace IntegerPlace

variable {place : IntegerPlace}

/-- What the reader sees of the text at the place: in a reference neither spaces nor small letters. -/
def seen : IntegerPlace → List Char → List Char
  | immediate, s => s
  | target, s => s
  | _, s => unspaced (upper s)

/-- The place takes an integer if it is no address or an address of 32 bits. -/
def Admits : IntegerPlace → Int → Prop
  | target, v => 0 ≤ v ∧ v < span 32
  | address _, v => 0 ≤ v ∧ v < span 32
  | _, _ => True

/-- The operand is read at the place from the text. -/
structure Reads (place : IntegerPlace) (token s : List Char) (w : Int) : Prop where
  holds : place.Holds token s
  readable : Readable (place.seen s) w
  admits : place.Admits w

end IntegerPlace

/-- The reference has an index register and nothing else, which stands for a step of zero. -/
def Unstepped (token : List Char) (o : Operand) : Prop :=
  ∃ space inner i, Refers space inner token ∧ ',' ∉ inner ∧ o = .mem ⟨space, .postImm i 0⟩

theorem readable_unspaced_upper (h : readInteger? (unspaced (upper s)) = some w) :
    Readable (unspaced (upper (trim s))) w := by
  rw [readInteger?_eq_some_iff, trim_unspaced, trim_upper] at h
  exact h

/-- An integer is read from one of the places, if it is not the zero of a missing step. -/
theorem exists_place_of_ref {ref : MemRef} (h : read? token = some (.mem ref))
    (hv : (Operand.mem ref).integer? = some v) :
    Unstepped token (.mem ref) ∨ ∃ (place : IntegerPlace) (s : List Char) (w : Int), place.Reads token s w ∧
      Operand.mem ref = place.operand v ∧ v = place.kept w := by
  obtain ⟨inner, mode, hrefers, hmode, href⟩ := refers_of_read? h
  obtain ⟨space, mode'⟩ := ref
  cases href
  have hform := modeForm_of_readMode? hmode
  rw [pieces_unspaced_upper] at hform
  generalize hpieces : (pieces inner).map (fun s => unspaced (upper s)) = seen at hform
  cases hform with
  | index hi =>
    obtain ⟨s, hone, -⟩ := List.map_eq_singleton_iff.1 hpieces
    obtain ⟨piece, hcut, -⟩ := List.map_eq_singleton_iff.1 hone
    refine .inl ⟨space, inner, _, hrefers, fun hmem => ?_, rfl⟩
    simpa using (cut_eq_singleton hcut).2 _ hmem
  | direct hw ha =>
    obtain ⟨s, hone, rfl⟩ := List.map_eq_singleton_iff.1 hpieces
    obtain ⟨hrange, rfl⟩ := toAddr?_eq_some_iff.1 ha
    have hs : trim s = s := trim_eq_self (trimmed_of_mem_pieces (by rw [hone]; exact List.mem_singleton_self s))
    have hreadable := readable_unspaced_upper hw
    rw [hs] at hreadable
    cases hv
    refine .inr ⟨.address space, s, _, ⟨⟨inner, hrefers, hone⟩, hreadable, hrange⟩, rfl, ?_⟩
    exact Int.toNat_of_nonneg hrange.1
  | symbol => cases hv
  | post => cases hv
  | pre => cases hv
  | postImm hi hstep =>
    obtain ⟨register, rest, hrest, rfl, hlast⟩ := List.map_eq_cons_iff.1 hpieces
    obtain ⟨step, rfl, rfl⟩ := List.map_eq_singleton_iff.1 hlast
    obtain ⟨ds, w, rfl, hw, rfl⟩ := readStep?_unspaced_upper (trimmed_of_mem_pieces (by rw [hrest]; simp)) hstep
    cases hv
    exact .inr ⟨.stepBehind space _, trim ds, w,
      ⟨⟨inner, register, ds, hrefers, hrest, hi, rfl⟩, readable_unspaced_upper hw, trivial⟩, rfl, rfl⟩
  | preImm hstep hi =>
    obtain ⟨step, rest, hrest, rfl, hlast⟩ := List.map_eq_cons_iff.1 hpieces
    obtain ⟨register, rfl, rfl⟩ := List.map_eq_singleton_iff.1 hlast
    obtain ⟨ds, w, rfl, hw, rfl⟩ := readStep?_unspaced_upper (trimmed_of_mem_pieces (by rw [hrest]; simp)) hstep
    cases hv
    exact .inr ⟨.stepAhead space _, trim ds, w,
      ⟨⟨inner, register, ds, hrefers, hrest, hi, rfl⟩, readable_unspaced_upper hw, trivial⟩, rfl, rfl⟩

/-- An integer is read from one of the places, if it is not the zero of a missing step. -/
theorem exists_place {o : Operand} (h : read? token = some o) (hv : o.integer? = some v) :
    Unstepped token o ∨ ∃ (place : IntegerPlace) (s : List Char) (w : Int), place.Reads token s w ∧
      o = place.operand v ∧ v = place.kept w := by
  cases o with
  | mem ref => exact exists_place_of_ref h hv
  | imm v' =>
    cases hv
    cases form_of_read? h with
    | imm hraw hw =>
      exact .inr ⟨.immediate, _, v, ⟨⟨_, hraw, rfl⟩, readInteger?_eq_some_iff.1 hw, trivial⟩, rfl, rfl⟩
  | target t =>
    cases form_of_read? h with
    | abs hw ha =>
      obtain ⟨hrange, rfl⟩ := toAddr?_eq_some_iff.1 ha
      rw [readInteger?_eq_some_iff, trim_eq_self (trimmed_trim token)] at hw
      cases hv
      exact .inr ⟨.target, trim token, _, ⟨rfl, hw, hrange⟩, rfl, Int.toNat_of_nonneg hrange.1⟩
    | label => cases hv
  | _ => cases hv

namespace IntegerPlace

variable {place : IntegerPlace}

/-- Where no sign stands behind another character and no space stands, what is read is written. -/
theorem Reads.written (h : place.Reads token s w) (hsign : SignInFront s) (hspace : ' ' ∉ s) :
    Written s w ∧ w.natAbs < span 63 := by
  have hreadable := h.readable
  have hunspaced (h : Readable (unspaced (upper s)) w) : Written s w ∧ w.natAbs < span 63 := by
    rw [unspaced_upper, unspaced_eq_self hspace] at h
    exact (h.written (signInFront_upper.2 hsign)).imp_left written_upper.1
  cases place with
  | immediate => exact hreadable.written hsign
  | target => exact hreadable.written hsign
  | _ => exact hunspaced hreadable

theorem Reads.inRange_kept (h : place.Reads token s w) (hw : w.natAbs < span 63) (hstep : place.IsStep → Fits 32 w) :
    place.kept w = w ∧ place.InRange w := by
  have hadmits := h.admits
  have hfits : Fits 64 w := fits_of_natAbs_lt hw
  cases place with
  | immediate => exact ⟨rfl, hfits⟩
  | target => exact ⟨rfl, hadmits⟩
  | address => exact ⟨rfl, hadmits⟩
  | _ => exact ⟨(wrap_eq_self_iff (by decide) w).2 (hstep trivial), hstep trivial⟩

/-- The integer is exact if it is written where it is read and the step, if it is one, fits. -/
theorem Reads.exact_iff (h : place.Reads token s w) :
    Written s (place.kept w) ∧ place.InRange (place.kept w) ↔
      SignInFront s ∧ ' ' ∉ s ∧ (place.IsStep → ∀ w, Written s w → Fits 32 w) := by
  constructor
  · rintro ⟨hwritten, hrange⟩
    refine ⟨Written.signInFront hwritten, Written.notMem_space hwritten, fun hstep w hw => ?_⟩
    rw [Written.unique hw hwritten]
    cases place with
    | stepBehind => exact hrange
    | stepAhead => exact hrange
    | _ => exact hstep.elim
  · rintro ⟨hsign, hspace, hstep⟩
    obtain ⟨hwritten, hlt⟩ := h.written hsign hspace
    obtain ⟨hkept, hrange⟩ := h.inRange_kept hlt fun hisStep => hstep hisStep w hwritten
    rw [hkept]
    exact ⟨hwritten, hrange⟩

end IntegerPlace

/-- An integer of a token is the one that is written at its place, and in the range of the place, exactly if no sign
stands behind another character, no space stands between the digits and a step is in range. Of what is written, all
that is out of range is refused but a step, which loses all but 32 bits. -/
theorem integers_written (token : List Char) :
    (∀ o v, read? token = some o → o.integer? = some v →
      Unstepped token o ∨ ∃ (place : IntegerPlace) (s : List Char), place.Holds token s ∧ o = place.operand v ∧
        (Written s v ∧ place.InRange v ↔
          SignInFront s ∧ ' ' ∉ s ∧ (place.IsStep → ∀ w, Written s w → Fits 32 w))) ∧
    ∀ (place : IntegerPlace) (s : List Char) (w : Int), place.Holds token s → Written s w →
      read? token = if place.Accepts w then some (place.operand (place.kept w)) else none := by
  refine ⟨fun o v hread hv => ?_, fun place s w hplace hs => hplace.read?_eq hs⟩
  refine (exists_place hread hv).imp_right ?_
  rintro ⟨place, s, w, hreads, ho, rfl⟩
  exact ⟨place, s, hreads.holds, ho, hreads.exact_iff⟩

/-- A number of 33 bits is refused as an address and becomes another number as a step. -/
theorem integers_written_wide :
    read? "DM(4294967297)".toList = none ∧ read? "DM(I0,#4294967297)".toList = some (.mem ⟨.data, .postImm 0 1⟩) := by
  have hwritten : Written "4294967297".toList 4294967297 :=
    .plain (by decide) (.decimal ⟨by decide, [4, 2, 9, 4, 9, 6, 7, 2, 9, 7], by decide, by decide⟩)
  have haddress : (IntegerPlace.address .data).Holds "DM(4294967297)".toList "4294967297".toList :=
    ⟨"4294967297".toList, ⟨"DM".toList, by decide, by decide⟩, by decide⟩
  have hstep : (IntegerPlace.stepBehind .data 0).Holds "DM(I0,#4294967297)".toList "4294967297".toList :=
    ⟨"I0,#4294967297".toList, "I0".toList, "4294967297".toList, ⟨"DM".toList, by decide, by decide⟩,
      by decide, by decide, by decide⟩
  exact ⟨(integers_written _).2 _ _ _ haddress hwritten, (integers_written _).2 _ _ _ hstep hwritten⟩

end Operand

end QuadDsp
