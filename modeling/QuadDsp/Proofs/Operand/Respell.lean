import QuadDsp.Operand.Reader
import QuadDsp.Proofs.Text.Words

/-! # Operands read back

The text of an operand is read as the operand (`Operand.read?_text`). Names are left out: what a name is read
as depends on what else it could be. -/

namespace QuadDsp

open Text

/-- The reader takes every number of the addressing mode. -/
def AddrMode.Spelled : AddrMode → Prop
  | .direct a => a < span 32
  | .symbol _ => False
  | .post i m | .pre m i => i < 8 ∧ m < 8
  | .postImm i step | .preImm step i => i < 8 ∧ Fits 32 step

/-- The operand has no name, its registers are in their files, and the reader takes every number of it. -/
def Operand.Spelled : Operand → Prop
  | .reg r => r.inFile = true
  | .accView a _ => a < RegClass.acc.count
  | .imm v => v.natAbs < span 63
  | .mem ref => ref.mode.Spelled
  | .target (.abs a) => a < span 32
  | .target (.label _) => False
  | .sys _ | .cond _ | .key _ => True

namespace Operand

/-! ### Numbers -/

theorem hex_eq (n : Nat) : (hex n).toList = '0' :: 'x' :: digits 16 n := by
  rw [hex, String.toList_append, String.toList_ofList (l := digits 16 n)]
  rfl

theorem unsignedOrHex_of_notMem {ds : List Char} (hx : 'x' ∉ ds) (hX : 'X' ∉ ds) :
    readInteger?.unsignedOrHex ds = (readInt 10 64 ds).toOption := by
  unfold readInteger?.unsignedOrHex
  split
  · exact absurd (by simp) hx
  · exact absurd (by simp) hX
  · rfl

theorem unsignedOrHex_digits {n : Nat} (hn : n < span 63) :
    readInteger?.unsignedOrHex (digits 10 n) = some (n : Int) := by
  have hchars : ∀ c ∈ digitChars.take 10, c ≠ 'x' ∧ c ≠ 'X' ∧ c ≠ '+' ∧ c ≠ '-' := by decide
  have hdigits := forall_digits (by decide) (by decide) hchars n
  rw [unsignedOrHex_of_notMem (fun h => (hdigits _ h).1 rfl) fun h => (hdigits _ h).2.1 rfl,
    readInt_of_forall (digits_ne_nil 10 n) (fun c hc => (hdigits c hc).2.2.1) fun c hc => (hdigits c hc).2.2.2,
    magnitude_digits _ (by decide) (by decide) (Nat.le_sub_one_of_lt hn)]
  rfl

theorem readInteger?_decimalInt {v : Int} (hv : v.natAbs < span 63) :
    readInteger? (decimalInt v).toList = some v := by
  rw [readInteger?, trim_eq_self (.of_forall (not_isBlank_decimalInt v))]
  by_cases hneg : v < 0
  · rw [decimalInt_of_neg hneg]
    have hself : -(v.natAbs : Int) = v := by omega
    have hfits : Fits 64 v := fits_of_natAbs_lt hv
    show (readInteger?.unsignedOrHex (digits 10 v.natAbs)).map (fun w => wrap 64 (-w)) = some v
    rw [unsignedOrHex_digits hv, Option.map_some, hself, (wrap_eq_self_iff (by decide) v).2 hfits]
  · have hsign : ∀ c ∈ digitChars.take 10, c ≠ '-' ∧ c ≠ '+' := by decide
    have hdigits := forall_digits (by decide) (by decide) hsign v.natAbs
    rw [decimalInt_of_nonneg hneg]
    split
    · next rest heq => exact absurd rfl (hdigits '-' (by rw [heq]; exact List.mem_cons_self)).1
    · next rest heq => exact absurd rfl (hdigits '+' (by rw [heq]; exact List.mem_cons_self)).2
    · rw [unsignedOrHex_digits hv]
      congr 1
      omega

theorem readInt_hex {a : Nat} (ha : a < span 63) {ds : List Char} (hds : ds = digits 16 a ∨ ds = upper (digits 16 a)) :
    readInt 16 64 ds = .ok (a : Int) := by
  have hchars : ∀ c ∈ digitChars.take 16, c ∈ digitChars ∧ c ≠ '+' ∧ c ≠ '-' ∧ c.toUpper ≠ '+' ∧ c.toUpper ≠ '-' := by
    decide
  have hdigits := forall_digits (by decide) (by decide) hchars a
  have hmagnitude : magnitude 16 (span 63 - 1) .tooLarge 0 (digits 16 a) = .ok a :=
    magnitude_digits _ (by decide) (by decide) (Nat.le_sub_one_of_lt ha)
  rcases hds with rfl | rfl
  · rw [readInt_of_forall (digits_ne_nil 16 a) (fun c hc => (hdigits c hc).2.1) fun c hc => (hdigits c hc).2.2.1,
      hmagnitude]
    rfl
  · have hne : upper (digits 16 a) ≠ [] := by simpa [upper] using digits_ne_nil 16 a
    have hupper : ∀ c ∈ upper (digits 16 a), c ≠ '+' ∧ c ≠ '-' := by
      intro c hc
      obtain ⟨d, hd, rfl⟩ := List.mem_map.1 hc
      exact (hdigits d hd).2.2.2
    rw [readInt_of_forall hne (fun c hc => (hupper c hc).1) fun c hc => (hupper c hc).2,
      magnitude_upper fun c hc => (hdigits c hc).1, hmagnitude]
    rfl

theorem readInteger?_hex {a : Nat} (ha : a < span 63) : readInteger? ('0' :: 'x' :: digits 16 a) = some (a : Int) := by
  have htrim : Trimmed ('0' :: 'x' :: digits 16 a) := by
    refine .of_forall (List.forall_mem_cons.2 ⟨rfl, List.forall_mem_cons.2 ⟨rfl, ?_⟩⟩)
    exact not_isBlank_digits (by decide) (by decide) a
  rw [readInteger?, trim_eq_self htrim]
  show (readInt 16 64 (digits 16 a)).toOption = _
  rw [readInt_hex ha (.inl rfl)]
  rfl

theorem readInteger?_hexUpper {a : Nat} (ha : a < span 63) :
    readInteger? ('0' :: 'X' :: upper (digits 16 a)) = some (a : Int) := by
  have hchars : ∀ c ∈ digitChars.take 16, isBlank c.toUpper = false := by decide
  have htrim : Trimmed ('0' :: 'X' :: upper (digits 16 a)) := by
    refine .of_forall (List.forall_mem_cons.2 ⟨rfl, List.forall_mem_cons.2 ⟨rfl, fun c hc => ?_⟩⟩)
    obtain ⟨d, hd, rfl⟩ := List.mem_map.1 hc
    exact forall_digits (by decide) (by decide) hchars a d hd
  rw [readInteger?, trim_eq_self htrim]
  show (readInt 16 64 (upper (digits 16 a))).toOption = _
  rw [readInt_hex ha (.inr rfl)]
  rfl

/-! ### Registers -/

theorem readNumbered?_text {letters : String} {count n : Nat} (hn : n < count) (hcount : count ≤ span 8) :
    readNumbered? letters count (letters.toList ++ digits 10 n) = some n := by
  have hchars : ∀ c ∈ digitChars.take 10, isDigit c = true := by decide
  have hall : ∀ c ∈ digits 10 n, isDigit c = true := forall_digits (by decide) (by decide) hchars n
  have hread : readNat 10 8 (digits 10 n) = .ok n :=
    readNat_digits (by decide) (by decide) (Nat.lt_of_lt_of_le hn hcount)
  simp [readNumbered?, isPrefixOf?_append, hread, Except.toOption, hn]
  exact ⟨digits_ne_nil 10 n, hall⟩

theorem readNumbered?_of_head {letters : String} {a c : Char} (h : letters.toList.head? = some a) (hne : c ≠ a)
    (count : Nat) (cs : List Char) : readNumbered? letters count (c :: cs) = none := by
  obtain ⟨rest, hletters⟩ : ∃ rest, letters.toList = a :: rest := List.head?_eq_some_iff.1 h
  simp [readNumbered?, hletters, List.isPrefixOf?, Ne.symm hne]

theorem readNumbered?_of_ne {cls cls' : RegClass} (h : cls' ≠ cls) (count : Nat) (ds : List Char) :
    readNumbered? cls'.letters count (cls.letters.toList ++ ds) = none := by
  cases cls <;> cases cls' <;> first
    | exact absurd rfl h
    | exact readNumbered?_of_head rfl (by decide) _ _

theorem readReg?_text {cls : RegClass} {k : Nat} (hk : k < cls.count) :
    readReg? (cls.letters.toList ++ digits 10 k) = some ⟨cls, k⟩ := by
  have hcount : cls.count ≤ span 8 := by cases cls <;> decide
  have hread : (readNumbered? cls.letters cls.count (cls.letters.toList ++ digits 10 k)).map (Reg.mk cls) =
      some ⟨cls, k⟩ := by
    rw [readNumbered?_text hk hcount]
    rfl
  have hother {cls' : RegClass} (h : cls' ≠ cls) :
      (readNumbered? cls'.letters cls'.count (cls.letters.toList ++ digits 10 k)).map (Reg.mk cls') = none := by
    rw [readNumbered?_of_ne h]
    rfl
  unfold readReg?
  cases cls <;> simp only [List.findSome?_cons, hread, hother, ne_eq, reduceCtorEq, not_false_eq_true]

/-- Only the letters of a register file can start a register. -/
theorem readReg?_of_head {c : Char} {cs : List Char} (h : c ∉ ['A', 'C', 'R', 'I', 'M', 'L', 'B']) :
    readReg? (c :: cs) = none := by
  refine List.findSome?_eq_none_iff.2 fun cls _ => ?_
  obtain ⟨a, ha, hmem⟩ : ∃ a, cls.letters.toList.head? = some a ∧ a ∈ ['A', 'C', 'R', 'I', 'M', 'L', 'B'] := by
    cases cls <;> exact ⟨_, rfl, by decide⟩
  have hne : c ≠ a := by
    rintro rfl
    exact h hmem
  rw [readNumbered?_of_head ha hne]
  rfl

theorem readIndex?_text {k : Nat} (hk : k < 8) : readIndex? ('I' :: digits 10 k) = some k := by
  have hread : readNumbered? "I" 8 ("I".toList ++ digits 10 k) = some k := readNumbered?_text hk (by decide)
  exact hread

theorem readModify?_text {k : Nat} (hk : k < 8) : readModify? ('M' :: digits 10 k) = some k := by
  have hread : readNumbered? "M" 8 ("M".toList ++ digits 10 k) = some k := readNumbered?_text hk (by decide)
  exact hread

theorem readIndex?_of_head {c : Char} (h : c ≠ 'I') (cs : List Char) : readIndex? (c :: cs) = none :=
  readNumbered?_of_head rfl h 8 cs

theorem readModify?_of_head {c : Char} (h : c ≠ 'M') (cs : List Char) : readModify? (c :: cs) = none :=
  readNumbered?_of_head rfl h 8 cs

theorem readStep?_text {v : Int} (h : Fits 32 v) : readStep? ('#' :: (decimalInt v).toList) = some v := by
  have habs : v.natAbs < span 63 := by
    have h31 : (span (32 - 1) : Int) = 2147483648 := rfl
    have h63 : span 63 = 9223372036854775808 := rfl
    unfold Fits at h
    omega
  show (readInteger? (decimalInt v).toList).map (wrap 32) = some v
  rw [readInteger?_decimalInt habs, Option.map_some, (wrap_eq_self_iff (by decide) v).2 h]

/-! ### Memory references -/

/-- The text between the parentheses. -/
def modeText : AddrMode → List Char
  | .direct a => '0' :: 'x' :: digits 16 a
  | .symbol name => name.toList
  | .post i m => 'I' :: digits 10 i ++ ',' :: 'M' :: digits 10 m
  | .pre m i => 'M' :: digits 10 m ++ ',' :: 'I' :: digits 10 i
  | .postImm i step => 'I' :: digits 10 i ++ if step = 0 then [] else ',' :: '#' :: (decimalInt step).toList
  | .preImm step i => '#' :: (decimalInt step).toList ++ ',' :: 'I' :: digits 10 i

def spaceLetter : Space → Char
  | .data => 'D'
  | .program => 'P'

/-- A memory reference, from what stands between its parentheses. -/
def memText (space : Space) (inner : List Char) : List Char := spaceLetter space :: 'M' :: '(' :: (inner ++ [')'])

theorem mem_text (ref : MemRef) : (Operand.mem ref).text.toList = memText ref.space (modeText ref.mode) := by
  obtain ⟨space, mode⟩ := ref
  cases mode with
  | postImm i step =>
    by_cases hstep : step = 0 <;> cases space <;>
      simp [text, MemRef.text, memText, modeText, spaceLetter, hstep, decimal]
  | _ => cases space <;> simp [text, MemRef.text, memText, modeText, spaceLetter, decimal, hex_eq]

theorem readMem?_memText (space : Space) (inner : List Char) :
    readMem? (memText space inner) = (readMode? inner).map (MemRef.mk space) := by
  cases space <;>
  · simp only [readMem?, memText, spaceLetter, isSuffixOf?_append_singleton, Option.bind_eq_bind, Option.bind_some]
    cases readMode? inner <;> rfl

theorem filter_upper_memText (space : Space) (inner : List Char) :
    (upper (memText space inner)).filter (· ≠ ' ') = memText space ((upper inner).filter (· ≠ ' ')) := by
  cases space <;> simp [upper, memText, spaceLetter]

theorem getLast?_memText (space : Space) (inner : List Char) : (memText space inner).getLast? = some ')' := by
  show ((spaceLetter space :: 'M' :: '(' :: inner) ++ [')']).getLast? = some ')'
  exact List.getLast?_concat

theorem trimmed_memText (space : Space) (inner : List Char) : Trimmed (memText space inner) := by
  refine ⟨?_, ?_⟩
  · rintro _ ⟨⟩
    cases space <;> rfl
  · rw [getLast?_memText]
    rintro _ ⟨⟩
    rfl

theorem readMem?_of_head {c : Char} (h : c ≠ 'D') (h' : c ≠ 'P') (cs : List Char) : readMem? (c :: cs) = none := by
  unfold readMem?
  split
  · next heq =>
    cases heq
    exact absurd rfl h
  · next heq =>
    cases heq
    exact absurd rfl h'
  · rfl

theorem upper_eq_self {s : List Char} (h : ∀ c ∈ s, c.toUpper = c) : upper s = s :=
  (List.map_congr_left h).trans (List.map_id s)

theorem toUpper_digits (n : Nat) : ∀ c ∈ digits 10 n, c.toUpper = c :=
  forall_digits (by decide) (by decide) (by decide) n

theorem toUpper_decimalInt (v : Int) : ∀ c ∈ (decimalInt v).toList, c.toUpper = c := by
  by_cases hv : v < 0
  · rw [decimalInt_of_neg hv]
    exact List.forall_mem_cons.2 ⟨rfl, toUpper_digits _⟩
  · rw [decimalInt_of_nonneg hv]
    exact toUpper_digits _

/-- What stands on its own between two commas. -/
structure Piece (s : List Char) : Prop where
  comma : ∀ c ∈ s, (c == ',') = false
  blank : ∀ c ∈ s, isBlank c = false

theorem Piece.cons {c : Char} {s : List Char} (hcomma : (c == ',') = false) (hblank : isBlank c = false) (h : Piece s) :
    Piece (c :: s) :=
  ⟨List.forall_mem_cons.2 ⟨hcomma, h.comma⟩, List.forall_mem_cons.2 ⟨hblank, h.blank⟩⟩

theorem piece_digits (n : Nat) : Piece (digits 10 n) :=
  ⟨forall_digits (by decide) (by decide) (by decide) n, not_isBlank_digits (by decide) (by decide) n⟩

theorem piece_decimalInt (v : Int) : Piece (decimalInt v).toList := by
  by_cases hv : v < 0
  · rw [decimalInt_of_neg hv]
    exact (piece_digits _).cons rfl rfl
  · rw [decimalInt_of_nonneg hv]
    exact piece_digits _

theorem piece_hexUpper (n : Nat) : Piece ('0' :: 'X' :: upper (digits 16 n)) := by
  have hchars : ∀ c ∈ digitChars.take 16, (c.toUpper == ',') = false ∧ isBlank c.toUpper = false := by decide
  have hdigits := forall_digits (by decide) (by decide) hchars n
  refine .cons rfl rfl (.cons rfl rfl ⟨fun c hc => ?_, fun c hc => ?_⟩)
  · obtain ⟨d, hd, rfl⟩ := List.mem_map.1 hc
    exact (hdigits d hd).1
  · obtain ⟨d, hd, rfl⟩ := List.mem_map.1 hc
    exact (hdigits d hd).2

theorem Piece.cut_one {s : List Char} (hs : Piece s) : (cut (· == ',') s).map trim = [s] := by
  rw [cut_of_forall hs.comma, List.map_singleton, trim_eq_self (.of_forall hs.blank)]

theorem Piece.cut_two {s t : List Char} (hs : Piece s) (ht : Piece t) :
    (cut (· == ',') (s ++ ',' :: t)).map trim = [s, t] := by
  rw [cut_append hs.comma rfl, cut_of_forall ht.comma, List.map_cons, List.map_singleton,
    trim_eq_self (.of_forall hs.blank), trim_eq_self (.of_forall ht.blank)]

theorem upper_cons_digits {c : Char} (hc : c.toUpper = c) (n : Nat) : upper (c :: digits 10 n) = c :: digits 10 n :=
  upper_eq_self (List.forall_mem_cons.2 ⟨hc, toUpper_digits n⟩)

theorem upper_step (v : Int) : upper ('#' :: (decimalInt v).toList) = '#' :: (decimalInt v).toList :=
  upper_eq_self (List.forall_mem_cons.2 ⟨rfl, toUpper_decimalInt v⟩)

theorem upper_append_comma (s t : List Char) : upper (s ++ ',' :: t) = upper s ++ ',' :: upper t :=
  List.map_append

theorem readMode?_text {mode : AddrMode} (h : mode.Spelled) : readMode? (upper (modeText mode)) = some mode := by
  have hI (i : Nat) : Piece ('I' :: digits 10 i) := (piece_digits i).cons rfl rfl
  have hM (m : Nat) : Piece ('M' :: digits 10 m) := (piece_digits m).cons rfl rfl
  have hstep (v : Int) : Piece ('#' :: (decimalInt v).toList) := (piece_decimalInt v).cons rfl rfl
  cases mode with
  | direct a =>
    have ha : a < span 32 := h
    have hupper : upper (modeText (.direct a)) = '0' :: 'X' :: upper (digits 16 a) := rfl
    rw [hupper, readMode?, (piece_hexUpper a).cut_one]
    simp only [readIndex?_of_head (by decide : '0' ≠ 'I'), readInteger?_hexUpper (Nat.lt_trans ha (by decide))]
    simp [toAddr?, ha]
  | symbol => exact h.elim
  | post i m =>
    rw [modeText, upper_append_comma, upper_cons_digits rfl, upper_cons_digits rfl, readMode?, (hI i).cut_two (hM m)]
    simp only [readIndex?_text h.1, readModify?_text h.2]
  | pre m i =>
    rw [modeText, upper_append_comma, upper_cons_digits rfl, upper_cons_digits rfl, readMode?, (hM m).cut_two (hI i)]
    simp only [readIndex?_of_head (by decide : 'M' ≠ 'I'), readModify?_text h.2, readIndex?_text h.1]
  | postImm i step =>
    by_cases hzero : step = 0
    · rw [modeText, if_pos hzero, List.append_nil, upper_cons_digits rfl, readMode?, (hI i).cut_one]
      simp only [readIndex?_text h.1, hzero]
    · rw [modeText, if_neg hzero, upper_append_comma, upper_cons_digits rfl, upper_step, readMode?,
        (hI i).cut_two (hstep step)]
      simp only [readIndex?_text h.1, readModify?_of_head (by decide : '#' ≠ 'M'),
        readModify?_of_head (by decide : 'I' ≠ 'M'), readStep?_text h.2]
  | preImm step i =>
    rw [modeText, upper_append_comma, upper_cons_digits rfl, upper_step, readMode?, (hstep step).cut_two (hI i)]
    simp only [readIndex?_of_head (by decide : '#' ≠ 'I'), readModify?_of_head (by decide : 'I' ≠ 'M'),
      readModify?_of_head (by decide : '#' ≠ 'M'), readIndex?_text h.1, readStep?_text h.2]

/-! ### Whole operands -/

/-- Where no memory reference stands, the forms behind it are tried in order. -/
theorem read?_of_readMem? {s raw : List Char} (hs : trim s = raw) (hne : raw ≠ []) (hhash : ∀ c ∈ raw.head?, c ≠ '#')
    (hmem : readMem? ((upper raw).filter (· ≠ ' ')) = none) :
    read? s =
      (read?.readView? (upper raw) <|> (readReg? (upper raw)).map .reg <|> read?.readIndirect? (upper raw) <|>
        (readSys? (upper raw)).map .sys <|> (readKeyword? (upper raw)).map .key <|>
        (Condition.ofName? (upper raw)).map .cond <|> read?.readTarget? raw) := by
  unfold read?
  rw [hs]
  dsimp only
  split
  · exact absurd rfl hne
  · exact absurd rfl (hhash '#' rfl)
  · rw [hmem]

/-- Capitals and digits without a blank, as they are: neither a memory reference nor an immediate. -/
theorem read?_of_capitals {s raw : List Char} (hs : trim s = raw) (hne : raw ≠ [])
    (hhead : ∀ c ∈ raw.head?, c ≠ '#' ∧ c ≠ 'D' ∧ c ≠ 'P') (hchars : ∀ c ∈ raw, c.toUpper = c ∧ c ≠ ' ') :
    read? s =
      (read?.readView? raw <|> (readReg? raw).map .reg <|> read?.readIndirect? raw <|> (readSys? raw).map .sys <|>
        (readKeyword? raw).map .key <|> (Condition.ofName? raw).map .cond <|> read?.readTarget? raw) := by
  have hupper : upper raw = raw := upper_eq_self fun c hc => (hchars c hc).1
  have hfilter : raw.filter (· ≠ ' ') = raw := List.filter_eq_self.2 fun c hc => decide_eq_true (hchars c hc).2
  have hmem : readMem? ((upper raw).filter (· ≠ ' ')) = none := by
    rw [hupper, hfilter]
    cases raw with
    | nil => exact absurd rfl hne
    | cons c cs => exact readMem?_of_head (hhead c rfl).2.1 (hhead c rfl).2.2 cs
  rw [read?_of_readMem? hs hne (fun c hc => (hhead c hc).1) hmem, hupper]

/-- A form without names is read by what it looks like in capitals. -/
theorem read?_of_mem {s : List Char} {c : Char} {cs : List Char} (hs : trim s = c :: cs) (hc : c ≠ '#') {ref : MemRef}
    (hmem : readMem? ((upper (c :: cs)).filter (· ≠ ' ')) = some ref) (hsymbol : ∀ name, ref.mode ≠ .symbol name) :
    read? s = some (.mem ref) := by
  unfold read?
  rw [hs]
  dsimp only
  split
  · next heq => cases heq
  · next heq =>
    cases heq
    exact absurd rfl hc
  · rw [hmem]
    split
    · next heq =>
      cases heq
      exact absurd rfl (hsymbol _)
    · next heq =>
      cases heq
      rfl
    · next heq => cases heq

/-- What a numeral of an addressing mode is made of, and what stands around it. -/
def modeChars : List Char := digitChars ++ ['x', 'I', 'M', '#', '-', ',']

theorem mem_modeChars {mode : AddrMode} (h : mode.Spelled) : ∀ c ∈ modeText mode, c ∈ modeChars := by
  have hdecimal (n : Nat) : ∀ c ∈ digits 10 n, c ∈ modeChars := forall_digits (by decide) (by decide) (by decide) n
  have hhex (n : Nat) : ∀ c ∈ digits 16 n, c ∈ modeChars := forall_digits (by decide) (by decide) (by decide) n
  have hstep (v : Int) : ∀ c ∈ '#' :: (decimalInt v).toList, c ∈ modeChars := by
    refine List.forall_mem_cons.2 ⟨by decide, ?_⟩
    by_cases hv : v < 0
    · rw [decimalInt_of_neg hv]
      exact List.forall_mem_cons.2 ⟨by decide, hdecimal _⟩
    · rw [decimalInt_of_nonneg hv]
      exact hdecimal _
  have hreg {a : Char} (ha : a ∈ modeChars) (n : Nat) : ∀ c ∈ a :: digits 10 n, c ∈ modeChars :=
    List.forall_mem_cons.2 ⟨ha, hdecimal n⟩
  have htwo {s t : List Char} (hs : ∀ c ∈ s, c ∈ modeChars) (ht : ∀ c ∈ t, c ∈ modeChars) :
      ∀ c ∈ s ++ ',' :: t, c ∈ modeChars :=
    List.forall_mem_append.2 ⟨hs, List.forall_mem_cons.2 ⟨by decide, ht⟩⟩
  cases mode with
  | direct a => exact List.forall_mem_cons.2 ⟨by decide, List.forall_mem_cons.2 ⟨by decide, hhex a⟩⟩
  | symbol => exact h.elim
  | post i m => exact htwo (hreg (by decide) i) (hreg (by decide) m)
  | pre m i => exact htwo (hreg (by decide) m) (hreg (by decide) i)
  | postImm i step =>
    rw [modeText]
    split
    · rw [List.append_nil]
      exact hreg (by decide) i
    · exact htwo (hreg (by decide) i) (hstep step)
  | preImm step i => exact htwo (hstep step) (hreg (by decide) i)

theorem read?_mem {ref : MemRef} (h : ref.mode.Spelled) {s : List Char} (hs : trim s = (Operand.mem ref).text.toList) :
    read? s = some (.mem ref) := by
  have hspace : ∀ c ∈ modeChars, c.toUpper ≠ ' ' := by decide
  have hinner : (upper (modeText ref.mode)).filter (· ≠ ' ') = upper (modeText ref.mode) := by
    refine List.filter_eq_self.2 fun c hc => ?_
    obtain ⟨d, hd, rfl⟩ := List.mem_map.1 hc
    exact decide_eq_true (hspace d (mem_modeChars h d hd))
  have hmem : readMem? ((upper (memText ref.space (modeText ref.mode))).filter (· ≠ ' ')) = some ref := by
    rw [filter_upper_memText, hinner, readMem?_memText, readMode?_text h]
    rfl
  have hhead : spaceLetter ref.space ≠ '#' := by cases ref.space <;> decide
  rw [mem_text] at hs
  refine read?_of_mem hs hhead hmem fun name hname => ?_
  rw [hname] at h
  exact h

theorem imm_text (v : Int) : (Operand.imm v).text.toList = '#' :: (decimalInt v).toList := by
  rw [text, String.toList_append]
  rfl

theorem read?_imm {v : Int} (h : v.natAbs < span 63) {s : List Char} (hs : trim s = (Operand.imm v).text.toList) :
    read? s = some (.imm v) := by
  unfold read?
  rw [hs, imm_text]
  show (readInteger? (decimalInt v).toList).map Operand.imm = _
  rw [readInteger?_decimalInt h]
  rfl

theorem reg_text (r : Reg) : (Operand.reg r).text.toList = r.cls.letters.toList ++ digits 10 r.index := by
  rw [text, Reg.text, String.toList_append, decimal, String.toList_ofList]

theorem dot_notMem_digits (n : Nat) : ∀ c ∈ digits 10 n, (c == '.') = false :=
  forall_digits (by decide) (by decide) (by decide) n

theorem capitals_digits (n : Nat) : ∀ c ∈ digits 10 n, c.toUpper = c ∧ c ≠ ' ' :=
  forall_digits (by decide) (by decide) (by decide) n

theorem capitals_letters (cls : RegClass) : ∀ c ∈ cls.letters.toList, c.toUpper = c ∧ c ≠ ' ' := by
  cases cls <;> decide

theorem head_letters (cls : RegClass) (t : List Char) :
    ∀ c ∈ (cls.letters.toList ++ t).head?, c ≠ '#' ∧ c ≠ 'D' ∧ c ≠ 'P' := by
  cases cls <;>
  · intro c hc
    cases hc
    decide

theorem read?_reg {r : Reg} (h : r.inFile = true) {s : List Char} (hs : trim s = (Operand.reg r).text.toList) :
    read? s = some (.reg r) := by
  obtain ⟨cls, k⟩ := r
  rw [reg_text] at hs
  have hdot : ∀ c ∈ cls.letters.toList ++ digits 10 k, (c == '.') = false :=
    List.forall_mem_append.2 ⟨by cases cls <;> decide, dot_notMem_digits k⟩
  have hview : read?.readView? (cls.letters.toList ++ digits 10 k) = none := by
    rw [read?.readView?, splitFirst_of_forall hdot]
    rfl
  rw [read?_of_capitals hs (List.append_ne_nil_of_right_ne_nil _ (digits_ne_nil 10 k)) (head_letters cls _)
    (List.forall_mem_append.2 ⟨capitals_letters cls, capitals_digits k⟩), hview, readReg?_text (of_decide_eq_true h)]
  rfl

theorem accView_text (a : Nat) (view : AccView) : (Operand.accView a view).text.toList =
    RegClass.acc.letters.toList ++ digits 10 a ++ '.' :: view.letter.toList := by
  simp [text, decimal, RegClass.letters]

theorem read?_accView {a : Nat} {view : AccView} (h : a < RegClass.acc.count) {s : List Char}
    (hs : trim s = (Operand.accView a view).text.toList) : read? s = some (.accView a view) := by
  have hdot : ∀ c ∈ RegClass.acc.letters.toList ++ digits 10 a, (c == '.') = false :=
    List.forall_mem_append.2 ⟨by decide, dot_notMem_digits a⟩
  have hview : read?.readView? (RegClass.acc.letters.toList ++ digits 10 a ++ '.' :: view.letter.toList) =
      some (.accView a view) := by
    rw [read?.readView?, splitFirst_append hdot rfl]
    simp only [Option.bind_eq_bind, Option.bind_some, readReg?_text h]
    cases view <;> rfl
  have hletter : ∀ c ∈ '.' :: view.letter.toList, c.toUpper = c ∧ c ≠ ' ' := by cases view <;> decide
  rw [accView_text] at hs
  rw [read?_of_capitals hs (List.append_ne_nil_of_right_ne_nil _ (List.cons_ne_nil _ _)) (head_letters .acc _)
    (List.forall_mem_append.2 ⟨List.forall_mem_append.2 ⟨capitals_letters .acc, capitals_digits a⟩, hletter⟩), hview]
  rfl

theorem target_text (a : Nat) : (Operand.target (.abs a)).text.toList = '0' :: 'x' :: digits 16 a := by
  rw [text, Target.text, hex_eq]

theorem read?_target {a : Nat} (h : a < span 32) {s : List Char}
    (hs : trim s = (Operand.target (.abs a)).text.toList) : read? s = some (.target (.abs a)) := by
  have hupper : upper ('0' :: 'x' :: digits 16 a) = '0' :: 'X' :: upper (digits 16 a) := rfl
  have hchars : ∀ c ∈ '0' :: 'X' :: upper (digits 16 a),
      (c == '.') = false ∧ (c == ')') = false ∧ isBlank c = false := by
    have hdigits : ∀ c ∈ digitChars.take 16,
        (c.toUpper == '.') = false ∧ (c.toUpper == ')') = false ∧ isBlank c.toUpper = false := by decide
    refine List.forall_mem_cons.2 ⟨by decide, List.forall_mem_cons.2 ⟨by decide, fun c hc => ?_⟩⟩
    obtain ⟨d, hd, rfl⟩ := List.mem_map.1 hc
    exact forall_digits (by decide) (by decide) hdigits a d hd
  rw [target_text] at hs
  rw [read?_of_readMem? hs (List.cons_ne_nil _ _) (fun c hc => by cases hc; decide) rfl, hupper]
  have hview : read?.readView? ('0' :: 'X' :: upper (digits 16 a)) = none := by
    rw [read?.readView?, splitFirst_of_forall fun c hc => (hchars c hc).1]
    rfl
  have hcond : Condition.ofName? ('0' :: 'X' :: upper (digits 16 a)) = none := by
    have hwords : words ('0' :: 'X' :: upper (digits 16 a)) = ['0' :: 'X' :: upper (digits 16 a)] :=
      IsWord.words_eq ⟨List.cons_ne_nil _ _, fun c hc => (hchars c hc).2.2⟩
    rw [Condition.ofName?, hwords]
    rfl
  have hkey : readKeyword? ('0' :: 'X' :: upper (digits 16 a)) = none := by
    have hbare : dropEnd (· == ')') (('0' :: 'X' :: upper (digits 16 a)).dropWhile (· == '(')) =
        '0' :: 'X' :: upper (digits 16 a) :=
      dropEnd_eq_self (p := (· == ')')) fun c hc => (hchars c (List.mem_of_getLast? hc)).2.1
    rw [readKeyword?, hbare]
    rfl
  have htarget : read?.readTarget? ('0' :: 'x' :: digits 16 a) = some (.target (.abs a)) := by
    rw [read?.readTarget?, readInteger?_hex (Nat.lt_trans h (by decide))]
    simp [toAddr?, h]
  rw [hview, readReg?_of_head (by decide), hcond, hkey, htarget]
  rfl

/-- The text of an operand is read as the operand. -/
theorem read?_text {o : Operand} (h : o.Spelled) {s : List Char} (hs : trim s = o.text.toList) : read? s = some o := by
  have hclosed (hread : read? o.text.toList = some o) (htrim : trim o.text.toList = o.text.toList) :
      read? s = some o := by
    rw [← hread]
    unfold read?
    rw [hs, htrim]
  cases o with
  | reg r => exact read?_reg h hs
  | accView a view => exact read?_accView h hs
  | imm v => exact read?_imm h hs
  | mem ref => exact read?_mem h hs
  | target t =>
    cases t with
    | abs a => exact read?_target h hs
    | label => exact h.elim
  | sys r => exact hclosed (by cases r <;> rfl) (by cases r <;> rfl)
  | cond c =>
    have hall : ∀ c ∈ Condition.all, read? c.name.toList = some (.cond c) ∧ trim c.name.toList = c.name.toList := by
      decide +kernel
    exact hclosed (hall c c.mem_all).1 (hall c c.mem_all).2
  | key k =>
    cases k with
    | sts => exact hclosed rfl rfl
    | mul m => exact hclosed (by cases m <;> rfl) (by cases m <;> rfl)
    | mode b => exact hclosed (by cases b <;> rfl) (by cases b <;> rfl)

end Operand

end QuadDsp
