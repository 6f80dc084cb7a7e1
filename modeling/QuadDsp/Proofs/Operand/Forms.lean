import QuadDsp.Proofs.Operand.Lists

/-! # What a token is read as

Each operand that the reader can give has one form of token that it comes from (`Operand.Form`,
`Operand.form_of_read?`). Two forms carry a name: labels, and symbols in a memory reference. Such an operand is
legible if its text is read as the operand and not as something else that the name could be
(`Operand.Legible`). Nothing but letters, digits, underscores and dots is in a name that is read back, in a
symbol also blanks. -/

namespace QuadDsp

namespace Operand

open Text

/-! ### Forms -/

/-- The token that an operand is read from, without blanks around it. -/
inductive Form (raw : List Char) : Operand → Prop
  | imm {ds : List Char} {v : Int} (hraw : raw = '#' :: ds) (h : readInteger? ds = some v) : Form raw (.imm v)
  | symbol {space : Space} {name : String} (h : readMem? ((upper raw).filter (· ≠ ' ')) = some ⟨space, .symbol name⟩) :
    Form raw (.mem ⟨space, .symbol (String.ofList (trim (raw.drop 3).dropLast))⟩)
  | mem {ref : MemRef} (h : readMem? ((upper raw).filter (· ≠ ' ')) = some ref)
      (hmode : ∀ name, ref.mode ≠ .symbol name) :
    Form raw (.mem ref)
  | accView {a : Nat} {view : AccView} (h : read?.readView? (upper raw) = some (.accView a view)) :
    Form raw (.accView a view)
  | reg {r : Reg} (h : readReg? (upper raw) = some r) : Form raw (.reg r)
  | indirect {n : Nat} (h : read?.readIndirect? (upper raw) = some (.reg ⟨.index, n⟩)) : Form raw (.reg ⟨.index, n⟩)
  | sys {r : SysReg} (h : readSys? (upper raw) = some r) : Form raw (.sys r)
  | key {k : Keyword} (h : readKeyword? (upper raw) = some k) : Form raw (.key k)
  | cond {c : Condition} (h : Condition.ofName? (upper raw) = some c) : Form raw (.cond c)
  | abs {v : Int} {a : Nat} (h : readInteger? raw = some v) (ha : toAddr? v = some a) : Form raw (.target (.abs a))
  | label (h : isName raw = true) : Form raw (.target (.label (String.ofList raw)))

theorem form_of_readView? {raw : List Char} {o : Operand} (h : read?.readView? (upper raw) = some o) : Form raw o := by
  have hview := h
  simp only [read?.readView?, Option.bind_eq_bind, Option.bind_eq_some_iff] at h
  obtain ⟨_, -, r, -, h⟩ := h
  have hpart {part : Option AccView}
      (h : (part.bind fun view => if r.cls = .acc then some (Operand.accView r.index view) else none) = some o) :
      Form raw o := by
    obtain ⟨view, -, h⟩ := Option.bind_eq_some_iff.1 h
    split at h
    · cases h
      exact .accView hview
    · cases h
  split at h <;> exact hpart h

theorem form_of_readIndirect? {raw : List Char} {o : Operand} (h : read?.readIndirect? (upper raw) = some o) :
    Form raw o := by
  have hindirect := h
  simp only [read?.readIndirect?, Option.bind_eq_bind, Option.bind_eq_some_iff] at h
  obtain ⟨_, -, _, -, n, -, ⟨⟩⟩ := h
  exact .indirect hindirect

theorem form_of_readTarget? {raw : List Char} {o : Operand} (h : read?.readTarget? raw = some o) : Form raw o := by
  unfold read?.readTarget? at h
  split at h
  · next v hv =>
    obtain ⟨a, ha, ⟨⟩⟩ := Option.map_eq_some_iff.1 h
    exact .abs hv ha
  · split at h
    · next hname =>
      cases h
      exact .label hname
    · cases h

/-- Whatever a token is read as, it has the form for it. -/
theorem form_of_read? {s : List Char} {o : Operand} (h : read? s = some o) : Form (trim s) o := by
  unfold read? at h
  dsimp only at h
  split at h
  · cases h
  · next ds hraw =>
    obtain ⟨v, hv, rfl⟩ := Option.map_eq_some_iff.1 h
    exact .imm hraw hv
  · split at h
    · next hmem =>
      cases h
      exact .symbol hmem
    · next hsymbol hmem =>
      cases h
      exact .mem hmem fun name hname => hsymbol _ name (by rw [← hname])
    · simp only [Option.orElse_eq_orElse, Option.orElse_eq_or, Option.or_eq_some_iff, Option.map_eq_some_iff] at h
      rcases h with h | ⟨-, h | ⟨-, h | ⟨-, h | ⟨-, h | ⟨-, h | ⟨-, h⟩⟩⟩⟩⟩⟩
      · exact form_of_readView? h
      · obtain ⟨r, hr, rfl⟩ := h
        exact .reg hr
      · exact form_of_readIndirect? h
      · obtain ⟨r, hr, rfl⟩ := h
        exact .sys hr
      · obtain ⟨k, hk, rfl⟩ := h
        exact .key hk
      · obtain ⟨c, hc, rfl⟩ := h
        exact .cond hc
      · exact form_of_readTarget? h

/-! ### Names -/

theorem isNameChar_iff {c : Char} : isNameChar c = true ↔
    65 ≤ c.toNat ∧ c.toNat ≤ 90 ∨ 97 ≤ c.toNat ∧ c.toNat ≤ 122 ∨ 48 ≤ c.toNat ∧ c.toNat ≤ 57 ∨ c = '_' ∨ c = '.' := by
  unfold isNameChar Char.isAlphanum Char.isAlpha Char.isUpper Char.isLower Char.isDigit
  simp only [Bool.or_eq_true, Bool.and_eq_true, decide_eq_true_eq, beq_iff_eq, UInt32.le_iff_toNat_le,
    ge_iff_le, or_assoc]
  exact Iff.rfl

theorem isBlank_of_isNameChar {c : Char} (h : isNameChar c = true) : isBlank c = false := by
  rw [← Bool.not_eq_true]
  intro hblank
  simp only [isBlank, Bool.or_eq_true, Bool.and_eq_true, decide_eq_true_eq, beq_iff_eq] at hblank
  rcases isNameChar_iff.1 h with h | h | h | rfl | rfl
  · omega
  · omega
  · omega
  · revert hblank
    decide
  · revert hblank
    decide

/-- Only small letters have capitals. -/
theorem toUpper_eq_self_or (c : Char) : c.toUpper = c ∨ isNameChar c = true := by
  by_cases h : 'a'.val ≤ c.val ∧ c.val ≤ 'z'.val
  · refine .inr (isNameChar_iff.2 (.inr (.inl ?_)))
    rwa [UInt32.le_iff_toNat_le, UInt32.le_iff_toNat_le] at h
  · refine .inl ?_
    unfold Char.toUpper
    exact dif_neg h

theorem eq_of_toUpper {c d : Char} (h : c.toUpper = d) (hd : d.isUpper = false) : c = d := by
  by_cases hlower : 'a'.val ≤ c.val ∧ c.val ≤ 'z'.val
  · have hupper : c.toUpper.isUpper = true := by
      have hlow := UInt32.le_iff_toNat_le.1 hlower.1
      have hhigh := UInt32.le_iff_toNat_le.1 hlower.2
      unfold Char.toUpper
      rw [dif_pos hlower]
      unfold Char.isUpper
      simp [UInt32.le_iff_toNat_le, UInt32.toNat_add] at hlow hhigh ⊢
      omega
    rw [h, hd] at hupper
    cases hupper
  · unfold Char.toUpper at h
    rwa [dif_neg hlower] at h

theorem isNameChar_of_toUpper {c : Char} (h : isNameChar c.toUpper = true) : isNameChar c = true :=
  (toUpper_eq_self_or c).elim (fun hself => hself ▸ h) id

theorem ne_of_isNameChar {c d : Char} (h : isNameChar c = true)
    (hd : d ∈ [' ', '(', ')', ',', '|', ':']) : c ≠ d := by
  have hall : ∀ d ∈ [' ', '(', ')', ',', '|', ':'], isNameChar d = false := by decide
  rintro rfl
  rw [hall c hd] at h
  cases h

theorem ne_of_symbolChar {c d : Char} (h : isBlank c = true ∨ isNameChar c = true)
    (hd : d ∈ ['(', ')', ',', '|', ':']) : c ≠ d := by
  have hall : ∀ d ∈ ['(', ')', ',', '|', ':'], isBlank d = false ∧ isNameChar d = false := by decide
  rintro rfl
  rw [(hall c hd).1, (hall c hd).2] at h
  rcases h with h | h <;> cases h

theorem forall_isNameChar {s : List Char} (h : isName s = true) : ∀ c ∈ s, isNameChar c = true := by
  cases s with
  | nil => exact List.forall_mem_nil _
  | cons c cs =>
    rw [isName, Bool.and_eq_true, List.all_eq_true] at h
    refine List.forall_mem_cons.2 ⟨?_, h.2⟩
    have hstart := h.1
    simp only [isNameStart, Bool.or_eq_true] at hstart
    simp only [isNameChar, Char.isAlphanum, Bool.or_eq_true]
    tauto

theorem ne_nil_of_isName {s : List Char} (h : isName s = true) : s ≠ [] := by
  rintro rfl
  cases h

theorem Form.isName_of_label {raw : List Char} {name : String} (h : Form raw (.target (.label name))) :
    name.toList = raw ∧ isName raw = true := by
  cases h with
  | label h => exact ⟨String.toList_ofList, h⟩

theorem isName_of_read? {name : String} (h : read? name.toList = some (.target (.label name))) :
    isName name.toList = true := by
  obtain ⟨hname, hraw⟩ := (form_of_read? h).isName_of_label
  exact hname ▸ hraw

theorem readMode?_eq_symbol {inner : List Char} {name : String} (h : readMode? inner = some (.symbol name)) :
    ',' ∉ inner ∧ isName (trim inner) = true := by
  unfold readMode? at h
  split at h
  · next one hone =>
    obtain ⟨piece, hcut, rfl⟩ : ∃ piece, cut (· == ',') inner = [piece] ∧ trim piece = one := by
      simpa [List.map_eq_cons_iff] using hone
    obtain ⟨rfl, hcomma⟩ := cut_eq_singleton hcut
    refine ⟨fun hmem => by simpa using hcomma _ hmem, ?_⟩
    split at h
    · cases h
    · split at h
      · obtain ⟨_, -, ⟨⟩⟩ := Option.map_eq_some_iff.1 h
      · split at h
        · assumption
        · cases h
  · split at h <;> cases h
  · cases h

/-- Nothing but blanks and what a name is made of is in a symbol. -/
theorem Form.chars_of_symbol {space space' : Space} {inner : List Char} {name : String}
    (h : Form (memText space inner) (.mem ⟨space', .symbol name⟩)) :
    ∀ c ∈ inner, isBlank c = true ∨ isNameChar c = true := by
  obtain ⟨name', hread⟩ : ∃ name', readMem? ((upper (memText space inner)).filter (· ≠ ' ')) =
      some ⟨space', .symbol name'⟩ := by
    cases h with
    | symbol h => exact ⟨_, h⟩
    | mem _ hmode => exact absurd rfl (hmode name)
  rw [filter_upper_memText, readMem?_memText] at hread
  obtain ⟨mode, hmode, heq⟩ := Option.map_eq_some_iff.1 hread
  obtain rfl : mode = .symbol name' := congrArg MemRef.mode heq
  obtain ⟨-, hname⟩ := readMode?_eq_symbol hmode
  intro c hc
  by_cases hblank : isBlank c.toUpper = true
  · exact (toUpper_eq_self_or c).imp_left fun hself => by rwa [hself] at hblank
  · have hfilter : c.toUpper ∈ (upper inner).filter (· ≠ ' ') := by
      refine List.mem_filter.2 ⟨List.mem_map_of_mem hc, decide_eq_true ?_⟩
      intro hspace
      rw [hspace] at hblank
      exact hblank rfl
    have htrim := mem_trim (Bool.eq_false_iff.2 hblank) hfilter
    exact .inr (isNameChar_of_toUpper (forall_isNameChar hname _ htrim))

/-! ### Legible operands -/

/-- The reader takes the operand by itself: all its numbers, and its name for nothing else. -/
inductive Legible : Operand → Prop
  | spelled {o : Operand} (h : o.Spelled) : Legible o
  | label {name : String} (h : read? name.toList = some (.target (.label name))) : Legible (.target (.label name))
  | symbol {space : Space} {name : String}
    (h : read? (Operand.mem ⟨space, .symbol name⟩).text.toList = some (.mem ⟨space, .symbol name⟩)) :
    Legible (.mem ⟨space, .symbol name⟩)

/-- The characters of a symbol that is read back. -/
theorem chars_of_symbol {space space' : Space} {inner : List Char} {name : String}
    (h : read? (memText space inner) = some (.mem ⟨space', .symbol name⟩)) :
    ∀ c ∈ inner, isBlank c = true ∨ isNameChar c = true := by
  have hform := form_of_read? h
  rw [trim_eq_self (trimmed_memText space inner)] at hform
  exact hform.chars_of_symbol

theorem part_of_isName {s : List Char} (h : isName s = true) : Part s := by
  have hchars := forall_isNameChar h
  refine ⟨ne_nil_of_isName h, .of_forall fun c hc => isBlank_of_isNameChar (hchars c hc),
    depthAfter_of_forall fun c hc => ?_⟩
  have hne {d : Char} := ne_of_isNameChar (d := d) (hchars c hc)
  exact ⟨hne (by decide), hne (by decide), fun _ => hne (by decide)⟩

/-- A legible operand among commas. Multiply modes stand without one. -/
structure Plain (o : Operand) : Prop where
  legible : o.Legible
  noMode : o.isMulMode = false

theorem symbol_text (space : Space) (name : String) :
    (Operand.mem ⟨space, .symbol name⟩).text.toList = memText space name.toList := mem_text _

/-- Three kinds of text stand among commas. -/
theorem Plain.cases {o : Operand} (h : o.Plain) :
    o.Spelled ∧ Listed o.text.toList ∨ (∃ name, o = .target (.label name) ∧ isName name.toList = true) ∨
      ∃ space name, o = .mem ⟨space, .symbol name⟩ ∧ ∀ c ∈ name.toList, isBlank c = true ∨ isNameChar c = true := by
  obtain ⟨hlegible, hmode⟩ := h
  cases hlegible with
  | spelled h => exact .inl ⟨h, h.listed hmode⟩
  | label h => exact .inr (.inl ⟨_, rfl, isName_of_read? h⟩)
  | symbol h =>
    rw [symbol_text] at h
    exact .inr (.inr ⟨_, _, rfl, chars_of_symbol h⟩)

/-- An operand is read from its text. -/
theorem Plain.read {o : Operand} (h : o.Plain) : Operand.read o.text.toList = .ok o := by
  have hread : read? o.text.toList = some o := by
    obtain ⟨hlegible, hmode⟩ := h
    cases hlegible with
    | spelled h => exact read?_text h (trim_eq_self (h.listed hmode).trimmed)
    | label h => exact h
    | symbol h => exact h
  rw [Operand.read, hread]

/-! ### Names that say something else in a line -/

/-- The word of a loop stands in the text, a blank on either side. -/
def HasUntil (s : List Char) : Prop := " UNTIL ".toList <:+: s ∨ " until ".toList <:+: s

instance (s : List Char) : Decidable (HasUntil s) := inferInstanceAs (Decidable (_ ∨ _))

/-- A symbol with the name of a multiply mode, in either case. -/
def namesMode : Operand → Bool
  | .mem ⟨_, .symbol name⟩ => MulMode.all.any fun m => upper name.toList == m.name.toList
  | _ => false

/-- A label that is the word of a loop. -/
def namesUntil : Operand → Bool
  | .target (.label name) => name == "UNTIL" || name == "until"
  | _ => false

/-- A symbol that the word of a loop stands in. -/
def holdsUntil : Operand → Bool
  | .mem ⟨_, .symbol name⟩ => decide (HasUntil name.toList)
  | _ => false

theorem Spelled.unnamed {o : Operand} (h : o.Spelled) :
    o.namesMode = false ∧ o.namesUntil = false ∧ o.holdsUntil = false := by
  cases o with
  | mem ref =>
    obtain ⟨space, mode⟩ := ref
    cases mode with
    | symbol name => exact h.elim
    | _ => exact ⟨rfl, rfl, rfl⟩
  | target t =>
    cases t with
    | label name => exact h.elim
    | abs a => exact ⟨rfl, rfl, rfl⟩
  | _ => exact ⟨rfl, rfl, rfl⟩

end Operand

end QuadDsp
