import QuadDsp.Proofs.Machine.Bounds
import QuadDsp.Proofs.Word.ReadBack

/-! # Why an accepted word may have no value

A word that is accepted and has its format encodes, unless its one address field has no value: the name that
it is taken from is missing, or the target is out of reach (`Instruction.encode_error_of_select`). Every
operand that can refer to a name has such a field, so a missing name is what the encoder reports
(`Instruction.encode_of_lacks`), as it is what an execution can fail for (`execute_of_select`). -/

namespace QuadDsp

namespace Slot

/-- An operand in the slot may refer to a name. -/
def takesName : Slot → Bool
  | memAbs | target => true
  | _ => false

theorem takesName_of_accepts {slot : Slot} {o : Operand} {name : String} (h : slot.accepts o = true)
    (hname : o.name? = some name) : slot.takesName = true := by
  rcases Operand.eq_of_name? hname with ⟨space, rfl⟩ | rfl <;> cases slot <;> first | rfl | cases h

end Slot

/-- Each operand that may refer to a name has an address field. -/
theorem WordForm.exists_reloc : ∀ t ∈ wordForms, ∀ part ∈ t.parts, ∀ n < part.shape.slots.length,
    (part.shape.slots[n]?).any Slot.takesName = true →
      ∃ f ∈ t.format.layout, f.role = part.role ∧ f.isReloc = true ∧ part.shape.argSlot? f.arg = some n := by
  decide +kernel

namespace FormatId

theorem arg_of_addr (f : FormatId) {fd : Field} (hfd : fd ∈ f.layout) (hk : fd.kind = .addr) : fd.arg = .mem := by
  have hall : ∀ f ∈ all, ∀ fd ∈ f.layout, fd.kind = .addr → fd.arg = .mem := by decide +kernel
  exact hall f (mem_all f) fd hfd hk

theorem reloc_unique (f : FormatId) {fd fd' : Field} (hfd : fd ∈ f.layout) (hfd' : fd' ∈ f.layout)
    (h : fd.isReloc = true) (h' : fd'.isReloc = true) : fd = fd' := by
  have hall : ∀ f ∈ all, ∀ fd ∈ f.layout, fd.isReloc = true → ∀ fd' ∈ f.layout, fd'.isReloc = true → fd = fd' := by
    decide +kernel
  exact hall f (mem_all f) fd hfd h fd' hfd' h'

end FormatId

/-- The address that an operand stands for. -/
def Operand.addrIn (p : Program) : Operand → Except StructuralError Nat
  | .target t => p.targetAddr t
  | .mem ⟨_, .direct a⟩ => .ok a
  | .mem ⟨_, .symbol name⟩ => p.symbols.addr name
  | _ => .ok 0

theorem SymbolTable.addr_of_none {t : SymbolTable} {name : String} (h : t.find? name = none) :
    t.addr name = .error (.unknownSymbol name) := by
  rw [addr, h]

theorem SymbolTable.addr_of_some {t : SymbolTable} {name : String} {sym : ProgramSymbol}
    (h : t.find? name = some sym) : t.addr name = .ok sym.addr := by
  rw [addr, h]

theorem Operand.addrIn_of_name? {o : Operand} {name : String} (h : o.name? = some name) (p : Program) :
    o.addrIn p = p.symbols.addr name := by
  rcases eq_of_name? h with ⟨space, rfl⟩ | rfl <;> rfl

theorem Operand.addrIn_cases (o : Operand) (p : Program) :
    (∃ a, o.addrIn p = .ok a) ∨
      ∃ name, o.name? = some name ∧ p.symbols.find? name = none ∧ o.addrIn p = .error (.unknownSymbol name) := by
  cases hname : o.name? with
  | some name =>
    rw [o.addrIn_of_name? hname]
    cases hfind : p.symbols.find? name with
    | none => exact .inr ⟨name, rfl, hfind, SymbolTable.addr_of_none hfind⟩
    | some sym => exact .inl ⟨sym.addr, SymbolTable.addr_of_some hfind⟩
  | none =>
    refine .inl ?_
    cases o with
    | mem ref =>
      obtain ⟨space, mode⟩ := ref
      cases mode with
      | symbol => cases hname
      | _ => exact ⟨_, rfl⟩
    | target t =>
      cases t with
      | label => cases hname
      | abs => exact ⟨_, rfl⟩
    | _ => exact ⟨0, rfl⟩

namespace Selection

variable {s : Selection} {p : Program} {f : Field} {m : Member}

/-- What becomes of the address of its operand in an address field. -/
structure AddressOf (s : Selection) (p : Program) (f : Field) (o : Operand) : Prop where
  error : ∀ e, o.addrIn p = .error e → s.relocValue p f = .error (.structural e)
  ok : ∀ a, o.addrIn p = .ok a →
    (∃ v, s.relocValue p f = .ok v) ∨ s.relocValue p f = .error (.targetOutOfRange a s.head.programAddr f.width)

/-- An address field is taken from the address of an operand. -/
theorem exists_addressOf (hm : s.member? f.role = some m) (hclass : m.Classified)
    (hf : f.wellPlaced m.shape = true) (hreloc : f.isReloc = true) (hmem : f.kind = .addr → f.arg = .mem) :
    ∃ n o, m.shape.argSlot? f.arg = some n ∧ m.nth? n = some o ∧ s.AddressOf p f o := by
  have hreach {P : Prop} [Decidable P] {v : Int} {e : EncodeError} :
      (∃ x, (if P then Except.ok v else .error e) = .ok x) ∨ (if P then Except.ok v else .error e) = .error e := by
    split
    · exact .inl ⟨v, rfl⟩
    · exact .inr rfl
  cases hk : f.kind with
  | addr =>
    have hslot : m.shape.slotAt? .mem = some .memAbs := by simpa [Field.wellPlaced, hk] using hf
    obtain ⟨n, o, hn, -, hnth, harg, haccepts, -⟩ := hclass.operand?_of_slotAt hslot
    obtain ⟨ref, rfl⟩ := Slot.mem_of_accepts rfl haccepts
    have hr : m.mem? = some ref := by rw [Member.mem?, harg]
    have hdata : p.dataAddr? ref.mode = ((Operand.mem ref).addrIn p).map some := by
      obtain ⟨space, mode⟩ := ref
      cases mode with
      | direct | symbol => rfl
      | _ => cases haccepts
    refine ⟨n, _, hmem hk ▸ hn, hnth, ?_, ?_⟩
    · intro e he
      simp [relocValue, hm, hk, hr, hdata, he, Except.map]
      rfl
    · intro a ha
      simp only [relocValue, hm, hk, hr, hdata, ha, Except.map]
      exact hreach
  | pcRel | loopEnd =>
    have hslot : m.shape.slotAt? f.arg = some .target := by
      simp only [Field.wellPlaced, hk, decide_eq_true_eq] at hf
      exact hf.1
    obtain ⟨n, o, hn, -, hnth, harg, haccepts, -⟩ := hclass.operand?_of_slotAt hslot
    obtain ⟨t, rfl⟩ := Slot.target_of_accepts haccepts
    refine ⟨n, _, hn, hnth, ?_, ?_⟩
    · intro e he
      have htarget : p.targetAddr t = .error e := he
      simp [relocValue, hm, hk, harg, htarget]
      rfl
    · intro a ha
      have htarget : p.targetAddr t = .ok a := ha
      simp only [relocValue, hm, hk, harg, htarget]
      exact hreach
  | _ => simp [Field.isReloc, hk] at hreloc

/-- Only an address field has to wait for addresses. -/
theorem isReloc_of_fieldValue (h : s.fieldValue f = .ok none) : f.isReloc = true := by
  unfold fieldValue at h
  split at h
  · assumption
  · split at h
    · cases h
    · cases h
    · cases h
    · obtain ⟨m, -, h⟩ := bind_eq_ok_iff.1 h
      obtain ⟨v, -, h⟩ := bind_eq_ok_iff.1 h
      cases h

theorem encodeField_eq_error {pos : Nat} {e : EncodeError} (h : s.encodeField p pos f = .error e) :
    (∃ e', s.fieldValue f = .error e') ∨ f.isReloc = true ∧ s.relocValue p f = .error e := by
  unfold encodeField at h
  cases hvalue : s.fieldValue f with
  | error e' => exact .inl ⟨e', rfl⟩
  | ok v =>
    rw [hvalue] at h
    cases v with
    | some v => cases h
    | none =>
      refine .inr ⟨isReloc_of_fieldValue hvalue, ?_⟩
      cases hreloc : s.relocValue p f with
      | error e' =>
        rw [hreloc] at h
        cases h
        rfl
      | ok v =>
        rw [hreloc] at h
        cases h

theorem encodeFields_eq_error {pos : Nat} {fields : List Field} {e : EncodeError}
    (h : s.encodeFields p pos fields = .error e) : ∃ f ∈ fields, ∃ pos, s.encodeField p pos f = .error e := by
  induction fields generalizing pos with
  | nil => cases h
  | cons f rest ih =>
    rw [encodeFields] at h
    cases hf : s.encodeField p (pos + f.width) f with
    | error e' =>
      rw [hf] at h
      cases h
      exact ⟨f, List.mem_cons_self, _, hf⟩
    | ok r =>
      rw [hf] at h
      dsimp only at h
      cases hrest : s.encodeFields p (pos + f.width) rest with
      | error e' =>
        rw [hrest] at h
        cases h
        obtain ⟨f', hf', hfault⟩ := ih hrest
        exact ⟨f', List.mem_cons_of_mem _ hf', hfault⟩
      | ok rs =>
        rw [hrest] at h
        cases h

/-- In an accepted word it is the address field that is refused. -/
theorem Fills.exists_of_encodeFields_eq_error {t : WordForm} {i : Instruction} (h : s.Fills t i) {e : EncodeError}
    (herror : s.encodeFields p 0 s.format.layout = .error e) :
    ∃ f ∈ s.format.layout, f.isReloc = true ∧ s.relocValue p f = .error e := by
  obtain ⟨f, hf, pos, hfield⟩ := encodeFields_eq_error herror
  obtain ⟨v, hv⟩ := h.values f (h.format ▸ hf)
  rcases encodeField_eq_error hfield with ⟨e', he'⟩ | hreloc
  · cases hv.symm.trans he'
  · exact ⟨f, hf, hreloc⟩

/-- The operand of an address field of an accepted word. -/
theorem Fills.exists_addressOf {t : WordForm} {i : Instruction} (h : s.Fills t i) (ht : t ∈ wordForms)
    (hf : f ∈ s.format.layout) (hreloc : f.isReloc = true) :
    ∃ m ∈ s.members, m.role = f.role ∧
      ∃ n o, m.shape.argSlot? f.arg = some n ∧ m.nth? n = some o ∧ s.AddressOf p f o := by
  have hown : f.isOwn = true := by
    cases hk : f.kind <;> simp_all [Field.isReloc, Field.isOwn]
  have hlayout : f ∈ t.format.layout := h.format ▸ hf
  obtain ⟨part, hpart, hrole⟩ := List.mem_map.1 (t.role_mem_of_isOwn ht f hlayout hown)
  obtain ⟨m, hm, hmember, htakes⟩ := h.exists_member ht hpart
  have hplaced : f.wellPlaced m.shape = true := htakes.shape ▸ WordForm.wellPlaced t ht part hpart f hlayout hrole.symm
  exact ⟨m, hm, htakes.role.trans hrole, Selection.exists_addressOf (hrole ▸ hmember) (h.classified m hm) hplaced
    hreloc fun hk => s.format.arg_of_addr hf hk⟩

/-- An operation that lacks a name has an address field that the name is missing for. -/
theorem Fills.exists_of_lacks {t : WordForm} {i : Instruction} (h : s.Fills t i) (ht : t ∈ wordForms)
    (hm : m ∈ s.members) {name : String} (hlacks : m.Lacks p name) :
    ∃ f ∈ s.format.layout, f.isReloc = true ∧ s.relocValue p f = .error (.structural (.unknownSymbol name)) := by
  obtain ⟨hundefined, o, ho, hname⟩ := hlacks
  obtain ⟨part, hpart, htakes⟩ := h.takes m hm
  -- the operand stands in a slot that takes a name
  obtain ⟨n, hn⟩ := List.getElem?_of_mem ho
  obtain ⟨hfits, -, -⟩ := Shape.classify_eq_ok_iff.1 (h.classified m hm).classify
  rw [Shape.fits_iff] at hfits
  obtain ⟨hlt, hget⟩ := List.getElem?_eq_some_iff.1 hn
  have hlt' : n < m.shape.slots.length := hfits.length_eq ▸ hlt
  have haccepts : Slot.accepts m.shape.slots[n] o = true := hget ▸ hfits.get hlt' hlt
  have htakesName : (m.shape.slots[n]?).any Slot.takesName = true := by
    rw [List.getElem?_eq_getElem hlt']
    exact Slot.takesName_of_accepts haccepts hname
  rw [htakes.shape] at htakesName hlt'
  obtain ⟨f, hf, hrole, hreloc, hslot⟩ := WordForm.exists_reloc t ht part hpart n hlt' htakesName
  have hf : f ∈ s.format.layout := h.format ▸ hf
  obtain ⟨m', hm', hrole', n', o', hslot', ho', haddress⟩ := h.exists_addressOf (p := p) ht hf hreloc
  have hsame : m' = m := List.inj_on_of_nodup_map (h.nodup_roles ht) hm' hm (by rw [hrole', hrole, htakes.role])
  subst hsame
  rw [htakes.shape, hslot] at hslot'
  cases hslot'
  have hnth : m'.nth? n = some o := hn
  cases hnth.symm.trans ho'
  refine ⟨f, hf, hreloc, haddress.error _ ?_⟩
  rw [o.addrIn_of_name? hname, SymbolTable.addr_of_none hundefined]

end Selection

namespace Instruction

variable {i : Instruction} {p : Program} {s : Selection}

theorem encode_eq_error_iff (hstructure : checkStructure i = .ok ()) (hselect : select i = .ok s)
    (hformat : i.format = some s.format) {e : EncodeError} :
    i.encode p = .error e ↔ s.encodeFields p 0 s.format.layout = .error e := by
  rw [encode, hstructure, hselect]
  dsimp only
  rw [hformat, if_neg fun h => h rfl]
  cases s.encodeFields p 0 s.format.layout <;> simp [Except.map]

/-- A word that is accepted and has its format encodes, unless a target is out of reach or a name missing. -/
theorem encode_error_of_select (hstructure : checkStructure i = .ok ()) (hselect : select i = .ok s)
    (hformat : i.format = some s.format) {e : EncodeError} (h : i.encode p = .error e) :
    (∃ target addr width, e = .targetOutOfRange target addr width) ∨
      ∃ m ∈ s.members, ∃ name, e = .structural (.unknownSymbol name) ∧ m.Lacks p name := by
  obtain ⟨t, ht, hfills⟩ := select_fills hselect
  obtain ⟨f, hf, hreloc, herror⟩ :=
    hfills.exists_of_encodeFields_eq_error ((encode_eq_error_iff hstructure hselect hformat).1 h)
  obtain ⟨m, hm, -, n, o, -, ho, haddress⟩ := hfills.exists_addressOf (p := p) ht hf hreloc
  rcases o.addrIn_cases p with ⟨a, ha⟩ | ⟨name, hname, hundefined, hnone⟩
  · rcases haddress.ok a ha with ⟨v, hv⟩ | hrange
    · cases hv.symm.trans herror
    · cases hrange.symm.trans herror
      exact .inl ⟨_, _, _, rfl⟩
  · cases (haddress.error _ hnone).symm.trans herror
    exact .inr ⟨m, hm, name, rfl, hundefined, o, List.mem_of_getElem? ho, hname⟩

/-- A name that an operation lacks is what the encoder reports. -/
theorem encode_of_lacks (hstructure : checkStructure i = .ok ()) (hselect : select i = .ok s)
    (hformat : i.format = some s.format) {m : Member} (hm : m ∈ s.members) {name : String} (hlacks : m.Lacks p name) :
    i.encode p = .error (.structural (.unknownSymbol name)) := by
  obtain ⟨t, ht, hfills⟩ := select_fills hselect
  obtain ⟨f, hf, hreloc, hvalue⟩ := hfills.exists_of_lacks ht hm hlacks
  rw [encode_eq_error_iff hstructure hselect hformat]
  cases hencode : s.encodeFields p 0 s.format.layout with
  | ok r =>
    -- no value for the field, hence none for the layout
    obtain ⟨vals, hfst, hvals, -⟩ := Selection.exists_encodeFields_iff.1 ⟨r.2, hencode⟩
    rw [← hfst] at hf
    obtain ⟨x, hx, rfl⟩ := List.mem_map.1 hf
    obtain ⟨v, hv, -⟩ := (Selection.emits_iff_relocValue hreloc).1 (hvals x hx)
    cases hv.symm.trans hvalue
  | error e =>
    obtain ⟨f', hf', hreloc', herror⟩ := hfills.exists_of_encodeFields_eq_error hencode
    rw [s.format.reloc_unique hf' hf hreloc' hreloc] at herror
    cases herror.symm.trans hvalue
    rfl

end Instruction

end QuadDsp
