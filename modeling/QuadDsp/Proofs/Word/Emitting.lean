import QuadDsp.Proofs.Word.Packing
import QuadDsp.Proofs.Word.Telling

/-! # What the encoder puts into a word

`Selection.Emits s p f v`: encoded in the program `p`, the selection has the value `v` in the field `f`.
An instruction encodes exactly if each field of its format has a value, and its word is these values
packed (`encode_eq_ok_iff`). A field of one operation has the value whose content the operation tells,
also where the value depends on addresses (`emits_iff_tells`). -/

namespace QuadDsp

namespace Selection

/-- The value of a field in a program; a distance keeps its low bits. -/
def Emits (s : Selection) (p : Program) (f : Field) (v : Nat) : Prop :=
  s.fieldValue f = .ok (some v) ∨
    s.fieldValue f = .ok none ∧ ∃ x, s.relocValue p f = .ok x ∧ lowBits f.width x = v

theorem validate_of_emits {s : Selection} {p : Program}
    (h : ∀ f ∈ s.format.layout, ∃ v, s.Emits p f v) : s.validate = .ok () := by
  refine validate_eq_ok_iff.2 fun f hf => ?_
  obtain ⟨v, hv | ⟨hv, -⟩⟩ := h f hf
  · exact ⟨_, hv⟩
  · exact ⟨_, hv⟩

theorem emits_iff_encodeField {s : Selection} {p : Program} {pos : Nat} {f : Field} {v : Nat} :
    s.Emits p f v ↔ ∃ reloc, s.encodeField p pos f = .ok (v, reloc) := by
  unfold Emits encodeField
  cases s.fieldValue f with
  | error e => simp
  | ok value =>
    cases value with
    | some x => simp
    | none => cases s.relocValue p f <;> simp [Except.map]

/-- The fields of a layout are encoded exactly if each has a value. -/
theorem exists_encodeFields_iff {s : Selection} {p : Program} {pos : Nat} {fields : List Field}
    {values : List (Nat × Nat)} :
    (∃ relocs, s.encodeFields p pos fields = .ok (values, relocs)) ↔
      ∃ vals : List (Field × Nat), vals.map Prod.fst = fields ∧ (∀ x ∈ vals, s.Emits p x.1 x.2) ∧
        values = vals.map fun (f, v) => (v, f.width) := by
  induction fields generalizing pos values with
  | nil =>
    constructor
    · rintro ⟨_, ⟨⟩⟩
      exact ⟨[], rfl, List.forall_mem_nil _, rfl⟩
    · rintro ⟨vals, hfst, -, rfl⟩
      rw [List.map_eq_nil_iff.1 hfst]
      exact ⟨[], rfl⟩
  | cons f rest ih =>
    rw [encodeFields]
    constructor
    · rintro ⟨relocs, h⟩
      cases hf : s.encodeField p (pos + f.width) f with
      | error e => rw [hf] at h; cases h
      | ok r =>
        rw [hf] at h
        dsimp only at h
        cases hr : s.encodeFields p (pos + f.width) rest with
        | error e => rw [hr] at h; cases h
        | ok rs =>
          rw [hr] at h
          cases h
          obtain ⟨vals, hfst, hvals, hrs⟩ := ih.1 ⟨rs.2, hr⟩
          refine ⟨(f, r.1) :: vals, by rw [List.map_cons, hfst], ?_, by rw [hrs]; rfl⟩
          exact List.forall_mem_cons.2 ⟨emits_iff_encodeField.2 ⟨r.2, hf⟩, hvals⟩
    · rintro ⟨vals, hfst, hvals, rfl⟩
      cases vals with
      | nil => cases hfst
      | cons x vals =>
        obtain ⟨rfl, rfl⟩ := List.cons.inj hfst
        obtain ⟨hx, hvals⟩ := List.forall_mem_cons.1 hvals
        obtain ⟨reloc, hf⟩ := emits_iff_encodeField.1 hx
        obtain ⟨relocs, hr⟩ := ih.2 ⟨vals, rfl, hvals, rfl⟩
        rw [hf]
        dsimp only
        rw [hr]
        exact ⟨_, rfl⟩

end Selection

namespace FormatId

theorem layout_eq (f : FormatId) : ∃ rest, f.layout = Layout.fixed f.fixedWidth :: rest ∧
    ∀ fd ∈ rest, fd.kind ≠ .opcode := by
  have hall : ∀ f ∈ all, f.layout.head? = some (Layout.fixed f.fixedWidth) ∧
      ∀ fd ∈ f.layout.tail, fd.kind ≠ .opcode := by decide +kernel
  obtain ⟨hhead, htail⟩ := hall f (mem_all f)
  exact ⟨f.layout.tail, List.eq_cons_of_mem_head? hhead, htail⟩

end FormatId

/-- A word of 32 bits starts with the fixed bits of the form if it holds them in the first field. -/
theorem WordForm.leads_iff_wordField {t : WordForm} (ht : t ∈ wordForms) {word : Nat}
    (hword : word < span wordBits) :
    t.leads word = true ↔ wordField word 0 t.format.fixedWidth = t.fixed := by
  have hle := t.format.fixedWidth_le
  have hlt : word / span (wordBits - t.format.fixedWidth) < span t.format.fixedWidth := by
    refine Nat.div_lt_of_lt_mul ?_
    rwa [← span_add, Nat.sub_add_cancel hle]
  have hfield : wordField word 0 t.format.fixedWidth = word >>> (wordBits - t.format.fixedWidth) := by
    rw [wordField, Nat.sub_zero, Nat.shiftRight_eq_div_pow]
    exact Nat.mod_eq_of_lt hlt
  rw [leads_iff ht, hfield]

/-- What a word holds in the field of the fixed bits. -/
theorem eq_wordField_of_opcode {format : FormatId} {word : Nat} {f : Field} {v : Nat}
    (h : (f, v) ∈ wordReadings word 0 format.layout) (hk : f.kind = .opcode) :
    f = Layout.fixed format.fixedWidth ∧ v = wordField word 0 format.fixedWidth := by
  obtain ⟨rest, hlayout, hrest⟩ := format.layout_eq
  rw [hlayout, wordReadings, List.mem_cons] at h
  rcases h with h | h
  · cases h
    exact ⟨rfl, rfl⟩
  · exact absurd hk (hrest f (fst_mem_of_mem_wordReadings h))

/-- When an instruction encodes, and to which word. -/
theorem encode_eq_ok_iff {p : Program} {i : Instruction} {w : Nat} :
    (∃ relocs, i.encode p = .ok ⟨w, relocs⟩) ↔
      checkStructure i = .ok () ∧ ∃ s, select i = .ok s ∧ i.format = some s.format ∧
        ∃ vals : List (Field × Nat), vals.map Prod.fst = s.format.layout ∧
          (∀ x ∈ vals, s.Emits p x.1 x.2) ∧ w = packFields vals := by
  unfold Instruction.encode
  cases checkStructure i with
  | error e => simp
  | ok u =>
    cases hs : select i with
    | error e => simp
    | ok s =>
      by_cases hformat : i.format = some s.format
      · simp only [Except.ok.injEq, exists_eq_left', hformat, true_and, ne_eq, not_true_eq_false, if_false,
          map_eq_ok_iff]
        constructor
        · rintro ⟨relocs, ⟨values, relocs'⟩, hfields, hword⟩
          obtain ⟨vals, hfst, hvals, rfl⟩ := Selection.exists_encodeFields_iff.1 ⟨relocs', hfields⟩
          exact ⟨vals, hfst, hvals, (congrArg EncodedWord.word hword).symm⟩
        · rintro ⟨vals, hfst, hvals, rfl⟩
          obtain ⟨relocs, hfields⟩ := Selection.exists_encodeFields_iff.2 ⟨vals, hfst, hvals, rfl⟩
          exact ⟨relocs, _, hfields, rfl⟩
      · simp [hformat]

/-- What the field is taken from is as it is read back: a value is the one that its low bits are read
as, a target is an address, and so is a direct reference. -/
def Field.Settled (f : Field) (m : Member) : Prop :=
  match f.kind with
  | .imm .either => ∀ x, m.operand? f.arg = some (.imm x) → wrap f.width x = x
  | .pcRel | .loopEnd => ∀ t, m.operand? f.arg = some (.target t) → ∃ a < span addrBits, t = .abs a
  | .addr => ∀ r, m.mem? = some r → ∃ a, r.mode = .direct a
  | _ => True

/-- The last address of a loop that the field gives does not lie behind the last address of all. -/
def Field.Reaches (f : Field) (addr v : Nat) : Prop := f.kind = .loopEnd → addr + (1 + v) < span addrBits

theorem Field.reaches_iff {f : Field} {addr v : Nat} (hk : f.kind = .loopEnd) :
    f.Reaches addr v ↔ addr + (1 + v) < span addrBits := forall_prop_of_true hk

theorem Field.reaches_of_ne {f : Field} {addr v : Nat} (hk : f.kind ≠ .loopEnd) : f.Reaches addr v :=
  fun h => absurd h hk

theorem toAddr?_eq_some_iff {x : Int} {a : Nat} :
    Operand.toAddr? x = some a ↔ x = a ∧ a < span 32 := by
  unfold Operand.toAddr?
  split
  · rw [Option.some.injEq]
    omega
  · simp only [reduceCtorEq, false_iff]
    omega

namespace Selection

variable {s : Selection} {p : Program} {f : Field} {m : Member} {v : Nat}

theorem fieldValue_of_member? (hm : s.member? f.role = some m) (hown : f.isOwn = true) (hreloc : f.isReloc = false) :
    s.fieldValue f = (f.memberValue m).map some := by
  unfold fieldValue
  rw [hreloc, if_neg Bool.false_ne_true]
  obtain ⟨kind, role, arg, width⟩ := f
  cases kind with
  | opcode | pad | cond => cases hown
  | _ => rw [hm]; rfl

theorem emits_iff_memberValue (hm : s.member? f.role = some m) (hown : f.isOwn = true)
    (hreloc : f.isReloc = false) : s.Emits p f v ↔ f.memberValue m = .ok v := by
  rw [Emits, fieldValue_of_member? hm hown hreloc]
  cases f.memberValue m <;> simp [Except.map]

/-- The fields that belong to the word as a whole. -/
theorem emits_iff_of_not_isOwn (hown : f.isOwn = false) :
    s.Emits p f v ↔ v = match f.kind with
      | .opcode => s.fixed
      | .cond => s.head.cond.code
      | _ => 0 := by
  obtain ⟨kind, role, arg, width⟩ := f
  cases kind with
  | opcode | pad | cond => simp [Emits, fieldValue, Field.isReloc, eq_comm]
  | _ => cases hown

theorem emits_iff_relocValue (hreloc : f.isReloc = true) :
    s.Emits p f v ↔ ∃ x, s.relocValue p f = .ok x ∧ lowBits f.width x = v := by
  have hvalue : s.fieldValue f = .ok none := by
    unfold fieldValue
    rw [if_pos hreloc]
  simp [Emits, hvalue]

theorem emits_pcRel (hk : f.kind = .pcRel) (hm : s.member? f.role = some m) (hclass : m.Classified)
    (hf : f.wellPlaced m.shape = true) (hsettled : f.Settled m) :
    s.Emits p f v ↔ v < span f.width ∧
      ∃ c, f.content? m.shape s.head.programAddr v = some c ∧ m.Tells c := by
  obtain ⟨hslot, hwidth⟩ : m.shape.slotAt? f.arg = some .target ∧ 0 < f.width := by
    simpa [Field.wellPlaced, hk] using hf
  obtain ⟨n, o, -, -, -, harg, haccepts, -⟩ := hclass.operand?_of_slotAt hslot
  obtain ⟨t, rfl⟩ := Slot.target_of_accepts haccepts
  rw [Field.Settled, hk] at hsettled
  obtain ⟨a, (ha : a < span 32), rfl⟩ := hsettled t harg
  have hcontent : f.content? m.shape s.head.programAddr v =
      (Operand.toAddr? (s.head.programAddr + wrap f.width v)).bind fun a =>
        m.shape.operandAt? f.arg (.target (.abs a)) := by simp [Field.content?, hk]
  have hreloc : s.relocValue p f =
      if -(span f.width / 2 : Int) ≤ (a : Int) - s.head.programAddr ∧
          (a : Int) - s.head.programAddr < (span f.width / 2 : Int) then
        .ok ((a : Int) - s.head.programAddr)
      else .error (.targetOutOfRange a s.head.programAddr f.width) := by
    simp [relocValue, hm, hk, harg, Program.targetAddr]
  have hspan := span_eq hwidth
  rw [emits_iff_relocValue (by rw [Field.isReloc, hk]), hreloc, hcontent,
    Member.exists_bind_operandAt?_iff hslot, harg]
  simp only [toAddr?_eq_some_iff, Option.some.injEq, Operand.target.injEq, Target.abs.injEq,
    exists_eq_right']
  split
  · next hreach =>
    have hself : wrap f.width ((a : Int) - s.head.programAddr) = (a : Int) - s.head.programAddr :=
      (wrap_eq_self_iff hwidth _).2 ⟨by omega, by omega⟩
    simp only [Except.ok.injEq, exists_eq_left', lowBits_eq_iff hself]
    omega
  · next hreach =>
    simp only [reduceCtorEq, false_and, exists_false, false_iff]
    rintro ⟨-, h, -⟩
    have hfits := fits_wrap hwidth (v : Int)
    unfold Fits at hfits
    omega

theorem emits_loopEnd (hk : f.kind = .loopEnd) (hm : s.member? f.role = some m)
    (hclass : m.Classified) (hf : f.wellPlaced m.shape = true) (hsettled : f.Settled m) :
    s.Emits p f v ↔ v < span f.width ∧ s.head.programAddr + (1 + v) < span addrBits ∧
      ∃ c, f.content? m.shape s.head.programAddr v = some c ∧ m.Tells c := by
  obtain ⟨hslot, hwidth⟩ : m.shape.slotAt? f.arg = some .target ∧ 0 < f.width := by
    simpa [Field.wellPlaced, hk] using hf
  obtain ⟨n, o, -, -, -, harg, haccepts, -⟩ := hclass.operand?_of_slotAt hslot
  obtain ⟨t, rfl⟩ := Slot.target_of_accepts haccepts
  rw [Field.Settled, hk] at hsettled
  obtain ⟨a, ha, rfl⟩ := hsettled t harg
  have hcontent : f.content? m.shape s.head.programAddr v =
      m.shape.operandAt? f.arg (.target (.abs (addrBehind s.head.programAddr (1 + v)))) := by
    simp [Field.content?, hk]
  have hreloc : s.relocValue p f =
      if 0 ≤ (a : Int) - (s.head.programAddr + 1) ∧
          (a : Int) - (s.head.programAddr + 1) < span f.width then
        .ok ((a : Int) - (s.head.programAddr + 1))
      else .error (.targetOutOfRange a s.head.programAddr f.width) := by
    simp [relocValue, hm, hk, harg, Program.targetAddr]
  rw [emits_iff_relocValue (by rw [Field.isReloc, hk]), hreloc, hcontent,
    Member.exists_operandAt?_iff hslot, harg]
  simp only [Option.some.injEq, Operand.target.injEq, Target.abs.injEq]
  -- what the field gives is the end of the loop itself, unless it lies behind the last address
  have hend (h : s.head.programAddr + (1 + v) < span addrBits) :
      a = addrBehind s.head.programAddr (1 + v) ↔ a = s.head.programAddr + (1 + v) := by rw [addrBehind_of_lt h]
  split
  · next hreach =>
    obtain ⟨d, hd⟩ := Int.eq_ofNat_of_zero_le hreach.1
    rw [hd] at hreach ⊢
    simp only [Except.ok.injEq, exists_eq_left']
    rw [lowBits_natCast (by omega)]
    constructor
    · rintro rfl
      have hlt : s.head.programAddr + (1 + d) < span addrBits := by omega
      exact ⟨by omega, hlt, (hend hlt).2 (by omega)⟩
    · rintro ⟨-, hlt, ha⟩
      have := (hend hlt).1 ha
      omega
  · simp only [reduceCtorEq, false_and, exists_false, false_iff]
    rintro ⟨hv, hlt, ha⟩
    have := (hend hlt).1 ha
    omega

theorem emits_addr (hk : f.kind = .addr) (hm : s.member? f.role = some m) (hclass : m.Classified)
    (hf : f.wellPlaced m.shape = true) (hsettled : f.Settled m) :
    s.Emits p f v ↔ v < span f.width ∧
      ∃ c, f.content? m.shape s.head.programAddr v = some c ∧ m.Tells c := by
  have hslot : m.shape.slotAt? .mem = some .memAbs := by simpa [Field.wellPlaced, hk] using hf
  obtain ⟨n, o, -, -, -, harg, haccepts, -⟩ := hclass.operand?_of_slotAt hslot
  obtain ⟨r, rfl⟩ := Slot.mem_of_accepts rfl haccepts
  have hr : m.mem? = some r := by rw [Member.mem?, harg]
  rw [Field.Settled, hk] at hsettled
  obtain ⟨a, ha⟩ := hsettled r hr
  have hreloc : s.relocValue p f = if 0 ≤ (a : Int) ∧ (a : Int) < span f.width then .ok (a : Int)
      else .error (.targetOutOfRange a s.head.programAddr f.width) := by
    simp [relocValue, hm, hk, hr, ha, Program.dataAddr?]
  have htells : (∃ c, f.content? m.shape s.head.programAddr v = some c ∧ m.Tells c) ↔ a = v := by
    simp [Field.content?, hk, Member.Tells, hr, ha]
  rw [emits_iff_relocValue (by rw [Field.isReloc, hk]), hreloc, htells]
  split
  · next hreach =>
    simp only [Except.ok.injEq, exists_eq_left']
    rw [lowBits_natCast (by omega)]
    omega
  · simp only [reduceCtorEq, false_and, exists_false, false_iff]
    omega

/-- A field has exactly the value whose content its operation tells, where that does not lie behind the last address. -/
theorem emits_iff_tells (hown : f.isOwn = true) (hm : s.member? f.role = some m)
    (hclass : m.Classified) (hf : f.wellPlaced m.shape = true) (hsettled : f.Settled m) :
    s.Emits p f v ↔ v < span f.width ∧ f.Reaches s.head.programAddr v ∧
      ∃ c, f.content? m.shape s.head.programAddr v = some c ∧ m.Tells c := by
  by_cases hloop : f.kind = .loopEnd
  · rw [emits_loopEnd hloop hm hclass hf hsettled, Field.reaches_iff hloop]
  rw [and_iff_right (Field.reaches_of_ne hloop)]
  cases hk : f.kind with
  | loopEnd => exact absurd hk hloop
  | pcRel => exact emits_pcRel hk hm hclass hf hsettled
  | addr => exact emits_addr hk hm hclass hf hsettled
  | _ =>
    rw [emits_iff_memberValue hm hown (by rw [Field.isReloc, hk])]
    refine Field.agrees hown (by rw [Field.isReloc, hk]) hclass hf fun hk' x hx => ?_
    rw [Field.Settled, hk'] at hsettled
    exact hsettled x hx

end Selection

end QuadDsp
