import Mathlib.Data.List.Nodup
import QuadDsp.Proofs.Format.Accepted
import QuadDsp.Proofs.Word.Content

/-! # What an operation puts into its fields

`Member.Tells m c`: the operation `m` says what the content `c` says. For each kind of field, the value
that the encoder takes from an operation is the one whose content the operation tells
(`Field.agrees`), so encoder and decoder agree on every field by itself. -/

namespace QuadDsp

section Values

theorem lowBits_natCast {bits v : Nat} (h : v < span bits) : lowBits bits (v : Int) = v := by
  have hmod : ((v : Int) % (span bits : Int)) = v :=
    Int.emod_eq_of_lt (Int.natCast_nonneg v) (Int.ofNat_lt.2 h)
  rw [lowBits, hmod, Int.toNat_natCast]

theorem lowBits_wrap (bits : Nat) (v : Int) : lowBits bits (wrap bits v) = lowBits bits v := by
  rw [lowBits, wrap, Int.bmod_emod, lowBits]

theorem wrap_lowBits (bits : Nat) (v : Int) : wrap bits (lowBits bits v : Int) = wrap bits v := by
  have hpos : (0 : Int) < span bits := Int.natCast_pos.2 (span_pos bits)
  have hlow : (lowBits bits v : Int) = v % (span bits : Int) :=
    Int.toNat_of_nonneg (Int.emod_nonneg v (Int.ne_of_gt hpos))
  rw [hlow, wrap, Int.emod_bmod, wrap]

theorem wrap_congr {bits : Nat} {v w : Int} (h : v % span bits = w % span bits) : wrap bits v = wrap bits w := by
  rw [wrap, ← Int.emod_bmod, h, Int.emod_bmod, wrap]

theorem wrap_wrap (bits : Nat) (v : Int) : wrap bits (wrap bits v) = wrap bits v := by
  rw [← wrap_lowBits, lowBits_wrap, wrap_lowBits]

theorem lowBits_eq_iff {bits v : Nat} {x : Int} (hx : wrap bits x = x) :
    lowBits bits x = v ↔ v < span bits ∧ x = wrap bits (v : Int) := by
  constructor
  · rintro rfl
    exact ⟨lowBits_lt bits x, by rw [wrap_lowBits, hx]⟩
  · rintro ⟨hv, rfl⟩
    rw [lowBits_wrap, lowBits_natCast hv]

theorem span_le_span {m n : Nat} (h : m ≤ n) : span m ≤ span n := Nat.pow_le_pow_right (by decide) h

theorem fitField_eq_ok_iff {width v : Nat} {x : Int} {o : Operand} :
    fitField width x o = .ok v ↔ v < span width ∧ x = v := by
  unfold fitField
  split
  · simp only [Except.ok.injEq]
    omega
  · simp only [reduceCtorEq, false_iff]
    omega

end Values

namespace AddrMode

/-- The modify register that steps the index. -/
def modify? : AddrMode → Option Nat
  | post _ n | pre n _ => some n
  | _ => none

/-- The immediate that steps the index. -/
def step? : AddrMode → Option Int
  | postImm _ v | preImm v _ => some v
  | _ => none

/-- The step comes before the access. -/
def isPre : AddrMode → Bool
  | pre .. | preImm .. => true
  | _ => false

end AddrMode

/-- The slot that an argument of a field stands for. -/
def Shape.slotAt? (s : Shape) (arg : Arg) : Option Slot := (s.argSlot? arg).bind (s.slots[·]?)

namespace Member

/-- The operation says so. -/
def Tells (m : Member) : Content → Prop
  | .operand n o => m.nth? n = some o
  | .acc a => ∃ n view, m.shape.slots[n]? = some .accView ∧ m.nth? n = some (.accView a view)
  | .view v => ∃ n a, m.shape.slots[n]? = some .accView ∧ m.nth? n = some (.accView a v)
  | .index i => ∃ r, m.mem? = some r ∧ r.mode.index? = some i
  | .modify n => ∃ r, m.mem? = some r ∧ r.mode.modify? = some n
  | .pre b => ∃ r, m.mem? = some r ∧ r.mode.isPre = b
  | .step v => ∃ r, m.mem? = some r ∧ r.mode.step? = some v
  | .addr a => ∃ r, m.mem? = some r ∧ r.mode = .direct a
  | .mode k => m.mulMode = k
  | .conj b => m.instr.conjugate = b
  | .opcode op => m.opcode = op

theorem operand?_eq (m : Member) (arg : Arg) : m.operand? arg = (m.shape.argSlot? arg).bind m.nth? := by
  cases arg <;> rfl

end Member

/-- The field is wide enough for what it holds, and stands for an operand that it can be taken from. -/
def Field.wellPlaced (f : Field) (s : Shape) : Bool :=
  match f.kind with
  | .reg base =>
    match s.slotAt? f.arg with
    | some .accView => span f.width + base ≤ RegClass.acc.count
    | some slot => slot.regClass?.isSome
    | none => false
  | .accPair => s.slotAt? f.arg = some .acc ∧ span f.width * 2 ≤ RegClass.acc.count
  | .dag => s.slotAt? f.arg = some .address ∧ f.width = 5
  | .sys => s.slotAt? f.arg = some .sys ∧ 2 ≤ f.width
  | .part => s.slotAt? f.arg = some .accView ∧ 2 ≤ f.width
  | .imm _ => s.slotAt? f.arg = some .imm ∧ 0 < f.width
  | .addr => s.slotAt? .mem = some .memAbs
  | .pcRel | .loopEnd => s.slotAt? f.arg = some .target ∧ 0 < f.width
  | .index base =>
    s.slotAt? .mem ∈ [some .memModify, some .memImm] ∧ span f.width + base ≤ RegClass.index.count
  | .modify base => s.slotAt? .mem = some .memModify ∧ span f.width + base ≤ RegClass.modify.count
  | .pre => s.slotAt? .mem ∈ [some .memModify, some .memImm] ∧ f.width = 1
  | .step => s.slotAt? .mem = some .memImm ∧ 0 < f.width
  | .mode => s.needsMode = true ∧ (f.width = 0 ∨ 3 ≤ f.width)
  | .conj => f.width = 1
  | .subOp table => table.Nodup ∧ table.length ≤ span f.width
  | .modeBit => s.slotAt? f.arg = some .modeBit ∧ 2 ≤ f.width
  | .termCond => s.slotAt? f.arg = some .cond ∧ 5 ≤ f.width
  | .opcode | .pad | .cond => true

theorem WordForm.wellPlaced : ∀ t ∈ wordForms, ∀ part ∈ t.parts, ∀ f ∈ t.format.layout,
    f.role = part.role → f.wellPlaced part.shape = true := by
  decide +kernel

namespace Member.Classified

variable {m : Member}

theorem nth?_of_slot (h : m.Classified) {n : Nat} {slot : Slot} (hn : m.shape.slots[n]? = some slot) :
    ∃ o, m.nth? n = some o ∧ slot.accepts o = true ∧ o.Usable := by
  obtain ⟨hfits, -, husable⟩ := Shape.classify_eq_ok_iff.1 h.classify
  rw [Shape.fits_iff] at hfits
  obtain ⟨hlt, rfl⟩ := List.getElem?_eq_some_iff.1 hn
  have hlt' : n < m.instr.plain.length := hfits.length_eq ▸ hlt
  refine ⟨m.instr.plain[n], List.getElem?_eq_getElem hlt', ?_, ?_⟩
  · exact hfits.get hlt hlt'
  · exact husable _ (List.mem_of_mem_filter (List.getElem_mem hlt'))

theorem operand?_of_slotAt (h : m.Classified) {arg : Arg} {slot : Slot}
    (harg : m.shape.slotAt? arg = some slot) :
    ∃ n o, m.shape.argSlot? arg = some n ∧ m.shape.slots[n]? = some slot ∧ m.nth? n = some o ∧
      m.operand? arg = some o ∧ slot.accepts o = true ∧ o.Usable := by
  obtain ⟨n, hn, hslot⟩ := Option.bind_eq_some_iff.1 harg
  obtain ⟨o, ho, haccepts, husable⟩ := h.nth?_of_slot hslot
  exact ⟨n, o, hn, hslot, ho, by rw [m.operand?_eq, hn, Option.bind_some, ho], haccepts, husable⟩

end Member.Classified

theorem Shape.idxOf_of_accView (s : Shape) {n : Nat} (h : s.slots[n]? = some .accView) :
    n = s.slots.idxOf .accView := by
  have hall : ∀ s ∈ all, ∀ n ∈ List.range s.slots.length, s.slots[n]? = some .accView →
      n = s.slots.idxOf .accView := by decide +kernel
  exact hall s (mem_all s) n (List.mem_range.2 (List.getElem?_eq_some_iff.1 h).1) h

theorem RegClass.of_isAddress {cls : RegClass} (h : cls.isAddress = true) :
    ∃ k < 4, cls.addressCode? = some k ∧ cls.count = 8 := by
  cases cls <;> first | exact ⟨_, by decide, rfl, rfl⟩ | cases h

theorem SysReg.ofCode?_eq_some_iff {v : Nat} {s : SysReg} : ofCode? v = some s ↔ s.code = v := by
  constructor
  · unfold ofCode?; split <;> rintro ⟨⟩ <;> rfl
  · rintro rfl; cases s <;> rfl

theorem AccView.ofCode?_eq_some_iff {v : Nat} {a : AccView} : ofCode? v = some a ↔ a.code = v := by
  constructor
  · unfold ofCode?; split <;> rintro ⟨⟩ <;> rfl
  · rintro rfl; cases a <;> rfl

theorem MulMode.ofCode?_eq_some_iff {v : Nat} {k : MulMode} : ofCode? v = some k ↔ k.code = v := by
  constructor
  · intro h
    obtain ⟨hlt, rfl⟩ := List.getElem?_eq_some_iff.1 h
    have hall : ∀ n (h : n < all.length), all[n].code = n := by decide
    exact hall v hlt
  · rintro rfl; exact ofCode?_code k

theorem ModeBit.ofCode?_eq_some_iff {v : Nat} {b : ModeBit} : ofCode? v = some b ↔ b.code = v := by
  constructor
  · intro h
    obtain ⟨hlt, rfl⟩ := List.getElem?_eq_some_iff.1 h
    have hall : ∀ n (h : n < all.length), all[n].code = n := by decide
    exact hall v hlt
  · rintro rfl; exact ofCode?_code b

theorem Condition.ofCode?_eq_some_iff {v : Nat} {c : Condition} :
    ofCode? v = some c ↔ c.code = v := by
  constructor
  · exact fun h => eq_of_beq (List.find?_some (p := fun c : Condition => c.code == v) h)
  · rintro rfl; exact ofCode?_code c

theorem Slot.reg_of_accepts {slot : Slot} {cls : RegClass} {o : Operand}
    (hcls : slot.regClass? = some cls) (h : slot.accepts o = true) : ∃ i, o = .reg ⟨cls, i⟩ := by
  cases slot <;> cases hcls <;> cases o <;> simp_all [accepts]
  all_goals rename_i r; exact ⟨r.index, by rw [← h]⟩

theorem Slot.regContent?_of_regClass? {slot : Slot} {cls : RegClass} (h : slot.regClass? = some cls)
    (n index : Nat) : slot.regContent? n index =
      if index < cls.count then some (.operand n (.reg ⟨cls, index⟩)) else none := by
  cases slot <;> cases h <;> rfl

theorem Slot.accView_of_accepts {o : Operand} (h : Slot.accepts .accView o = true) :
    ∃ a view, o = .accView a view := by
  cases o <;> simp_all [accepts]

theorem Slot.imm_of_accepts {o : Operand} (h : Slot.accepts .imm o = true) : ∃ v, o = .imm v := by
  cases o <;> first | exact ⟨_, rfl⟩ | cases h

theorem Slot.sys_of_accepts {o : Operand} (h : Slot.accepts .sys o = true) : ∃ r, o = .sys r := by
  cases o <;> first | exact ⟨_, rfl⟩ | cases h

theorem Slot.target_of_accepts {o : Operand} (h : Slot.accepts .target o = true) : ∃ t, o = .target t := by
  cases o <;> first | exact ⟨_, rfl⟩ | cases h

theorem Slot.cond_of_accepts {o : Operand} (h : Slot.accepts .cond o = true) : ∃ c, o = .cond c := by
  cases o <;> first | exact ⟨_, rfl⟩ | cases h

theorem Slot.modeBit_of_accepts {o : Operand} (h : Slot.accepts .modeBit o = true) : ∃ b, o = .key (.mode b) := by
  cases o with
  | key k => cases k <;> first | exact ⟨_, rfl⟩ | cases h
  | _ => cases h

theorem Slot.mem_of_accepts {slot : Slot} {o : Operand} (hmem : slot.isMem = true) (h : slot.accepts o = true) :
    ∃ ref, o = .mem ref := by
  cases slot <;> cases hmem <;> cases o <;> first | exact ⟨_, rfl⟩ | cases h

namespace Member

/-- A content that is an operand is told exactly if that is the operand. -/
theorem exists_operandAt?_iff {m : Member} {arg : Arg} {slot : Slot} {o : Operand}
    (h : m.shape.slotAt? arg = some slot) :
    (∃ c, m.shape.operandAt? arg o = some c ∧ m.Tells c) ↔ m.operand? arg = some o := by
  obtain ⟨n, hn, hslot⟩ := Option.bind_eq_some_iff.1 h
  have hlt : n < m.shape.slots.length := (List.getElem?_eq_some_iff.1 hslot).1
  rw [m.operand?_eq, Shape.operandAt?, hn]
  simp [hlt, Member.Tells]

theorem exists_bind_operandAt?_iff {m : Member} {α : Type} {arg : Arg} {slot : Slot} {x : Option α}
    {g : α → Operand} (h : m.shape.slotAt? arg = some slot) :
    (∃ c, (x.bind fun a => m.shape.operandAt? arg (g a)) = some c ∧ m.Tells c) ↔
      ∃ a, x = some a ∧ m.operand? arg = some (g a) := by
  cases x with
  | none => simp
  | some a => simpa using exists_operandAt?_iff h

end Member

namespace Field

variable {f : Field} {m : Member} {addr v : Nat}

/-- The operation gives the field this value exactly if it tells the content of the value. -/
def Agrees (f : Field) (m : Member) (addr v : Nat) : Prop :=
  f.memberValue m = .ok v ↔
    v < span f.width ∧ ∃ c, f.content? m.shape addr v = some c ∧ m.Tells c

theorem agrees_of_value {x : Nat} (hvalue : f.memberValue m = .ok x) (hlt : x < span f.width)
    (h : (∃ c, f.content? m.shape addr v = some c ∧ m.Tells c) ↔ x = v) : f.Agrees m addr v := by
  rw [Agrees, hvalue, h, Except.ok.injEq]
  constructor
  · rintro rfl
    exact ⟨hlt, rfl⟩
  · exact And.right

theorem agrees_reg {base : Nat} (hk : f.kind = .reg base) (hm : m.Classified)
    (hf : f.wellPlaced m.shape = true) : f.Agrees m addr v := by
  rw [wellPlaced, hk] at hf
  dsimp only at hf
  cases hslot : m.shape.slotAt? f.arg with
  | none => rw [hslot] at hf; cases hf
  | some slot =>
    obtain ⟨n, o, hn, hs, ho, harg, haccepts, husable⟩ := hm.operand?_of_slotAt hslot
    have hcontent : f.content? m.shape addr v = slot.regContent? n (v + base) := by
      simp [content?, hk, hn, hs]
    rw [Agrees, hcontent]
    by_cases hview : slot = .accView
    · subst hview
      obtain ⟨a, view, rfl⟩ := Slot.accView_of_accepts haccepts
      have hvalue : f.memberValue m = fitField f.width ((a : Int) - base) (.accView a view) := by
        simp [memberValue, hk, harg, orElse]
        rfl
      rw [hvalue, fitField_eq_ok_iff]
      refine and_congr_right fun _ => ⟨fun h => ⟨.acc (v + base), rfl, n, view, hs, ?_⟩, ?_⟩
      · have ha : a = v + base := by omega
        rw [ho, ha]
      · rintro ⟨_, ⟨⟩, n', view', hs', ho'⟩
        rw [m.shape.idxOf_of_accView hs', ← m.shape.idxOf_of_accView hs, ho] at ho'
        cases ho'
        omega
    · obtain ⟨cls, hcls⟩ : ∃ cls, slot.regClass? = some cls := by
        rw [hslot] at hf
        cases slot <;> simp_all [Slot.regClass?]
      obtain ⟨i, rfl⟩ := Slot.reg_of_accepts hcls haccepts
      have hvalue : f.memberValue m = fitField f.width ((i : Int) - base) (.reg ⟨cls, i⟩) := by
        simp [memberValue, hk, harg, orElse]
        rfl
      rw [hvalue, fitField_eq_ok_iff, Slot.regContent?_of_regClass? hcls]
      refine and_congr_right fun _ => ⟨fun h => ?_, ?_⟩
      · obtain rfl : i = v + base := by omega
        exact ⟨_, if_pos (of_decide_eq_true husable.1), ho⟩
      · rintro ⟨c, hc, htells⟩
        split at hc
        · cases hc
          cases ho.symm.trans htells
          omega
        · cases hc

theorem agrees_accPair (hk : f.kind = .accPair) (hm : m.Classified)
    (hf : f.wellPlaced m.shape = true) : f.Agrees m addr v := by
  obtain ⟨hslot, hwidth⟩ : m.shape.slotAt? f.arg = some .acc ∧
      span f.width * 2 ≤ RegClass.acc.count := by simpa [wellPlaced, hk] using hf
  obtain ⟨n, o, -, -, -, harg, haccepts, -⟩ := hm.operand?_of_slotAt hslot
  obtain ⟨i, rfl⟩ : ∃ i, o = .reg ⟨.acc, i⟩ := Slot.reg_of_accepts rfl haccepts
  have hcontent : f.content? m.shape addr v = m.shape.operandAt? f.arg (.reg ⟨.acc, v * 2⟩) := by
    simp [content?, hk]
  have hvalue : f.memberValue m = if i % 2 = 0 then fitField f.width (i / 2 : Nat) (.reg ⟨.acc, i⟩)
      else .error (.registerNotAllowed (Operand.reg ⟨.acc, i⟩).text) := by
    simp [memberValue, hk, harg, orElse]
    rfl
  rw [Agrees, hvalue, hcontent, Member.exists_operandAt?_iff hslot, harg]
  simp only [Option.some.injEq, Operand.reg.injEq, Reg.mk.injEq, true_and]
  split
  · rw [fitField_eq_ok_iff]
    omega
  · simp only [reduceCtorEq, false_iff]
    omega

theorem agrees_dag (hk : f.kind = .dag) (hm : m.Classified) (hf : f.wellPlaced m.shape = true) :
    f.Agrees m addr v := by
  obtain ⟨hslot, hwidth⟩ : m.shape.slotAt? f.arg = some .address ∧ f.width = 5 := by
    simpa [wellPlaced, hk] using hf
  obtain ⟨n, o, -, -, -, harg, haccepts, husable⟩ := hm.operand?_of_slotAt hslot
  have hcontent : f.content? m.shape addr v = (RegClass.ofAddressCode? (v / 8)).bind fun cls =>
      m.shape.operandAt? f.arg (.reg ⟨cls, v % 8⟩) := by simp [content?, hk]
  obtain ⟨⟨cls, i⟩, rfl⟩ : ∃ r, o = .reg r := by cases o <;> simp_all [Slot.accepts]
  have haddress : cls.isAddress = true := haccepts
  obtain ⟨k, hlt, hcode, hcount⟩ := RegClass.of_isAddress haddress
  have hi : i < 8 := hcount ▸ of_decide_eq_true husable.1
  have hvalue : f.memberValue m = .ok (k * 8 + i) := by
    have hor : k * 8 ||| i = k * 8 + i := by
      rw [Nat.mul_comm]
      exact (Nat.two_pow_add_eq_or_of_lt (i := 3) hi k).symm
    simp [memberValue, hk, harg, haddress, Reg.code, hcode, hor]
  refine agrees_of_value hvalue (by rw [hwidth]; exact (by omega : k * 8 + i < 32)) ?_
  rw [hcontent, Member.exists_bind_operandAt?_iff hslot, harg]
  simp only [RegClass.ofAddressCode?_eq_some_iff, Option.some.injEq, Operand.reg.injEq, Reg.mk.injEq]
  constructor
  · rintro ⟨_, hv, rfl, rfl⟩
    cases hcode.symm.trans hv
    omega
  · rintro rfl
    exact ⟨cls, by rw [hcode]; congr 1; omega, rfl, by omega⟩

theorem agrees_sys (hk : f.kind = .sys) (hm : m.Classified) (hf : f.wellPlaced m.shape = true) :
    f.Agrees m addr v := by
  obtain ⟨hslot, hwidth⟩ : m.shape.slotAt? f.arg = some .sys ∧ 2 ≤ f.width := by
    simpa [wellPlaced, hk] using hf
  obtain ⟨n, o, -, -, -, harg, haccepts, -⟩ := hm.operand?_of_slotAt hslot
  obtain ⟨s, rfl⟩ := Slot.sys_of_accepts haccepts
  have hcontent : f.content? m.shape addr v = (SysReg.ofCode? v).bind fun s =>
      m.shape.operandAt? f.arg (.sys s) := by simp [content?, hk]
  have hvalue : f.memberValue m = .ok s.code := by simp [memberValue, hk, harg]
  have hcode : s.code < span 2 := by cases s <;> decide
  refine agrees_of_value hvalue (Nat.lt_of_lt_of_le hcode (span_le_span hwidth)) ?_
  rw [hcontent, Member.exists_bind_operandAt?_iff hslot, harg]
  simp [SysReg.ofCode?_eq_some_iff]

theorem agrees_modeBit (hk : f.kind = .modeBit) (hm : m.Classified)
    (hf : f.wellPlaced m.shape = true) : f.Agrees m addr v := by
  obtain ⟨hslot, hwidth⟩ : m.shape.slotAt? f.arg = some .modeBit ∧ 2 ≤ f.width := by
    simpa [wellPlaced, hk] using hf
  obtain ⟨n, o, -, -, -, harg, haccepts, -⟩ := hm.operand?_of_slotAt hslot
  obtain ⟨b, rfl⟩ : ∃ b, o = .key (.mode b) := by
    rcases o with r | ⟨a, w⟩ | s | w | r | t | c | k <;> try cases haccepts
    cases k <;> first | exact ⟨_, rfl⟩ | cases haccepts
  have hcontent : f.content? m.shape addr v = (ModeBit.ofCode? v).bind fun b =>
      m.shape.operandAt? f.arg (.key (.mode b)) := by simp [content?, hk]
  have hvalue : f.memberValue m = .ok b.code := by simp [memberValue, hk, harg]
  have hcode : b.code < span 2 := by cases b <;> decide
  refine agrees_of_value hvalue (Nat.lt_of_lt_of_le hcode (span_le_span hwidth)) ?_
  rw [hcontent, Member.exists_bind_operandAt?_iff hslot, harg]
  simp [ModeBit.ofCode?_eq_some_iff]

theorem agrees_termCond (hk : f.kind = .termCond) (hm : m.Classified)
    (hf : f.wellPlaced m.shape = true) : f.Agrees m addr v := by
  obtain ⟨hslot, hwidth⟩ : m.shape.slotAt? f.arg = some .cond ∧ 5 ≤ f.width := by
    simpa [wellPlaced, hk] using hf
  obtain ⟨n, o, -, -, -, harg, haccepts, -⟩ := hm.operand?_of_slotAt hslot
  obtain ⟨c, rfl⟩ := Slot.cond_of_accepts haccepts
  have hcontent : f.content? m.shape addr v = (Condition.ofCode? v).bind fun c =>
      m.shape.operandAt? f.arg (.cond c) := by simp [content?, hk]
  have hvalue : f.memberValue m = .ok c.code := by simp [memberValue, hk, harg]
  refine agrees_of_value hvalue (Nat.lt_of_lt_of_le c.code_lt (span_le_span hwidth)) ?_
  rw [hcontent, Member.exists_bind_operandAt?_iff hslot, harg]
  simp [Condition.ofCode?_eq_some_iff]

theorem agrees_part (hk : f.kind = .part) (hm : m.Classified) (hf : f.wellPlaced m.shape = true) :
    f.Agrees m addr v := by
  obtain ⟨hslot, hwidth⟩ : m.shape.slotAt? f.arg = some .accView ∧ 2 ≤ f.width := by
    simpa [wellPlaced, hk] using hf
  obtain ⟨n, o, -, hs, ho, harg, haccepts, -⟩ := hm.operand?_of_slotAt hslot
  obtain ⟨a, view, rfl⟩ := Slot.accView_of_accepts haccepts
  have hcontent : f.content? m.shape addr v = (AccView.ofCode? v).map .view := by
    simp [content?, hk]
  have hvalue : f.memberValue m = .ok view.code := by simp [memberValue, hk, harg]
  have hcode : view.code < span 2 := by cases view <;> decide
  refine agrees_of_value hvalue (Nat.lt_of_lt_of_le hcode (span_le_span hwidth)) ?_
  rw [hcontent, ← AccView.ofCode?_eq_some_iff]
  constructor
  · rintro ⟨c, hc, htells⟩
    obtain ⟨view', hv, rfl⟩ := Option.map_eq_some_iff.1 hc
    obtain ⟨n', a', hs', ho'⟩ := htells
    rw [m.shape.idxOf_of_accView hs', ← m.shape.idxOf_of_accView hs, ho] at ho'
    cases ho'
    exact hv
  · intro hv
    exact ⟨.view view, by rw [hv]; rfl, n, a, hs, ho⟩

/-- A memory slot with a step holds a reference through an index register of the file. -/
theorem mem_of_slotAt {slot : Slot} (hm : m.Classified) (hslot : m.shape.slotAt? .mem = some slot)
    (hmem : slot = .memModify ∨ slot = .memImm) :
    ∃ r i, m.mem? = some r ∧ slot.accepts (.mem r) = true ∧ r.mode.index? = some i ∧
      i < RegClass.index.count := by
  obtain ⟨n, o, -, -, -, harg, haccepts, husable⟩ := hm.operand?_of_slotAt hslot
  have hinFile := husable.1
  rcases hmem with rfl | rfl
  all_goals
    rcases o with r | ⟨a, w⟩ | s | w | ⟨space, mode⟩ | t | c | k <;> try cases haccepts
    have hmem : m.mem? = some ⟨space, mode⟩ := by rw [Member.mem?, harg]
    cases mode <;> try cases haccepts
    all_goals
      simp only [Operand.inFile, Bool.and_eq_true, decide_eq_true_eq] at hinFile
      exact ⟨_, _, hmem, rfl, rfl, by omega⟩

theorem agrees_index {base : Nat} (hk : f.kind = .index base) (hm : m.Classified)
    (hf : f.wellPlaced m.shape = true) : f.Agrees m addr v := by
  obtain ⟨slot, hslot, hmem⟩ : ∃ slot, m.shape.slotAt? .mem = some slot ∧
      (slot = .memModify ∨ slot = .memImm) := by
    have h : m.shape.slotAt? .mem = some .memModify ∨ m.shape.slotAt? .mem = some .memImm := by
      simp [wellPlaced, hk] at hf
      exact hf.1
    rcases h with h | h
    · exact ⟨_, h, .inl rfl⟩
    · exact ⟨_, h, .inr rfl⟩
  obtain ⟨r, i, hr, -, hi, -⟩ := mem_of_slotAt hm hslot hmem
  have hvalue : f.memberValue m = fitField f.width ((i : Int) - base) (.mem r) := by
    obtain ⟨space, mode⟩ := r
    cases mode <;> cases hi <;> simp [memberValue, hk, hr, orElse] <;> rfl
  have htells : (∃ c, f.content? m.shape addr v = some c ∧ m.Tells c) ↔ i = v + base := by
    simp [content?, hk, Member.Tells, hr, hi]
  rw [Agrees, hvalue, htells, fitField_eq_ok_iff]
  omega

theorem agrees_modify {base : Nat} (hk : f.kind = .modify base) (hm : m.Classified)
    (hf : f.wellPlaced m.shape = true) : f.Agrees m addr v := by
  have hslot : m.shape.slotAt? .mem = some .memModify := by
    simp [wellPlaced, hk] at hf
    exact hf.1
  obtain ⟨r, -, hr, haccepts, -, -⟩ := mem_of_slotAt hm hslot (.inl rfl)
  obtain ⟨n, hn⟩ : ∃ n, r.mode.modify? = some n := by
    obtain ⟨space, mode⟩ := r
    cases mode <;> first | exact ⟨_, rfl⟩ | cases haccepts
  have hvalue : f.memberValue m = fitField f.width ((n : Int) - base) (.mem r) := by
    obtain ⟨space, mode⟩ := r
    cases mode <;> cases hn <;> simp [memberValue, hk, hr, orElse] <;> rfl
  have htells : (∃ c, f.content? m.shape addr v = some c ∧ m.Tells c) ↔ n = v + base := by
    simp [content?, hk, Member.Tells, hr, hn]
  rw [Agrees, hvalue, htells, fitField_eq_ok_iff]
  omega

/-- A bit is read as a flag by comparing it with one. -/
theorem bit_eq_iff {b : Bool} : (if b then 1 else 0) = v ↔ v < span 1 ∧ b = (v == 1) := by
  have h2 : span 1 = 2 := rfl
  rw [h2]
  rcases v with _ | _ | v <;> cases b <;> simp

theorem agrees_pre (hk : f.kind = .pre) (hm : m.Classified) (hf : f.wellPlaced m.shape = true) :
    f.Agrees m addr v := by
  obtain ⟨h, hwidth⟩ : (m.shape.slotAt? .mem = some .memModify ∨
      m.shape.slotAt? .mem = some .memImm) ∧ f.width = 1 := by
    simp [wellPlaced, hk] at hf
    exact hf
  obtain ⟨r, hr⟩ : ∃ r, m.mem? = some r := by
    rcases h with h | h
    · obtain ⟨r, -, hr, -⟩ := mem_of_slotAt hm h (.inl rfl)
      exact ⟨r, hr⟩
    · obtain ⟨r, -, hr, -⟩ := mem_of_slotAt hm h (.inr rfl)
      exact ⟨r, hr⟩
  have hvalue : f.memberValue m = .ok (if r.mode.isPre then 1 else 0) := by
    obtain ⟨space, mode⟩ := r
    cases mode <;> simp [memberValue, hk, hr, orElse] <;> rfl
  have htells : (∃ c, f.content? m.shape addr v = some c ∧ m.Tells c) ↔ r.mode.isPre = (v == 1) := by
    simp [content?, hk, Member.Tells, hr]
  rw [Agrees, hvalue, htells, hwidth, Except.ok.injEq, bit_eq_iff]

theorem agrees_step (hk : f.kind = .step) (hm : m.Classified) (hf : f.wellPlaced m.shape = true) :
    f.Agrees m addr v := by
  obtain ⟨hslot, hwidth⟩ : m.shape.slotAt? .mem = some .memImm ∧ 0 < f.width := by
    simpa [wellPlaced, hk] using hf
  obtain ⟨r, -, hr, haccepts, -, -⟩ := mem_of_slotAt hm hslot (.inr rfl)
  obtain ⟨x, hx⟩ : ∃ x, r.mode.step? = some x := by
    obtain ⟨space, mode⟩ := r
    cases mode <;> first | exact ⟨_, rfl⟩ | cases haccepts
  have hvalue : f.memberValue m = if Sign.signed.fits x f.width = true then .ok (lowBits f.width x)
      else .error (.outOfRange r.text f.width) := by
    obtain ⟨space, mode⟩ := r
    cases mode <;> cases hx <;> simp [memberValue, hk, hr, orElse] <;> rfl
  have htells : (∃ c, f.content? m.shape addr v = some c ∧ m.Tells c) ↔ x = wrap f.width v := by
    simp [content?, hk, Member.Tells, hr, hx]
  rw [Agrees, hvalue, htells]
  split
  · next hfits =>
    have hself : wrap f.width x = x :=
      (wrap_eq_self_iff hwidth x).2 (of_decide_eq_true hfits)
    rw [Except.ok.injEq, lowBits_eq_iff hself]
  · next hfits =>
    simp only [reduceCtorEq, false_iff]
    rintro ⟨-, rfl⟩
    exact hfits (decide_eq_true (fits_wrap hwidth _))

theorem agrees_mode (hk : f.kind = .mode) (hf : f.wellPlaced m.shape = true) :
    f.Agrees m addr v := by
  obtain ⟨-, hwidth⟩ : m.shape.needsMode = true ∧ (f.width = 0 ∨ 3 ≤ f.width) := by
    simpa [wellPlaced, hk] using hf
  have htells : (∃ c, f.content? m.shape addr v = some c ∧ m.Tells c) ↔ m.mulMode.code = v := by
    rw [← MulMode.ofCode?_eq_some_iff]
    cases hv : MulMode.ofCode? v <;> simp [content?, hk, hv, Member.Tells, eq_comm]
  rcases hwidth with h0 | h3
  · have hvalue : f.memberValue m = if m.mulMode = .ss then .ok 0
        else .error (.outOfRange (Keyword.mul m.mulMode).text 0) := by
      simp [memberValue, hk, h0]
    have hone : span 0 = 1 := rfl
    rw [Agrees, hvalue, htells, h0, hone]
    split
    · next hss =>
      rw [hss, Except.ok.injEq]
      exact ⟨fun h => ⟨by omega, h⟩, And.right⟩
    · next hss =>
      simp only [reduceCtorEq, false_iff]
      rintro ⟨hv, hcode⟩
      cases hm : m.mulMode <;> rw [hm] at hcode hss <;> first | exact hss rfl | (simp [MulMode.code] at hcode; omega)
  · have hvalue : f.memberValue m = .ok m.mulMode.code := by
      have hne : f.width ≠ 0 := by omega
      simp [memberValue, hk, hne]
    have hcode : m.mulMode.code < span 3 := by cases m.mulMode <;> decide
    exact agrees_of_value hvalue (Nat.lt_of_lt_of_le hcode (span_le_span h3)) htells

theorem agrees_conj (hk : f.kind = .conj) (hf : f.wellPlaced m.shape = true) :
    f.Agrees m addr v := by
  have hwidth : f.width = 1 := by simpa [wellPlaced, hk] using hf
  have hvalue : f.memberValue m = .ok (if m.instr.conjugate then 1 else 0) := by
    simp [memberValue, hk]
  have htells : (∃ c, f.content? m.shape addr v = some c ∧ m.Tells c) ↔
      m.instr.conjugate = (v == 1) := by
    simp [content?, hk, Member.Tells]
  rw [Agrees, hvalue, htells, hwidth, Except.ok.injEq, bit_eq_iff]

theorem agrees_subOp {table : List Opcode} (hk : f.kind = .subOp table)
    (hf : f.wellPlaced m.shape = true) : f.Agrees m addr v := by
  obtain ⟨hnd, hlen⟩ : table.Nodup ∧ table.length ≤ span f.width := by
    simpa [wellPlaced, hk] using hf
  have htells : (∃ c, f.content? m.shape addr v = some c ∧ m.Tells c) ↔
      table[v]? = some m.opcode := by
    cases hv : table[v]? <;> simp [content?, hk, hv, Member.Tells, eq_comm]
  rw [Agrees, htells]
  have hvalue : f.memberValue m = .ok v ↔ table.findIdx? (· == m.opcode) = some v := by
    simp only [memberValue, hk]
    cases table.findIdx? (· == m.opcode) <;> simp
  rw [hvalue, List.findIdx?_eq_some_iff_getElem, List.getElem?_eq_some_iff]
  constructor
  · rintro ⟨hlt, hop, -⟩
    exact ⟨Nat.lt_of_lt_of_le hlt hlen, hlt, eq_of_beq hop⟩
  · rintro ⟨-, hlt, hop⟩
    refine ⟨hlt, beq_of_eq hop, fun j hj h => ?_⟩
    have hjv : j = v := (List.Nodup.getElem_inj_iff hnd).1 ((eq_of_beq h).trans hop.symm)
    omega

theorem exists_of_memberValue_imm {sign : Sign} (hk : f.kind = .imm sign)
    (h : f.memberValue m = .ok v) : ∃ x, m.operand? f.arg = some (.imm x) ∧ lowBits f.width x = v := by
  simp only [memberValue, hk] at h
  split at h
  · next x hx =>
    split at h
    · cases h
      exact ⟨x, hx, rfl⟩
    · cases h
  · cases h

/-- A signed value fits if wrapping keeps it, and so does the reading of either sign. -/
theorem agrees_imm {sign : Sign} (hk : f.kind = .imm sign) (hm : m.Classified)
    (hf : f.wellPlaced m.shape = true)
    (heither : sign = .either → ∀ x, m.operand? f.arg = some (.imm x) → wrap f.width x = x) :
    f.Agrees m addr v := by
  obtain ⟨hslot, hwidth⟩ : m.shape.slotAt? f.arg = some .imm ∧ 0 < f.width := by
    simpa [wellPlaced, hk] using hf
  obtain ⟨n, o, -, -, -, harg, haccepts, -⟩ := hm.operand?_of_slotAt hslot
  obtain ⟨x, rfl⟩ := Slot.imm_of_accepts haccepts
  have hvalue : f.memberValue m = if sign.fits x f.width = true then .ok (lowBits f.width x)
      else .error (.outOfRange (Operand.imm x).text f.width) := by
    simp [memberValue, hk, harg]
  have hpos := span_pos (f.width - 1)
  have hspan := span_eq hwidth
  rw [Agrees, hvalue]
  cases sign with
  | unsigned =>
    have hcontent : f.content? m.shape addr v = m.shape.operandAt? f.arg (.imm v) := by
      simp [content?, hk]
    rw [hcontent, Member.exists_operandAt?_iff hslot, harg]
    split
    · next hfits =>
      simp only [Sign.fits, Bool.and_eq_true, decide_eq_true_eq] at hfits
      obtain ⟨y, rfl⟩ := Int.eq_ofNat_of_zero_le hfits.1
      rw [lowBits_natCast (by omega)]
      simp only [Except.ok.injEq, Option.some.injEq, Operand.imm.injEq]
      omega
    · next hfits =>
      simp only [Sign.fits, Bool.and_eq_true, decide_eq_true_eq] at hfits
      simp only [reduceCtorEq, Option.some.injEq, Operand.imm.injEq, false_iff]
      omega
  | signed =>
    have hcontent : f.content? m.shape addr v =
        m.shape.operandAt? f.arg (.imm (wrap f.width v)) := by simp [content?, hk]
    rw [hcontent, Member.exists_operandAt?_iff hslot, harg]
    simp only [Option.some.injEq, Operand.imm.injEq]
    split
    · next hfits =>
      have hself : wrap f.width x = x := (wrap_eq_self_iff hwidth x).2 (of_decide_eq_true hfits)
      rw [Except.ok.injEq, lowBits_eq_iff hself]
    · next hfits =>
      simp only [reduceCtorEq, false_iff]
      rintro ⟨-, rfl⟩
      exact hfits (decide_eq_true (fits_wrap hwidth _))
  | either =>
    have hcontent : f.content? m.shape addr v =
        m.shape.operandAt? f.arg (.imm (wrap f.width v)) := by simp [content?, hk]
    have hself : wrap f.width x = x := heither rfl x harg
    obtain ⟨hlow, hhigh⟩ := (wrap_eq_self_iff hwidth x).1 hself
    have hfits : Sign.either.fits x f.width = true := by
      simp only [Sign.fits, Bool.and_eq_true, decide_eq_true_eq]
      omega
    rw [hcontent, Member.exists_operandAt?_iff hslot, harg, if_pos hfits]
    simp only [Except.ok.injEq, Option.some.injEq, Operand.imm.injEq]
    exact lowBits_eq_iff hself

/-- A field that does not wait for addresses agrees with its operation. A value that may be read with
either sign must be the one that its low bits are read as. -/
theorem agrees (hown : f.isOwn = true) (hreloc : f.isReloc = false) (hm : m.Classified)
    (hf : f.wellPlaced m.shape = true)
    (heither : f.kind = .imm .either → ∀ x, m.operand? f.arg = some (.imm x) → wrap f.width x = x) :
    f.Agrees m addr v := by
  cases hk : f.kind with
  | opcode | pad | cond => simp [isOwn, hk] at hown
  | addr | pcRel | loopEnd => simp [isReloc, hk] at hreloc
  | reg base => exact agrees_reg hk hm hf
  | accPair => exact agrees_accPair hk hm hf
  | dag => exact agrees_dag hk hm hf
  | sys => exact agrees_sys hk hm hf
  | part => exact agrees_part hk hm hf
  | imm sign => exact agrees_imm hk hm hf fun h => heither (by rw [hk, h])
  | index base => exact agrees_index hk hm hf
  | modify base => exact agrees_modify hk hm hf
  | pre => exact agrees_pre hk hm hf
  | step => exact agrees_step hk hm hf
  | mode => exact agrees_mode hk hf
  | conj => exact agrees_conj hk hf
  | subOp table => exact agrees_subOp hk hf
  | modeBit => exact agrees_modeBit hk hm hf
  | termCond => exact agrees_termCond hk hm hf

end Field

end QuadDsp
