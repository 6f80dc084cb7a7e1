import QuadDsp.Proofs.Machine.Bundle
import QuadDsp.Proofs.Word.Reencode

/-! # What acceptance gives an operation

The operands of an accepted operation are those of its slots, with every register in its file, and its
shape goes with its opcode. The checks this rests on lie apart: register numbers are checked when operands
are classified, even registers and bit numbers behind it, and an even accumulator when the word is laid out;
`Member.Fit` collects them, for operations that stand alone and for those of a bundle. -/

namespace QuadDsp

namespace Slot

variable {slot : Slot} {o : Operand}

theorem reg_of_inFile {cls : RegClass} (hcls : slot.regClass? = some cls) (h : slot.accepts o = true)
    (hin : o.inFile = true) : ∃ k, o = .reg ⟨cls, k⟩ ∧ k < cls.count := by
  obtain ⟨k, rfl⟩ := Slot.reg_of_accepts hcls h
  exact ⟨k, rfl, of_decide_eq_true hin⟩

theorem address_of_inFile (h : Slot.accepts .address o = true) (hin : o.inFile = true) :
    ∃ r, o = .reg r ∧ r.cls.isAddress = true ∧ r.index < 8 := by
  cases o with
  | reg r =>
    obtain ⟨-, -, -, hcount⟩ := RegClass.of_isAddress h
    have hlt : r.index < r.cls.count := of_decide_eq_true hin
    exact ⟨r, rfl, h, hcount ▸ hlt⟩
  | _ => cases h

theorem accView_of_inFile (h : Slot.accepts .accView o = true) (hin : o.inFile = true) :
    ∃ a view, o = .accView a view ∧ a < 8 := by
  obtain ⟨a, view, rfl⟩ := Slot.accView_of_accepts h
  exact ⟨a, view, rfl, of_decide_eq_true hin⟩

end Slot

namespace Member.Classified

variable {m : Member} (hm : m.Classified) {n : Nat} {slot : Slot}

include hm

theorem reg?_of_slot {cls : RegClass} (hslot : m.shape.slots[n]? = some slot)
    (hcls : slot.regClass? = some cls) : ∃ k, m.reg? n = some ⟨cls, k⟩ ∧ k < cls.count := by
  obtain ⟨o, ho, haccepts, husable⟩ := hm.nth?_of_slot hslot
  obtain ⟨k, rfl, hlt⟩ := Slot.reg_of_inFile hcls haccepts husable.1
  have hoperand : m.operand? (.nth n) = some (.reg ⟨cls, k⟩) := ho
  exact ⟨k, by rw [reg?, hoperand]; rfl, hlt⟩

theorem address_of_slot (hslot : m.shape.slots[n]? = some .address) :
    ∃ r, m.reg? n = some r ∧ r.cls.isAddress = true ∧ r.index < 8 := by
  obtain ⟨o, ho, haccepts, husable⟩ := hm.nth?_of_slot hslot
  obtain ⟨r, rfl, hcls, hlt⟩ := Slot.address_of_inFile haccepts husable.1
  have hoperand : m.operand? (.nth n) = some (.reg r) := ho
  exact ⟨r, by rw [reg?, hoperand]; rfl, hcls, hlt⟩

theorem imm?_of_slot (hslot : m.shape.slots[n]? = some .imm) : ∃ v, m.imm? n = some v := by
  obtain ⟨o, ho, haccepts, -⟩ := hm.nth?_of_slot hslot
  obtain ⟨v, rfl⟩ := Slot.imm_of_accepts haccepts
  have hoperand : m.operand? (.nth n) = some (.imm v) := ho
  exact ⟨v, by rw [imm?, hoperand]⟩

theorem mem?_of_slot (hslot : m.shape.slots[n]? = some slot) (hmem : slot.isMem = true) :
    ∃ ref, m.mem? = some ref ∧ (Operand.mem ref).inFile = true ∧ Operand.mem ref ∈ m.instr.plain := by
  obtain ⟨o, ho, haccepts, husable⟩ := hm.nth?_of_slot hslot
  obtain ⟨ref, rfl⟩ := Slot.mem_of_accepts hmem haccepts
  have hoperand : m.operand? .mem = some (.mem ref) := by
    rw [operand?, m.shape.memSlot?_of_isMem hslot hmem, Option.bind_some, ho]
  exact ⟨ref, by rw [mem?, hoperand], husable.1, List.mem_of_getElem? ho⟩

theorem operands_fit (hmode : m.shape.needsMode = false) :
    List.Forall₂ (fun slot o => Slot.accepts slot o = true ∧ o.inFile = true) m.shape.slots m.instr.operands := by
  obtain ⟨hfits, -, husable⟩ := Shape.classify_eq_ok_iff.1 hm.classify
  rw [Shape.fits_iff, (hm.plain_eq hmode).1] at hfits
  rw [List.forall₂_iff_zip] at hfits ⊢
  refine ⟨hfits.1, fun {slot o} hmem => ⟨hfits.2 hmem, ?_⟩⟩
  exact (husable o (List.of_mem_zip hmem).2).1

theorem first_operand {slots : List Slot} (h : m.shape.slots = slot :: slots) (hmode : m.shape.needsMode = false) :
    ∃ o rest, m.instr.operands = o :: rest ∧ slot.accepts o = true ∧ o.inFile = true := by
  have hfit := hm.operands_fit hmode
  rw [h] at hfit
  obtain ⟨o, rest, ho, -, hops⟩ := List.forall₂_cons_left_iff.1 hfit
  exact ⟨o, rest, hops, ho⟩

theorem both_operands {slot' : Slot} (h : m.shape.slots = [slot, slot']) (hmode : m.shape.needsMode = false) :
    ∃ o o', m.instr.operands = [o, o'] ∧ slot.accepts o = true ∧ o.inFile = true ∧
      slot'.accepts o' = true ∧ o'.inFile = true := by
  have hfit := hm.operands_fit hmode
  rw [h] at hfit
  obtain ⟨o, rest, ho, hrest, hops⟩ := List.forall₂_cons_left_iff.1 hfit
  obtain ⟨o', rest', ho', hnil, rfl⟩ := List.forall₂_cons_left_iff.1 hrest
  cases hnil
  exact ⟨o, o', hops, ho.1, ho.2, ho'⟩

end Member.Classified

/-- What acceptance gives an operation: its shape goes with its opcode, and its operands are checked. -/
structure Member.Fit (m : Member) : Prop where
  classified : m.Classified
  listed : ∃ e ∈ formatEntries, e.opcode = m.opcode ∧ e.shape = m.shape
  checked : m.checkOperands = .ok ()
  pair : m.shape = .accCrCr → ∀ r, m.reg? 0 = some r → r.index % 2 = 0

theorem FormatEntry.accPair_mem : ∀ e ∈ formatEntries, e.shape = .accCrCr →
    Layout.op .accPair 0 2 ∈ e.format.layout := by
  decide +kernel

theorem FormatEntry.of_bundledAlu : ∀ op ∈ bundledAlu, ∃ e ∈ formatEntries, e.opcode = op ∧ e.shape = .rrr := by
  decide +kernel

theorem FormatEntry.of_bundledMac : ∀ op ∈ bundledMac, ∃ e ∈ formatEntries, e.opcode = op ∧ e.shape = .accRR := by
  decide +kernel

theorem FormatEntry.of_bundledShift : ∀ op ∈ bundledShift,
    ∃ e ∈ formatEntries, e.opcode = op ∧ e.shape = .rrImm := by
  decide +kernel

theorem Member.even_of_accPair {m : Member} {f : Field} (hk : f.kind = .accPair) (harg : f.arg = .nth 0) {v : Nat}
    (h : f.memberValue m = .ok v) {r : Reg} (hr : m.reg? 0 = some r) : r.index % 2 = 0 := by
  obtain ⟨o, ho, hreg⟩ := Option.bind_eq_some_iff.1 hr
  cases o with
  | reg r' =>
    cases hreg
    simp only [Field.memberValue, hk, harg, ho, orElse, bind, Except.bind] at h
    split at h
    · assumption
    · cases h
  | _ => cases hreg

theorem fit_of_selectSingle {i : Instruction} {s : Selection} (h : selectSingle i = .ok s) :
    ∀ m ∈ s.members, m.Fit := by
  obtain ⟨m, e, he, rfl, hm, htakes, hcheck, rfl, -, hvalid⟩ := selectSingle_eq_ok_iff.1 h
  intro m' hm'
  rw [List.mem_singleton.1 hm']
  refine ⟨hm, ⟨e, he, (htakes.opcode rfl).symm, htakes.shape.symm⟩, hcheck, fun hshape r hr => ?_⟩
  have hmem := FormatEntry.accPair_mem e he (htakes.shape.symm.trans hshape)
  obtain ⟨x, hx⟩ := Selection.validate_eq_ok_iff.1 hvalid _ hmem
  have hrole : m.role = .op := htakes.role
  have hmember : Selection.member? ⟨e.format, e.fixed, m.instr, [m]⟩ .op = some m := by
    simp [Selection.member?, hrole]
  obtain ⟨m₀, hm₀, hx⟩ := bind_eq_ok_iff.1 hx
  cases hmember.symm.trans (orElse_eq_ok_iff.1 hm₀)
  obtain ⟨v, hv, -⟩ := bind_eq_ok_iff.1 hx
  exact Member.even_of_accPair rfl rfl hv hr

theorem fit_of_selectBundle {i : Instruction} {s : Selection} (h : selectBundle i = .ok s) :
    ∀ m ∈ s.members, m.Fit := by
  intro m hm
  obtain ⟨hbundled, hcoded⟩ := selectBundle_members h m hm
  have hshape := hbundled.takes.shape
  have hopcode := hbundled.takes.opcode
  have hclass := hbundled.classified
  cases hrole : m.role with
  | op => exact absurd hrole hbundled.role
  | alu =>
    rw [hrole] at hshape
    have hop := hcoded.alu hrole
    refine ⟨hclass, hshape ▸ FormatEntry.of_bundledAlu _ hop, ?_, fun h => by rw [hshape] at h; cases h⟩
    simp only [bundledAlu, List.mem_cons, List.not_mem_nil, or_false] at hop
    rcases hop with h | h | h | h | h | h | h | h <;> simp [Member.checkOperands, h, hshape, Role.part, Role.shape]
  | mac =>
    rw [hrole] at hshape
    have hop := hcoded.mac hrole
    refine ⟨hclass, hshape ▸ FormatEntry.of_bundledMac _ hop, ?_, fun h => by rw [hshape] at h; cases h⟩
    simp only [bundledMac, List.mem_cons, List.not_mem_nil, or_false] at hop
    rcases hop with h | h | h <;> simp [Member.checkOperands, h, hshape, Role.part, Role.shape]
  | shf =>
    rw [hrole] at hshape
    have hop := hcoded.shf hrole
    refine ⟨hclass, hshape ▸ FormatEntry.of_bundledShift _ hop, ?_, fun h => by rw [hshape] at h; cases h⟩
    simp only [bundledShift, List.mem_cons, List.not_mem_nil, or_false] at hop
    rcases hop with h | h | h | h <;> simp [Member.checkOperands, h, hshape, Role.part, Role.shape]
  | ld | ld2 =>
    rw [hrole] at hshape hopcode
    have hop := hopcode rfl
    refine ⟨hclass, ⟨⟨.ld, .rMemM, .memRm, 0x10⟩, by decide, hop.symm, hshape.symm⟩, ?_,
      fun h => by rw [hshape] at h; cases h⟩
    simp [Member.checkOperands, hop, hshape, Role.part, Role.shape]
  | st =>
    rw [hrole] at hshape hopcode
    have hop := hopcode rfl
    refine ⟨hclass, ⟨⟨.st, .memMR, .memRm, 0x14⟩, by decide, hop.symm, hshape.symm⟩, ?_,
      fun h => by rw [hshape] at h; cases h⟩
    simp [Member.checkOperands, hop, hshape, Role.part, Role.shape]

theorem fit_of_select {i : Instruction} {s : Selection} (h : select i = .ok s) : ∀ m ∈ s.members, m.Fit := by
  unfold select at h
  split at h
  · exact fit_of_selectSingle h
  · exact fit_of_selectBundle h

end QuadDsp
