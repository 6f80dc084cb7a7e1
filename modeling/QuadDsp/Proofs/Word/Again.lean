import QuadDsp.Proofs.Machine.Bundle
import QuadDsp.Proofs.Word.Alike

/-! # Accepting what is read back

What the word of an instruction decodes to is accepted like the instruction: it is not refused
(`Readback.not_refused`), and its operations are those of the instruction in the order of the layout, each as
it is read back (`Readback.mirrors`). -/

namespace QuadDsp

section Accepted

variable {i : Instruction} {s : Selection} {m : Member}

theorem FormatEntry.isMac_of_needsMode : ∀ e ∈ formatEntries, e.shape.needsMode = true → e.opcode.isMac = true := by
  decide +kernel

theorem WordForm.hasConj_of_isConjugable : ∀ t ∈ wordForms, ∀ part ∈ t.parts, part.shape.isConjugable = true →
    t.format.hasConj = true := by
  decide +kernel

/-- A lone operation, or the operations of a bundle. -/
theorem select_members (hs : select i = .ok s) :
    (∃ m, ∃ e ∈ formatEntries, s.members = [m] ∧ m.instr = i ∧ m.opcode = e.opcode ∧ m.shape = e.shape ∧
        s.format = e.format) ∨
      (∀ m ∈ s.members, m.Bundled ∧ m.Coded) ∧ ∃ b ∈ bundleEntries, s.format = b.format := by
  by_cases hsingle : i.siblings = []
  · rw [select, if_pos (by simp [hsingle]), selectSingle_eq_ok_iff] at hs
    obtain ⟨m, e, he, hm, -, htakes, -, rfl, -⟩ := hs
    exact .inl ⟨m, e, he, rfl, hm, htakes.opcode rfl, htakes.shape, rfl⟩
  · rw [select, if_neg (by simpa using hsingle)] at hs
    obtain ⟨_, b, hb, -, -, hformat, -⟩ := selectBundle_eq_ok_iff.1 hs
    exact .inr ⟨selectBundle_members hs, b, hb, by rw [hformat]⟩

theorem FormatEntry.wide?_of_ne_ld : ∀ e ∈ formatEntries, e.opcode ≠ .ld → e.format.wide? = none := by
  decide +kernel

theorem isMac_of_computes : ∀ op ∈ bundledAlu ++ bundledShift, op.isMac = false := by decide

theorem Member.Bundled.opcode_mem (h : m.Bundled) (hcoded : m.Coded) :
    m.opcode ∈ [.ld, .st] ++ bundledAlu ++ bundledMac ++ bundledShift := by
  have hfixed (hrole : m.role.isCoded = false) : m.opcode = m.role.part.opcode := h.takes.opcode hrole
  cases hrole : m.role with
  | op => exact absurd hrole h.role
  | alu => simp [hcoded.alu hrole]
  | mac => simp [hcoded.mac hrole]
  | shf => simp [hcoded.shf hrole]
  | _ =>
    rw [hrole] at hfixed
    simp [hfixed rfl, Role.part]

theorem isMac_of_bundledMac : ∀ op ∈ bundledMac, op.isMac = true := by decide

theorem isMac_of_needsMode (hs : select i = .ok s) (hm : m ∈ s.members) (hneeds : m.shape.needsMode = true) :
    m.opcode.isMac = true := by
  rcases select_members hs with ⟨m₀, e, he, hmembers, -, hop, hshape, -⟩ | ⟨hall, -⟩
  · rw [hmembers, List.mem_singleton] at hm
    subst hm
    rw [hop]
    exact FormatEntry.isMac_of_needsMode e he (hshape ▸ hneeds)
  · obtain ⟨hbundled, hcoded⟩ := hall m hm
    have hmac : m.role = .mac := by
      rw [hbundled.takes.shape] at hneeds
      cases hrole : m.role <;> rw [hrole] at hneeds <;> first | rfl | cases hneeds
    exact isMac_of_bundledMac _ (hcoded.mac hmac)

theorem plain_of_not_isMac (hs : select i = .ok s) (hm : m ∈ s.members) (hclass : m.Classified)
    (hmac : m.opcode.isMac = false) : m.instr.plain = m.instr.operands ∧ m.instr.modes = [] := by
  have hneeds : m.shape.needsMode = false := by
    rw [Bool.eq_false_iff]
    intro hneeds
    rw [isMac_of_needsMode hs hm hneeds] at hmac
    cases hmac
  exact hclass.plain_eq hneeds

end Accepted

/-- An operand in front is read from an operand of its kind. -/
theorem plain_of_readBack {p : Program} {wide : Option Nat} {m : Member} {k : Instruction}
    (hoperands : k.operands = m.instr.plain.map (·.readBack p wide) ++ m.instr.modes) {n : Nat} {o : Operand}
    (ho : k.plain[n]? = some o) : ∃ o', m.instr.plain[n]? = some o' ∧ o'.readBack p wide = o := by
  have hplain : k.plain = m.instr.plain.map (·.readBack p wide) := by
    rw [← plain_readBack m, Instruction.plain, Instruction.plain, hoperands]
    rfl
  rw [hplain, List.getElem?_map, Option.map_eq_some_iff] at ho
  exact ho

/-- An accepted instruction, and the instruction that its word is read back as. -/
structure Readback (p : Program) (i j : Instruction) (s : Selection) (t : WordForm) : Prop where
  form : t ∈ wordForms
  structured : checkStructure i = .ok ()
  selected : select i = .ok s
  fills : s.Fills t i
  members : List.Forall₂ (fun m k => (m.decoded p s.format i.cond).SameOperation k) s.inOrder j.members

theorem Selection.Fills.exists_head {i : Instruction} {s : Selection} {t : WordForm} (h : s.Fills t i) :
    ∃ m ∈ s.members, m.instr = i := by
  have hmem : i ∈ s.members.map Member.instr := by
    rw [h.instrs]
    exact List.mem_cons_self
  exact List.mem_map.1 hmem

namespace Readback

variable {p : Program} {i j : Instruction} {s : Selection} {t : WordForm}

/-- The word of an instruction is read back as the instruction. -/
theorem of_encode {e : EncodedWord} (h : i.encode p = .ok e) (hfit : i.TargetsFit p) (hword : e.word ≠ errorWord) :
    ∃ s t d, decodeWord? e.word i.programAddr = some d ∧ Readback p i d.instr s t ∧
      d.format.Reaches e.word i.programAddr := by
  obtain ⟨s, t, ht, hs, -, hfills, hreach, head, siblings, horder, hdecode⟩ := decodeWord?_of_encode h hfit hword
  refine ⟨s, t, _, hdecode, ⟨ht, (holds_of_encode h).1, hs, hfills, ?_⟩, hreach⟩
  have hself :
      List.Forall₂ (fun m k => (m.decoded p s.format i.cond).SameOperation k) s.inOrder (head :: siblings) := by
    rw [← horder, List.forall₂_map_right_iff, List.forall₂_same]
    exact fun m _ => .refl _
  obtain ⟨m, ms, hhead, hrest, hcons⟩ := List.forall₂_cons_right_iff.1 hself
  rw [hcons]
  exact .cons ⟨hhead.opcode, hhead.operands, hhead.condition, hhead.conjugate⟩ hrest

theorem sameWord {k : Instruction} (h : Readback p i j s t) (hsame : j.SameWord k) : Readback p i k s t := by
  refine ⟨h.form, h.structured, h.selected, h.fills, ?_⟩
  refine (exists_forall₂_forall₂_iff.1 ⟨_, h.members, hsame⟩).imp ?_
  rintro m k ⟨j, hj, hk⟩
  exact hj.trans hk

variable (h : Readback p i j s t)

include h

theorem mem_members {m : Member} (hm : m ∈ s.inOrder) : m ∈ s.members := (h.fills.inOrder_perm h.form).mem_iff.1 hm

/-- The operation that an instruction of the word is read back from. -/
theorem exists_member {k : Instruction} (hk : k ∈ j.members) :
    ∃ m ∈ s.members, m.instr ∈ i.members ∧ k.opcode = m.opcode ∧
      k.operands = m.instr.plain.map (·.readBack p s.format.wide?) ++ m.instr.modes := by
  obtain ⟨m, hm, hmk⟩ := exists_left_of_forall₂ h.members hk
  exact ⟨m, h.mem_members hm, h.fills.instrs ▸ List.mem_map_of_mem (h.mem_members hm), hmk.opcode, hmk.operands⟩

/-- The first operand is not read back as another register. -/
theorem destination?_eq {k : Instruction} {m : Member} (hm : m ∈ s.members) (hmac : m.opcode.isMac = false)
    (hop : k.opcode = m.opcode)
    (hoperands : k.operands = m.instr.plain.map (·.readBack p s.format.wide?) ++ m.instr.modes) :
    k.destination? = m.instr.destination? := by
  obtain ⟨hplain, hmodes⟩ := plain_of_not_isMac h.selected hm (h.fills.classified m hm) hmac
  have hopcode : m.instr.opcode = m.opcode := rfl
  unfold Instruction.destination?
  rw [hoperands, hop, hplain, hmodes, hopcode]
  rcases m.instr.operands with _ | ⟨o, rest⟩
  · rfl
  · cases o <;> rfl

/-- No two operations that compute, and load, the same register. -/
theorem not_sameDestination {k l : Instruction} {r : Reg} (hk : k ∈ j.members) (hl : l ∈ j.members)
    (hcompute : k.opcode ∈ bundledAlu ∨ k.opcode ∈ bundledShift) (hload : l.opcode = .ld)
    (hkr : k.destination? = some r) (hlr : l.destination? = some r) : False := by
  obtain ⟨a, ha, hai, haop, haoperands⟩ := h.exists_member hk
  obtain ⟨b, hb, hbi, hbop, hboperands⟩ := h.exists_member hl
  rw [haop] at hcompute
  have hamac : a.opcode.isMac = false := by
    rcases hcompute with hcompute | hcompute
    · exact isMac_of_computes _ (List.mem_append_left _ hcompute)
    · exact isMac_of_computes _ (List.mem_append_right _ hcompute)
  have hbld : b.opcode = .ld := hbop.symm.trans hload
  rw [h.destination?_eq ha hamac haop haoperands] at hkr
  rw [h.destination?_eq hb (by rw [hbld]; rfl) hbop hboperands] at hlr
  exact not_refused_of_select h.structured h.selected
    (.sameDestination a.instr b.instr r hai hbi hcompute hbld hkr hlr)

theorem not_refused_lone {m : Member} {e : FormatEntry} (he : e ∈ formatEntries) (hmembers : s.members = [m])
    (hinstr : m.instr = i) (heop : m.opcode = e.opcode) (hformat : s.format = e.format) : ¬j.Refused := by
  have hno := not_refused_of_select h.structured h.selected
  obtain ⟨m', hm', -, hop, hoperands⟩ := h.exists_member (List.mem_cons_self : j ∈ j.members)
  rw [hmembers, List.mem_singleton] at hm'
  subst hm' hinstr
  have hiop : j.opcode = m'.instr.opcode := hop
  rintro (⟨r, hdiv, hreg, hodd⟩ | ⟨n, v, hbit, himm, hout⟩ | ⟨sys, hmove, hsys, hs⟩ |
    ⟨k, l, r, hk, hl, hcompute, hload, hkr, hlr⟩)
  · obtain ⟨o, ho, hread⟩ := plain_of_readBack hoperands hreg
    cases o <;> cases hread
    exact hno (.division r (hiop ▸ hdiv) ho hodd)
  · have hwide : s.format.wide? = none := by
      rw [hformat]
      refine FormatEntry.wide?_of_ne_ld e he fun hld => ?_
      rw [hop, heop, hld] at hbit
      simp at hbit
    obtain ⟨o, ho, hread⟩ := plain_of_readBack hoperands himm
    rw [hwide] at hread
    cases o <;> cases hread
    exact hno (.bitNumber n _ (hiop ▸ hbit) ho hout)
  · obtain ⟨o, ho, hread⟩ := plain_of_readBack hoperands hsys
    cases o <;> cases hread
    exact hno (.readOnly sys (hiop ▸ hmove) ho hs)
  · exact h.not_sameDestination hk hl hcompute hload hkr hlr

theorem not_refused_bundled (hall : ∀ m ∈ s.members, m.Bundled ∧ m.Coded) : ¬j.Refused := by
  obtain ⟨m, hm, -, hop, hoperands⟩ := h.exists_member (List.mem_cons_self : j ∈ j.members)
  obtain ⟨hbundled, hcoded⟩ := hall m hm
  have hmem := hbundled.opcode_mem hcoded
  rw [← hop] at hmem
  rintro (⟨r, hdiv, -⟩ | ⟨n, v, hbit, -⟩ | ⟨sys, -, hsys, -⟩ | ⟨k, l, r, hk, hl, hcompute, hload, hkr, hlr⟩)
  · rcases hdiv with hdiv | hdiv <;> rw [hdiv] at hmem <;> revert hmem <;> decide
  · rcases hbit with ⟨hbit | hbit | hbit, -⟩ | ⟨hbit, -⟩ <;> rw [hbit] at hmem <;> revert hmem <;> decide
  · obtain ⟨o, ho, hread⟩ := plain_of_readBack hoperands hsys
    cases o <;> cases hread
    have hshape := hbundled.classified.shape_of_sys ho
    rw [hbundled.takes.shape] at hshape
    cases hrole : m.role <;> rw [hrole] at hshape <;> rcases hshape with hshape | hshape <;> first
      | exact hbundled.role hrole
      | cases hshape
  · exact h.not_sameDestination hk hl hcompute hload hkr hlr

/-- What is read back is not refused. -/
theorem not_refused : ¬j.Refused := by
  rcases select_members h.selected with ⟨m, e, he, hmembers, hinstr, hop, -, hformat⟩ | ⟨hall, -⟩
  · exact h.not_refused_lone he hmembers hinstr hop hformat
  · exact h.not_refused_bundled hall

/-- The operands of a member, as they are read back, are of its shape. -/
theorem classify_of_operands {m : Member} {k : Instruction} (hm : m ∈ s.members)
    (hoperands : k.operands = (m.readBack p s.format.wide?).instr.operands) :
    Shape.classify k = .ok (m.shape, m.mode) := by
  have hreadBack : (m.readBack p s.format.wide?).Classified := classified_readBack (h.fills.classified m hm)
  have hread := Shape.classify_eq_ok_iff.1 hreadBack.classify
  refine Shape.classify_eq_ok_iff.2 ⟨?_, ?_, ?_⟩
  · rw [Instruction.plain, hoperands]
    exact hread.1
  · rw [Instruction.modes, hoperands]
    exact hread.2.1
  · rw [hoperands]
    exact hread.2.2

theorem mirrors_of_sameOperation {m m' : Member} (hm : m ∈ s.members) (hclass : m'.Classified)
    (hsame : (m.decoded p s.format i.cond).SameOperation m'.instr) : m.Mirrors p s.format.wide? m' := by
  have hoperands : m'.instr.operands = m.instr.plain.map (·.readBack p s.format.wide?) ++ m.instr.modes :=
    hsame.operands
  have hplain : m'.instr.plain = m.instr.plain.map (·.readBack p s.format.wide?) := by
    rw [← plain_readBack m, Instruction.plain, Instruction.plain, hoperands]
    rfl
  have hboth := Except.ok.inj (hclass.classify.symm.trans (h.classify_of_operands hm hsame.operands))
  refine ⟨hsame.opcode, congrArg Prod.fst hboth, congrArg Prod.snd hboth, hplain, fun hmac => ?_, fun hconj => ?_⟩
  · obtain ⟨hall, hmodes⟩ := plain_of_not_isMac h.selected hm (h.fills.classified m hm) hmac
    rw [hoperands, hall, hmodes, List.append_nil]
  · obtain ⟨part, hpart, htakes⟩ := h.fills.takes m hm
    have hhas := WordForm.hasConj_of_isConjugable t h.form part hpart (htakes.shape ▸ hconj)
    have hdecoded : (m.decoded p s.format i.cond).conjugate = (s.format.hasConj && m.instr.conjugate) := rfl
    rw [hsame.conjugate, hdecoded, h.fills.format, hhas, Bool.true_and]

/-- Where it is accepted, its operations are those of the instruction as they are read back. -/
theorem mirrors {s' : Selection} (hs' : select j = .ok s') :
    List.Forall₂ (Member.Mirrors p s.format.wide?) s.inOrder s'.members := by
  obtain ⟨t', -, hfills'⟩ := select_fills hs'
  have hmembers := h.members
  rw [← hfills'.instrs, List.forall₂_map_right_iff, List.forall₂_iff_get] at hmembers
  rw [List.forall₂_iff_get]
  refine ⟨hmembers.1, fun n hn hn' => ?_⟩
  exact h.mirrors_of_sameOperation (h.mem_members (List.get_mem s.inOrder ⟨n, hn⟩))
    (hfills'.classified _ (List.get_mem s'.members ⟨n, hn'⟩)) (hmembers.2 n hn hn')

end Readback

end QuadDsp
