import QuadDsp.Proofs.Machine.Again
import QuadDsp.Proofs.Machine.Bounds
import QuadDsp.Proofs.Word.Relocating

/-! # The operations of a bundle, each alone

An operation of an accepted bundle is accepted as a word of its own as well (`exists_select_alone`): the fields of that
word take whatever the fields of the bundle take (`WordForm.covered`). A bundle refers to no names,
so neither it nor any of its operations can fail (`execute_bundle`, `execute_alone`). -/

namespace QuadDsp

/-- The operation as a word of its own, under the condition of the word that it stands in. -/
def Instruction.alone (i k : Instruction) : Instruction := { k with condition := some i.cond, siblings := [] }

/-- The operation in a part of its own. -/
def Member.alone (m : Member) (i : Instruction) : Member := { m with role := .op, instr := i.alone m.instr }

theorem Sign.fits_unsigned_of_le {width width' : Nat} (hle : width' ≤ width) {v : Int}
    (h : Sign.unsigned.fits v width' = true) : Sign.unsigned.fits v width = true := by
  simp only [fits, Bool.and_eq_true, decide_eq_true_eq] at h ⊢
  have hspan : span width' ≤ span width := Nat.pow_le_pow_right (by decide) hle
  omega

namespace Field

/-- The field takes, of the same operand, what the other one takes. -/
def covers (f g : Field) : Bool :=
  f.arg == g.arg &&
    match f.kind, g.kind with
    | .reg base, .reg base' | .index base, .index base' | .modify base, .modify base' =>
      base ≤ base' && base' + span g.width ≤ base + span f.width
    | .imm .unsigned, .imm .unsigned => g.width ≤ f.width
    | .pre, .index _ => true
    | .mode, .mode => 0 < f.width
    | _, _ => false

variable {f g : Field} {m : Member}

theorem fitField_of_le {base base' width width' : Nat}
    (hle : (decide (base ≤ base') && decide (base' + span width' ≤ base + span width)) = true) {n v : Nat}
    {o : Operand} (h : fitField width' ((n : Int) - base') o = .ok v) :
    ∃ v, fitField width ((n : Int) - base) o = .ok v := by
  simp only [Bool.and_eq_true, decide_eq_true_eq] at hle
  obtain ⟨hbase, hspan⟩ := hle
  obtain ⟨hlt, hv⟩ := fitField_eq_ok_iff.1 h
  exact ⟨n - base, fitField_eq_ok_iff.2 ⟨by omega, by omega⟩⟩

theorem exists_of_covers (h : f.covers g = true) {v : Nat} (hv : g.memberValue m = .ok v) :
    ∃ v, f.memberValue m = .ok v := by
  obtain ⟨kind, role, arg, width⟩ := f
  obtain ⟨kind', role', arg', width'⟩ := g
  obtain ⟨harg, h⟩ := Bool.and_eq_true_iff.1 h
  obtain rfl : arg = arg' := eq_of_beq harg
  dsimp only at h
  split at h
  · obtain ⟨o, ho, hv⟩ := bind_eq_ok_iff.1 hv
    dsimp only [memberValue]
    rw [ho]
    cases o with
    | reg r => exact fitField_of_le h hv
    | accView a view => exact fitField_of_le h hv
    | _ => cases hv
  · obtain ⟨ref, href, hv⟩ := bind_eq_ok_iff.1 hv
    obtain ⟨k, hk, hv⟩ := bind_eq_ok_iff.1 hv
    obtain ⟨v', hv'⟩ := fitField_of_le h hv
    exact ⟨v', bind_eq_ok_iff.2 ⟨ref, href, bind_eq_ok_iff.2 ⟨k, hk, hv'⟩⟩⟩
  · obtain ⟨ref, href, hv⟩ := bind_eq_ok_iff.1 hv
    dsimp only [memberValue]
    rw [href]
    obtain ⟨space, mode⟩ := ref
    cases mode with
    | post i n => exact fitField_of_le h hv
    | pre n i => exact fitField_of_le h hv
    | _ => cases hv
  · dsimp only [memberValue] at hv ⊢
    split at hv
    · split at hv
      · next hfits =>
        rw [if_pos (Sign.fits_unsigned_of_le (of_decide_eq_true h) hfits)]
        exact ⟨_, rfl⟩
      · cases hv
    · cases hv
  · obtain ⟨ref, href, -⟩ := bind_eq_ok_iff.1 hv
    dsimp only [memberValue]
    rw [href]
    obtain ⟨space, mode⟩ := ref
    cases mode <;> exact ⟨_, rfl⟩
  · have hpos := of_decide_eq_true h
    dsimp only [memberValue]
    rw [if_neg hpos.ne']
    exact ⟨_, rfl⟩
  · cases h

theorem own_of_covers (h : f.covers g = true) : f.isReloc = false ∧ g.isOwn = true ∧ g.isReloc = false := by
  obtain ⟨kind, role, arg, width⟩ := f
  obtain ⟨kind', role', arg', width'⟩ := g
  obtain ⟨-, h⟩ := Bool.and_eq_true_iff.1 h
  dsimp only at h
  split at h <;> first | exact ⟨rfl, rfl, rfl⟩ | cases h

/-- Only the name of a part in a message tells a field of which part it is. -/
theorem exists_alone {i : Instruction} {v : Nat} (h : f.memberValue m = .ok v) :
    ∃ v, f.memberValue (m.alone i) = .ok v := by
  have halike : ({ m with role := .op } : Member).Alike (m.alone i) := ⟨rfl, rfl, rfl, ⟨rfl, rfl, rfl⟩⟩
  rw [halike.memberValue]
  unfold memberValue at h ⊢
  split at h
  case h_13 =>
    split at h
    · next n hn =>
      have hn' : List.findIdx? (· == ({ m with role := .op } : Member).opcode) _ = some n := hn
      exact ⟨n, by rw [hn']⟩
    · cases h
  all_goals exact ⟨v, h⟩

end Field

/-- What a field of a bundle takes, the field of the lone operation takes. -/
theorem WordForm.covered : ∀ t ∈ wordForms, ∀ part ∈ t.parts, part.role ≠ .op → ∀ e ∈ formatEntries,
    e.shape = part.shape → (part.role = .shf → e.opcode ∈ bundledShift) → e.format.hasCond = true ∧
      ∀ f ∈ e.format.layout, f.isOwn = true → f.role = .op ∧
        ∃ g ∈ t.format.layout, g.role = part.role ∧ f.covers g = true := by
  decide +kernel

theorem Selection.exists_fieldValue_of_not_isOwn (s : Selection) {f : Field} (hown : f.isOwn = false) :
    ∃ v, s.fieldValue f = .ok v := by
  obtain ⟨kind, role, arg, width⟩ := f
  cases kind with
  | opcode | pad | cond => exact ⟨_, rfl⟩
  | _ => cases hown

section Bundle

variable {i : Instruction} {s : Selection} (hs : select i = .ok s) (hbundle : i.siblings ≠ [])

include hs hbundle

theorem selectBundle_of_select : selectBundle i = .ok s := by
  rwa [select, if_neg (by simpa using hbundle)] at hs

theorem exists_bundleEntry : ∃ b ∈ bundleEntries, s.format = b.format := by
  obtain ⟨_, b, hb, -, -, rfl, -⟩ := selectBundle_eq_ok_iff.1 (selectBundle_of_select hs hbundle)
  exact ⟨b, hb, rfl⟩

theorem not_isReloc_of_bundle {f : Field} (hf : f ∈ s.format.layout) : f.isReloc = false := by
  have htable : ∀ b ∈ bundleEntries, ∀ f ∈ b.format.layout, f.isReloc = false := by decide +kernel
  obtain ⟨b, hb, hformat⟩ := exists_bundleEntry hs hbundle
  exact htable b hb f (hformat ▸ hf)

theorem not_lacks_of_bundle {m : Member} (hm : m ∈ s.members) (p : Program) (name : String) : ¬m.Lacks p name := by
  intro hlacks
  obtain ⟨t, ht, hfills⟩ := select_fills hs
  obtain ⟨f, hf, hreloc, -⟩ := hfills.exists_of_lacks ht hm hlacks
  cases hreloc.symm.trans (not_isReloc_of_bundle hs hbundle hf)

theorem exists_encode_of_bundle (hstructure : checkStructure i = .ok ()) (hformat : i.format = some s.format)
    (p : Program) : ∃ e, i.encode p = .ok e := by
  cases h : i.encode p with
  | ok e => exact ⟨e, rfl⟩
  | error e =>
    obtain ⟨t, -, hfills⟩ := select_fills hs
    obtain ⟨f, hf, hreloc, -⟩ :=
      hfills.exists_of_encodeFields_eq_error ((Instruction.encode_eq_error_iff hstructure hs hformat).1 h)
    cases hreloc.symm.trans (not_isReloc_of_bundle hs hbundle hf)

theorem exists_execute_of_bundle {m : Member} (hm : m ∈ s.members) (cx : Context) : ∃ fx, m.execute cx = .ok fx := by
  rcases (fit_of_select hs m hm).execute_runs cx with ⟨fx, h, -⟩ | ⟨name, -, hlacks⟩
  · exact ⟨fx, h⟩
  · exact absurd hlacks (not_lacks_of_bundle hs hbundle hm cx.program name)

/-- The operations of a bundle are accepted as words of their own. -/
theorem exists_select_alone {m : Member} (hm : m ∈ s.members) :
    ∃ s', select (i.alone m.instr) = .ok s' ∧ s'.members = [m.alone i] := by
  obtain ⟨t, ht, hfills⟩ := select_fills hs
  obtain ⟨hbundled, hcoded⟩ := selectBundle_members (selectBundle_of_select hs hbundle) m hm
  obtain ⟨hclass, ⟨e, he, hop, hshape⟩, hchecked, -⟩ := fit_of_select hs m hm
  obtain ⟨part, hpart, htakes⟩ := hfills.takes m hm
  obtain ⟨hcond, hcovered⟩ := WordForm.covered t ht part hpart (htakes.role ▸ hbundled.role) e he
    (hshape.trans htakes.shape) fun hshf => hop ▸ hcoded.shf (htakes.role.trans hshf)
  have hsame : m.instr.SameAction (i.alone m.instr) := ⟨rfl, rfl, rfl⟩
  have halike : ({ m with role := .op } : Member).Alike (m.alone i) := ⟨rfl, rfl, rfl, hsame⟩
  have hmember : Selection.member? ⟨e.format, e.fixed, i.alone m.instr, [m.alone i]⟩ .op = some (m.alone i) := rfl
  have hsingle : selectSingle (i.alone m.instr) = .ok ⟨e.format, e.fixed, i.alone m.instr, [m.alone i]⟩ := by
    refine selectSingle_eq_ok_iff.2 ⟨m.alone i, e, he, rfl, ⟨?_, hclass.mode⟩, ⟨rfl, hshape.symm, fun _ => hop.symm⟩,
      ?_, rfl, fun hnone => absurd (hcond.symm.trans hnone) (by decide), ?_⟩
    · exact (Shape.classify_congr hsame).trans hclass.classify
    · exact halike.checkOperands.trans hchecked
    · refine Selection.validate_eq_ok_iff.2 fun f hf => ?_
      cases hown : f.isOwn with
      | false => exact Selection.exists_fieldValue_of_not_isOwn _ hown
      | true =>
        obtain ⟨hrole, g, hg, hgrole, hcovers⟩ := hcovered f hf hown
        obtain ⟨hreloc, hgown, hgreloc⟩ := Field.own_of_covers hcovers
        obtain ⟨v, hv⟩ := hfills.values g hg
        have hmember' := hfills.member?_of_mem ht hm
        rw [htakes.role, ← hgrole] at hmember'
        rw [Selection.fieldValue_of_member? hmember' hgown hgreloc] at hv
        obtain ⟨v, hv, -⟩ := map_eq_ok_iff.1 hv
        obtain ⟨v, hv⟩ := Field.exists_of_covers hcovers hv
        obtain ⟨v, hv⟩ := Field.exists_alone (i := i) hv
        exact ⟨some v, by rw [Selection.fieldValue_of_member? (hrole ▸ hmember) hown hreloc, hv]; rfl⟩
  exact ⟨_, (if_pos rfl).trans hsingle, rfl⟩

end Bundle

theorem Member.execute_alone (m : Member) (i : Instruction) (cx : Context) : (m.alone i).execute cx = m.execute cx := by
  have halike : ({ m with role := .op } : Member).Alike (m.alone i) := ⟨rfl, rfl, rfl, ⟨rfl, rfl, rfl⟩⟩
  exact halike.execute cx

section Execute

variable {i : Instruction} {sel : Selection} (hs : select i = .ok sel) (hbundle : i.siblings ≠ []) (s : Core)
  (mem : Memory) (p : Program)

include hs hbundle

/-- An operation of a bundle does alone what it does in the bundle. -/
theorem execute_alone {m : Member} (hm : m ∈ sel.members) {fx : Effects}
    (hfx : m.execute ⟨s, mem, p, s.mask i.cond⟩ = .ok fx) :
    execute s mem p (i.alone m.instr) = .ok (Effects.and { mask := s.mask i.cond } fx) := by
  obtain ⟨sel', hs', hmembers⟩ := exists_select_alone hs hbundle hm
  have hcond : (i.alone m.instr).cond = i.cond := rfl
  rw [execute_of_selected rfl hs', hmembers, hcond, executeMembers, m.execute_alone, hfx]
  rfl

/-- A bundle has the effects of its operations, one behind the other. -/
theorem execute_bundle (hstructure : checkStructure i = .ok ()) :
    ∃ l, List.Forall₂ (fun (m : Member) fx => m.execute ⟨s, mem, p, s.mask i.cond⟩ = .ok fx) sel.members l ∧
      execute s mem p i = .ok (l.foldl Effects.and { mask := s.mask i.cond }) := by
  have hall : List.Forall₂ (fun (m : Member) fx => (m.execute ⟨s, mem, p, s.mask i.cond⟩).toOption = some fx)
      sel.members (sel.members.filterMap fun m => (m.execute ⟨s, mem, p, s.mask i.cond⟩).toOption) := by
    refine forall₂_filterMap fun m hm => ?_
    obtain ⟨fx, hfx⟩ := exists_execute_of_bundle hs hbundle hm ⟨s, mem, p, s.mask i.cond⟩
    exact ⟨fx, toOption_eq_some_iff.2 hfx, toOption_eq_some_iff.2 hfx⟩
  refine ⟨_, hall.imp fun m fx h => toOption_eq_some_iff.1 h, ?_⟩
  rw [execute_of_selected hstructure hs, ← toOption_eq_some_iff, toOption_executeMembers, mapM_eq_some_iff.2 hall]
  rfl

end Execute

end QuadDsp
