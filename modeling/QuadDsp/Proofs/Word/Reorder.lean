import Mathlib.Data.List.Permutation
import QuadDsp.Proofs.Machine.Alone

/-! # The operations of a bundle in another order

Which operation of a bundle plays which part does not depend on where it stands, for the second of two loads is the
one into the higher register (`orderLoads_perm`). So the operations of an accepted bundle can stand in any order, with
any of them in front, if the one in front has the condition of the word: the bundle is accepted again, in the same
format and with the operations in the same parts (`Instruction.Reorders.exists_select`), and it has the same word
(`Instruction.Reorders.encode`). -/

namespace QuadDsp

/-! ### Telling two loads apart -/

/-- Makes the loads into the register with this number second ones. -/
def Member.asSecond (key : Nat) (m : Member) : Member :=
  if m.role = .ld ∧ m.loadKey = key then { m with role := .ld2 } else m

theorem markLoad_eq_map {ms : List Member} (hnodup : ((ms.filter (·.role == .ld)).map Member.loadKey).Nodup) {n : Nat}
    {m : Member} (hn : (ms.filter (·.role == .ld))[n]? = some m) : markLoad n ms = ms.map (.asSecond m.loadKey) := by
  induction ms generalizing n with
  | nil => rfl
  | cons a ms ih =>
    rw [List.map_cons]
    by_cases hld : a.role = .ld
    · rw [List.filter_cons_of_pos (by simp [hld])] at hnodup hn
      obtain ⟨hnotMem, hnodup⟩ := List.nodup_cons.1 hnodup
      cases n with
      | zero =>
        obtain rfl : a = m := Option.some.inj hn
        have hrest : ∀ b ∈ ms, Member.asSecond a.loadKey b = id b := fun b hb =>
          if_neg fun ⟨hld, hkey⟩ => hnotMem (hkey ▸ List.mem_map_of_mem (List.mem_filter.2 ⟨hb, by simp [hld]⟩))
        rw [markLoad_zero hld, List.map_congr_left hrest, List.map_id, Member.asSecond, if_pos ⟨hld, rfl⟩]
      | succ n =>
        have hne : a.loadKey ≠ m.loadKey := fun h => hnotMem (h ▸ List.mem_map_of_mem (List.mem_of_getElem? hn))
        rw [markLoad_succ hld, ih hnodup hn, Member.asSecond, if_neg fun h => hne h.2]
    · rw [List.filter_cons_of_neg (by simp [hld])] at hnodup hn
      rw [markLoad_cons_of_ne hld, ih hnodup hn, Member.asSecond, if_neg fun h => hld h.1]

theorem orderLoads_eq_map {ms : List Member} {a b : Member} (hloads : ms.filter (·.role == .ld) = [a, b])
    (hne : a.loadKey ≠ b.loadKey) : orderLoads ms = ms.map (.asSecond (max a.loadKey b.loadKey)) := by
  have hnodup : ((ms.filter (·.role == .ld)).map Member.loadKey).Nodup := by simp [hloads, hne]
  have horder : orderLoads ms = markLoad (if a.loadKey ≤ b.loadKey then 1 else 0) ms := by
    unfold orderLoads
    rw [hloads]
    rfl
  rw [horder]
  split
  · next hle => rw [markLoad_eq_map hnodup (m := b) (by rw [hloads]; rfl), max_eq_right hle]
  · next hle => rw [markLoad_eq_map hnodup (m := a) (by rw [hloads]; rfl), max_eq_left (Nat.le_of_not_le hle)]

/-- The loads are told apart in any order. -/
theorem orderLoads_perm {ms ms' : List Member} (hnodup : ((ms.filter (·.role == .ld)).map Member.loadKey).Nodup)
    (h : ms.Perm ms') : (orderLoads ms).Perm (orderLoads ms') := by
  have hloads := h.filter (·.role == .ld)
  by_cases htwo : ∃ a b, ms.filter (·.role == .ld) = [a, b]
  · obtain ⟨a, b, hab⟩ := htwo
    have hne : a.loadKey ≠ b.loadKey := by simpa [hab] using hnodup
    rw [hab, List.pair_perm] at hloads
    rw [orderLoads_eq_map hab hne]
    rcases hloads with hab' | hba
    · rw [orderLoads_eq_map hab' hne]
      exact h.map _
    · rw [orderLoads_eq_map hba hne.symm, max_comm b.loadKey]
      exact h.map _
  · have hself {l : List Member} (hl : (ms.filter (·.role == .ld)).Perm (l.filter (·.role == .ld))) :
        orderLoads l = l := by
      unfold orderLoads
      split
      · next a b hab =>
        rw [hab, List.perm_pair] at hl
        exact absurd (hl.elim (fun h => ⟨a, b, h⟩) fun h => ⟨b, a, h⟩) htwo
      · rfl
    rw [hself (.refl _), hself hloads]
    exact h

theorem ofMembers?_perm {ms ms' : List Member} (h : ms.Perm ms') :
    BundleShape.ofMembers? ms' = BundleShape.ofMembers? ms := by
  simp only [BundleShape.ofMembers?, fun role : Role => (h.countP_eq (·.role == role)).symm]

theorem nodup_loadKey {ms : List Member} (hbundled : ∀ m ∈ ms, m.Bundled)
    (hapart : (ms.map Member.instr).Pairwise Instruction.Apart) :
    ((ms.filter (·.role == .ld)).map Member.loadKey).Nodup := by
  have hloads : (ms.filter (·.role == .ld)).Pairwise fun a b => a.instr.Apart b.instr :=
    (List.pairwise_map.1 hapart).sublist List.filter_sublist
  refine List.pairwise_map.2 (hloads.imp_of_mem fun {a b} ha hb hab hkey => ?_)
  have hdestination {m : Member} (hm : m ∈ ms.filter (·.role == .ld)) :
      m.instr.destination? = some ⟨.general, m.loadKey⟩ := by
    obtain ⟨hmem, hrole⟩ := List.mem_filter.1 hm
    have hld : m.role = .ld ∨ m.role = .ld2 := .inl (eq_of_beq hrole)
    have hshape := Member.shape_of_ld (hbundled m hmem) hld
    have hslot : m.shape.slots[0]? = some .general := by
      rw [hshape]
      rfl
    obtain ⟨k, hreg, -⟩ := (hbundled m hmem).classified.reg?_of_slot hslot rfl
    have hdata := (Member.dataReg?_of_shape hshape).trans hreg
    rw [(Member.destination?_of_ld (hbundled m hmem) hld hdata).2, Member.loadKey, hdata]
    rfl
  exact hab _ (hdestination ha) _ (hdestination hb) (by rw [hkey])

/-! ### Selections in another order -/

/-- The same operations in the same parts, in whatever order. -/
structure Selection.Reorders (s s' : Selection) : Prop where
  format : s'.format = s.format
  fixed : s'.fixed = s.fixed
  cond : s'.head.cond = s.head.cond
  members : ∃ l, s.members.Perm l ∧ List.Forall₂ Member.Alike l s'.members

namespace Selection.Reorders

variable {s s' : Selection} (h : s.Reorders s') (hnodup : (s.members.map Member.role).Nodup)

include h hnodup

theorem exists_member? {role : Role} {m : Member} (hm : s.member? role = some m) :
    ∃ m', s'.member? role = some m' ∧ m.Alike m' := by
  obtain ⟨l, hperm, hsame⟩ := h.members
  obtain ⟨m', hm', halike⟩ := exists_right_of_forall₂ hsame (hperm.mem_iff.1 (List.mem_of_find?_eq_some hm))
  have hroles : s'.members.map Member.role = l.map Member.role :=
    map_eq_map_of_forall₂ (fun a b (hab : Member.Alike b a) => hab.role) hsame.flip
  have hrole : m'.role = role :=
    halike.role.trans (eq_of_beq (List.find?_some (p := fun m : Member => m.role == role) hm))
  refine ⟨m', hrole ▸ Selection.member?_of_nodup ?_ hm', halike⟩
  rw [hroles]
  exact (hperm.map _).nodup_iff.1 hnodup

theorem fieldValue {f : Field} {o : Option Nat} (hvalue : s.fieldValue f = .ok o) : s'.fieldValue f = .ok o := by
  unfold Selection.fieldValue at hvalue ⊢
  rw [h.fixed, h.cond]
  split at hvalue
  · next hreloc => rw [if_pos hreloc, hvalue]
  · next hreloc =>
    rw [if_neg hreloc]
    split at hvalue
    · exact hvalue
    · exact hvalue
    · exact hvalue
    · obtain ⟨m, hm, hvalue⟩ := bind_eq_ok_iff.1 hvalue
      obtain ⟨m', hm', halike⟩ := h.exists_member? hnodup (orElse_eq_ok_iff.1 hm)
      rw [hm', ← halike.memberValue] at *
      exact hvalue

theorem validate (hvalid : s.validate = .ok ()) : s'.validate = .ok () := by
  rw [Selection.validate_eq_ok_iff] at hvalid ⊢
  intro f hf
  obtain ⟨o, ho⟩ := hvalid f (h.format ▸ hf)
  exact ⟨o, h.fieldValue hnodup ho⟩

theorem encodeFields {fields : List Field} (hfields : ∀ f ∈ fields, ∃ v, s.fieldValue f = .ok (some v))
    (p : Program) (pos : Nat) : s'.encodeFields p pos fields = s.encodeFields p pos fields := by
  induction fields generalizing pos with
  | nil => rfl
  | cons f rest ih =>
    obtain ⟨v, hv⟩ := hfields f List.mem_cons_self
    rw [Selection.encodeFields, Selection.encodeFields, Selection.encodeField, Selection.encodeField, hv,
      h.fieldValue hnodup hv, ih fun f hf => hfields f (List.mem_cons_of_mem _ hf)]

end Selection.Reorders

/-! ### The bundle in another order -/

/-- The same operations in whatever order, at the same address and with the same format. -/
structure Instruction.Reorders (i i' : Instruction) : Prop where
  members : ∃ l, i.members.Perm l ∧ List.Forall₂ SameOperation l i'.members
  programAddr : i'.programAddr = i.programAddr
  format : i'.format = i.format

namespace Instruction.Reorders

variable {i i' : Instruction} (h : i.Reorders i')

include h

theorem exists_member {k' : Instruction} (hk' : k' ∈ i'.members) : ∃ k ∈ i.members, k.SameOperation k' := by
  obtain ⟨l, hperm, hsame⟩ := h.members
  obtain ⟨k, hk, hkk'⟩ := exists_left_of_forall₂ hsame hk'
  exact ⟨k, hperm.mem_iff.2 hk, hkk'⟩

theorem length_siblings : i'.siblings.length = i.siblings.length := by
  obtain ⟨l, hperm, hsame⟩ := h.members
  exact Nat.succ.inj (hsame.length_eq.symm.trans hperm.length_eq.symm)

variable (hcond : ∀ k ∈ i.siblings, k.cond = i.cond)

include hcond

theorem cond_of_mem {k' : Instruction} (hk' : k' ∈ i'.members) : k'.cond = i.cond := by
  obtain ⟨k, hk, hsame⟩ := h.exists_member hk'
  rw [Instruction.cond, hsame.condition]
  rcases List.mem_cons.1 hk with rfl | hk
  · rfl
  · exact hcond k hk

theorem cond_eq : i'.cond = i.cond := h.cond_of_mem hcond List.mem_cons_self

theorem checkStructure (hstructure : checkStructure i = .ok ()) : QuadDsp.checkStructure i' = .ok () := by
  obtain ⟨hlength, -, hnodup⟩ := checkStructure_eq_ok_iff.1 hstructure
  refine checkStructure_eq_ok_iff.2 ⟨h.length_siblings ▸ hlength, fun k' hk' => ?_, ?_⟩
  · have hk := h.cond_of_mem hcond (List.mem_cons_of_mem _ hk')
    rw [h.cond_eq hcond]
    unfold Instruction.cond at hk ⊢
    cases hc : k'.condition with
    | none => rfl
    | some c =>
      rw [hc] at hk
      exact hk
  · obtain ⟨l, hperm, hsame⟩ := h.members
    have hdestinations :=
      map_eq_map_of_forall₂ (fun a b (hab : SameOperation b a) => hab.sameAction.destination?) hsame.flip
    have hfilter := congrArg (List.filterMap id) hdestinations
    rw [List.filterMap_map, List.filterMap_map] at hfilter
    exact hfilter ▸ (hperm.filterMap _).nodup_iff.1 hnodup

variable {s : Selection} (hstructure : QuadDsp.checkStructure i = .ok ()) (hs : select i = .ok s)
  (hbundle : i.siblings ≠ [])

include hstructure hs hbundle

/-- An accepted bundle is accepted in any order, with the same operations in the same parts. -/
theorem exists_select : ∃ s', select i' = .ok s' ∧ s.Reorders s' := by
  obtain ⟨t, ht, hfills⟩ := select_fills hs
  obtain ⟨ms, b, hb, hms, hshape, hsel, hvalid⟩ := selectBundle_eq_ok_iff.1 (selectBundle_of_select hs hbundle)
  obtain ⟨l, hperm, hsame⟩ := h.members
  obtain ⟨ms₁, hms₁, hperm₁⟩ := List.perm_comp_forall₂ hperm.symm hms
  -- the operations are classified in their new places as in the old ones
  obtain ⟨ms', hms', halike⟩ : ∃ ms', List.Forall₂ (fun j m => bundleMember j = .ok m) i'.members ms' ∧
      List.Forall₂ Member.Alike ms₁ ms' := by
    have hboth := exists_forall₂_forall₂_iff.1 ⟨l, hms₁.flip, hsame⟩
    obtain ⟨ms', halike, hms'⟩ := exists_forall₂_forall₂_iff.2 (hboth.imp fun m k' hk => by
      obtain ⟨k, hm, hkk'⟩ := hk
      obtain ⟨m', hm', hmm'⟩ := (bundleMember_alike hkk'.sameAction).of_ok hm
      exact ⟨m', hmm', hm'⟩)
    exact ⟨ms', hms'.flip, halike⟩
  have hinstr : ∀ m ∈ ms, m.Bundled := fun m hm => by
    obtain ⟨j, -, hj⟩ := exists_left_of_forall₂ hms hm
    exact (bundled_of_bundleMember hj).2.1
  have hmembers : ms.map Member.instr = i.members :=
    (map_eq_map_of_forall₂ (fun m j (hj : bundleMember j = .ok m) => (bundled_of_bundleMember hj).1) hms.flip).trans
      (List.map_id _)
  have horder := orderLoads_perm (nodup_loadKey hinstr (hmembers ▸ Instruction.nodup_destinations_iff.1
    (checkStructure_eq_ok_iff.1 hstructure).2.2)) hperm₁.symm
  have hreorders : s.Reorders ⟨b.format, b.fixed, i', orderLoads ms'⟩ := by
    refine ⟨?_, ?_, ?_, orderLoads ms₁, ?_, orderLoads_alike halike⟩
    · rw [hsel]
    · rw [hsel]
    · rw [hsel]; exact h.cond_eq hcond
    · rw [hsel]; exact horder
  refine ⟨⟨b.format, b.fixed, i', orderLoads ms'⟩, ?_, hreorders⟩
  have hbundle' : ¬i'.siblings.isEmpty = true := by
    rw [List.isEmpty_iff_length_eq_zero, h.length_siblings, ← List.isEmpty_iff_length_eq_zero]
    simpa using hbundle
  rw [select, if_neg hbundle']
  refine selectBundle_eq_ok_iff.2 ⟨ms', b, hb, hms', ?_, rfl, hreorders.validate (hfills.nodup_roles ht) hvalid⟩
  rw [ofMembers?_alike (orderLoads_alike halike), ofMembers?_perm horder, hshape]

theorem encode (p : Program) : (i'.encode p).toOption = (i.encode p).toOption := by
  obtain ⟨t, ht, hfills⟩ := select_fills hs
  obtain ⟨s', hs', hreorders⟩ := h.exists_select hcond hstructure hs hbundle
  have hstructure' := h.checkStructure hcond hstructure
  have hfields : ∀ f ∈ s.format.layout, ∃ v, s.fieldValue f = .ok (some v) := fun f hf => by
    obtain ⟨o, ho⟩ := hfills.values f (hfills.format ▸ hf)
    cases o with
    | some v => exact ⟨v, ho⟩
    | none => cases (Selection.isReloc_of_fieldValue ho).symm.trans (not_isReloc_of_bundle hs hbundle hf)
  unfold Instruction.encode
  rw [hstructure, hstructure', hs, hs']
  dsimp only
  rw [h.format, hreorders.format, hreorders.encodeFields (hfills.nodup_roles ht) hfields]
  split <;> rfl

end Instruction.Reorders

end QuadDsp
