import Mathlib.Data.List.Perm.Basic
import QuadDsp.Proofs.Format.Alike
import QuadDsp.Proofs.Machine.Bundle

/-! # The operations of a word together

The effects of a word are the effects of its operations, one behind the other (`toOption_executeMembers`).
Operations that write apart and transfer no control can be executed in any order: the state that their effects
leave is the same (`executeMembers_perm`). -/

namespace QuadDsp

namespace Effects

/-- Effects that leave the same state and ask the same of the sequencer. -/
structure Alike (s : Core) (mem : Memory) (fx fx' : Effects) : Prop where
  flow : fx'.flow = fx.flow
  core : (commit s mem fx').1 = (commit s mem fx).1
  mem : (commit s mem fx').2.1 = (commit s mem fx).2.1

theorem Alike.refl (s : Core) (mem : Memory) (fx : Effects) : Alike s mem fx fx := ⟨rfl, rfl, rfl⟩

theorem mask_foldl_and (fx : Effects) (l : List Effects) : (l.foldl and fx).mask = fx.mask := by
  induction l generalizing fx with
  | nil => rfl
  | cons other rest ih => exact ih (fx.and other)

theorem writes_foldl_and (fx : Effects) (l : List Effects) :
    (l.foldl and fx).writes = fx.writes ++ l.flatMap Effects.writes := by
  induction l generalizing fx with
  | nil => exact (List.append_nil _).symm
  | cons other rest ih => rw [List.foldl_cons, ih, List.flatMap_cons, and, List.append_assoc]

theorem flow_foldl_and {fx : Effects} {l : List Effects} (h : ∀ other ∈ l, other.flow = none) :
    (l.foldl and fx).flow = fx.flow := by
  induction l generalizing fx with
  | nil => rfl
  | cons other rest ih =>
    rw [List.foldl_cons, ih fun fx hfx => h fx (List.mem_cons_of_mem _ hfx), and, h other List.mem_cons_self]
    rfl

/-- Effects that write apart and transfer no control leave the same state in any order. -/
theorem alike_of_perm {l l' : List Effects} (hperm : l.Perm l') (hapart : ∀ fx ∈ l, ∀ fx' ∈ l, fx ≠ fx' → fx.Apart fx')
    (hflow : ∀ fx ∈ l, fx.flow = none) (s : Core) (mem : Memory) (mask : Mask) :
    Alike s mem (l.foldl and { mask := mask }) (l'.foldl and { mask := mask }) := by
  refine ⟨?_, ?_, ?_⟩
  · rw [flow_foldl_and hflow, flow_foldl_and fun fx hfx => hflow fx (hperm.mem_iff.2 hfx)]
  · simp only [commit, mask_foldl_and, writes_foldl_and, List.nil_append]
    exact (foldl_writes_of_perm (fun w w' h s => Write.core_comm_of_apart h s mask) hperm hapart s).symm
  · simp only [commit, mask_foldl_and, writes_foldl_and, List.nil_append]
    exact (foldl_writes_of_perm (fun w w' h m => Write.memory_comm_of_apart h m mask) hperm hapart mem).symm

end Effects

/-- An operation does not look at the condition that stands with it. -/
theorem Member.Alike.execute {m m' : Member} (h : m.Alike m') (cx : Context) : m'.execute cx = m.execute cx := by
  obtain ⟨hrole, hshape, hmode, hopcode, hoperands, hconjugate⟩ := h
  cases m with
  | mk role instr shape mode =>
  cases m' with
  | mk role' instr' shape' mode' =>
  cases instr
  cases instr'
  dsimp only at hrole hshape hmode hopcode hoperands hconjugate
  subst hrole hshape hmode hopcode hoperands hconjugate
  rfl

theorem executeMembers_alike {ms ms' : List Member} (h : List.Forall₂ Member.Alike ms ms') (cx : Context)
    (fx : Effects) : executeMembers cx fx ms' = executeMembers cx fx ms := by
  induction h generalizing fx with
  | nil => rfl
  | cons hm _ ih => simp only [executeMembers, hm.execute, ih]

/-- A word has effects if all its operations have. -/
theorem toOption_executeMembers (cx : Context) (fx : Effects) (ms : List Member) :
    (executeMembers cx fx ms).toOption =
      (ms.mapM fun m : Member => (m.execute cx).toOption).map (·.foldl Effects.and fx) := by
  induction ms generalizing fx with
  | nil => rfl
  | cons m rest ih =>
    rw [executeMembers, toOption_bind, List.mapM_cons]
    cases (m.execute cx).toOption with
    | none => rfl
    | some other =>
      rw [Option.bind_some, ih]
      cases rest.mapM (fun m : Member => (m.execute cx).toOption) <;> rfl

theorem mapM_perm {α β : Type} {f : α → Option β} {l l' : List α} (h : l.Perm l') :
    Option.Rel List.Perm (l.mapM f) (l'.mapM f) := by
  have hsome {l l' : List α} (h : l.Perm l') {r : List β} (hr : l.mapM f = some r) :
      ∃ r', l'.mapM f = some r' ∧ r.Perm r' := by
    obtain ⟨r', hr', hperm⟩ := List.perm_comp_forall₂ h.symm (mapM_eq_some_iff.1 hr)
    exact ⟨r', mapM_eq_some_iff.2 hr', hperm.symm⟩
  cases hr : l.mapM f with
  | some r =>
    obtain ⟨r', hr', hperm⟩ := hsome h hr
    rw [hr']
    exact .some hperm
  | none =>
    cases hr' : l'.mapM f with
    | none => exact .none
    | some r' =>
      obtain ⟨_, hsome, -⟩ := hsome h.symm hr'
      rw [hr] at hsome
      cases hsome

/-- The operations of a bundle can be executed in any order. -/
theorem executeMembers_perm {cx : Context} {ms ms' : List Member} (hperm : ms.Perm ms')
    (hapart : ∀ m ∈ ms, ∀ m' ∈ ms, m ≠ m' → ∀ fx fx', m.execute cx = .ok fx → m'.execute cx = .ok fx' → fx.Apart fx')
    (hflow : ∀ m ∈ ms, ∀ fx, m.execute cx = .ok fx → fx.flow = none) (s : Core) (mem : Memory) (mask : Mask) :
    Option.Rel (Effects.Alike s mem) (executeMembers cx { mask := mask } ms).toOption
      (executeMembers cx { mask := mask } ms').toOption := by
  rw [toOption_executeMembers, toOption_executeMembers]
  have hresults : Option.Rel List.Perm (ms.mapM fun m : Member => (m.execute cx).toOption)
      (ms'.mapM fun m => (m.execute cx).toOption) := mapM_perm hperm
  generalize ms'.mapM (fun m : Member => (m.execute cx).toOption) = o at hresults ⊢
  cases hms : ms.mapM fun m : Member => (m.execute cx).toOption with
  | none =>
    rw [hms] at hresults
    cases hresults
    exact .none
  | some l =>
    have hall := mapM_eq_some_iff.1 hms
    have hfrom {fx : Effects} (hfx : fx ∈ l) : ∃ m ∈ ms, m.execute cx = .ok fx := by
      obtain ⟨m, hm, h⟩ := exists_left_of_forall₂ hall hfx
      exact ⟨m, hm, toOption_eq_some_iff.1 h⟩
    rw [hms] at hresults
    cases hresults with
    | some hl =>
      refine .some (Effects.alike_of_perm hl (fun fx hfx fx' hfx' hne => ?_) (fun fx hfx => ?_) s mem mask)
      · obtain ⟨m, hm, h⟩ := hfrom hfx
        obtain ⟨m', hm', h'⟩ := hfrom hfx'
        refine hapart m hm m' hm' (fun heq => hne ?_) fx fx' h h'
        subst heq
        exact Except.ok.inj (h.symm.trans h')
      · obtain ⟨m, hm, h⟩ := hfrom hfx
        exact hflow m hm fx h

end QuadDsp
