import QuadDsp.Machine.Effects

/-! # Writes that change places

Writes to different places of the machine can be applied in either order (`Write.core_comm_of_apart`,
`Write.memory_comm_of_apart`), so the operations of a word that write to different places can stand in any
order (`foldl_writes_of_perm`). -/

namespace QuadDsp

/-- What a write changes. -/
inductive Place
  | reg (i : Nat)
  | acc (i : Nat)
  | address (r : Reg)
  | sys
  | mem
  | flags (bank : Bank) (group : Flags)
deriving DecidableEq

def Write.place : Write → Place
  | .reg i _ => .reg i
  | .acc i _ | .accView i _ _ => .acc i
  | .address r _ => .address r
  | .sys .. | .modes .. => .sys
  | .mem .. => .mem
  | .flags bank group _ => .flags bank group

/-- Updates of the two groups can change places. -/
def Flags.Apart (group group' : Flags) : Prop :=
  ∀ new new' old, update group' new' (update group new old) = update group new (update group' new' old)

/-- Different places; of two groups of flags in one bank, updates can change places. -/
def Place.Apart : Place → Place → Prop
  | .flags bank group, .flags bank' group' => bank = bank' → group.Apart group'
  | p, p' => p ≠ p'

theorem Flags.Apart.symm {group group' : Flags} (h : group.Apart group') : group'.Apart group :=
  fun new new' old => (h new' new old).symm

theorem Flags.apart_arith_multiplier : arith.Apart multiplier := by
  intro new new' old
  simp only [update, arith, multiplier, if_true, if_false, Bool.false_eq_true, mk.injEq, true_and]
  exact ⟨Bool.or_right_comm .., Bool.or_right_comm .., Bool.or_right_comm ..⟩

theorem FlagBank.modify_comm (b : FlagBank) {bank bank' : Bank} {group group' : Flags}
    (h : bank = bank' → group.Apart group') (new new' : Flags) :
    (b.modify bank (Flags.update group new)).modify bank' (Flags.update group' new') =
      (b.modify bank' (Flags.update group' new')).modify bank (Flags.update group new) := by
  cases bank <;> cases bank' <;>
    first
    | rfl
    | (simp only [modify, h rfl new new'])

namespace Core

theorem alter_comm {α : Type} {n : Nat} (file : Vector α n) {i j : Nat} (h : i ≠ j) (f g : α → α) :
    alter (alter file i f) j g = alter (alter file j g) i f := by
  unfold alter
  by_cases hi : i < n
  · by_cases hj : j < n
    · simp only [hi, hj, dif_pos, Vector.getElem_set_ne _ _ h, Vector.getElem_set_ne _ _ h.symm]
      exact Vector.set_comm _ _ h
    · simp only [hi, hj, dif_pos, dif_neg, not_false_eq_true]
  · simp only [hi, dif_neg, not_false_eq_true]

theorem setIfInBounds_comm {α : Type} {n : Nat} (file : Vector α n) {i j : Nat} (h : i ≠ j) (a b : α) :
    (file.setIfInBounds i a).setIfInBounds j b = (file.setIfInBounds j b).setIfInBounds i a := by
  ext k hk
  simp only [Vector.getElem_setIfInBounds]
  split
  · next hj =>
    rw [if_neg (fun hi => h (hi.trans hj.symm))]
  · rfl

theorem setAddress_comm (s : Core) {r r' : Reg} (h : r ≠ r') (v v' : Int) :
    (s.setAddress r v).setAddress r' v' = (s.setAddress r' v').setAddress r v := by
  obtain ⟨cls, i⟩ := r
  obtain ⟨cls', j⟩ := r'
  have hij : cls = cls' → i ≠ j := by
    rintro rfl rfl
    exact h rfl
  cases cls <;> cases cls' <;>
    first
    | rfl
    | (simp only [setAddress, Core.mk.injEq, true_and, and_true]; exact setIfInBounds_comm _ (hij rfl) _ _)

theorem updateFlags_comm (s : Core) (mask : Mask) {bank bank' : Bank} {group group' : Flags}
    (h : bank = bank' → group.Apart group') (v v' : Lanes Flags) :
    (s.updateFlags mask bank group v).updateFlags mask bank' group' v' =
      (s.updateFlags mask bank' group' v').updateFlags mask bank group v := by
  simp only [updateFlags, Core.mk.injEq, true_and, and_true]
  refine Lanes.ext fun l => ?_
  simp only [Lanes.merge_apply, Lanes.zipWith_apply]
  cases mask l with
  | false => rfl
  | true => exact (s.flags l).modify_comm h (v l) (v' l)

end Core

namespace Write

variable {w w' : Write}

theorem core_comm_of_apart (h : w.place.Apart w'.place) (s : Core) (mask : Mask) :
    (s.apply mask w).apply mask w' = (s.apply mask w').apply mask w := by
  -- what all lanes share is written or not, as lane 0 says
  cases hm : mask .first <;> cases w <;> cases w'
  case true.reg.reg i v j v' | false.reg.reg i v j v' =>
    have hij : i ≠ j := fun hij => h (congrArg Place.reg hij)
    simp only [Core.apply, Core.setReg, Core.alter_comm s.regs hij]
  case true.acc.acc i v j v' | false.acc.acc i v j v' =>
    have hij : i ≠ j := fun hij => h (congrArg Place.acc hij)
    simp only [Core.apply, Core.setAcc, Core.alter_comm s.accs hij]
  case true.acc.accView i v j _ v' | false.acc.accView i v j _ v' =>
    have hij : i ≠ j := fun hij => h (congrArg Place.acc hij)
    simp only [Core.apply, Core.setAcc, Core.setAccView, Core.alter_comm s.accs hij]
  case true.accView.acc i _ v j v' | false.accView.acc i _ v j v' =>
    have hij : i ≠ j := fun hij => h (congrArg Place.acc hij)
    simp only [Core.apply, Core.setAcc, Core.setAccView, Core.alter_comm s.accs hij]
  case true.accView.accView i _ v j _ v' | false.accView.accView i _ v j _ v' =>
    have hij : i ≠ j := fun hij => h (congrArg Place.acc hij)
    simp only [Core.apply, Core.setAccView, Core.alter_comm s.accs hij]
  case true.flags.flags | false.flags.flags => exact s.updateFlags_comm mask h _ _
  case true.address.address r v r' v' =>
    have hrr : r ≠ r' := fun hrr => h (congrArg Place.address hrr)
    simp only [Core.apply, hm, if_true, s.setAddress_comm hrr]
  case true.sys.sys | true.sys.modes | true.modes.sys | true.modes.modes => exact absurd rfl h
  all_goals simp only [Core.apply, hm, if_true, if_false, Bool.false_eq_true]
  all_goals first
    | rfl
    | (simp only [Core.setAddress]; split <;> rfl)
    | (simp only [Core.setSys]; split <;> rfl)
    | (simp only [Core.setAddress, Core.setSys]; split <;> split <;> rfl)

/-- Writes to different places never both go to memory. -/
theorem memory_comm_of_apart (h : w.place.Apart w'.place) (m : Memory) (mask : Mask) :
    (m.apply mask w).apply mask w' = (m.apply mask w').apply mask w := by
  cases w <;> cases w'
  case mem.mem => exact absurd rfl h
  all_goals rfl

end Write

/-- Of two lists, either can be applied first, if that is so of their elements. -/
theorem foldl_foldl_comm {σ α : Type} {f : σ → α → σ} {l l' : List α}
    (h : ∀ a ∈ l, ∀ b ∈ l', ∀ s, f (f s a) b = f (f s b) a) (s : σ) :
    l'.foldl f (l.foldl f s) = l.foldl f (l'.foldl f s) := by
  induction l generalizing s with
  | nil => rfl
  | cons a l ih =>
    have hone : ∀ s, l'.foldl f (f s a) = f (l'.foldl f s) a := by
      have ha := h a List.mem_cons_self
      clear ih h
      induction l' with
      | nil => exact fun _ => rfl
      | cons b l' ih =>
        intro s
        rw [List.foldl_cons, List.foldl_cons, ha b List.mem_cons_self]
        exact ih (fun b hb => ha b (List.mem_cons_of_mem _ hb)) (f s b)
    rw [List.foldl_cons, List.foldl_cons, ← hone]
    exact ih (fun b hb => h b (List.mem_cons_of_mem _ hb)) (f s a)

namespace Effects

/-- Every write of the one and every write of the other go to different places. -/
def Apart (fx fx' : Effects) : Prop := ∀ w ∈ fx.writes, ∀ w' ∈ fx'.writes, w.place.Apart w'.place

/-- The state that writes leave does not depend on the order of operations that write apart. -/
theorem foldl_writes_of_perm {σ : Type} {f : σ → Write → σ}
    (hf : ∀ w w' : Write, w.place.Apart w'.place → ∀ s, f (f s w) w' = f (f s w') w)
    {l l' : List Effects} (hperm : l.Perm l') (hapart : ∀ fx ∈ l, ∀ fx' ∈ l, fx ≠ fx' → fx.Apart fx') (s : σ) :
    (l.flatMap Effects.writes).foldl f s = (l'.flatMap Effects.writes).foldl f s := by
  rw [List.foldl_flatMap, List.foldl_flatMap]
  refine hperm.foldl_eq' (fun fx hfx fx' hfx' s => ?_) s
  by_cases heq : fx = fx'
  · rw [heq]
  · exact foldl_foldl_comm (fun w hw w' hw' => hf w w' (hapart fx hfx fx' hfx' heq w hw w' hw')) s

end Effects

end QuadDsp
