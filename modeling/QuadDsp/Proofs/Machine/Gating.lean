import QuadDsp.Proofs.Machine.Flows

/-! # Masked writes

What a mask does to the effects of a word: it merges. Writes through a mask leave what the same writes through
a full mask leave in the lanes of the mask, and what was there before in the others; what is shared follows
lane 0 (`Core.foldl_apply_merge`, `Memory.foldl_apply_merge`). The operations themselves do not look at the
mask, but for what they ask of the sequencer (`executeMembers_under`). -/

namespace QuadDsp

/-! ### Merging states -/

theorem Lanes.merge_self {α : Type} (mask : Mask) (v : Lanes α) : merge mask v v = v := ext fun l => by simp

namespace Core

/-- Takes the lanes of the mask from the second core and the others from the first; what is shared follows
lane 0. -/
def merge (mask : Mask) (s t : Core) : Core :=
  { if mask .first then t else s with
    regs := Vector.zipWith (Lanes.merge mask) s.regs t.regs
    accs := Vector.zipWith (Lanes.merge mask) s.accs t.accs
    flags := Lanes.merge mask s.flags t.flags }

variable {mask : Mask}

theorem merge_self (mask : Mask) (s : Core) : s.merge mask s = s := by
  have hfile {n : Nat} (file : Vector (Lanes Int) n) : Vector.zipWith (Lanes.merge mask) file file = file :=
    Vector.ext fun i hi => by rw [Vector.getElem_zipWith, Lanes.merge_self]
  unfold merge
  rw [hfile, hfile, Lanes.merge_self, ite_self]

/-- Through the mask, merged lanes change as the second ones do through a full mask. -/
theorem merge_merge {α : Type} (mask : Mask) {f : Lanes α → Lanes α} (hf : ∀ v w l, v l = w l → f v l = f w l)
    (v w : Lanes α) :
    Lanes.merge mask (Lanes.merge mask v w) (f (Lanes.merge mask v w)) =
      Lanes.merge mask v (Lanes.merge Mask.all w (f w)) := by
  refine Lanes.ext fun l => ?_
  cases hl : mask l with
  | false => simp [hl]
  | true => simp [hl, Mask.all, hf _ w l]

/-- A register changes in merged files as in the second one. -/
theorem alter_merge {α : Type} {n : Nat} (mask : Mask) {f : Lanes α → Lanes α} (hf : ∀ v w l, v l = w l → f v l = f w l)
    (file file' : Vector (Lanes α) n) (i : Nat) :
    alter (Vector.zipWith (Lanes.merge mask) file file') i (fun old => Lanes.merge mask old (f old)) =
      Vector.zipWith (Lanes.merge mask) file (alter file' i fun old => Lanes.merge Mask.all old (f old)) := by
  unfold alter
  split
  · next hi =>
    refine Vector.ext fun j hj => ?_
    simp only [Vector.getElem_set, Vector.getElem_zipWith]
    split
    · next hij =>
      subst hij
      exact merge_merge mask hf _ _
    · rfl
  · rfl

theorem ite_merge (s t : Core) {f : Core → Core}
    (hf : ∀ (s : Core) regs accs flags, f { s with regs := regs, accs := accs, flags := flags } =
      { f s with regs := regs, accs := accs, flags := flags })
    (hlanes : (f t).regs = t.regs ∧ (f t).accs = t.accs ∧ (f t).flags = t.flags) :
    (if mask .first then f (s.merge mask t) else s.merge mask t) = s.merge mask (f t) := by
  unfold merge
  rw [hlanes.1, hlanes.2.1, hlanes.2.2]
  split
  · rw [hf]
  · rfl

/-- A write through the mask leaves of a merged core what it leaves, through a full mask, of the second one. -/
theorem apply_merge (s t : Core) (w : Write) : (s.merge mask t).apply mask w = s.merge mask (t.apply .all w) := by
  cases w with
  | reg i v =>
    have hregs := alter_merge mask (f := fun _ => v.map (wrap dataBits)) (fun _ _ _ _ => rfl) s.regs t.regs i
    simp only [apply, setReg, merge, hregs]
    split <;> rfl
  | acc i v =>
    have haccs := alter_merge mask (f := fun _ => v) (fun _ _ _ _ => rfl) s.accs t.accs i
    simp only [apply, setAcc, merge, haccs]
    split <;> rfl
  | accView i view v =>
    have haccs := alter_merge mask (f := fun old => Lanes.zipWith (putView view) old v)
      (fun _ _ _ h => by simp [h]) s.accs t.accs i
    simp only [apply, setAccView, merge, haccs]
    split <;> rfl
  | flags bank group v =>
    have hflags := merge_merge mask
      (f := fun old => Lanes.zipWith (fun b new => b.modify bank (Flags.update group new)) old v)
      (fun _ _ _ h => by simp [h]) s.flags t.flags
    simp only [apply, updateFlags, merge, hflags]
    split <;> rfl
  | address r v =>
    refine ite_merge s t (f := (·.setAddress r v)) (fun s regs accs flags => ?_) ?_
    · cases hcls : r.cls <;> simp only [setAddress, hcls]
    · cases hcls : r.cls <;> simp [setAddress, hcls]
  | sys r v =>
    refine ite_merge s t (f := (·.setSys r v)) (fun s regs accs flags => ?_) ?_
    · cases r <;> rfl
    · cases r <;> simp [setSys]
  | modes chosen on =>
    exact ite_merge s t (f := fun s => { s with modes := s.modes.switch chosen on }) (fun _ _ _ _ => rfl)
      ⟨rfl, rfl, rfl⟩
  | mem addr v => rfl

/-- Writes through the mask merge: what they leave in its lanes, they leave through a full mask everywhere. -/
theorem foldl_apply_merge (mask : Mask) (s : Core) (ws : List Write) :
    ws.foldl (·.apply mask ·) s = s.merge mask (ws.foldl (·.apply .all ·) s) := by
  have hmerged : ws.foldl (·.apply mask ·) (s.merge mask s) = s.merge mask (ws.foldl (·.apply .all ·) s) :=
    List.foldl_hom (s.merge mask) (apply_merge s)
  rw [← hmerged, merge_self]

end Core

namespace Memory

/-- Takes the lanes of the mask from the second memory and the others from the first. -/
def merge (mask : Mask) (m n : Memory) : Memory := ⟨Array.zipWith (Lanes.merge mask) m.words n.words⟩

theorem merge_self (mask : Mask) (m : Memory) : m.merge mask m = m := by
  obtain ⟨words⟩ := m
  refine congrArg mk (Array.ext (by simp) fun i hi hi' => ?_)
  rw [Array.getElem_zipWith, Lanes.merge_self]

theorem apply_merge (mask : Mask) (m n : Memory) (w : Write) :
    (m.merge mask n).apply mask w = m.merge mask (n.apply .all w) := by
  cases w with
  | mem addr v =>
    refine congrArg mk (Array.ext (by simp [merge, apply, store]) fun i hi hi' => ?_)
    simp only [merge, Array.getElem_modify, Array.getElem_zipWith, apply, store]
    split
    · exact Core.merge_merge mask (f := fun _ => v.map (wrap dataBits)) (fun _ _ _ _ => rfl) _ _
    · rfl
  | _ => rfl

/-- What writes leave of memory through the mask is merged with what was there. -/
theorem foldl_apply_merge (mask : Mask) (m : Memory) (ws : List Write) :
    ws.foldl (·.apply mask ·) m = m.merge mask (ws.foldl (·.apply .all ·) m) := by
  have hmerged : ws.foldl (·.apply mask ·) (m.merge mask m) = m.merge mask (ws.foldl (·.apply .all ·) m) :=
    List.foldl_hom (m.merge mask) (apply_merge mask m)
  rw [← hmerged, merge_self]

end Memory

/-! ### Effects under a mask -/

namespace Effects

/-- What the sequencer is asked for only if lane 0 is in the mask. -/
def gate (fx : Effects) (mask : Mask) : Effects := { fx with flow := if mask .first then fx.flow else none }

/-- The effects of a word that takes effect in the lanes of a mask. -/
def under (fx : Effects) (mask : Mask) : Effects := { fx.gate mask with mask := mask }

theorem gate_of_flow {fx : Effects} (h : fx.flow = none) (mask : Mask) : fx.gate mask = fx := by
  obtain ⟨_, _, flow, _⟩ := fx
  obtain rfl : flow = none := h
  simp [gate]

theorem under_and_gate (fx other : Effects) (mask : Mask) :
    (fx.under mask).and (other.gate mask) = (fx.and other).under mask := by
  unfold under gate and
  dsimp only
  split <;> rfl

end Effects

/-- Committing the effects under a mask merges what they leave, with the same faults. -/
theorem commit_under {fx : Effects} (hall : fx.mask = .all) (s : Core) (mem : Memory) (mask : Mask) :
    commit s mem (fx.under mask) =
      (s.merge mask (commit s mem fx).1, mem.merge mask (commit s mem fx).2.1, (commit s mem fx).2.2) := by
  unfold commit
  rw [hall, ← Core.foldl_apply_merge, ← Memory.foldl_apply_merge]
  rfl

section Gate

variable (s : Core) (mem : Memory) (p : Program) (mask : Mask)

/-- What is asked of the sequencer, once its target is known, is gated by the mask. -/
theorem Context.bind_gated {α : Type} (x : Except ExecError α) (f : α → Flow) :
    (do return Context.gated ⟨s, mem, p, mask⟩ (f (← x)) : Except ExecError Effects) =
      Except.map (·.gate mask) (do return Context.gated ⟨s, mem, p, .all⟩ (f (← x))) := by
  cases x <;> rfl

/-- An operation does not look at the mask, but for what it asks of the sequencer. -/
theorem ExecUnit.run_gate (u : ExecUnit) (m : Member) :
    u.run ⟨s, mem, p, mask⟩ m = (u.run ⟨s, mem, p, .all⟩ m).map (·.gate mask) := by
  cases hasks : u.asks with
  -- a unit that asks for nothing does not read the mask at all
  | false =>
    have hsame : u.run ⟨s, mem, p, mask⟩ m = u.run ⟨s, mem, p, .all⟩ m := by
      cases u <;> first | rfl | cases hasks
    rw [hsame]
    have hquiet := u.quiet_run ⟨s, mem, p, .all⟩ m hasks
    cases hrun : u.run ⟨s, mem, p, .all⟩ m with
    | error e => rfl
    | ok fx => exact congrArg Except.ok (Effects.gate_of_flow (hquiet fx hrun) mask).symm
  | true =>
    cases u with
    | branch =>
      simp only [run, Context.branch]
      split
      · rfl
      · split
        · exact Context.bind_gated s mem p mask _ _
        · rfl
      · cases m.regIndex 0 with
        | error e => rfl
        | ok r => exact Context.bind_gated s mem p mask (Core.fetch s.index r) _
      · rfl
    | loop =>
      simp only [run, Context.loop]
      split
      · exact Context.bind_gated s mem p mask _ _
      · rfl
    | status =>
      simp only [run, Context.status]
      split <;> rfl
    | reset => rfl
    | _ => cases hasks

theorem Member.execute_gate (m : Member) :
    m.execute ⟨s, mem, p, mask⟩ = (m.execute ⟨s, mem, p, .all⟩).map (·.gate mask) := by
  unfold execute
  cases m.opcode.unit? with
  | none => rfl
  | some u => exact u.run_gate s mem p mask m

theorem executeMembers_under (ms : List Member) (fx : Effects) :
    executeMembers ⟨s, mem, p, mask⟩ (fx.under mask) ms =
      (executeMembers ⟨s, mem, p, .all⟩ fx ms).map (·.under mask) := by
  induction ms generalizing fx with
  | nil => rfl
  | cons m rest ih =>
    simp only [executeMembers, m.execute_gate s mem p mask]
    cases m.execute ⟨s, mem, p, .all⟩ with
    | error e => rfl
    | ok other =>
      simp only [bind, Except.bind, Except.map]
      rw [Effects.under_and_gate, ih]
      rfl

end Gate

end QuadDsp
