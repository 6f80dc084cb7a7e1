import QuadDsp.Machine.Context
import QuadDsp.Proofs.Results

/-! # Views of lanes

Two machines are compared lane by lane: a `LaneView` picks lanes of the second and says of each which lane of
the first it should look like. Seen through it, the two agree in what lies in those lanes, and they agree in
all that is shared (`LaneView.SameCore`, `LaneView.SameMemory`). Writes that agree keep this (`SameCore.apply`,
`SameMemory.apply`). A write to what is shared follows lane 0, so it agrees only where the view is `Anchored`:
lane 0 is seen, and every lane looks like itself. The flags put aside are left out here; no write changes
them. -/

namespace QuadDsp

/-- Lanes of one machine, with the lanes of another that they should look like. -/
structure LaneView where
  seen : Lane → Prop
  origin : Lane → Lane

namespace LaneView

variable {α β γ : Type} (ρ : LaneView)

/-- In every lane that is seen, the second value is the first one in the lane it should look like. -/
def Same (v w : Lanes α) : Prop := ∀ l, ρ.seen l → w l = v (ρ.origin l)

/-- Lane 0 is seen, and lanes look like themselves. -/
structure Anchored : Prop where
  first : ρ.seen .first
  origin : ∀ l, ρ.seen l → ρ.origin l = l

variable {ρ}

theorem Anchored.eq_first (h : ρ.Anchored) {v w : Lanes α} (hsame : ρ.Same v w) : w .first = v .first := by
  rw [hsame _ h.first, h.origin _ h.first]

theorem Anchored.same (h : ρ.Anchored) (v : Lanes α) : ρ.Same v v := fun l hl => by rw [h.origin l hl]

namespace Same

theorem ofFn {f g : Lane → α} (h : ∀ l, ρ.seen l → g l = f (ρ.origin l)) : ρ.Same (.ofFn f) (.ofFn g) := by
  intro l hl
  rw [Lanes.ofFn_apply, Lanes.ofFn_apply, h l hl]

theorem fill (a : α) : ρ.Same (.fill a) (.fill a) := by
  intro l _
  rw [Lanes.fill_apply, Lanes.fill_apply]

theorem map {v w : Lanes α} (h : ρ.Same v w) (f : α → β) : ρ.Same (v.map f) (w.map f) :=
  ofFn fun l hl => by rw [h l hl]

theorem zipWith {v w : Lanes α} {v' w' : Lanes β} (h : ρ.Same v w) (h' : ρ.Same v' w') (f : α → β → γ) :
    ρ.Same (.zipWith f v v') (.zipWith f w w') :=
  ofFn fun l hl => by rw [h l hl, h' l hl]

theorem merge {mask mask' : Mask} {v w v' w' : Lanes α} (hmask : ρ.Same mask mask') (h : ρ.Same v w)
    (h' : ρ.Same v' w') : ρ.Same (.merge mask v v') (.merge mask' w w') :=
  ofFn fun l hl => by rw [hmask l hl, h l hl, h' l hl]

end Same

/-- Register files that look the same, register by register. -/
def SameFile {n : Nat} (ρ : LaneView) (file file' : Vector (Lanes α) n) : Prop :=
  ∀ (i : Nat) (h : i < n), ρ.Same file[i] file'[i]

namespace SameFile

variable {n : Nat} {file file' : Vector (Lanes α) n}

theorem fetch (h : ρ.SameFile file file') (i : Nat) :
    Agree ρ.Same (Core.fetch file i) (Core.fetch file' i) := by
  unfold Core.fetch
  split
  · next hi => exact .ok (h i hi)
  · exact .error _

theorem alter (h : ρ.SameFile file file') (i : Nat) {f f' : Lanes α → Lanes α}
    (hf : ∀ v v', ρ.Same v v' → ρ.Same (f v) (f' v')) : ρ.SameFile (Core.alter file i f) (Core.alter file' i f') := by
  intro j hj
  unfold Core.alter
  split
  · next hi =>
    simp only [Vector.getElem_set]
    split
    · exact hf _ _ (h i hi)
    · exact h j hj
  · exact h j hj

end SameFile

/-- Cores that look the same and agree in what is shared, but for the flags put aside. -/
structure SameCore (ρ : LaneView) (s s' : Core) : Prop where
  regs : ρ.SameFile s.regs s'.regs
  accs : ρ.SameFile s.accs s'.accs
  flags : ρ.Same s.flags s'.flags
  index : s'.index = s.index
  modify : s'.modify = s.modify
  length : s'.length = s.length
  base : s'.base = s.base
  modes : s'.modes = s.modes
  counter : s'.counter = s.counter
  calls : s'.calls = s.calls
  loops : s'.loops = s.loops
  /-- the modes among the statuses put aside -/
  saved : s'.statuses.modes = s.statuses.modes
  stackDepth : s'.stackDepth = s.stackDepth

/-- Memories of one size that look the same, word by word. -/
structure SameMemory (ρ : LaneView) (m m' : Memory) : Prop where
  size : m'.size = m.size
  words : ∀ (addr : Nat) (v v' : Lanes Int), m.words[addr]? = some v → m'.words[addr]? = some v' → ρ.Same v v'

theorem Anchored.sameCore (h : ρ.Anchored) (s : Core) : ρ.SameCore s s :=
  ⟨fun _ _ => h.same _, fun _ _ => h.same _, h.same _, rfl, rfl, rfl, rfl, rfl, rfl, rfl, rfl, rfl, rfl⟩

/-- Writes to one place that look the same. What is shared follows lane 0, which has to be seen for it. -/
inductive SameWrite (ρ : LaneView) : Write → Write → Prop
  | reg (i : Nat) {v w : Lanes Int} : ρ.Same v w → SameWrite ρ (.reg i v) (.reg i w)
  | acc (i : Nat) {v w : Lanes Int} : ρ.Same v w → SameWrite ρ (.acc i v) (.acc i w)
  | accView (i : Nat) (view : AccView) {v w : Lanes Int} : ρ.Same v w →
      SameWrite ρ (.accView i view v) (.accView i view w)
  | mem (addr : Nat) {v w : Lanes Int} : ρ.Same v w → SameWrite ρ (.mem addr v) (.mem addr w)
  | flags (bank : Bank) (group : Flags) {v w : Lanes Flags} : ρ.Same v w →
      SameWrite ρ (.flags bank group v) (.flags bank group w)
  | address (r : Reg) (v : Int) : ρ.Anchored → SameWrite ρ (.address r v) (.address r v)
  | sys (r : SysReg) (v : Int) : ρ.Anchored → SameWrite ρ (.sys r v) (.sys r v)
  /-- nothing comes of a write to a register that is only read -/
  | readOnly (r : SysReg) (v w : Int) : r.writable = false → SameWrite ρ (.sys r v) (.sys r w)
  | modes (chosen : Modes) (on : Bool) : ρ.Anchored → SameWrite ρ (.modes chosen on) (.modes chosen on)

section Writes

variable {s s' : Core} {m m' : Memory} {w w' : Write} {mask mask' : Mask}

theorem SameCore.setAddress (h : ρ.SameCore s s') (r : Reg) (v : Int) :
    ρ.SameCore (s.setAddress r v) (s'.setAddress r v) := by
  obtain ⟨cls, i⟩ := r
  cases cls with
  | index => exact { h with index := congrArg (·.setIfInBounds i (lowBits 16 v)) h.index }
  | modify => exact { h with modify := congrArg (·.setIfInBounds i (wrap 16 v)) h.modify }
  | length => exact { h with length := congrArg (·.setIfInBounds i (lowBits 16 v)) h.length }
  | base => exact { h with base := congrArg (·.setIfInBounds i (lowBits 16 v)) h.base }
  | general | complex | acc => exact h

theorem SameCore.withCounter (h : ρ.SameCore s s') (n : Nat) :
    ρ.SameCore { s with counter := n } { s' with counter := n } :=
  { h with counter := rfl }

theorem SameCore.withModes (h : ρ.SameCore s s') (modes : Modes) :
    ρ.SameCore { s with modes := modes } { s' with modes := modes } :=
  { h with modes := rfl }

theorem SameCore.setSys (h : ρ.SameCore s s') (r : SysReg) (v : Int) : ρ.SameCore (s.setSys r v) (s'.setSys r v) := by
  cases r with
  | counter => exact h.withCounter (lowBits 16 v)
  | mode => exact h.withModes (Modes.ofBits (lowBits 16 v))
  | status | laneId => exact h

theorem apply_sys_of_readOnly {r : SysReg} (hr : r.writable = false) (mask : Mask) (s : Core) (v : Int) :
    s.apply mask (.sys r v) = s := by
  cases r with
  | counter | mode => cases hr
  | status | laneId => exact ite_self s

/-- Writes that look the same leave cores that do. -/
theorem SameCore.apply (h : ρ.SameCore s s') (hmask : ρ.Same mask mask') (hw : ρ.SameWrite w w') :
    ρ.SameCore (s.apply mask w) (s'.apply mask' w') := by
  cases hw with
  | reg i hv => exact { h with regs := h.regs.alter i fun _ _ hold => .merge hmask hold (hv.map _) }
  | acc i hv => exact { h with accs := h.accs.alter i fun _ _ hold => .merge hmask hold hv }
  | accView i view hv =>
    have haccs := h.accs.alter i fun _ _ hold => Same.merge hmask hold (hold.zipWith hv (Core.putView view))
    exact { h with accs := haccs }
  | mem addr hv => exact h
  | flags bank group hv => exact { h with flags := .merge hmask h.flags (h.flags.zipWith hv _) }
  | address r v hρ =>
    simp only [Core.apply, hρ.eq_first hmask]
    split
    · exact h.setAddress r v
    · exact h
  | sys r v hρ =>
    simp only [Core.apply, hρ.eq_first hmask]
    split
    · exact h.setSys r v
    · exact h
  | readOnly r v w hr => rwa [apply_sys_of_readOnly hr, apply_sys_of_readOnly hr]
  | modes chosen on hρ =>
    simp only [Core.apply, hρ.eq_first hmask]
    split
    · rw [h.modes]
      exact h.withModes _
    · exact h

theorem SameMemory.read (h : ρ.SameMemory m m') (addr : Nat) : Agree ρ.Same (m.read addr) (m'.read addr) := by
  have hsize : m'.words.size = m.words.size := h.size
  unfold Memory.read
  cases hv : m.words[addr]? with
  | none =>
    have hnone : m'.words[addr]? = none := by
      rw [Array.getElem?_eq_none_iff] at hv ⊢
      omega
    rw [hnone]
    exact .error _
  | some v =>
    obtain ⟨hlt, -⟩ := Array.getElem?_eq_some_iff.1 hv
    have hsome : m'.words[addr]? = some m'.words[addr] := Array.getElem?_eq_getElem (hsize ▸ hlt)
    rw [hsome]
    exact .ok (h.words addr _ _ hv hsome)

theorem SameMemory.store (h : ρ.SameMemory m m') (addr : Nat) {v v' : Lanes Int} (hv : ρ.Same v v')
    (hmask : ρ.Same mask mask') : ρ.SameMemory (m.store addr v mask) (m'.store addr v' mask') := by
  refine ⟨by rw [Memory.size_store, Memory.size_store, h.size], fun a x x' hx hx' => ?_⟩
  simp only [Memory.store, Array.getElem?_modify] at hx hx'
  split at hx
  · next heq =>
    rw [if_pos heq, Option.map_eq_some_iff] at hx'
    obtain ⟨old, hold, rfl⟩ := Option.map_eq_some_iff.1 hx
    obtain ⟨old', hold', rfl⟩ := hx'
    exact .merge hmask (h.words _ _ _ hold hold') (hv.map _)
  · next hne =>
    rw [if_neg hne] at hx'
    exact h.words a x x' hx hx'

theorem SameMemory.apply (h : ρ.SameMemory m m') (hmask : ρ.Same mask mask') (hw : ρ.SameWrite w w') :
    ρ.SameMemory (m.apply mask w) (m'.apply mask' w') := by
  cases hw with
  | mem addr hv => exact h.store addr hv hmask
  | _ => exact h

theorem SameMemory.fault? (h : ρ.SameMemory m m') (addr : Nat) : m'.fault? addr = m.fault? addr := by
  unfold Memory.fault?
  rw [h.size]

theorem SameMemory.writeFault? (h : ρ.SameMemory m m') (hw : ρ.SameWrite w w') :
    m'.writeFault? w' = m.writeFault? w := by
  cases hw with
  | mem addr hv => rw [Memory.writeFault?, Memory.writeFault?, h.fault?]
  | _ => rfl

end Writes

/-- Effects that look the same, of a word that takes effect in the lanes of two masks: a flow follows lane 0. -/
structure SameEffects (ρ : LaneView) (mask mask' : Mask) (fx fx' : Effects) : Prop where
  writes : List.Forall₂ ρ.SameWrite fx.writes fx'.writes
  faults : fx'.faults = fx.faults
  flow : ∃ asked : Option Flow, (asked.isSome = true → ρ.Anchored) ∧
    fx.flow = (if mask .first then asked else none) ∧ fx'.flow = (if mask' .first then asked else none)

namespace SameEffects

variable {mask mask' : Mask} {fx fx' other other' : Effects}

/-- Nothing is asked of the sequencer. -/
theorem of_quiet (hwrites : List.Forall₂ ρ.SameWrite fx.writes fx'.writes) (hfaults : fx'.faults = fx.faults)
    (hflow : fx.flow = none) (hflow' : fx'.flow = none) : ρ.SameEffects mask mask' fx fx' := by
  refine ⟨hwrites, hfaults, none, fun hsome => ?_, ?_, ?_⟩
  · cases hsome
  · rw [hflow, ite_self]
  · rw [hflow', ite_self]

theorem of_writes (mask mask' : Mask) {ws ws' : List Write} (h : List.Forall₂ ρ.SameWrite ws ws') :
    ρ.SameEffects mask mask' (.ofWrites ws) (.ofWrites ws') :=
  .of_quiet h rfl rfl rfl

theorem and (h : ρ.SameEffects mask mask' fx fx') (h' : ρ.SameEffects mask mask' other other') :
    ρ.SameEffects mask mask' (fx.and other) (fx'.and other') := by
  obtain ⟨asked, hasked, hflow, hflow'⟩ := h.flow
  obtain ⟨also, halso, hother, hother'⟩ := h'.flow
  have hfaults : (fx'.and other').faults = (fx.and other).faults := by
    simp only [Effects.and, h.faults, h'.faults]
  refine ⟨List.rel_append h.writes h'.writes, hfaults, also <|> asked, ?_, ?_, ?_⟩
  · intro hsome
    cases also with
    | none => exact hasked hsome
    | some f => exact halso rfl
  · simp only [Effects.and, hflow, hother]
    split <;> rfl
  · simp only [Effects.and, hflow', hother']
    split <;> rfl

theorem flow_eq (h : ρ.SameEffects mask mask' fx fx') (hmask : ρ.Same mask mask') : fx'.flow = fx.flow := by
  obtain ⟨asked, hasked, hflow, hflow'⟩ := h.flow
  rw [hflow, hflow']
  cases asked with
  | none => rw [ite_self, ite_self]
  | some f => rw [(hasked rfl).eq_first hmask]

end SameEffects

section Commit

variable {s s' : Core} {m m' : Memory} {mask mask' : Mask} {ws ws' : List Write}

theorem SameCore.foldl_apply (h : ρ.SameCore s s') (hmask : ρ.Same mask mask')
    (hws : List.Forall₂ ρ.SameWrite ws ws') :
    ρ.SameCore (ws.foldl (·.apply mask ·) s) (ws'.foldl (·.apply mask' ·) s') := by
  refine List.rel_foldl ?_ h hws
  intro t t' ht w w' hw
  exact ht.apply hmask hw

theorem SameMemory.foldl_apply (h : ρ.SameMemory m m') (hmask : ρ.Same mask mask')
    (hws : List.Forall₂ ρ.SameWrite ws ws') :
    ρ.SameMemory (ws.foldl (·.apply mask ·) m) (ws'.foldl (·.apply mask' ·) m') := by
  refine List.rel_foldl ?_ h hws
  intro n n' hn w w' hw
  exact hn.apply hmask hw

theorem SameMemory.writeFaults (h : ρ.SameMemory m m') (hws : List.Forall₂ ρ.SameWrite ws ws') :
    ws'.filterMap m'.writeFault? = ws.filterMap m.writeFault? := by
  induction hws with
  | nil => rfl
  | cons hw _ ih => rw [List.filterMap_cons, List.filterMap_cons, h.writeFault? hw, ih]

end Commit

end LaneView

end QuadDsp
