import Mathlib.Algebra.BigOperators.Group.Finset.Basic
import QuadDsp.Proofs.Machine.Issued

/-! # Circular buffers

Loads and stores step an index register behind their access or in front of it, and MODIFY steps it without one. Whatever
the steps, and however many there are, the register stays in its buffer and has gone as far as the steps together lead,
modulo the length of the buffer; each access is made where the register stands at that time
(`Simulator.Walk.circular`). The step itself is arithmetic (`AddressGenerator.step_walked`); a word in between only has
to leave the register, its base and its length alone. -/

namespace QuadDsp

/-! ### Steps -/

namespace AddressGenerator

/-- The index is in its buffer, which is in the address space; where the length is zero, in the address space. -/
def InBuffer (index base length : Nat) : Prop :=
  if length = 0 then index < span 16 else base ≤ index ∧ index < base + length ∧ base + length ≤ span 16

instance (index base length : Nat) : Decidable (InBuffer index base length) :=
  inferInstanceAs (Decidable (if length = 0 then _ else _))

/-- Where steps of this total lead: around the buffer, or around the address space where the length is zero. -/
def walked (start base length : Nat) (way : Int) : Nat :=
  if length = 0 then ((start + way) % span 16).toNat else base + ((start - base + way) % length).toNat

variable {start base length : Nat}

theorem walked_zero (h : InBuffer start base length) : walked start base length 0 = start := by
  unfold InBuffer at h
  unfold walked
  split at h
  · next hlength =>
    rw [if_pos hlength, Int.add_zero, Int.emod_eq_of_lt (by omega) (by omega), Int.toNat_natCast]
  · next hlength =>
    rw [if_neg hlength, Int.add_zero, Int.emod_eq_of_lt (by omega) (by omega)]
    omega

theorem inBuffer_walked (h : InBuffer start base length) (way : Int) :
    InBuffer (walked start base length way) base length := by
  unfold InBuffer at h ⊢
  unfold walked
  split at h
  · next hlength =>
    have hspan : (0 : Int) < span 16 := by decide
    rw [if_pos hlength, if_pos hlength]
    have hlow := Int.emod_nonneg (start + way) hspan.ne'
    have hhigh := Int.emod_lt_of_pos (start + way) hspan
    omega
  · next hlength =>
    rw [if_neg hlength, if_neg hlength]
    have hlow := Int.emod_nonneg (start - base + way) (show (length : Int) ≠ 0 by omega)
    have hhigh := Int.emod_lt_of_pos (start - base + way) (show (0 : Int) < length by omega)
    omega

/-- One more step adds to the total. -/
theorem step_walked (h : InBuffer start base length) (way delta : Int) :
    step (walked start base length way) base length delta = walked start base length (way + delta) := by
  have hin := inBuffer_walked h (way + delta)
  unfold InBuffer at h hin
  unfold step
  split at h
  · next hlength =>
    have hspan : (0 : Int) < span 16 := by decide
    rw [if_pos hlength]
    simp only [walked, if_pos hlength, lowBits]
    rw [Int.toNat_of_nonneg (Int.emod_nonneg _ hspan.ne'), Int.emod_add_emod, Int.add_assoc]
  · next hlength =>
    have hpos : (length : Int) ≠ 0 := by omega
    have hwalked (w : Int) : (walked start base length w : Int) = base + (start - base + w) % length := by
      rw [walked, if_neg hlength, Int.natCast_add, Int.toNat_of_nonneg (Int.emod_nonneg _ hpos)]
    have hrest : (walked start base length way - base + delta : Int) % length =
        (start - base + (way + delta)) % length := by
      rw [hwalked, add_sub_cancel_left, Int.emod_add_emod, Int.add_assoc]
    rw [if_neg hlength] at hin ⊢
    exact (congrArg (lowBits 16) (by rw [hrest, hwalked])).trans (lowBits_natCast (by omega))

theorem step_zero (h : InBuffer start base length) : step start base length 0 = start := by
  have hstep := step_walked h 0 0
  rwa [Int.add_zero, walked_zero h] at hstep

theorem step_lt (index base length : Nat) (delta : Int) : step index base length delta < span 16 := by
  unfold step
  split <;> exact lowBits_lt ..

end AddressGenerator

/-- When an operation steps an index register: behind its access, in front of it, or without one. -/
inductive Stride
  | post | pre | bare
deriving DecidableEq, Repr

/-- Where the access is made, of the index in front of the step and the one behind it. -/
def Stride.address (kind : Stride) (index next : Nat) : Nat :=
  match kind with
  | .pre => next
  | .post | .bare => index

namespace Core

/-- An index register, with the base and the length of its buffer. -/
structure Points (s : Core) (n index base length : Nat) : Prop where
  index : s.address ⟨.index, n⟩ = .ok index
  base : s.address ⟨.base, n⟩ = .ok base
  length : s.address ⟨.length, n⟩ = .ok length

theorem fetch_of_map {size : Nat} {file : Vector Nat size} {n v : Nat}
    (h : (fetch file n).map Int.ofNat = .ok (v : Int)) :
    fetch file n = .ok v := by
  obtain ⟨u, hu, huv⟩ := map_eq_ok_iff.1 h
  rwa [Int.ofNat.inj huv] at hu

theorem Points.stepIndex {s : Core} {n index base length : Nat} (h : s.Points n index base length) (delta : Int) :
    s.stepIndex n delta = .ok (AddressGenerator.step index base length delta) := by
  simp only [Core.stepIndex, fetch_of_map h.index, fetch_of_map h.base, fetch_of_map h.length, bind, Except.bind]
  rfl

end Core

/-- A memory operand steps the index register by this much, by an immediate or a modify register. -/
inductive AddrMode.Steps (s : Core) (n : Nat) (delta : Int) : Stride → AddrMode → Prop
  | post {k : Nat} : s.address ⟨.modify, k⟩ = .ok delta → Steps s n delta .post (.post n k)
  | postImm : Steps s n delta .post (.postImm n delta)
  | pre {k : Nat} : s.address ⟨.modify, k⟩ = .ok delta → Steps s n delta .pre (.pre k n)
  | preImm : Steps s n delta .pre (.preImm delta n)

/-- The access of an operand that steps an index register; a step of zero writes nothing. -/
theorem Context.access_of_steps {cx : Context} {n index base length : Nat} (hp : cx.core.Points n index base length)
    {mode : AddrMode} {delta : Int} {kind : Stride} (h : mode.Steps cx.core n delta kind) :
    let next := AddressGenerator.step index base length delta
    ∃ a, cx.access mode = .ok a ∧ a.addr = cx.core.reversed n (kind.address index next) ∧
      (a.writes = [.address ⟨.index, n⟩ next] ∨ mode = .postImm n 0 ∧ delta = 0 ∧ a.writes = []) := by
  intro next
  have hindex := Core.fetch_of_map hp.index
  have hnext : cx.core.stepIndex n delta = .ok next := hp.stepIndex delta
  cases h with
  | post hk =>
    have hdelta : Core.fetch cx.core.modify _ = .ok delta := hk
    refine ⟨⟨cx.core.reversed n index, some (n, next)⟩, ?_, rfl, .inl rfl⟩
    simp only [access, Core.accessBefore, hdelta, hindex, hnext, bind, Except.bind, pure, Except.pure]
  | postImm =>
    by_cases hzero : delta = 0
    · subst hzero
      refine ⟨⟨cx.core.reversed n index, none⟩, ?_, rfl, .inr ⟨rfl, rfl, rfl⟩⟩
      simp only [access, if_true, hindex, bind, Except.bind, pure, Except.pure]
    · refine ⟨⟨cx.core.reversed n index, some (n, next)⟩, ?_, rfl, .inl rfl⟩
      simp only [access, if_neg hzero, Core.accessBefore, hindex, hnext, bind, Except.bind, pure, Except.pure]
  | pre hk =>
    have hdelta : Core.fetch cx.core.modify _ = .ok delta := hk
    refine ⟨⟨cx.core.reversed n next, some (n, next)⟩, ?_, rfl, .inl rfl⟩
    simp only [access, Core.accessAfter, hdelta, hnext, bind, Except.bind, pure, Except.pure]
  | preImm =>
    refine ⟨⟨cx.core.reversed n next, some (n, next)⟩, ?_, rfl, .inl rfl⟩
    simp only [access, Core.accessAfter, hnext, bind, Except.bind, pure, Except.pure]

/-! ### Operations -/

/-- The operation makes this access: it is at fault there, or moves its register from or to there. -/
def Member.Makes (m : Member) (cx : Context) (a : Access) : Prop :=
  ∃ r, m.dataReg? = some r ∧
    match cx.accessFault? a.addr (r.cls == .complex) with
    | some e => m.execute cx = .ok { writes := a.writes, faults := [.address e] }
    | none => ∃ ws, (m.opcode = .ld → cx.loaded r a.addr = .ok ws) ∧ (m.opcode = .st → cx.stored r a.addr = .ok ws) ∧
        m.execute cx = .ok (.ofWrites (a.writes ++ ws))

/-- The operation steps an index register by this much. -/
inductive Member.Strides (m : Member) (s : Core) (n : Nat) (delta : Int) : Stride → Prop
  | transfer {kind : Stride} {ref : MemRef} : m.opcode ∈ [Opcode.ld, .st] → m.mem? = some ref →
      ref.mode.Steps s n delta kind → Strides m s n delta kind
  | modify {k : Nat} : m.opcode = .modify → m.operand? (.nth 0) = some (.reg ⟨.index, n⟩) →
      m.operand? (.nth 1) = some (.reg ⟨.modify, k⟩) → s.address ⟨.modify, k⟩ = .ok delta → Strides m s n delta .bare

namespace Context

variable {cx : Context} {r : Reg} {addr : Nat} {ws : List Write}

theorem place_of_loaded (h : cx.loaded r addr = .ok ws) : ∀ w ∈ ws, ∀ r', w.place ≠ .address r' := by
  intro w hw r' hplace
  obtain ⟨n, v, rfl⟩ := exists_reg_of_loaded h w hw
  cases hplace

theorem place_of_stored (h : cx.stored r addr = .ok ws) : ∀ w ∈ ws, ∀ r', w.place ≠ .address r' := by
  intro w hw r' hplace
  obtain ⟨a, v, rfl⟩ := exists_mem_of_stored h w hw
  cases hplace

end Context

theorem Context.withAccess_eq {cx : Context} {m : Member} {writes : Reg → Nat → Except ExecError (List Write)}
    {ref : MemRef} (href : m.mem? = some ref) {r : Reg} (hr : m.dataReg? = some r) {a : Access}
    (ha : cx.access ref.mode = .ok a) : cx.withAccess m writes =
      match cx.accessFault? a.addr (r.cls == .complex) with
      | some e => .ok { writes := a.writes, faults := [.address e] }
      | none => (writes r a.addr).map fun ws => .ofWrites (a.writes ++ ws) := by
  unfold withAccess
  simp only [href, hr, Member.need, ha, bind, Except.bind]
  cases cx.accessFault? a.addr (r.cls == .complex) with
  | some e => rfl
  | none => cases writes r a.addr <;> rfl

namespace Member

variable {m : Member} {cx : Context}

theorem Fit.isTransfer_of_mem? (hm : m.Fit) (hop : m.opcode ∈ [Opcode.ld, .st]) {ref : MemRef}
    (href : m.mem? = some ref) :
    m.shape.isTransfer = true := by
  rcases List.mem_pair.1 hop with hop | hop
  · have htakes := hm.takes (u := .load) (by rw [hop]; rfl)
    simp only [ExecUnit.takes, decide_eq_true_eq, Bool.decide_or, Bool.or_eq_true, List.mem_cons, List.not_mem_nil,
      or_false] at htakes
    refine htakes.resolve_right fun hshape => ?_
    rcases hshape with hshape | hshape | hshape <;> (rw [mem?, operand?, hshape] at href; cases href)
  · exact hm.takes (u := .store) (by rw [hop]; rfl)

theorem Fit.execute_of_ld (hm : m.Fit) (hop : m.opcode = .ld) {ref : MemRef} (href : m.mem? = some ref) (cx : Context) :
    m.execute cx = cx.withAccess m fun r addr => (cx.loaded r addr).mapError .address := by
  have hshape := hm.isTransfer_of_mem? (List.mem_pair.2 (.inl hop)) href
  rw [execute_eq_run (u := .load) (by rw [hop]; rfl), ExecUnit.run, Context.load]
  split
  · next h => rw [h] at hshape; cases hshape
  · next h => rw [h] at hshape; cases hshape
  · next h => rw [h] at hshape; cases hshape
  · congr 1
    funext r addr
    cases cx.loaded r addr <;> rfl

theorem execute_of_st (hop : m.opcode = .st) (cx : Context) : m.execute cx = cx.withAccess m cx.stored :=
  execute_eq_run (u := .store) (by rw [hop]; rfl)

theorem Fit.makes (hm : m.Fit) (hop : m.opcode ∈ [Opcode.ld, .st]) {ref : MemRef} (href : m.mem? = some ref)
    {a : Access} (ha : cx.access ref.mode = .ok a) : m.Makes cx a := by
  obtain ⟨-, r, hr, hcls, hin⟩ := hm.classified.of_isTransfer (hm.isTransfer_of_mem? hop href)
  refine ⟨r, hr, ?_⟩
  rcases List.mem_pair.1 hop with hop | hop
  · rw [hm.execute_of_ld hop href, Context.withAccess_eq href hr ha]
    cases hfault : cx.accessFault? a.addr (r.cls == .complex) with
    | some e => rfl
    | none =>
      obtain ⟨ws, hws, -⟩ := cx.loaded_of_fits hcls hin hfault
      exact ⟨ws, fun _ => hws, fun hst => (by rw [hop] at hst; cases hst), by dsimp only; rw [hws]; rfl⟩
  · rw [execute_of_st hop, Context.withAccess_eq href hr ha]
    cases hfault : cx.accessFault? a.addr (r.cls == .complex) with
    | some e => rfl
    | none =>
      obtain ⟨ws, hws, -⟩ := cx.stored_of_fits hcls hin hfault
      exact ⟨ws, fun hld => (by rw [hop] at hld; cases hld), fun _ => hws, by dsimp only; rw [hws]; rfl⟩

theorem Makes.exists_effects (hop : m.opcode ∈ [Opcode.ld, .st]) {a : Access} (h : m.Makes cx a) :
    ∃ fx ws, m.execute cx = .ok fx ∧ fx.writes = a.writes ++ ws ∧ ∀ w ∈ ws, ∀ r, w.place ≠ .address r := by
  obtain ⟨r, -, h⟩ := h
  split at h
  · exact ⟨_, [], h, (List.append_nil _).symm, fun w hw => absurd hw List.not_mem_nil⟩
  · obtain ⟨ws, hld, hst, h⟩ := h
    refine ⟨_, ws, h, rfl, ?_⟩
    rcases List.mem_pair.1 hop with hop | hop
    · exact Context.place_of_loaded (hld hop)
    · exact Context.place_of_stored (hst hop)

/-- An operation that steps an index register writes the next index, unless its step is an immediate of zero, and no
other address register. -/
theorem Strides.exists_effects (hm : m.Fit) {n index base length : Nat} (hp : cx.core.Points n index base length)
    {delta : Int} {kind : Stride} (h : m.Strides cx.core n delta kind) :
    let next := AddressGenerator.step index base length delta
    ∃ fx ws, m.execute cx = .ok fx ∧ (∀ w ∈ ws, ∀ r, w.place ≠ .address r) ∧
      (fx.writes = .address ⟨.index, n⟩ next :: ws ∨
        delta = 0 ∧ fx.writes = ws ∧ ∃ space, m.mem? = some ⟨space, .postImm n 0⟩) ∧
      (kind ≠ .bare → ∃ a, m.Makes cx a ∧ a.addr = cx.core.reversed n (kind.address index next)) := by
  intro next
  cases h with
  | @transfer _ ref hop href hsteps =>
    obtain ⟨a, ha, haddr, hwrites⟩ := cx.access_of_steps hp hsteps
    have hmakes : m.Makes cx a := hm.makes hop href ha
    obtain ⟨fx, ws, hfx, hfxw, hws⟩ := hmakes.exists_effects hop
    refine ⟨fx, ws, hfx, hws, ?_, fun _ => ⟨a, hmakes, haddr⟩⟩
    rcases hwrites with hstep | ⟨hmode, hzero, hnone⟩
    · exact .inl (by rw [hfxw, hstep]; rfl)
    · obtain ⟨space, mode⟩ := ref
      cases hmode
      exact .inr ⟨hzero, by rw [hfxw, hnone]; rfl, space, href⟩
  | @modify k hop hindex hmodify hdelta =>
    have hfetch : Core.fetch cx.core.modify k = .ok delta := hdelta
    refine ⟨.ofWrites [.address ⟨.index, n⟩ next], [], ?_, fun w hw => absurd hw List.not_mem_nil, .inl rfl,
      fun h => absurd rfl h⟩
    rw [execute_eq_run (u := .modify) (by rw [hop]; rfl), ExecUnit.run, Context.modify, register,
      reg?_of_operand hindex, regIndex_of_operand hmodify]
    simp only [need, bind, Except.bind, hfetch, hp.stepIndex]
    rfl

end Member

/-! ### Words -/

namespace Core

variable {s : Core} {mask : Mask} {r : Reg}

theorem address_setAddress_of_ne {r' : Reg} (h : r' ≠ r) (v : Int) : (s.setAddress r' v).address r = s.address r := by
  obtain ⟨cls, i⟩ := r
  obtain ⟨cls', j⟩ := r'
  have hne : cls' = cls → j ≠ i := fun hcls hij => h (by rw [hcls, hij])
  cases cls <;> cases cls' <;>
    first | rfl | simp only [address, setAddress, Cell.fetch_setIfInBounds, if_neg (hne rfl)]

theorem address_apply {w : Write} (h : w.place ≠ .address r) : (s.apply mask w).address r = s.address r := by
  cases w with
  | address r' v =>
    simp only [apply]
    split
    · exact address_setAddress_of_ne (fun hr => h (congrArg Place.address hr)) v
    · rfl
  | sys r' v =>
    simp only [apply]
    split <;> cases r' <;> rfl
  | modes chosen on =>
    simp only [apply]
    split <;> rfl
  | _ => rfl

theorem address_foldl_apply {ws : List Write} (h : ∀ w ∈ ws, w.place ≠ .address r) :
    (ws.foldl (·.apply mask ·) s).address r = s.address r :=
  foldl_apply_eq (·.address r) (fun w hw _ => address_apply (h w hw)) s

end Core

theorem Simulator.address_step {sim : Simulator} {r : Reg} (h : ∀ w ∈ sim.writes, w.place ≠ .address r) :
    sim.step.core.address r = sim.core.address r := by
  cases hcurrent : sim.current? with
  | none => rw [step_of_none hcurrent]
  | some current =>
    obtain ⟨idx, i⟩ := current
    rw [writes_of_current? hcurrent] at h
    rw [Core.address_of_files (files_step hcurrent)]
    exact Core.address_foldl_apply h

theorem Member.Strides.asks {m : Member} {s : Core} {n : Nat} {delta : Int} {kind : Stride}
    (h : m.Strides s n delta kind) :
    m.opcode.asks = false := by
  cases h with
  | transfer hop =>
    rcases List.mem_pair.1 hop with hop | hop <;> (rw [hop]; rfl)
  | modify hop => rw [hop]; rfl

theorem Member.Bundled.mem?_ne_postImm {m : Member} (h : m.Bundled) (space : Space) (n : Nat) (delta : Int) :
    m.mem? ≠ some ⟨space, .postImm n delta⟩ := by
  intro hmem
  cases hrole : m.role with
  | op => exact h.role hrole
  | ld | ld2 | st =>
    obtain ⟨space', i, k, hpost⟩ := h.post (by rw [hrole]; rfl)
    cases hpost.symm.trans hmem
  | _ =>
    rw [mem?, operand?, h.takes.shape, hrole] at hmem
    cases hmem

namespace Simulator

/-- The next word has this operation, perhaps with others; it steps an index register, and lane 0 takes part. -/
def Strides (sim : Simulator) (m : Member) (n : Nat) (delta : Int) (kind : Stride) : Prop :=
  ∃ idx i, sim.current? = some (idx, i) ∧ sim.core.holds i.cond .first = true ∧ i.Issues m ∧
    m.Strides sim.core n delta kind

/-- This operation of the next word makes its access at an address. -/
def AccessesAt (sim : Simulator) (m : Member) (addr : Nat) : Prop :=
  ∃ idx i a, sim.current? = some (idx, i) ∧ i.Issues m ∧
    m.Makes ⟨sim.core, sim.mem, sim.program, sim.core.mask i.cond⟩ a ∧ a.addr = addr

variable {sim : Simulator} {m : Member} {n index base length : Nat} {delta : Int} {kind : Stride}

section Step

variable {idx : Nat} {i : Instruction} (hcurrent : sim.current? = some (idx, i)) (hi : i.Issues m)
  (hasks : m.opcode.asks = false) {fx : Effects}
  (hfx : m.execute ⟨sim.core, sim.mem, sim.program, sim.core.mask i.cond⟩ = .ok fx)

include hcurrent hi hfx

/-- Of the address registers, only those that index are written beside an operation that writes no other. -/
theorem cls_of_place (hown : ∀ w ∈ fx.writes, ∀ r, w.place = .address r → r.cls = .index) :
    ∀ w ∈ sim.writes, ∀ r, w.place = .address r → r.cls = .index := by
  rw [writes_of_current? hcurrent]
  refine hi.places (P := fun p => ∀ r, p = .address r → r.cls = .index) hfx hown ?_
  rintro m' _ htouches r rfl
  exact htouches.1

include hasks

/-- An index that is written is the one behind the step. -/
theorem index_step_of_written (hcond : sim.core.holds i.cond .first = true) {ws : List Write} {next : Nat}
    (hwrites : fx.writes = .address ⟨.index, n⟩ next :: ws) (hws : ∀ w ∈ ws, ∀ r, w.place ≠ .address r)
    (hindex : Core.fetch sim.core.index n = .ok index) (hnext : next < span 16) :
    Core.fetch sim.step.core.index n = .ok next := by
  have hmask := (sim.core.mask_apply i.cond .first).trans hcond
  have hhits : fx.Hits (.index n) := ⟨.address ⟨.index, n⟩ next, hwrites ▸ List.mem_cons_self, rfl⟩
  have hothers : ∀ w ∈ ws, ¬w.Hits (.index n) := fun w hw hhits => hws w hw _ (Write.place_of_hits hhits rfl)
  have hread := read_step_of_hits hcurrent hi hasks hfx hhits
  rw [hwrites] at hread
  refine hread.trans ((Cell.read_foldl_of_not_hits hothers).trans ((Cell.index_apply _ _ _ n).trans ?_))
  dsimp only
  rw [if_pos ⟨hmask, rfl⟩, hindex]
  exact congrArg Except.ok (lowBits_natCast hnext)

theorem index_step_of_alone (halone : ∀ m', i.Issues m' → m' = m)
    (hws : ∀ w ∈ fx.writes, ∀ r, w.place ≠ .address r) :
    Core.fetch sim.step.core.index n = Core.fetch sim.core.index n := by
  have hothers : ∀ w ∈ fx.writes, ¬w.Hits (.index n) := fun w hw hhits => hws w hw _ (Write.place_of_hits hhits rfl)
  have hread := (read_step hcurrent (hi.asks hasks) (.index n)).trans
    (hi.after_of_others hfx fun m' _ h' hne _ => absurd (halone m' h') hne)
  exact hread.trans (Cell.read_foldl_of_not_hits hothers)

end Step

/-- A word that steps an index register leaves the next index in it, and base and length alone. -/
theorem Strides.step (h : sim.Strides m n delta kind) (hp : sim.core.Points n index base length)
    (hin : AddressGenerator.InBuffer index base length) :
    let next := AddressGenerator.step index base length delta
    sim.step.core.Points n next base length ∧
      (kind ≠ .bare → sim.AccessesAt m (sim.core.reversed n (kind.address index next))) := by
  obtain ⟨idx, i, hcurrent, hcond, hi, hm⟩ := h
  intro next
  let cx : Context := ⟨sim.core, sim.mem, sim.program, sim.core.mask i.cond⟩
  have hpoints : cx.core.Points n index base length := hp
  obtain ⟨fx, ws, hfx, hws, hsteps, hmakes⟩ := hm.exists_effects hi.fit hpoints
  have hindex : Core.fetch sim.core.index n = .ok index := Core.fetch_of_map hp.index
  have hread : Core.fetch sim.step.core.index n = .ok next := by
    rcases hsteps with hwrites | ⟨hzero, rfl, space, hmem⟩
    · exact index_step_of_written hcurrent hi hm.asks hfx hcond hwrites hws hindex (AddressGenerator.step_lt ..)
    · -- an immediate step of zero: the operation is alone, and the index is the next one already
      have hstay : next = index := by
        subst hzero
        exact AddressGenerator.step_zero hin
      rw [hstay, ← hindex]
      refine index_step_of_alone hcurrent hi hm.asks hfx (fun m' h' => ?_) hws
      rcases hi.alone_or_bundled with ⟨sel, hs, hmembers, -⟩ | ⟨sel, -, -, -, hbundled, -⟩
      · exact h'.eq_of_alone hs hmembers
      · exact absurd hmem (hbundled.mem?_ne_postImm space n 0)
  have hcls := cls_of_place hcurrent hi hfx fun w hw r hr => by
    rcases hsteps with hwrites | ⟨-, rfl, -⟩
    · rw [hwrites] at hw
      rcases List.mem_cons.1 hw with rfl | hw
      · cases hr
        rfl
      · exact absurd hr (hws w hw r)
    · exact absurd hr (hws w hw r)
  have hkept {cls : RegClass} (hne : cls ≠ .index) : sim.step.core.address ⟨cls, n⟩ = sim.core.address ⟨cls, n⟩ :=
    address_step fun w hw hplace => hne (hcls w hw _ hplace)
  refine ⟨⟨?_, (hkept (by decide)).trans hp.base, (hkept (by decide)).trans hp.length⟩, fun hkind => ?_⟩
  · rw [Core.address, hread]
    rfl
  · obtain ⟨a, ha, haddr⟩ := hmakes hkind
    exact ⟨idx, i, a, hcurrent, hi, ha, haddr⟩

/-! ### Walks -/

/-- The next word, if there is one, leaves an index register alone, with its base and its length. -/
def KeepsBuffer (sim : Simulator) (n : Nat) : Prop :=
  ∀ w ∈ sim.writes, ∀ cls ∈ [RegClass.index, .base, .length], w.place ≠ .address ⟨cls, n⟩

theorem KeepsBuffer.step (h : sim.KeepsBuffer n) (hp : sim.core.Points n index base length) :
    sim.step.core.Points n index base length :=
  have hkept {cls : RegClass} (hcls : cls ∈ [RegClass.index, .base, .length]) :
      sim.step.core.address ⟨cls, n⟩ = sim.core.address ⟨cls, n⟩ := address_step fun w hw => h w hw cls hcls
  ⟨(hkept (by decide)).trans hp.index, (hkept (by decide)).trans hp.base, (hkept (by decide)).trans hp.length⟩

theorem points_iterate {t t' : Nat} (hle : t ≤ t') (h : ∀ k, t ≤ k → k < t' → (step^[k] sim).KeepsBuffer n)
    (hp : (step^[t] sim).core.Points n index base length) : (step^[t'] sim).core.Points n index base length := by
  induction t', hle using Nat.le_induction with
  | base => exact hp
  | succ t' hle ih =>
    rw [Function.iterate_succ_apply']
    exact (h t' hle (Nat.lt_succ_self t')).step (ih fun k hk hlt => h k hk (Nat.lt_succ_of_lt hlt))

/-- `k` words that step an index register, at these steps of a run; the words in between leave its buffer alone. -/
structure Walk (sim : Simulator) (n k : Nat) (time : Nat → Nat) (op : Nat → Member) (delta : Nat → Int)
    (kind : Nat → Stride) : Prop where
  ordered : ∀ j, j + 1 < k → time j < time (j + 1)
  strides : ∀ j < k, (step^[time j] sim).Strides (op j) n (delta j) (kind j)
  between : ∀ j, j + 1 < k → ∀ t, time j < t → t < time (j + 1) → (step^[t] sim).KeepsBuffer n

open AddressGenerator (InBuffer walked)

variable {k start : Nat} {time : Nat → Nat} {op : Nat → Member} {deltas : Nat → Int} {kinds : Nat → Stride}

theorem Walk.points (h : sim.Walk n k time op deltas kinds) (hp : (step^[time 0] sim).core.Points n start base length)
    (hin : InBuffer start base length) {j : Nat} (hj : j < k) :
    (step^[time j] sim).core.Points n (walked start base length (∑ t ∈ Finset.range j, deltas t)) base length := by
  induction j with
  | zero => rwa [Finset.sum_range_zero, AddressGenerator.walked_zero hin]
  | succ j ih =>
    have hlt : j < k := Nat.lt_of_succ_lt hj
    -- the step leads on to the next total, and the words up to the next step leave it there
    obtain ⟨hnext, -⟩ := (h.strides j hlt).step (ih hlt) (AddressGenerator.inBuffer_walked hin _)
    rw [AddressGenerator.step_walked hin, ← Finset.sum_range_succ, ← Function.iterate_succ_apply' step] at hnext
    exact points_iterate (h.ordered j hj) (fun t => h.between j hj t) hnext

/-- A step goes on from there, and its access is made where the register stands. -/
theorem Walk.stride (h : sim.Walk n k time op deltas kinds) (hp : (step^[time 0] sim).core.Points n start base length)
    (hin : InBuffer start base length) {j : Nat} (hj : j < k) :
    let before := walked start base length (∑ t ∈ Finset.range j, deltas t)
    let behind := walked start base length (∑ t ∈ Finset.range (j + 1), deltas t)
    (step^[time j + 1] sim).core.Points n behind base length ∧
      (kinds j ≠ .bare → (step^[time j] sim).AccessesAt (op j)
        ((step^[time j] sim).core.reversed n ((kinds j).address before behind))) := by
  have hstep := (h.strides j hj).step (h.points hp hin hj) (AddressGenerator.inBuffer_walked hin _)
  rwa [AddressGenerator.step_walked hin, ← Finset.sum_range_succ, ← Function.iterate_succ_apply' step] at hstep

theorem reversed_of_plain {s : Core} (h : s.modes.bitRev = false ∨ AddressGenerator.reversible ≤ n) (addr : Nat) :
    s.reversed n addr = addr := by
  refine if_neg fun hreversed => ?_
  rw [Bool.and_eq_true, decide_eq_true_eq] at hreversed
  rcases h with h | h
  · rw [h] at hreversed
    cases hreversed.1
  · exact absurd hreversed.2 (Nat.not_lt_of_le h)

theorem sum_range_of_const {j : Nat} {s : Int} (h : ∀ t < j, deltas t = s) :
    ∑ t ∈ Finset.range j, deltas t = j * s := by
  rw [Finset.sum_congr rfl fun t ht => h t (Finset.mem_range.1 ht), Finset.sum_const, Finset.card_range, nsmul_eq_mul]

/-- Circular addressing: with one step throughout, an index register stays in its buffer and counts modulo the length,
and where addresses are not reversed, each access is made where it stands then, behind or in front of the step. The same
number of steps back restores the index. -/
theorem Walk.circular (h : sim.Walk n k time op deltas kinds) (hp : (step^[time 0] sim).core.Points n start base length)
    (hin : InBuffer start base length) (s : Int) :
    (∀ j < k, (∀ t ≤ j, deltas t = s) →
      let before := walked start base length (j * s)
      let behind := walked start base length ((j + 1) * s)
      InBuffer behind base length ∧ (step^[time j + 1] sim).core.Points n behind base length ∧
        ((step^[time j] sim).core.modes.bitRev = false ∨ AddressGenerator.reversible ≤ n →
          (kinds j = .post → (step^[time j] sim).AccessesAt (op j) before) ∧
            (kinds j = .pre → (step^[time j] sim).AccessesAt (op j) behind))) ∧
      ∀ j half, j + 1 = half + half → j < k → (∀ t < half, deltas t = s) → (∀ t < half, deltas (half + t) = -s) →
        (step^[time j + 1] sim).core.Points n start base length := by
  refine ⟨fun j hj hconst => ?_, fun j half hboth hj hforth hback => ?_⟩
  · obtain ⟨hpoints, haccess⟩ := h.stride hp hin hj
    rw [sum_range_of_const fun t ht => hconst t (Nat.le_of_lt ht),
      sum_range_of_const fun t ht => hconst t (Nat.le_of_lt_succ ht), Nat.cast_succ] at haccess
    rw [sum_range_of_const fun t ht => hconst t (Nat.le_of_lt_succ ht), Nat.cast_succ] at hpoints
    refine ⟨AddressGenerator.inBuffer_walked hin _, hpoints, fun hplain => ⟨fun hkind => ?_, fun hkind => ?_⟩⟩
    · have hpost := haccess (by rw [hkind]; decide)
      rwa [hkind, reversed_of_plain hplain] at hpost
    · have hpre := haccess (by rw [hkind]; decide)
      rwa [hkind, reversed_of_plain hplain] at hpre
  · obtain ⟨hpoints, -⟩ := h.stride hp hin hj
    have htotal : ∑ t ∈ Finset.range (j + 1), deltas t = 0 := by
      rw [hboth, Finset.sum_range_add, sum_range_of_const hforth, sum_range_of_const hback, mul_neg, add_neg_cancel]
    rwa [htotal, AddressGenerator.walked_zero hin] at hpoints

/-- A load in front of its step, and a store behind it, with a load of another register in between. -/
def aroundWords : Program :=
  ([{ line := 1, opcode := .ld, operands := [.reg ⟨.general, 1⟩, .mem ⟨.data, .post 0 0⟩] },
    { line := 2, opcode := .ld, operands := [.reg ⟨.general, 6⟩, .imm 5] },
    { line := 3, opcode := .st, operands := [.mem ⟨.data, .preImm (-2) 0⟩, .reg ⟨.general, 1⟩] }].foldl
      Builder.push (Builder.origin 0)).program

/-- A buffer of three words, in front of the words that step through it backwards, two words at a time. -/
def around : Simulator :=
  let sim := load aroundWords { dataWords := 8 }
  { sim with
    core := (((sim.core.setAddress ⟨.index, 0⟩ 5).setAddress ⟨.base, 0⟩ 4).setAddress ⟨.length, 0⟩ 3).setAddress
      ⟨.modify, 0⟩ (-2) }

theorem Walk.circular_around : ∃ op, around.Walk 0 2 (2 * ·) op (fun _ => -2) (fun j => if j = 0 then .post else .pre) ∧
    (step^[3] around).core.Points 0 4 4 3 ∧ around.AccessesAt (op 0) 5 ∧ (step^[2] around).AccessesAt (op 1) 4 := by
  obtain ⟨m, hm⟩ : ∃ m, around.Strides m 0 (-2) .post :=
    ⟨_, 0, _, rfl, rfl, ⟨rfl, _, rfl, List.mem_singleton_self _⟩, .transfer (by decide) rfl (.post rfl)⟩
  obtain ⟨m', hm'⟩ : ∃ m, (step^[2] around).Strides m 0 (-2) .pre :=
    ⟨_, 2, _, rfl, rfl, ⟨rfl, _, rfl, List.mem_singleton_self _⟩, .transfer (by decide) rfl .preImm⟩
  have hwalk : around.Walk 0 2 (2 * ·) (fun j => if j = 0 then m else m') (fun _ => -2)
      (fun j => if j = 0 then .post else .pre) := by
    refine ⟨fun j _ => by omega, fun j hj => ?_, fun j hj t hlt hlt' => ?_⟩
    · interval_cases j
      · exact hm
      · exact hm'
    · obtain rfl : j = 0 := by omega
      obtain rfl : t = 1 := by omega
      intro w hw cls _
      rw [List.mem_singleton.1 hw]
      exact nofun
  have hpoints : (step^[2 * 0] around).core.Points 0 5 4 3 := ⟨rfl, rfl, rfl⟩
  obtain ⟨hconst, -⟩ := Walk.circular hwalk hpoints (by decide) (-2)
  obtain ⟨-, -, hfirst⟩ := hconst 0 (by decide) fun _ _ => rfl
  obtain ⟨-, hlast, hsecond⟩ := hconst 1 (by decide) fun _ _ => rfl
  exact ⟨_, hwalk, hlast, (hfirst (.inl rfl)).1 rfl, (hsecond (.inl rfl)).2 rfl⟩

end Simulator

end QuadDsp
