import QuadDsp.Machine.Simulator
import QuadDsp.Proofs.Machine.Fit
import QuadDsp.Proofs.Machine.Together
import QuadDsp.Proofs.Machine.WideLoad
import QuadDsp.Proofs.Word.Again

/-! # Executing what a word is read back as

An instruction and what its word is read back as leave the same state and ask the same of the sequencer
(`Readback.alike`), though a bundle is read back in the order of its layout. There is one exception: the field
for the number of an address register has 15 bits, so a number that needs them all (`Instruction.LoadsWide`) is
read back as a negative one, and lane 0 loads another address (`Readback.address_ne`). -/

namespace QuadDsp

/-- The instruction loads an address register with a number that its signed field does not hold. -/
structure Instruction.LoadsWide (i : Instruction) (r : Reg) (v : Int) : Prop where
  opcode : i.opcode = .ld
  operands : i.operands = [.reg r, .imm v]
  address : r.cls.isAddress = true
  wide : 16384 ≤ v

theorem mapM_eq_of_forall₂ {α β γ : Type} {f : α → Option γ} {g : β → Option γ} {l : List α} {r : List β}
    (h : List.Forall₂ (fun a b => g b = f a) l r) : r.mapM g = l.mapM f := by
  induction h with
  | nil => rfl
  | cons hab _ ih => rw [List.mapM_cons, List.mapM_cons, hab, ih]

theorem FormatEntry.load_of_wide? : ∀ e ∈ formatEntries, ∀ w, e.format.wide? = some w →
    e.opcode = .ld ∧ (e.shape, w) ∈ Member.loadWidths := by
  have hall : ∀ e ∈ formatEntries, e.format.wide?.all fun w =>
      decide (e.opcode = .ld ∧ (e.shape, w) ∈ Member.loadWidths) := by
    decide +kernel
  intro e he w hw
  have h := hall e he
  rw [hw, Option.all_some] at h
  exact of_decide_eq_true h

theorem BundleEntry.wide?_eq_none : ∀ b ∈ bundleEntries, b.format.wide? = none := by decide +kernel

theorem FormatEntry.format_of_dagImm :
    ∀ e ∈ formatEntries, e.shape = .dagImm → e.opcode = .ld ∧ e.format = .ldiDag := by
  decide +kernel

theorem Field.fits_of_memberValue {f : Field} {m : Member} {sign : Sign} {v : Nat} (hk : f.kind = .imm sign)
    (h : f.memberValue m = .ok v) : ∃ x, m.operand? f.arg = some (.imm x) ∧ sign.fits x f.width = true := by
  simp only [memberValue, hk] at h
  split at h
  · next x hx =>
    split at h
    · next hfit => exact ⟨x, hx, hfit⟩
    · cases h
  · cases h

theorem Field.memberValue_of_fits {f : Field} {m : Member} {sign : Sign} {x : Int} (hk : f.kind = .imm sign)
    (harg : m.operand? f.arg = some (.imm x)) (hfits : sign.fits x f.width = true) :
    f.memberValue m = .ok (lowBits f.width x) := by
  unfold memberValue
  rw [hk]
  dsimp only
  rw [harg]
  exact if_pos hfits

theorem Role.shape_ne_dagImm {role : Role} (h : role ≠ .op) : role.part.shape ≠ .dagImm := by
  cases role <;> first | exact absurd rfl h | decide

section Wide

variable {i : Instruction} {s : Selection} {t : WordForm}

/-- Only lone loads have an immediate of either sign. -/
theorem load_of_wide? (hs : select i = .ok s) {w : Nat} (hw : s.format.wide? = some w) :
    ∃ m, s.members = [m] ∧ m.instr = i ∧ m.opcode = .ld ∧ (m.shape, w) ∈ Member.loadWidths := by
  rcases select_members hs with ⟨m, e, he, hmembers, hinstr, hop, hshape, hformat⟩ | ⟨-, b, hb, hformat⟩
  · obtain ⟨hld, hwidth⟩ := FormatEntry.load_of_wide? e he w (hformat ▸ hw)
    exact ⟨m, hmembers, hinstr, hop.trans hld, hshape ▸ hwidth⟩
  · rw [hformat, BundleEntry.wide?_eq_none b hb] at hw
    cases hw

/-- An immediate that a lone operation encodes is in the range of its field. -/
theorem Selection.Fills.imm_fits (h : s.Fills t i) {m : Member} (hmembers : s.members = [m]) {n width : Nat}
    {sign : Sign}
    (hfield : Layout.imm n width sign ∈ t.format.layout) {v : Int} (hv : m.operand? (.nth n) = some (.imm v)) :
    sign.fits v width = true := by
  obtain ⟨x, hx⟩ := h.values _ hfield
  obtain ⟨m', hm', hx⟩ := bind_eq_ok_iff.1 hx
  have hmem := List.mem_of_find?_eq_some (orElse_eq_ok_iff.1 hm')
  rw [hmembers, List.mem_singleton] at hmem
  subst hmem
  obtain ⟨y, hy, -⟩ := bind_eq_ok_iff.1 hx
  obtain ⟨v', hv', hfit⟩ := Field.fits_of_memberValue rfl hy
  cases hv'.symm.trans hv
  exact hfit

/-- What a load of an address register holds. -/
theorem Selection.Fills.dagImm (h : s.Fills t i) (hs : select i = .ok s) {m : Member} (hm : m ∈ s.members)
    (hshape : m.shape = .dagImm) :
    s.members = [m] ∧ s.format = .ldiDag ∧ ∃ r v, i.opcode = .ld ∧ i.operands = [.reg r, .imm v] ∧
      r.cls.isAddress = true ∧ r.index < 8 ∧ m.reg? 0 = some r ∧ m.imm? 1 = some v ∧ -16384 ≤ v ∧ v < 32768 := by
  rcases select_members hs with ⟨m₀, e, he, hmembers, hinstr, hop, heshape, hformat⟩ | ⟨hall, -⟩
  · rw [hmembers, List.mem_singleton] at hm
    subst hm
    obtain ⟨heop, heformat⟩ := FormatEntry.format_of_dagImm e he (heshape ▸ hshape)
    obtain ⟨o, o', hoperands, ho, hin, ho', -⟩ :=
      (h.classified m (by rw [hmembers]; exact List.mem_singleton_self m)).both_operands
        (by rw [hshape]; rfl) (by rw [hshape]; rfl)
    obtain ⟨r, rfl, hr, hlt⟩ := Slot.address_of_inFile ho hin
    obtain ⟨v, rfl⟩ := Slot.imm_of_accepts ho'
    have hnth (n : Nat) : m.operand? (.nth n) = [Operand.reg r, .imm v][n]? := by
      have hplain : m.instr.plain = [.reg r, .imm v] := by
        rw [Instruction.plain, hoperands]
        rfl
      rw [← hplain]
      rfl
    have hopcode : i.opcode = .ld := by
      rw [← heop, ← hop, ← hinstr]
      rfl
    have hfield : Layout.imm 1 15 .either ∈ t.format.layout := by
      rw [← h.format, hformat, heformat]
      decide
    have hspan : -(span 14 : Int) ≤ v ∧ v < span 15 := by
      simpa [Sign.fits] using h.imm_fits hmembers hfield (hnth 1)
    exact ⟨hmembers, hformat.trans heformat, r, v, hopcode, hinstr ▸ hoperands, hr, hlt, by rw [Member.reg?, hnth]; rfl,
      by rw [Member.imm?, hnth]; rfl, hspan⟩
  · obtain ⟨hbundled, -⟩ := hall m hm
    exact absurd (hbundled.takes.shape.symm.trans hshape) (Role.shape_ne_dagImm hbundled.role)

theorem Instruction.LoadsWide.shape {r : Reg} {v : Int} {m : Member} (hload : m.instr.LoadsWide r v)
    (hm : m.Classified) :
    m.shape = .dagImm := by
  have hfits := (Shape.classify_eq_ok_iff.1 hm.classify).1
  have hplain : m.instr.plain = [.reg r, .imm v] := by
    rw [Instruction.plain, hload.operands]
    rfl
  rw [hplain] at hfits
  exact Shape.eq_of_fits hfits (by simp [Shape.fits, Shape.slots, Slot.accepts, hload.address])

end Wide

theorem wrap_eq_self_of_lt {v : Int} (hlow : -16384 ≤ v) (hhigh : v < 16384) : wrap 15 v = v :=
  (wrap_eq_self_iff (by decide) v).2 ⟨hlow, hhigh⟩

theorem Member.isSome_loadWrite? (m : Member) (v v' : Int) : (m.loadWrite? v').isSome = (m.loadWrite? v).isSome := by
  unfold loadWrite?
  split
  · cases m.reg? 0 <;> rfl
  · cases m.reg? 0 <;> rfl
  · split <;> rfl
  · rfl

/-- One write through a mask. -/
def Effects.write (mask : Mask) (w : Write) : Effects := { mask := mask, writes := [w] }

/-- A word that loads an immediate writes it and does nothing else. -/
theorem Member.executeMembers_of_load (m : Member) (hop : m.opcode = .ld) {width : Nat}
    (hshape : (m.shape, width) ∈ loadWidths) (cx : Context) :
    (executeMembers cx { mask := cx.mask } [m]).toOption =
      ((m.imm? 1).bind fun v => m.loadWrite? (wrap 32 v)).map (Effects.write cx.mask) := by
  rw [toOption_executeMembers, List.mapM_cons, List.mapM_nil, Member.execute_load hop hshape]
  cases m.imm? 1 with
  | none => rfl
  | some v => cases hv : m.loadWrite? (wrap 32 v) <;> simp [hv, Effects.write, Effects.and, Effects.ofWrites]

theorem Effects.commit_write (core : Core) (mem : Memory) (mask : Mask) (w : Write) :
    (commit core mem (write mask w)).1 = core.apply mask w := rfl

theorem Effects.commit_write_address (core : Core) (mem : Memory) {mask : Mask} (hmask : mask .first = true) (r : Reg)
    (v : Int) : (commit core mem (write mask (.address r v))).1 = core.setAddress r v := by
  rw [commit_write, Core.apply, if_pos hmask]

theorem Simulator.fst_effects {core : Core} {mem : Memory} {p : Program} {i : Instruction} :
    (effects core mem p i).1 = (execute core mem p i).toOption.getD {} := by
  unfold effects
  cases execute core mem p i <;> rfl

theorem execute_of_selected {i : Instruction} {s : Selection} (hstructure : checkStructure i = .ok ())
    (hs : select i = .ok s) (core : Core) (mem : Memory) (p : Program) :
    execute core mem p i =
      executeMembers ⟨core, mem, p, core.mask i.cond⟩ { mask := core.mask i.cond } s.members := by
  rw [execute, hstructure, hs]

/-- A word that runs is well-formed and picked, and what it does is what its operations do together. -/
theorem exists_selected_of_execute {s : Core} {mem : Memory} {p : Program} {i : Instruction} {fx : Effects}
    (h : execute s mem p i = .ok fx) :
    checkStructure i = .ok () ∧ ∃ sel, select i = .ok sel ∧
      executeMembers ⟨s, mem, p, s.mask i.cond⟩ { mask := s.mask i.cond } sel.members = .ok fx := by
  cases hstructure : checkStructure i with
  | error e => rw [execute, hstructure] at h; cases h
  | ok =>
  cases hs : select i with
  | error e => rw [execute, hstructure, hs] at h; cases h
  | ok sel => exact ⟨rfl, sel, rfl, (execute_of_selected hstructure hs s mem p).symm.trans h⟩

namespace Readback

variable {p₀ p q : Program} {i j : Instruction} {s s' : Selection} {t : WordForm} (h : Readback p₀ i j s t)
  (hs' : select j = .ok s')

include h

theorem cond_eq : j.cond = i.cond := by
  obtain ⟨m, -, hm⟩ := exists_left_of_forall₂ h.members List.mem_cons_self
  rw [Instruction.cond, hm.condition]
  rfl

include hs'

/-- Without an immediate of either sign, the operations of the word have the same effects in the order of its
layout. -/
theorem alike_of_narrow (hp : p.symbols = p₀.symbols) (hq : q.symbols = {}) (core : Core) (mem : Memory) (mask : Mask)
    (hnarrow : s.format.wide? = none) :
    Option.Rel (Effects.Alike core mem) (executeMembers ⟨core, mem, p, mask⟩ { mask := mask } s.members).toOption
      (executeMembers ⟨core, mem, q, mask⟩ { mask := mask } s'.members).toOption := by
  have hsame : (executeMembers ⟨core, mem, q, mask⟩ { mask := mask } s'.members).toOption =
      (executeMembers ⟨core, mem, p, mask⟩ { mask := mask } s.inOrder).toOption := by
    have hmirrors := h.mirrors hs'
    rw [hnarrow] at hmirrors
    have hnames : Context.Names p₀ ⟨core, mem, p, mask⟩ q := ⟨hp, hq⟩
    rw [toOption_executeMembers, toOption_executeMembers]
    exact congrArg _ (mapM_eq_of_forall₂ (hmirrors.imp fun m m' hm => Member.Mirrors.execute hnames hm))
  rw [hsame]
  have hperm := (h.fills.inOrder_perm h.form).symm
  rcases select_members h.selected with ⟨m, -, -, hmembers, -⟩ | ⟨hall, -⟩
  · rw [hmembers] at hperm ⊢
    rw [List.perm_singleton.1 hperm.symm]
    generalize (executeMembers ⟨core, mem, p, mask⟩ { mask := mask } [m]).toOption = o
    cases o with
    | none => exact .none
    | some fx => exact .some (.refl core mem fx)
  · refine executeMembers_perm hperm (fun m hm m' hm' hne fx fx' hfx hfx' => ?_) (fun m hm fx hfx => ?_) core mem mask
    · exact h.fills.apart h.form h.selected h.structured hm hm' hne hfx hfx'
    · exact (Member.leaves_of_execute (hall m hm).1 (hall m hm).2 hfx).flow

/-- A load of an immediate of either sign: what it writes, and what its word is read back to write. -/
theorem exists_writes_of_wide {w : Nat} (hwide : s.format.wide? = some w) :
    ∃ m, s.members = [m] ∧ (m.shape, w) ∈ Member.loadWidths ∧ ∀ cx cx' : Context,
      (executeMembers cx { mask := cx.mask } s.members).toOption =
          ((m.imm? 1).bind fun v => m.loadWrite? (wrap 32 v)).map (Effects.write cx.mask) ∧
        (executeMembers cx' { mask := cx'.mask } s'.members).toOption =
          ((m.imm? 1).bind fun v => m.loadWrite? (wrap 32 (wrap w v))).map (Effects.write cx'.mask) := by
  obtain ⟨m, hmembers, -, hop, hshape⟩ := load_of_wide? h.selected hwide
  have hperm := h.fills.inOrder_perm h.form
  have hmirrors := h.mirrors hs'
  rw [hmembers] at hperm
  rw [hwide, List.perm_singleton.1 hperm] at hmirrors
  obtain ⟨m', rest, hm, hnil, hmembers'⟩ := List.forall₂_cons_left_iff.1 hmirrors
  rw [List.forall₂_nil_left_iff.1 hnil] at hmembers'
  refine ⟨m, hmembers, hshape, fun cx cx' => ⟨by rw [hmembers, m.executeMembers_of_load hop hshape], ?_⟩⟩
  rw [hmembers', m'.executeMembers_of_load (hm.opcode.trans hop) (hm.shape ▸ hshape), hm.imm?, Option.bind_map]
  refine congrArg (Option.map _) (Option.bind_congr fun v _ => ?_)
  exact hm.loadWrite? hop _

/-- A load of an immediate of either sign writes the same, but for an address register that lane 0 loads. -/
theorem alike_of_wide (core : Core) (mem : Memory) (mask : Mask) {w : Nat} (hwide : s.format.wide? = some w)
    (hdag : ∀ m ∈ s.members, m.shape = .dagImm → ∀ v, m.imm? 1 = some v → wrap w v = v ∨ mask .first = false) :
    Option.Rel (Effects.Alike core mem) (executeMembers ⟨core, mem, p, mask⟩ { mask := mask } s.members).toOption
      (executeMembers ⟨core, mem, q, mask⟩ { mask := mask } s'.members).toOption := by
  obtain ⟨m, hmembers, hshape, hwrites⟩ := h.exists_writes_of_wide hs' hwide
  obtain ⟨hp, hq⟩ := hwrites ⟨core, mem, p, mask⟩ ⟨core, mem, q, mask⟩
  rw [hp, hq]
  cases himm : m.imm? 1 with
  | none => exact .none
  | some v =>
    rw [Option.bind_some, Option.bind_some]
    have hsome := m.isSome_loadWrite? (wrap 32 v) (wrap 32 (wrap w v))
    cases hw : m.loadWrite? (wrap 32 v) with
    | none =>
      have hnone : m.loadWrite? (wrap 32 (wrap w v)) = none := by
        rw [hw] at hsome
        exact Option.not_isSome_iff_eq_none.1 (by simp [hsome])
      rw [hnone]
      exact .none
    | some x =>
      rw [hw] at hsome
      obtain ⟨x', hw'⟩ := Option.isSome_iff_exists.1 hsome
      rw [hw']
      refine .some ⟨rfl, ?_, ?_⟩
      · exact Core.apply_loadWrite hshape hw hw' core mask fun hs =>
          hdag m (by rw [hmembers]; exact List.mem_singleton_self m) hs v himm
      · exact (Memory.apply_loadWrite hw' mem mask).trans (Memory.apply_loadWrite hw mem mask).symm

omit hs' h in
theorem alike_getD {core : Core} {mem : Memory} {o o' : Option Effects} (h : Option.Rel (Effects.Alike core mem) o o') :
    Effects.Alike core mem (o.getD {}) (o'.getD {}) := by
  cases h with
  | none => exact .refl core mem _
  | some hfx => exact hfx

/-- The instruction and what it is read back as leave the same state, if lane 0 loads no address that is read back as
another. -/
theorem alike (hstructure : checkStructure j = .ok ()) (hp : p.symbols = p₀.symbols) (hq : q.symbols = {})
    (core : Core) (mem : Memory) (hnot : ∀ r v, i.LoadsWide r v → core.mask i.cond .first = false) :
    Effects.Alike core mem (Simulator.effects core mem p i).1 (Simulator.effects core mem q j).1 := by
  rw [Simulator.fst_effects, Simulator.fst_effects, execute_of_selected h.structured h.selected,
    execute_of_selected hstructure hs', h.cond_eq]
  refine alike_getD ?_
  cases hwide : s.format.wide? with
  | none => exact h.alike_of_narrow hs' hp hq core mem _ hwide
  | some w =>
    refine h.alike_of_wide hs' core mem _ hwide fun m hm hshape v himm => ?_
    obtain ⟨-, hformat, r, v', hop, hoperands, hr, -, -, himm', hlow, -⟩ := h.fills.dagImm h.selected hm hshape
    cases himm.symm.trans himm'
    have hw : w = 15 := by
      rw [hformat] at hwide
      exact (Option.some.inj hwide).symm
    rw [hw]
    by_cases hv : v < 16384
    · exact .inl (wrap_eq_self_of_lt hlow hv)
    · exact .inr (hnot r v ⟨hop, hoperands, hr, Int.not_lt.1 hv⟩)

/-- Otherwise lane 0 loads another address. -/
theorem address_ne (hstructure : checkStructure j = .ok ()) (core : Core) (mem : Memory) {r : Reg} {v : Int}
    (hload : i.LoadsWide r v) (hmask : core.mask i.cond .first = true) :
    (commit core mem (Simulator.effects core mem q j).1).1.address r ≠
      (commit core mem (Simulator.effects core mem p i).1).1.address r := by
  obtain ⟨m, hm, rfl⟩ := h.fills.exists_head
  have hshape := hload.shape (h.fills.classified m hm)
  obtain ⟨hmembers, hformat, r', v', -, hoperands, hr, hin, hreg, himm, -, hhigh⟩ := h.fills.dagImm h.selected hm hshape
  obtain ⟨rfl, rfl⟩ : r' = r ∧ v' = v := by simpa using hoperands.symm.trans hload.operands
  obtain ⟨m', hmembers', -, hwrites⟩ := h.exists_writes_of_wide hs' (by rw [hformat]; rfl)
  cases hmembers.symm.trans hmembers'
  obtain ⟨hpw, hqw⟩ := hwrites ⟨core, mem, p, core.mask m.instr.cond⟩ ⟨core, mem, q, core.mask m.instr.cond⟩
  have hwrite (x : Int) : m.loadWrite? x = some (.address r' x) := by
    rw [Member.loadWrite?, hshape]
    simp [hreg]
  rw [himm, Option.bind_some, hwrite] at hpw hqw
  rw [Simulator.fst_effects, Simulator.fst_effects, execute_of_selected h.structured h.selected,
    execute_of_selected hstructure hs', h.cond_eq, hpw, hqw]
  show (commit core mem (Effects.write _ _)).1.address r' ≠ (commit core mem (Effects.write _ _)).1.address r'
  rw [Effects.commit_write_address core mem hmask, Effects.commit_write_address core mem hmask]
  exact Core.address_ne_of_wide core hr hin hload.wide hhigh

end Readback

end QuadDsp
