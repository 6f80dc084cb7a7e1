import QuadDsp.Proofs.Machine.Commute
import QuadDsp.Proofs.Machine.Mirror
import QuadDsp.Proofs.Word.Reencode

/-! # Bundled operations write apart

The operations of one bundle write to different places (`Selection.Fills.apart`): the check for
destinations keeps their registers apart, the two loads of a bundle step different index registers, and
sums and products set different flags. -/

namespace QuadDsp

namespace Member

/-- Where a bundled operation may write, by the part it plays. -/
def Touches (m : Member) : Place → Prop
  | .reg n => m.instr.destination? = some ⟨.general, n⟩
  | .acc _ => m.role = .mac
  | .address r => r.cls = .index ∧ m.role.isTransfer = true ∧ ∃ ref, m.mem? = some ref ∧ ref.mode.index? = some r.index
  | .mem => m.role = .st
  | .flags _ group =>
    m.role = .alu ∧ group = .arith ∨ m.role = .mac ∧ group = .multiplier ∨ m.role = .shf ∧ group = .shifter
  | .sys => False

/-- The operation belongs to the table of its part. -/
structure Coded (m : Member) : Prop where
  alu : m.role = .alu → m.opcode ∈ bundledAlu
  mac : m.role = .mac → m.opcode ∈ bundledMac
  shf : m.role = .shf → m.opcode ∈ bundledShift

variable {m : Member} {cx : Context} {fx : Effects}

theorem unit?_of_bundledAlu : ∀ op ∈ bundledAlu, op.unit? = some .binary := by decide

theorem unit?_of_bundledMac : ∀ op ∈ bundledMac, op.unit? = some .multiply := by decide

theorem unit?_of_bundledShift : ∀ op ∈ bundledShift, op.unit? = some .shift := by decide

theorem execute_eq_run {u : ExecUnit} (hu : m.opcode.unit? = some u) : m.execute cx = u.run cx m := by
  rw [execute, hu]
  rfl

/-- What a register operand is, by its slot. -/
theorem Classified.plain_of_reg? (hm : m.Classified) {n : Nat} {slot : Slot} {r : Reg}
    (hslot : m.shape.slots[n]? = some slot) (hr : m.reg? n = some r) :
    m.instr.plain[n]? = some (.reg r) ∧ slot.accepts (.reg r) = true := by
  obtain ⟨o, ho, haccepts, -⟩ := hm.nth?_of_slot hslot
  have hreg : o.reg? = some r := by
    have hoperand : m.operand? (.nth n) = some o := ho
    rwa [reg?, hoperand] at hr
  have heq : o = .reg r := by
    cases o <;> first | exact congrArg Operand.reg (Option.some.inj hreg) | cases hreg
  subst heq
  exact ⟨ho, haccepts⟩

/-- A data register in front is the destination, unless the operation stores. -/
theorem Classified.destination?_eq (hm : m.Classified) {r : Reg} (hslot : m.shape.slots[0]? = some .general)
    (hmode : m.shape.needsMode = false) (hst : m.opcode ≠ .st) (hr : m.reg? 0 = some r) :
    m.instr.destination? = some ⟨.general, r.index⟩ := by
  obtain ⟨hplain, haccepts⟩ := hm.plain_of_reg? hslot hr
  rw [(hm.plain_eq hmode).1] at hplain
  have hcls : r.cls = .general := eq_of_beq haccepts
  obtain ⟨rest, hrest⟩ : ∃ rest, m.instr.operands = .reg r :: rest := by
    cases hops : m.instr.operands with
    | nil => rw [hops] at hplain; cases hplain
    | cons o rest => rw [hops] at hplain; cases hplain; exact ⟨rest, rfl⟩
  have hst' : m.instr.opcode ≠ .st := hst
  rw [Instruction.destination?, if_neg hst', hrest, ← hcls]

end Member

theorem Member.eq_of_need {α : Type} {m : Member} {o : Option α} {a : α} (h : m.need o = .ok a) : o = some a := by
  rw [← toOption_need m o, h]
  rfl

theorem Member.reg?_of_regIndex {m : Member} {n k : Nat} (h : m.regIndex n = .ok k) :
    ∃ r, m.reg? n = some r ∧ r.index = k := by
  obtain ⟨r, hr, h⟩ := bind_eq_ok_iff.1 h
  cases h
  exact ⟨r, eq_of_need hr, rfl⟩

/-- What an access writes: the step of its index register, and what is written at its address. -/
theorem Context.withAccess_writes {cx : Context} {m : Member}
    {writes : Reg → Nat → Except ExecError (List Write)} {fx : Effects}
    (h : cx.withAccess m writes = .ok fx) :
    fx.flow = none ∧ ∃ ref r a, m.mem? = some ref ∧ m.dataReg? = some r ∧ cx.access ref.mode = .ok a ∧
      ∀ w ∈ fx.writes, w ∈ a.writes ∨ ∃ ws, writes r a.addr = .ok ws ∧ w ∈ ws := by
  obtain ⟨ref, href, h⟩ := bind_eq_ok_iff.1 h
  obtain ⟨r, hr, h⟩ := bind_eq_ok_iff.1 h
  obtain ⟨a, ha, h⟩ := bind_eq_ok_iff.1 h
  split at h
  · cases h
    exact ⟨rfl, ref, r, a, Member.eq_of_need href, Member.eq_of_need hr, ha, fun w hw => .inl hw⟩
  · obtain ⟨ws, hws, h⟩ := bind_eq_ok_iff.1 h
    cases h
    refine ⟨rfl, ref, r, a, Member.eq_of_need href, Member.eq_of_need hr, ha, fun w hw => ?_⟩
    exact (List.mem_append.1 hw).imp id fun hw => ⟨ws, hws, hw⟩

/-- An access through an index register steps that register. -/
theorem Context.writes_of_post {cx : Context} {i n : Nat} {a : Access} (h : cx.access (.post i n) = .ok a) :
    ∀ w ∈ a.writes, w.place = .address ⟨.index, i⟩ := by
  obtain ⟨delta, -, h⟩ := bind_eq_ok_iff.1 h
  obtain ⟨addr, -, h⟩ := bind_eq_ok_iff.1 h
  obtain ⟨next, -, h⟩ := bind_eq_ok_iff.1 h
  cases h
  intro w hw
  rw [List.mem_singleton.1 hw]
  rfl

namespace Member

/-- The effects of an operation that writes to the places of its part and transfers no control. -/
structure Leaves (m : Member) (fx : Effects) : Prop where
  touches : ∀ w ∈ fx.writes, m.Touches w.place
  flow : fx.flow = none

variable {m : Member} {cx : Context} {fx : Effects}

/-- A result goes to the destination and sets the flags of its group. -/
theorem leaves_of_result (hm : m.Classified) (hslot : m.shape.slots[0]? = some .general)
    (hmode : m.shape.needsMode = false) (hst : m.opcode ≠ .st) {rd : Nat} (hrd : m.regIndex 0 = .ok rd)
    {group : Flags} {v : Lanes Flagged}
    (hgroup : m.role = .alu ∧ group = .arith ∨ m.role = .mac ∧ group = .multiplier ∨ m.role = .shf ∧ group = .shifter) :
    m.Leaves (.result rd group v) := by
  obtain ⟨r, hr, rfl⟩ := reg?_of_regIndex hrd
  refine ⟨fun w hw => ?_, rfl⟩
  rcases List.mem_cons.1 hw with rfl | hw
  · exact hm.destination?_eq hslot hmode hst hr
  · rw [List.mem_singleton.1 hw]
    exact hgroup

theorem shape_of_alu (hm : m.Bundled) (hrole : m.role = .alu) : m.shape = .rrr := by
  rw [hm.takes.shape, hrole]
  rfl

/-- What a bundled ALU operation does. -/
theorem exists_of_alu (hm : m.Bundled) (hcoded : m.Coded) (hrole : m.role = .alu) (h : m.execute cx = .ok fx) :
    ∃ (rd : Nat) (a b : Lanes Int), m.regIndex 0 = .ok rd ∧ fx = .result rd .arith (.ofFn fun l =>
      Alu.binary m.opcode (a l) (b l) (cx.core.flags l).real.carry cx.core.modes.aluSat) := by
  rw [execute_eq_run (unit?_of_bundledAlu _ (hcoded.alu hrole)), ExecUnit.run, ExecUnit.run.arithmetic,
    shape_of_alu hm hrole] at h
  obtain ⟨rd, hrd, h⟩ := bind_eq_ok_iff.1 h
  obtain ⟨a, -, h⟩ := bind_eq_ok_iff.1 h
  obtain ⟨b, -, h⟩ := bind_eq_ok_iff.1 h
  cases h
  exact ⟨rd, a, b, hrd, rfl⟩

theorem leaves_of_alu (hm : m.Bundled) (hcoded : m.Coded) (hrole : m.role = .alu)
    (h : m.execute cx = .ok fx) : m.Leaves fx := by
  have hop := hcoded.alu hrole
  have hshape := shape_of_alu hm hrole
  have hst : m.opcode ≠ .st := fun hst => by rw [hst] at hop; revert hop; decide
  obtain ⟨rd, a, b, hrd, rfl⟩ := exists_of_alu hm hcoded hrole h
  exact leaves_of_result hm.classified (by rw [hshape]; rfl) (by rw [hshape]; rfl) hst hrd (.inl ⟨hrole, rfl⟩)

theorem exists_of_shf (hm : m.Bundled) (hcoded : m.Coded) (hrole : m.role = .shf) (h : m.execute cx = .ok fx) :
    ∃ (rd : Nat) (v : Lanes Flagged), m.regIndex 0 = .ok rd ∧ fx = .result rd .shifter v := by
  have hshape : m.shape = .rrImm := by rw [hm.takes.shape, hrole]; rfl
  have hshift : cx.shift m = .ok fx := (execute_eq_run (unit?_of_bundledShift _ (hcoded.shf hrole))).symm.trans h
  obtain ⟨rd, hrd, hshift⟩ := bind_eq_ok_iff.1 hshift
  obtain ⟨a, -, hshift⟩ := bind_eq_ok_iff.1 hshift
  rw [hshape] at hshift
  obtain ⟨n, -, hshift⟩ := bind_eq_ok_iff.1 hshift
  cases hshift
  exact ⟨rd, _, hrd, rfl⟩

theorem leaves_of_shf (hm : m.Bundled) (hcoded : m.Coded) (hrole : m.role = .shf)
    (h : m.execute cx = .ok fx) : m.Leaves fx := by
  have hop := hcoded.shf hrole
  have hshape : m.shape = .rrImm := by rw [hm.takes.shape, hrole]; rfl
  have hst : m.opcode ≠ .st := fun hst => by rw [hst] at hop; revert hop; decide
  obtain ⟨rd, v, hrd, rfl⟩ := exists_of_shf hm hcoded hrole h
  exact leaves_of_result hm.classified (by rw [hshape]; rfl) (by rw [hshape]; rfl) hst hrd
    (.inr (.inr ⟨hrole, rfl⟩))

/-- What a bundled multiplication does. -/
theorem exists_of_mac (hm : m.Bundled) (hcoded : m.Coded) (hrole : m.role = .mac) (h : m.execute cx = .ok fx) :
    ∃ (acc : Nat) (v : Lanes Flagged),
      fx = .ofWrites [.acc acc (v.map Prod.fst), .flags .real .multiplier (v.map Prod.snd)] ∧
        ∀ l, ∃ old p, v l = Multiplier.step m.opcode m.mulMode cx.core.modes.macSat old p := by
  have hshape : m.shape = .accRR := by rw [hm.takes.shape, hrole]; rfl
  have hmultiply : cx.multiply m = .ok fx :=
    (execute_eq_run (unit?_of_bundledMac _ (hcoded.mac hrole))).symm.trans h
  obtain ⟨acc, -, hmultiply⟩ := bind_eq_ok_iff.1 hmultiply
  obtain ⟨x, -, hmultiply⟩ := bind_eq_ok_iff.1 hmultiply
  obtain ⟨y, -, hmultiply⟩ := bind_eq_ok_iff.1 hmultiply
  rw [hshape] at hmultiply
  obtain ⟨a, -, hmultiply⟩ := bind_eq_ok_iff.1 hmultiply
  obtain ⟨b, -, hmultiply⟩ := bind_eq_ok_iff.1 hmultiply
  obtain ⟨old, -, hmultiply⟩ := bind_eq_ok_iff.1 hmultiply
  cases hmultiply
  exact ⟨acc, _, rfl, fun l => ⟨_, _, Lanes.ofFn_apply _ l⟩⟩

theorem leaves_of_mac (hm : m.Bundled) (hcoded : m.Coded) (hrole : m.role = .mac)
    (h : m.execute cx = .ok fx) : m.Leaves fx := by
  obtain ⟨acc, v, rfl, -⟩ := exists_of_mac hm hcoded hrole h
  refine ⟨fun w hw => ?_, rfl⟩
  rcases List.mem_cons.1 hw with rfl | hw
  · exact hrole
  · rw [List.mem_singleton.1 hw]
    exact .inr (.inl ⟨hrole, rfl⟩)

/-- A load or store steps its index register; `hplace` says where else it writes. -/
theorem leaves_of_transfer (hm : m.Bundled) (hrole : m.role.isTransfer = true)
    {writes : Reg → Nat → Except ExecError (List Write)} (h : cx.withAccess m writes = .ok fx)
    (hplace : ∀ r, m.dataReg? = some r → ∀ addr ws, writes r addr = .ok ws → ∀ w ∈ ws, m.Touches w.place) :
    m.Leaves fx := by
  obtain ⟨hflow, ref, r, a, href, hr, ha, hfx⟩ := Context.withAccess_writes h
  obtain ⟨space, i, n, hpost⟩ := hm.post hrole
  cases href.symm.trans hpost
  refine ⟨fun w hw => ?_, hflow⟩
  rcases hfx w hw with hw | ⟨ws, hws, hw⟩
  · rw [Context.writes_of_post ha w hw]
    exact ⟨rfl, hrole, _, href, rfl⟩
  · exact hplace r hr _ ws hws w hw

theorem shape_of_ld (hm : m.Bundled) (hrole : m.role = .ld ∨ m.role = .ld2) : m.shape = .rMemM := by
  rcases hrole with hrole | hrole <;> (rw [hm.takes.shape, hrole]; rfl)

theorem opcode_of_ld (hm : m.Bundled) (hrole : m.role = .ld ∨ m.role = .ld2) : m.opcode = .ld := by
  rcases hrole with hrole | hrole <;> exact (hm.takes.opcode (by rw [hrole]; rfl)).trans (by rw [hrole]; rfl)

theorem dataReg?_of_shape (hshape : m.shape = .rMemM) : m.dataReg? = m.reg? 0 := by
  unfold dataReg? operand?
  rw [hshape]
  rfl

theorem destination?_of_ld (hm : m.Bundled) (hrole : m.role = .ld ∨ m.role = .ld2) {r : Reg}
    (hr : m.dataReg? = some r) : r.cls = .general ∧ m.instr.destination? = some ⟨.general, r.index⟩ := by
  have hop := opcode_of_ld hm hrole
  have hshape := shape_of_ld hm hrole
  have hreg : m.reg? 0 = some r := dataReg?_of_shape hshape ▸ hr
  have hslot : m.shape.slots[0]? = some .general := by
    rw [hshape]
    rfl
  have hst : m.opcode ≠ .st := fun hst => by rw [hst] at hop; cases hop
  exact ⟨eq_of_beq (hm.classified.plain_of_reg? hslot hreg).2,
    hm.classified.destination?_eq hslot (by rw [hshape]; rfl) hst hreg⟩

theorem leaves_of_ld (hm : m.Bundled) (hrole : m.role = .ld ∨ m.role = .ld2)
    (h : m.execute cx = .ok fx) : m.Leaves fx := by
  have htransfer : m.role.isTransfer = true := by rcases hrole with hrole | hrole <;> (rw [hrole]; rfl)
  have hload : cx.load m = .ok fx :=
    (execute_eq_run (u := .load) (by rw [opcode_of_ld hm hrole]; rfl)).symm.trans h
  unfold Context.load at hload
  rw [shape_of_ld hm hrole] at hload
  refine leaves_of_transfer hm htransfer hload fun r hr addr ws hws w hw => ?_
  obtain ⟨hcls, hdest⟩ := destination?_of_ld hm hrole hr
  have hne : r.cls ≠ .complex := fun h => by rw [hcls] at h; cases h
  split at hws
  · next hloaded =>
    cases hws
    rw [Context.loaded, if_neg hne] at hloaded
    obtain ⟨v, -, hloaded⟩ := bind_eq_ok_iff.1 hloaded
    cases hloaded
    rw [List.mem_singleton.1 hw]
    exact hdest
  · cases hws

theorem leaves_of_st (hm : m.Bundled) (hrole : m.role = .st) (h : m.execute cx = .ok fx) :
    m.Leaves fx := by
  have hop : m.opcode = .st := (hm.takes.opcode (by rw [hrole]; rfl)).trans (by rw [hrole]; rfl)
  have hstore : cx.store m = .ok fx := (execute_eq_run (u := .store) (by rw [hop]; rfl)).symm.trans h
  refine leaves_of_transfer hm (by rw [hrole]; rfl) hstore fun r hr addr ws hws w hw => ?_
  unfold Context.stored at hws
  split at hws
  · obtain ⟨c, -, hws⟩ := bind_eq_ok_iff.1 hws
    cases hws
    rcases List.mem_cons.1 hw with rfl | hw
    · exact hrole
    · rw [List.mem_singleton.1 hw]
      exact hrole
  · obtain ⟨v, -, hws⟩ := bind_eq_ok_iff.1 hws
    cases hws
    rw [List.mem_singleton.1 hw]
    exact hrole

/-- A bundled operation writes to the places of its part alone, and transfers no control. -/
theorem leaves_of_execute (hm : m.Bundled) (hcoded : m.Coded) (h : m.execute cx = .ok fx) :
    m.Leaves fx := by
  cases hrole : m.role with
  | op => exact absurd hrole hm.role
  | alu => exact leaves_of_alu hm hcoded hrole h
  | mac => exact leaves_of_mac hm hcoded hrole h
  | shf => exact leaves_of_shf hm hcoded hrole h
  | ld => exact leaves_of_ld hm (.inl hrole) h
  | ld2 => exact leaves_of_ld hm (.inr hrole) h
  | st => exact leaves_of_st hm hrole h

/-- Two operations that can stand beside each other in a word. -/
structure Beside (m m' : Member) : Prop where
  role : m.role ≠ m'.role
  destination : m.instr.Apart m'.instr
  index : m.role.isTransfer = true → m'.role.isTransfer = true → ∀ ref ref' i i', m.mem? = some ref →
    m'.mem? = some ref' → ref.mode.index? = some i → ref'.mode.index? = some i' → i ≠ i'
  shf : m.role = .shf → m'.role.isTransfer = true
  shf' : m'.role = .shf → m.role.isTransfer = true

theorem Beside.apart {m m' : Member} (h : m.Beside m') {p p' : Place} (hp : m.Touches p) (hp' : m'.Touches p') :
    p.Apart p' := by
  cases p <;> cases p'
  case reg.reg n n' =>
    intro heq
    cases heq
    exact h.destination _ hp _ hp' rfl
  case acc.acc => exact absurd (Eq.trans hp (Eq.symm hp')) h.role
  case mem.mem => exact absurd (Eq.trans hp (Eq.symm hp')) h.role
  case address.address r r' =>
    obtain ⟨-, htransfer, ref, href, hi⟩ := hp
    obtain ⟨-, htransfer', ref', href', hi'⟩ := hp'
    intro heq
    cases heq
    exact h.index htransfer htransfer' _ _ _ _ href href' hi hi' rfl
  case flags.flags bank group bank' group' =>
    intro _
    rcases hp with ⟨hrole, rfl⟩ | ⟨hrole, rfl⟩ | ⟨hrole, rfl⟩ <;>
      rcases hp' with ⟨hrole', rfl⟩ | ⟨hrole', rfl⟩ | ⟨hrole', rfl⟩
    · exact absurd (hrole.trans hrole'.symm) h.role
    · exact Flags.apart_arith_multiplier
    · exact absurd (h.shf' hrole') (by rw [hrole]; decide)
    · exact Flags.apart_arith_multiplier.symm
    · exact absurd (hrole.trans hrole'.symm) h.role
    · exact absurd (h.shf' hrole') (by rw [hrole]; decide)
    · exact absurd (h.shf hrole) (by rw [hrole']; decide)
    · exact absurd (h.shf hrole) (by rw [hrole']; decide)
    · exact absurd (hrole.trans hrole'.symm) h.role
  case sys.sys => exact hp.elim
  all_goals exact fun heq => Place.noConfusion heq

end Member

theorem WordForm.isTransfer_beside_shf : ∀ t ∈ wordForms, ∀ a ∈ t.parts, ∀ b ∈ t.parts, a.role ≠ b.role →
    a.role = .shf → b.role.isTransfer = true := by
  decide +kernel

/-- Two transfers in one word are two loads, through index registers of different halves. -/
theorem WordForm.loads_of_transfers : ∀ t ∈ wordForms, ∀ a ∈ t.parts, ∀ b ∈ t.parts, a.role ≠ b.role →
    a.role.isTransfer = true → b.role.isTransfer = true →
      (a.role = .ld ∧ b.role = .ld2 ∨ a.role = .ld2 ∧ b.role = .ld) ∧
        Layout.index .ld 2 0 ∈ t.format.layout ∧ Layout.index .ld2 2 4 ∈ t.format.layout := by
  decide +kernel

theorem coded_of_bundleRole {m : Member} {role : Role} (hm : m.role = role)
    (h : bundleRole m.instr m.shape = .ok role) : m.Coded := by
  rcases bundleRole_eq_ok_iff.1 h with ⟨rfl, -⟩ | ⟨rfl, -⟩ | ⟨rfl, -, hop⟩ | ⟨rfl, -, hop⟩ | ⟨rfl, -, hop⟩ <;>
    refine ⟨?_, ?_, ?_⟩ <;> rw [hm] <;> intro hrole <;> first
    | exact hop
    | exact Role.noConfusion hrole

theorem selectBundle_members {i : Instruction} {s : Selection} (h : selectBundle i = .ok s) :
    ∀ m ∈ s.members, m.Bundled ∧ m.Coded := by
  obtain ⟨ms, b, -, hms, -, rfl, -⟩ := selectBundle_eq_ok_iff.1 h
  intro m hm
  obtain ⟨m₀, hm₀, hmark⟩ := exists_left_of_forall₂ (marked_orderLoads ms) hm
  obtain ⟨j, -, hj⟩ := exists_left_of_forall₂ hms hm₀
  refine ⟨(bundled_of_bundleMember hj).2.1.marked hmark, ?_⟩
  obtain ⟨rfl, -, hrole, -⟩ := bundleMember_eq_ok_iff.1 hj
  rcases hmark with rfl | ⟨-, rfl⟩
  · exact coded_of_bundleRole rfl hrole
  · exact ⟨nofun, nofun, nofun⟩

namespace Selection.Fills

variable {s : Selection} {t : WordForm} {i : Instruction} {m m' : Member}

/-- The index register of a bundled transfer is one of those that its field can name. -/
theorem index_of_field (h : s.Fills t i) {role : Role} {width base : Nat}
    (hf : Layout.index role width base ∈ t.format.layout) (hm : s.member? role = some m) {ref : MemRef} {k : Nat}
    (href : m.mem? = some ref) (hk : ref.mode.index? = some k) : base ≤ k ∧ k < base + span width := by
  obtain ⟨v, hv⟩ := h.values _ hf
  obtain ⟨m', hm', hv⟩ := bind_eq_ok_iff.1 hv
  cases hm.symm.trans (orElse_eq_ok_iff.1 hm')
  obtain ⟨x, hx, -⟩ := bind_eq_ok_iff.1 hv
  obtain ⟨ref', href', hx⟩ := bind_eq_ok_iff.1 hx
  cases href.symm.trans (orElse_eq_ok_iff.1 href')
  obtain ⟨k', hk', hx⟩ := bind_eq_ok_iff.1 hx
  cases hk.symm.trans (orElse_eq_ok_iff.1 hk')
  obtain ⟨hlt, hx⟩ := fitField_eq_ok_iff.1 hx
  have hlt : x < span width := hlt
  omega

theorem role_ne (h : s.Fills t i) (ht : t ∈ wordForms) (hm : m ∈ s.members) (hm' : m' ∈ s.members) (hne : m ≠ m') :
    m.role ≠ m'.role :=
  fun hrole => hne (List.inj_on_of_nodup_map (h.nodup_roles ht) hm hm' hrole)

theorem beside (h : s.Fills t i) (ht : t ∈ wordForms) (hstructure : checkStructure i = .ok ())
    (hm : m ∈ s.members) (hm' : m' ∈ s.members) (hne : m ≠ m') : m.Beside m' := by
  have hrole := h.role_ne ht hm hm' hne
  obtain ⟨part, hpart, htakes⟩ := h.takes m hm
  obtain ⟨part', hpart', htakes'⟩ := h.takes m' hm'
  have hparts : part.role ≠ part'.role := htakes.role ▸ htakes'.role ▸ hrole
  refine ⟨hrole, ?_, fun htransfer htransfer' ref ref' k k' href href' hk hk' => ?_, fun hshf => ?_, fun hshf => ?_⟩
  · have hnodup := Instruction.nodup_destinations_iff.1 (checkStructure_eq_ok_iff.1 hstructure).2.2
    rw [← h.instrs, List.pairwise_map] at hnodup
    have hsymm : Std.Symm fun m m' : Member => m.instr.Apart m'.instr := ⟨fun a b hab => symm hab⟩
    exact hnodup.forall hm hm' hne
  · rw [htakes.role] at htransfer
    rw [htakes'.role] at htransfer'
    obtain ⟨hloads, hld, hld2⟩ := WordForm.loads_of_transfers t ht part hpart part' hpart' hparts htransfer htransfer'
    have hmember := h.member?_of_mem ht hm
    have hmember' := h.member?_of_mem ht hm'
    rw [htakes.role] at hmember
    rw [htakes'.role] at hmember'
    have hspan : span 2 = 4 := rfl
    rcases hloads with ⟨hr, hr'⟩ | ⟨hr, hr'⟩ <;> rw [hr] at hmember <;> rw [hr'] at hmember'
    · have hlow := (h.index_of_field hld hmember href hk).2
      have hhigh := (h.index_of_field hld2 hmember' href' hk').1
      omega
    · have hhigh := (h.index_of_field hld2 hmember href hk).1
      have hlow := (h.index_of_field hld hmember' href' hk').2
      omega
  · rw [htakes'.role]
    exact WordForm.isTransfer_beside_shf t ht part hpart part' hpart' hparts (htakes.role ▸ hshf)
  · rw [htakes.role]
    exact WordForm.isTransfer_beside_shf t ht part' hpart' part hpart hparts.symm (htakes'.role ▸ hshf)

/-- Different operations of one word write to different places. -/
theorem apart (h : s.Fills t i) (ht : t ∈ wordForms) (hs : select i = .ok s)
    (hstructure : checkStructure i = .ok ()) (hm : m ∈ s.members) (hm' : m' ∈ s.members) (hne : m ≠ m')
    {cx : Context} {fx fx' : Effects} (hfx : m.execute cx = .ok fx) (hfx' : m'.execute cx = .ok fx') :
    fx.Apart fx' := by
  by_cases hsingle : i.siblings = []
  · have hinstrs := h.instrs
    rw [Instruction.members, hsingle] at hinstrs
    obtain ⟨m₀, hms, -⟩ := List.map_eq_singleton_iff.1 hinstrs
    rw [hms, List.mem_singleton] at hm hm'
    exact absurd (hm.trans hm'.symm) hne
  · rw [select, if_neg (by simpa using hsingle)] at hs
    obtain ⟨hbundled, hcoded⟩ := selectBundle_members hs m hm
    obtain ⟨hbundled', hcoded'⟩ := selectBundle_members hs m' hm'
    exact fun w hw w' hw' => (h.beside ht hstructure hm hm' hne).apart
      ((Member.leaves_of_execute hbundled hcoded hfx).touches w hw)
      ((Member.leaves_of_execute hbundled' hcoded' hfx').touches w' hw')

end Selection.Fills

end QuadDsp
