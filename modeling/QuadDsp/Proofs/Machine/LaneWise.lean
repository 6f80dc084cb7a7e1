import QuadDsp.Proofs.Machine.Bounds
import QuadDsp.Proofs.Machine.LaneView

/-! # Lane by lane

Every operation works lane by lane: in two contexts that look the same it has effects that look the same, or
the same fault (`Member.same_execute`). There are two ways from one lane to another. What is shared follows
lane 0, and the number of a lane can be read; a view has to be anchored for these. The operations of an
instruction that `isLaneLocal` do neither, so for them any view will do. -/

namespace QuadDsp

/-- As a destination, the operand is something that all lanes share. -/
def Operand.isShared : Operand → Bool
  | reg r => r.cls.isAddress
  | sys r => r.writable
  | _ => false

/-- A lane can work on the operand without a look at lane 0, which decides conditions and index registers, or
at its own number. -/
def Operand.isLaneLocal : Operand → Bool
  | cond _ => false
  | sys r => r != .laneId
  | mem r => r.mode.index?.isNone
  | _ => true

/-- The unit can work on what lies in lanes. -/
def ExecUnit.isLaneLocal : ExecUnit → Bool
  | modify | branch | loop | status | mode | reset => false
  | _ => true

/-- The instruction is not a bundle, and what it does to a lane depends on that lane alone and on what is
shared, which it leaves as it is. -/
def Instruction.isLaneLocal (i : Instruction) : Bool :=
  i.siblings.isEmpty && i.opcode.unit?.any ExecUnit.isLaneLocal && !i.operands.head?.any Operand.isShared &&
    i.operands.all Operand.isLaneLocal

theorem Instruction.isLaneLocal_iff {i : Instruction} :
    i.isLaneLocal = true ↔ i.siblings = [] ∧ (∃ u, i.opcode.unit? = some u ∧ u.isLaneLocal = true) ∧
      (∀ o, i.operands.head? = some o → o.isShared = false) ∧ ∀ o ∈ i.operands, o.isLaneLocal = true := by
  cases hhead : i.operands.head? <;> simp [isLaneLocal, hhead, Option.any_eq_true, and_assoc]

namespace Member

variable {ρ : LaneView} {m : Member}

theorem Classified.anchored (hm : m.Classified) (hlocal : ρ.Anchored ∨ m.instr.isLaneLocal = true) {slots : List Slot}
    (hslots : m.shape.slots = .address :: slots) (hmode : m.shape.needsMode = false) : ρ.Anchored := by
  refine hlocal.resolve_right fun hlocal => ?_
  obtain ⟨o, rest, hops, ho, -⟩ := hm.first_operand hslots hmode
  have hfalse := (Instruction.isLaneLocal_iff.1 hlocal).2.2.1 o (by rw [hops]; rfl)
  cases o <;> simp_all [Slot.accepts, Operand.isShared]

/-- A system register in front can be written under an anchored view only, or not at all. -/
theorem anchored_or_readOnly (hlocal : ρ.Anchored ∨ m.instr.isLaneLocal = true) {r : SysReg} {rest : List Operand}
    (hops : m.instr.operands = .sys r :: rest) : ρ.Anchored ∨ r.writable = false :=
  hlocal.imp_right fun hlocal => (Instruction.isLaneLocal_iff.1 hlocal).2.2.1 (.sys r) (by rw [hops]; rfl)

theorem mem_operands_of_mem? {ref : MemRef} (h : m.mem? = some ref) : Operand.mem ref ∈ m.instr.operands := by
  have hoperand : m.operand? .mem = some (.mem ref) := by
    unfold mem? at h
    split at h
    · next r hr =>
      cases h
      exact hr
    · cases h
  obtain ⟨n, -, hn⟩ := Option.bind_eq_some_iff.1 hoperand
  exact (List.mem_filter.1 (List.mem_of_getElem? hn)).1

end Member

namespace LaneView

/-- Contexts that look the same, of words that may take effect in different lanes. -/
structure SameContext (ρ : LaneView) (cx cx' : Context) : Prop where
  core : ρ.SameCore cx.core cx'.core
  mem : ρ.SameMemory cx.mem cx'.mem
  program : cx'.program = cx.program

variable {ρ : LaneView}

section Effects

variable {mask mask' : Mask}

theorem sameEffects_result (rd : Nat) (group : Flags) {v v' : Lanes Flagged} (h : ρ.Same v v') :
    ρ.SameEffects mask mask' (.result rd group v) (.result rd group v') :=
  .of_writes _ _ (.cons (.reg rd (h.map _)) (.cons (.flags .real group (h.map _)) .nil))

theorem sameEffects_flagsOnly (group : Flags) {v v' : Lanes Flagged} (h : ρ.Same v v') :
    ρ.SameEffects mask mask' (.flagsOnly group v) (.flagsOnly group v') :=
  .of_writes _ _ (.cons (.flags .real group (h.map _)) .nil)

theorem sameEffects_complex (rd : Nat) {v v' : Lanes ComplexResult} (h : ρ.Same v v') :
    ρ.SameEffects mask mask' (ComplexResult.effects rd v) (ComplexResult.effects rd v') :=
  .of_writes _ _ (.cons (.reg _ (h.map _)) (.cons (.reg _ (h.map _)) (.cons (.flags .real .arith (h.map _))
    (.cons (.flags .imag .arith (h.map _)) (.cons (.flags .both .arith (h.map _)) .nil)))))

theorem sameEffects_single {w w' : Write} (h : ρ.SameWrite w w') :
    ρ.SameEffects mask mask' (.ofWrites [w]) (.ofWrites [w']) :=
  .of_writes _ _ (.cons h .nil)

end Effects

namespace SameCore

variable {s s' : Core} (h : ρ.SameCore s s')

include h

theorem reg (i : Nat) : Agree ρ.Same (s.reg i) (s'.reg i) := h.regs.fetch i

theorem acc (i : Nat) : Agree ρ.Same (s.acc i) (s'.acc i) := h.accs.fetch i

theorem pair (i : Nat) : Agree ρ.Same (s.pair i) (s'.pair i) :=
  (h.reg _).bind fun _ _ hre => (h.reg _).bind fun _ _ him => .ok (hre.zipWith him _)

theorem accView (i : Nat) (view : AccView) : Agree ρ.Same (s.accView i view) (s'.accView i view) :=
  (h.acc i).bind fun _ _ hacc => .ok (hacc.map _)

theorem address (r : Reg) : s'.address r = s.address r := by
  unfold Core.address
  rw [h.index, h.modify, h.length, h.base]

theorem stepIndex (i : Nat) (delta : Int) : s'.stepIndex i delta = s.stepIndex i delta := by
  unfold Core.stepIndex
  rw [h.index, h.base, h.length]

/-- A system register as the lanes read it. Lanes with other numbers read another number. -/
theorem sys {r : SysReg} (hr : ρ.Anchored ∨ r ≠ .laneId) : ρ.Same (s.sys r) (s'.sys r) := by
  cases r <;> simp only [Core.sys, h.counter, h.modes]
  case counter => exact .fill _
  case mode => exact .fill _
  case status => exact h.flags.map _
  case laneId =>
    have hρ := hr.resolve_right fun hne => hne rfl
    exact .ofFn fun l hl => by rw [hρ.origin l hl]

end SameCore

end LaneView

namespace Context

variable {ρ : LaneView} {cx cx' : Context} {m : Member} (h : ρ.SameContext cx cx')

include h

theorem same_reg (n : Nat) : Agree ρ.Same (cx.reg m n) (cx'.reg m n) :=
  .bind_same _ fun i => h.core.reg i

theorem same_pair (n : Nat) : Agree ρ.Same (cx.pair m n) (cx'.pair m n) :=
  .bind_same _ fun i => h.core.pair i

theorem same_input (n : Nat) (isImmediate : Bool) :
    Agree ρ.Same (cx.input m n isImmediate) (cx'.input m n isImmediate) := by
  unfold input
  split
  · exact .bind_same _ fun v => .ok (.fill v)
  · exact same_reg h n

/-! ### Results -/

theorem same_binary : Agree (ρ.SameEffects cx.mask cx'.mask) (cx.binary m) (cx'.binary m) := by
  refine .bind_same _ fun rd => (same_reg h 1).bind fun a a' ha => (same_input h 2 _).bind fun b b' hb => ?_
  refine .ok (LaneView.sameEffects_result rd _ (.ofFn fun l hl => ?_))
  rw [ha l hl, hb l hl, h.core.flags l hl, h.core.modes]

theorem same_unary : Agree (ρ.SameEffects cx.mask cx'.mask) (cx.unary m) (cx'.unary m) := by
  refine .bind_same _ fun rd => (same_reg h 1).bind fun x x' hx => ?_
  rw [h.core.modes]
  exact .ok (LaneView.sameEffects_result rd _ (hx.map _))

omit h in
theorem same_clearReg : Agree (ρ.SameEffects cx.mask cx'.mask) (clearReg m) (clearReg m) :=
  .bind_same _ fun rd => .ok (LaneView.sameEffects_result rd _ (.fill _))

theorem same_compare : Agree (ρ.SameEffects cx.mask cx'.mask) (cx.compare m) (cx'.compare m) := by
  refine (same_reg h 0).bind fun a a' ha => ?_
  split
  · exact (same_input h 1 _).bind fun b b' hb => .ok (LaneView.sameEffects_flagsOnly _ (ha.zipWith hb _))
  · exact (same_input h 1 _).bind fun b b' hb => .ok (LaneView.sameEffects_flagsOnly _ (ha.zipWith hb _))
  · exact .error _

theorem same_testBit : Agree (ρ.SameEffects cx.mask cx'.mask) (cx.testBit m) (cx'.testBit m) :=
  (same_reg h 0).bind fun _ _ ha => .bind_same _ fun _ => .ok (LaneView.sameEffects_flagsOnly _ (ha.map _))

theorem same_divide : Agree (ρ.SameEffects cx.mask cx'.mask) (cx.divide m) (cx'.divide m) := by
  refine .bind_same _ fun rd => (same_reg h 1).bind fun div div' hdiv => ?_
  refine (h.core.reg rd).bind fun rem rem' hrem => (h.core.reg (rd + 1)).bind fun quo quo' hquo => ?_
  have hsteps : ρ.Same
      (.ofFn fun l => Alu.divideStep (m.opcode == .divs) (rem l) (quo l) (div l) (cx.core.flags l).real.quotient)
      (.ofFn fun l => Alu.divideStep (m.opcode == .divs) (rem' l) (quo' l) (div' l) (cx'.core.flags l).real.quotient) :=
    .ofFn fun l hl => by rw [hrem l hl, hquo l hl, hdiv l hl, h.core.flags l hl]
  exact .ok (.of_writes _ _ (.cons (.reg _ (hsteps.map _)) (.cons (.reg _ (hsteps.map _))
    (.cons (.flags _ _ (hsteps.map _)) .nil))))

theorem same_shift : Agree (ρ.SameEffects cx.mask cx'.mask) (cx.shift m) (cx'.shift m) := by
  refine .bind_same _ fun rd => (same_reg h 1).bind fun a a' ha => ?_
  split
  · exact (same_input h 2 _).bind fun n n' hn => .ok (LaneView.sameEffects_result rd _ (ha.zipWith hn _))
  · exact (same_input h 2 _).bind fun n n' hn => .ok (LaneView.sameEffects_result rd _ (ha.zipWith hn _))
  · exact .error _

theorem same_complexBinary : Agree (ρ.SameEffects cx.mask cx'.mask) (cx.complexBinary m) (cx'.complexBinary m) := by
  refine .bind_same _ fun rd => (same_pair h 1).bind fun a a' ha => (same_pair h 2).bind fun b b' hb => ?_
  have hresult (subtract : Bool) : ρ.Same
      (.ofFn fun l => Alu.complexBinary subtract (a l) ((b.map (ComplexPair.conjIf m.instr.conjugate)) l)
        cx.core.modes.aluSat)
      (.ofFn fun l => Alu.complexBinary subtract (a' l) ((b'.map (ComplexPair.conjIf m.instr.conjugate)) l)
        cx'.core.modes.aluSat) :=
    .ofFn fun l hl => by rw [ha l hl, (hb.map _) l hl, h.core.modes]
  dsimp only
  split
  · exact .ok (LaneView.sameEffects_complex rd (hresult false))
  · exact .ok (LaneView.sameEffects_complex rd (hresult true))
  · exact .error _

theorem same_complexMap (f : ComplexPair → ComplexResult) :
    Agree (ρ.SameEffects cx.mask cx'.mask) (cx.complexMap m f) (cx'.complexMap m f) := by
  unfold complexMap
  split
  · exact .bind_same _ fun rd => (same_pair h 1).bind fun x x' hx => .ok (LaneView.sameEffects_complex rd (hx.map _))
  · exact .error _

theorem same_complexUnary : Agree (ρ.SameEffects cx.mask cx'.mask) (cx.complexUnary m) (cx'.complexUnary m) := by
  unfold complexUnary
  rw [h.core.modes]
  exact same_complexMap h _

theorem same_convert : Agree (ρ.SameEffects cx.mask cx'.mask) (cx.convert m) (cx'.convert m) := by
  unfold convert
  exact same_complexMap h _

theorem same_multiplyReal (acc x y : Nat) :
    Agree (ρ.SameEffects cx.mask cx'.mask) (cx.multiplyReal m acc x y) (cx'.multiplyReal m acc x y) := by
  refine (h.core.reg x).bind fun a a' ha => (h.core.reg y).bind fun b b' hb => (h.core.acc acc).bind fun c c' hc => ?_
  have hv : ρ.Same
      (.ofFn fun l => Multiplier.step m.opcode m.mulMode cx.core.modes.macSat (c l)
        (Multiplier.product m.mulMode (a l) (b l)))
      (.ofFn fun l => Multiplier.step m.opcode m.mulMode cx'.core.modes.macSat (c' l)
        (Multiplier.product m.mulMode (a' l) (b' l))) :=
    .ofFn fun l hl => by rw [ha l hl, hb l hl, hc l hl, h.core.modes]
  exact .ok (.of_writes _ _ (.cons (.acc _ (hv.map _)) (.cons (.flags _ _ (hv.map _)) .nil)))

theorem same_multiplyComplex (acc x y : Nat) :
    Agree (ρ.SameEffects cx.mask cx'.mask) (cx.multiplyComplex m acc x y) (cx'.multiplyComplex m acc x y) := by
  unfold multiplyComplex
  split
  · exact .error _
  refine (h.core.pair x).bind fun a a' ha => (h.core.pair y).bind fun b b' hb => ?_
  refine (h.core.acc acc).bind fun c c' hc => (h.core.acc (acc + 1)).bind fun d d' hd => ?_
  have hb := hb.map (ComplexPair.conjIf m.instr.conjugate)
  generalize b.map (ComplexPair.conjIf m.instr.conjugate) = b at hb ⊢
  generalize b'.map (ComplexPair.conjIf m.instr.conjugate) = b' at hb ⊢
  rw [h.core.modes]
  generalize Multiplier.step m.opcode m.mulMode cx.core.modes.macSat = step
  have hre : ρ.Same (.ofFn fun l => step (c l) ((a l).re * (b l).re - (a l).im * (b l).im))
      (.ofFn fun l => step (c' l) ((a' l).re * (b' l).re - (a' l).im * (b' l).im)) :=
    .ofFn fun l hl => by rw [ha l hl, hb l hl, hc l hl]
  have him : ρ.Same (.ofFn fun l => step (d l) ((a l).re * (b l).im + (a l).im * (b l).re))
      (.ofFn fun l => step (d' l) ((a' l).re * (b' l).im + (a' l).im * (b' l).re)) :=
    .ofFn fun l hl => by rw [ha l hl, hb l hl, hd l hl]
  exact .ok (.of_writes _ _ (.cons (.acc _ (hre.map _)) (.cons (.acc _ (him.map _)) (.cons (.flags _ _ (hre.map _))
    (.cons (.flags _ _ (him.map _)) (.cons (.flags _ _ ((hre.map _).zipWith (him.map _) _)) .nil))))))

theorem same_multiply : Agree (ρ.SameEffects cx.mask cx'.mask) (cx.multiply m) (cx'.multiply m) := by
  refine .bind_same _ fun acc => .bind_same _ fun x => .bind_same _ fun y => ?_
  split
  · exact same_multiplyReal h acc x y
  · exact same_multiplyComplex h acc x y
  · exact .error _

theorem same_accumulator : Agree (ρ.SameEffects cx.mask cx'.mask) (cx.accumulator m) (cx'.accumulator m) := by
  refine .bind_same _ fun acc => (h.core.acc acc).bind fun old old' hold => ?_
  rw [h.core.modes]
  have hv := hold.map fun a => Multiplier.whole m.opcode a cx.core.modes.macSat
  exact .ok (.of_writes _ _ (.cons (.acc _ (hv.map _)) (.cons (.flags _ _ (hv.map _)) .nil)))

/-! ### Transfers -/

theorem access_eq (mode : AddrMode) : cx'.access mode = cx.access mode := by
  have hreversed (i addr : Nat) : cx'.core.reversed i addr = cx.core.reversed i addr := by
    unfold Core.reversed
    rw [h.core.modes]
  unfold access
  simp only [Core.accessBefore, Core.accessAfter, h.program, h.core.index, h.core.modify, h.core.stepIndex, hreversed]

theorem accessFault?_eq (addr : Nat) (isComplex : Bool) :
    cx'.accessFault? addr isComplex = cx.accessFault? addr isComplex := by
  unfold accessFault?
  rw [h.mem.fault?]

theorem same_readPair (addr : Nat) : Agree ρ.Same (cx.readPair addr) (cx'.readPair addr) :=
  (h.mem.read addr).bind fun _ _ hhigh => (h.mem.read (addr + 1)).bind fun _ _ hlow => .ok (hhigh.zipWith hlow _)

theorem same_loaded (r : Reg) (addr : Nat) :
    Agree (List.Forall₂ ρ.SameWrite) (cx.loaded r addr) (cx'.loaded r addr) := by
  unfold loaded
  split
  · exact (same_readPair h addr).bind fun c c' hc =>
      .ok (.cons (.reg _ (hc.map _)) (.cons (.reg _ (hc.map _)) .nil))
  · exact (h.mem.read addr).bind fun v v' hv => .ok (.cons (.reg _ hv) .nil)

theorem same_stored (r : Reg) (addr : Nat) :
    Agree (List.Forall₂ ρ.SameWrite) (cx.stored r addr) (cx'.stored r addr) := by
  unfold stored
  split
  · refine (h.core.pair r.index).bind fun c c' hc => ?_
    have hc := hc.map ComplexPair.pack
    exact .ok (.cons (.mem _ (hc.map _)) (.cons (.mem _ (hc.map _)) .nil))
  · exact (h.core.reg r.index).bind fun v v' hv => .ok (.cons (.mem _ hv) .nil)

omit h in
theorem same_writes_of_access {mode : AddrMode} (hlocal : ρ.Anchored ∨ mode.index? = none) {a : Access}
    (ha : cx.access mode = .ok a) : List.Forall₂ ρ.SameWrite a.writes a.writes := by
  rcases hlocal with hρ | hindex
  · unfold Access.writes
    split
    · exact .cons (.address _ _ hρ) .nil
    · exact .nil
  · have hnone : a.update = none := by
      cases mode with
      | direct addr => cases ha; rfl
      | symbol name =>
        simp only [access] at ha
        split at ha <;> cases ha
        rfl
      | _ => cases hindex
    rw [Access.writes, hnone]
    exact .nil

theorem same_withAccess (hlocal : ρ.Anchored ∨ m.instr.isLaneLocal = true)
    {writes writes' : Reg → Nat → Except ExecError (List Write)}
    (hwrites : ∀ r addr, Agree (List.Forall₂ ρ.SameWrite) (writes r addr) (writes' r addr)) :
    Agree (ρ.SameEffects cx.mask cx'.mask) (cx.withAccess m writes) (cx'.withAccess m writes') := by
  unfold withAccess
  cases hmem : m.mem? with
  | none => exact .error _
  | some ref =>
    have hindex : ρ.Anchored ∨ ref.mode.index? = none := by
      refine hlocal.imp_right fun hlocal => ?_
      have href := (Instruction.isLaneLocal_iff.1 hlocal).2.2.2 _ (Member.mem_operands_of_mem? hmem)
      exact Option.isNone_iff_eq_none.1 href
    refine .bind_same (m.need m.dataReg?) fun r => ?_
    rw [access_eq h]
    cases ha : cx.access ref.mode with
    | error e => exact .error e
    | ok a =>
      have hsteps := same_writes_of_access hindex ha
      simp only [bind, Except.bind]
      rw [accessFault?_eq h]
      split
      · exact .ok (.of_quiet hsteps rfl rfl rfl)
      · exact (hwrites r a.addr).bind fun ws ws' hws => .ok (.of_writes _ _ (List.rel_append hsteps hws))

theorem same_store (hlocal : ρ.Anchored ∨ m.instr.isLaneLocal = true) :
    Agree (ρ.SameEffects cx.mask cx'.mask) (cx.store m) (cx'.store m) := by
  unfold store
  exact same_withAccess h hlocal (same_stored h)

theorem same_load (hm : m.Classified) (hlocal : ρ.Anchored ∨ m.instr.isLaneLocal = true) :
    Agree (ρ.SameEffects cx.mask cx'.mask) (cx.load m) (cx'.load m) := by
  unfold load
  split
  · exact .bind_same _ fun rd => .bind_same _ fun v => .ok (LaneView.sameEffects_single (.reg rd (.fill v)))
  · next hshape =>
    have hρ := hm.anchored hlocal (by rw [hshape]; rfl) (by rw [hshape]; rfl)
    exact .bind_same _ fun r => .bind_same _ fun v => .ok (LaneView.sameEffects_single (.address r v hρ))
  · split
    · next r _ hops =>
      refine .bind_same _ fun v => .ok (LaneView.sameEffects_single ?_)
      exact (Member.anchored_or_readOnly hlocal hops).elim (.sys r v) (.readOnly r v v)
    · exact .error _
  · refine same_withAccess h hlocal fun r addr => ?_
    have hloaded := same_loaded h r addr
    generalize cx.loaded r addr = x at hloaded ⊢
    generalize cx'.loaded r addr = x' at hloaded ⊢
    cases hloaded with
    | ok hws => exact .ok hws
    | error e => exact .error _

theorem same_move (hm : m.Classified) (hlocal : ρ.Anchored ∨ m.instr.isLaneLocal = true) :
    Agree (ρ.SameEffects cx.mask cx'.mask) (cx.move m) (cx'.move m) := by
  unfold move
  dsimp only
  split
  · exact (h.core.reg _).bind fun v v' hv => .ok (LaneView.sameEffects_single (.reg _ hv))
  · exact (h.core.accView _ _).bind fun v v' hv => .ok (LaneView.sameEffects_single (.reg _ hv))
  · exact (h.core.reg _).bind fun v v' hv => .ok (LaneView.sameEffects_single (.accView _ _ hv))
  · rw [h.core.address]
    exact .bind_same _ fun v => .ok (LaneView.sameEffects_single (.reg _ (.fill _)))
  · next hshape _ =>
    have hρ := hm.anchored hlocal (by rw [hshape]; rfl) (by rw [hshape]; rfl)
    refine (h.core.reg _).bind fun v v' hv => ?_
    rw [hρ.eq_first hv]
    exact .ok (LaneView.sameEffects_single (.address _ _ hρ))
  · next r _ _ hops =>
    have hr : ρ.Anchored ∨ r ≠ .laneId := by
      refine hlocal.imp_right fun hlocal => ?_
      have hread := (Instruction.isLaneLocal_iff.1 hlocal).2.2.2 (.sys r) (by simp [hops])
      exact bne_iff_ne.1 hread
    exact .ok (LaneView.sameEffects_single (.reg _ (h.core.sys hr)))
  · next r _ _ _ hops =>
    refine (h.core.reg _).bind fun v v' hv => .ok (LaneView.sameEffects_single ?_)
    rcases Member.anchored_or_readOnly hlocal hops with hρ | hr
    · rw [hρ.eq_first hv]
      exact .sys r _ hρ
    · exact .readOnly r _ _ hr
  · exact .error _

theorem same_modify (hρ : ρ.Anchored) : Agree (ρ.SameEffects cx.mask cx'.mask) (cx.modify m) (cx'.modify m) := by
  unfold modify
  rw [h.core.modify]
  refine .bind_same _ fun i => .bind_same _ fun k => .bind_same _ fun delta => ?_
  rw [h.core.stepIndex]
  exact .bind_same _ fun v => .ok (LaneView.sameEffects_single (.address i v hρ))

/-! ### The sequencer -/

omit h in
/-- What is asked of the sequencer follows lane 0. -/
theorem same_gated (hρ : ρ.Anchored) (f : Flow) : ρ.SameEffects cx.mask cx'.mask (cx.gated f) (cx'.gated f) :=
  ⟨.nil, rfl, some f, fun _ => hρ, rfl, rfl⟩

theorem target_eq (t : Target) : cx'.target t = cx.target t := by
  unfold target
  rw [h.program]

theorem same_branch (hρ : ρ.Anchored) : Agree (ρ.SameEffects cx.mask cx'.mask) (cx.branch m) (cx'.branch m) := by
  unfold branch
  generalize m.opcode = op
  dsimp only
  split
  · exact .ok (same_gated hρ _)
  · split
    · rw [target_eq h]
      exact .bind_same _ fun t => .ok (same_gated hρ _)
    · exact .error _
  · rw [h.core.index]
    exact .bind_same _ fun k => .bind_same _ fun t => .ok (same_gated hρ _)
  · exact .error _

theorem same_loop (hρ : ρ.Anchored) : Agree (ρ.SameEffects cx.mask cx'.mask) (cx.loop m) (cx'.loop m) := by
  unfold loop
  split
  · rw [target_eq h]
    exact .bind_same _ fun last => .ok (same_gated hρ _)
  · exact .error _

omit h in
theorem same_status (hρ : ρ.Anchored) : Agree (ρ.SameEffects cx.mask cx'.mask) (cx.status m) (cx'.status m) := by
  unfold status
  split
  · exact .ok (same_gated hρ _)
  · exact .ok (same_gated hρ _)
  · exact .error _

omit h in
theorem same_mode (hρ : ρ.Anchored) : Agree (ρ.SameEffects cx.mask cx'.mask) (mode m) (mode m) := by
  unfold mode
  split
  · exact .ok (LaneView.sameEffects_single (.modes _ _ hρ))
  · exact .error _

theorem same_arithmetic :
    Agree (ρ.SameEffects cx.mask cx'.mask) (ExecUnit.run.arithmetic cx m) (ExecUnit.run.arithmetic cx' m) := by
  unfold ExecUnit.run.arithmetic
  split
  · exact same_complexBinary h
  · exact same_binary h
  · exact same_binary h
  · exact .error _

end Context

namespace ExecUnit

variable {ρ : LaneView} {cx cx' : Context} {m : Member} {u : ExecUnit}

open Context in
/-- A unit does the same in contexts that look the same. -/
theorem same_run (h : ρ.SameContext cx cx') (hm : m.Classified) (hunit : m.opcode.unit? = some u)
    (hlocal : ρ.Anchored ∨ m.instr.isLaneLocal = true) :
    Agree (ρ.SameEffects cx.mask cx'.mask) (u.run cx m) (u.run cx' m) := by
  have hanchored (hu : u.isLaneLocal = false) : ρ.Anchored := by
    refine hlocal.resolve_right fun hlocal => ?_
    obtain ⟨u', hunit', htrue⟩ := (Instruction.isLaneLocal_iff.1 hlocal).2.1
    cases hunit.symm.trans hunit'
    rw [hu] at htrue
    cases htrue
  cases u with
  | binary => exact same_arithmetic h
  | unary =>
    simp only [run]
    split
    · exact same_complexUnary h
    · exact same_unary h
    · exact .error _
  | clear =>
    simp only [run]
    split
    · exact same_accumulator h
    · exact same_clearReg
    · exact .error _
  | compare => exact same_compare h
  | divide => exact same_divide h
  | bits =>
    simp only [run]
    split
    · exact same_testBit h
    · exact same_arithmetic h
  | shift => exact same_shift h
  | multiply => exact same_multiply h
  | accumulator => exact same_accumulator h
  | conjugate => exact same_complexUnary h
  | convert => exact same_convert h
  | load => exact same_load h hm hlocal
  | store => exact same_store h hlocal
  | move => exact same_move h hm hlocal
  | modify => exact same_modify h (hanchored rfl)
  | branch => exact same_branch h (hanchored rfl)
  | loop => exact same_loop h (hanchored rfl)
  | status => exact same_status (hanchored rfl)
  | mode => exact same_mode (hanchored rfl)
  | idle => exact .ok (.of_quiet .nil rfl rfl rfl)
  | reset => exact .ok (same_gated (hanchored rfl) _)

end ExecUnit

section Words

variable {ρ : LaneView} {cx cx' : Context}

/-- An operation has the same effects, or the same fault, in contexts that look the same. -/
theorem Member.same_execute {m : Member} (h : ρ.SameContext cx cx') (hm : m.Classified)
    (hlocal : ρ.Anchored ∨ m.instr.isLaneLocal = true) :
    Agree (ρ.SameEffects cx.mask cx'.mask) (m.execute cx) (m.execute cx') := by
  unfold execute
  cases hunit : m.opcode.unit? with
  | none => exact .error _
  | some u => exact ExecUnit.same_run h hm hunit hlocal

/-- So have the operations of a word. -/
theorem same_executeMembers (h : ρ.SameContext cx cx') {ms : List Member}
    (hms : ∀ m ∈ ms, m.Classified ∧ (ρ.Anchored ∨ m.instr.isLaneLocal = true)) {fx fx' : Effects}
    (hfx : ρ.SameEffects cx.mask cx'.mask fx fx') :
    Agree (ρ.SameEffects cx.mask cx'.mask) (executeMembers cx fx ms) (executeMembers cx' fx' ms) := by
  induction ms generalizing fx fx' with
  | nil => exact .ok hfx
  | cons m rest ih =>
    obtain ⟨hm, hlocal⟩ := hms m List.mem_cons_self
    exact (Member.same_execute h hm hlocal).bind fun other other' hother =>
      ih (fun m hm => hms m (List.mem_cons_of_mem _ hm)) (hfx.and hother)

end Words

end QuadDsp
