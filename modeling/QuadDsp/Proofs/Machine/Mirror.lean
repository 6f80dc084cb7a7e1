import QuadDsp.Machine.Execute
import QuadDsp.Proofs.Word.ReadBack

/-! # Executing what is read back

An operation that is read back from its word has the effects of the operation that the word encodes
(`Member.Mirrors.execute`). Only an immediate that may have either sign can be read back as another
number, and only loads have one; the wider formats of loads are looked at one by one. An operation that
fails has no effects, so results are compared without their errors. -/

namespace QuadDsp

section Results

variable {ε α β : Type}

@[simp] theorem toOption_ok (a : α) : (.ok a : Except ε α).toOption = some a := rfl

@[simp] theorem toOption_error (e : ε) : (.error e : Except ε α).toOption = none := rfl

@[simp] theorem toOption_pure (a : α) : (pure a : Except ε α).toOption = some a := rfl

@[simp] theorem toOption_bind (x : Except ε α) (f : α → Except ε β) :
    (x >>= f).toOption = x.toOption.bind fun a => (f a).toOption := by
  cases x <;> rfl

@[simp] theorem toOption_need (m : Member) (o : Option α) : (m.need o).toOption = o := by
  cases o <;> rfl

@[simp] theorem toOption_refuse (m : Member) : (m.refuse : Except ExecError α).toOption = none := rfl

end Results

/-- The second operand or the factor of the operation can be conjugated. -/
def Shape.isConjugable : Shape → Bool
  | crCrCr | crCr | accCrCr => true
  | _ => false

/-- The operation `m'` is `m` as it is read back, by a program with the names of `p`, from a word whose
immediate has `wide` bits of either sign. -/
structure Member.Mirrors (p : Program) (wide : Option Nat) (m m' : Member) : Prop where
  opcode : m'.opcode = m.opcode
  shape : m'.shape = m.shape
  mode : m'.mode = m.mode
  plain : m'.instr.plain = m.instr.plain.map (·.readBack p wide)
  operands : m.opcode.isMac = false → m'.instr.operands = m.instr.operands.map (·.readBack p wide)
  conjugate : m.shape.isConjugable = true → m'.instr.conjugate = m.instr.conjugate

namespace Member.Mirrors

variable {p : Program} {wide : Option Nat} {m m' : Member}

theorem nth? (h : m.Mirrors p wide m') (n : Nat) : m'.nth? n = (m.nth? n).map (·.readBack p wide) := by
  have hplain (m : Member) : m.nth? n = m.instr.plain[n]? := rfl
  rw [hplain, hplain, h.plain, List.getElem?_map]

theorem operand? (h : m.Mirrors p wide m') (arg : Arg) :
    m'.operand? arg = (m.operand? arg).map (·.readBack p wide) := by
  have hslot (o : Option Nat) : o.bind m'.nth? = (o.bind m.nth?).map (·.readBack p wide) := by
    cases o with
    | none => rfl
    | some n => exact h.nth? n
  cases arg with
  | nth n => exact h.nth? n
  | mem => rw [Member.operand?, Member.operand?, h.shape, hslot]
  | data => rw [Member.operand?, Member.operand?, h.shape, hslot]

theorem reg?_readBack (o : Operand) : (o.readBack p wide).reg? = o.reg? := by
  cases o <;> rfl

theorem reg?_operand? (h : m.Mirrors p wide m') (arg : Arg) :
    (m'.operand? arg).bind Operand.reg? = (m.operand? arg).bind Operand.reg? := by
  rw [h.operand?, Option.bind_map]
  exact congrArg _ (funext reg?_readBack)

theorem reg? (h : m.Mirrors p wide m') (n : Nat) : m'.reg? n = m.reg? n := h.reg?_operand? (.nth n)

theorem dataReg? (h : m.Mirrors p wide m') : m'.dataReg? = m.dataReg? := h.reg?_operand? .data

theorem mem? (h : m.Mirrors p wide m') : m'.mem? = m.mem?.map fun r => ⟨r.space, r.mode.resolved p⟩ := by
  unfold Member.mem?
  rw [h.operand?]
  cases m.operand? .mem with
  | none => rfl
  | some o => cases o <;> rfl

theorem imm? (h : m.Mirrors p wide m') (n : Nat) :
    m'.imm? n = (m.imm? n).map fun v => wide.elim v fun w => wrap w v := by
  unfold Member.imm?
  rw [h.operand?]
  cases m.operand? (.nth n) with
  | none => rfl
  | some o => cases o <;> rfl

theorem mulMode (h : m.Mirrors p wide m') : m'.mulMode = m.mulMode := by
  rw [Member.mulMode, h.mode, Member.mulMode]

theorem register (h : m.Mirrors p wide m') (n : Nat) : (m'.register n).toOption = (m.register n).toOption := by
  rw [Member.register, Member.register, toOption_need, toOption_need, h.reg?]

theorem regIndex (h : m.Mirrors p wide m') (n : Nat) : (m'.regIndex n).toOption = (m.regIndex n).toOption := by
  simp only [Member.regIndex, toOption_bind, h.register, toOption_pure]

theorem immediate (h : m.Mirrors p none m') (n : Nat) :
    (m'.immediate n).toOption = (m.immediate n).toOption := by
  simp only [Member.immediate, toOption_bind, toOption_need, h.imm?, Option.elim_none, Option.map_id',
    toOption_pure]

end Member.Mirrors

/-- The same context in another program. -/
def Context.within (cx : Context) (q : Program) : Context := { cx with program := q }

namespace Context

section

variable (cx : Context) (q : Program)

@[simp] theorem core_within : (cx.within q).core = cx.core := rfl

@[simp] theorem mem_within : (cx.within q).mem = cx.mem := rfl

@[simp] theorem mask_within : (cx.within q).mask = cx.mask := rfl

end

variable {p : Program} {m m' : Member} (cx : Context) (q : Program)

theorem reg_mirrors (h : m.Mirrors p none m') (n : Nat) :
    ((cx.within q).reg m' n).toOption = (cx.reg m n).toOption := by
  simp only [reg, toOption_bind, h.regIndex, core_within]

theorem pair_mirrors (h : m.Mirrors p none m') (n : Nat) :
    ((cx.within q).pair m' n).toOption = (cx.pair m n).toOption := by
  simp only [pair, toOption_bind, h.regIndex, core_within]

theorem input_mirrors (h : m.Mirrors p none m') (n : Nat) (isImmediate : Bool) :
    ((cx.within q).input m' n isImmediate).toOption = (cx.input m n isImmediate).toOption := by
  unfold input
  cases isImmediate with
  | false => exact cx.reg_mirrors q h n
  | true => simp only [if_true, toOption_bind, h.immediate, toOption_pure]

theorem binary_mirrors (h : m.Mirrors p none m') :
    ((cx.within q).binary m').toOption = (cx.binary m).toOption := by
  simp only [binary, toOption_bind, h.regIndex, cx.reg_mirrors q h, cx.input_mirrors q h, h.shape, h.opcode,
    core_within, toOption_pure]

theorem unary_mirrors (h : m.Mirrors p none m') :
    ((cx.within q).unary m').toOption = (cx.unary m).toOption := by
  simp only [unary, toOption_bind, h.regIndex, cx.reg_mirrors q h, h.opcode, core_within, toOption_pure]

theorem clearReg_mirrors (h : m.Mirrors p none m') : (clearReg m').toOption = (clearReg m).toOption := by
  simp only [clearReg, toOption_bind, h.regIndex, toOption_pure]

theorem compare_mirrors (h : m.Mirrors p none m') :
    ((cx.within q).compare m').toOption = (cx.compare m).toOption := by
  simp only [compare, toOption_bind, cx.reg_mirrors q h, h.shape]
  refine Option.bind_congr fun a _ => ?_
  split <;> simp only [toOption_bind, cx.input_mirrors q h, toOption_pure, toOption_refuse]

theorem testBit_mirrors (h : m.Mirrors p none m') :
    ((cx.within q).testBit m').toOption = (cx.testBit m).toOption := by
  simp only [testBit, toOption_bind, cx.reg_mirrors q h, h.immediate, toOption_pure]

theorem divide_mirrors (h : m.Mirrors p none m') :
    ((cx.within q).divide m').toOption = (cx.divide m).toOption := by
  simp only [divide, toOption_bind, h.regIndex, cx.reg_mirrors q h, h.opcode, core_within, toOption_pure]

theorem shift_mirrors (h : m.Mirrors p none m') :
    ((cx.within q).shift m').toOption = (cx.shift m).toOption := by
  simp only [shift, toOption_bind, h.regIndex, cx.reg_mirrors q h, h.shape]
  refine Option.bind_congr fun rd _ => Option.bind_congr fun a _ => ?_
  split <;> simp only [toOption_bind, cx.input_mirrors q h, h.opcode, toOption_pure, toOption_refuse]

theorem complexBinary_mirrors (h : m.Mirrors p none m') (hshape : m.shape = .crCrCr) :
    ((cx.within q).complexBinary m').toOption = (cx.complexBinary m).toOption := by
  have hconj := h.conjugate (by rw [hshape]; rfl)
  simp only [complexBinary, toOption_bind, h.regIndex, cx.pair_mirrors q h, hconj, h.opcode, core_within]
  refine Option.bind_congr fun rd _ => Option.bind_congr fun a _ => Option.bind_congr fun b _ => ?_
  split <;> rfl

theorem complexMap_mirrors (h : m.Mirrors p none m') (f : ComplexPair → ComplexResult) :
    ((cx.within q).complexMap m' f).toOption = (cx.complexMap m f).toOption := by
  unfold complexMap
  rw [h.shape]
  split
  · next hshape =>
    have hconj := h.conjugate (by rw [hshape]; rfl)
    simp only [toOption_bind, h.regIndex, cx.pair_mirrors q h, hconj, toOption_pure]
  · rfl

theorem complexUnary_mirrors (h : m.Mirrors p none m') :
    ((cx.within q).complexUnary m').toOption = (cx.complexUnary m).toOption := by
  unfold complexUnary
  rw [h.opcode]
  exact cx.complexMap_mirrors q h _

theorem convert_mirrors (h : m.Mirrors p none m') :
    ((cx.within q).convert m').toOption = (cx.convert m).toOption := by
  unfold convert
  rw [h.opcode]
  exact cx.complexMap_mirrors q h _

theorem multiplyReal_mirrors (h : m.Mirrors p none m') (acc x y : Nat) :
    (cx.within q).multiplyReal m' acc x y = cx.multiplyReal m acc x y := by
  simp only [multiplyReal, h.opcode, h.mulMode, core_within]

theorem multiplyComplex_mirrors (h : m.Mirrors p none m') (hshape : m.shape = .accCrCr) (acc x y : Nat) :
    ((cx.within q).multiplyComplex m' acc x y).toOption = (cx.multiplyComplex m acc x y).toOption := by
  have hconj := h.conjugate (by rw [hshape]; rfl)
  unfold multiplyComplex
  split
  · rfl
  · simp only [h.opcode, h.mulMode, hconj, core_within]

theorem multiply_mirrors (h : m.Mirrors p none m') :
    ((cx.within q).multiply m').toOption = (cx.multiply m).toOption := by
  simp only [multiply, toOption_bind, h.regIndex, h.shape]
  refine Option.bind_congr fun acc _ => Option.bind_congr fun x _ => Option.bind_congr fun y _ => ?_
  split
  · rw [cx.multiplyReal_mirrors q h]
  · next hshape => exact cx.multiplyComplex_mirrors q h hshape acc x y
  · rfl

theorem accumulator_mirrors (h : m.Mirrors p none m') :
    ((cx.within q).accumulator m').toOption = (cx.accumulator m).toOption := by
  simp only [accumulator, toOption_bind, h.regIndex, h.opcode, core_within, toOption_pure]

theorem modify_mirrors (h : m.Mirrors p none m') :
    ((cx.within q).modify m').toOption = (cx.modify m).toOption := by
  simp only [modify, toOption_bind, h.register, h.regIndex, core_within, toOption_pure]

theorem status_mirrors (h : m.Mirrors p none m') :
    ((cx.within q).status m').toOption = (cx.status m).toOption := by
  unfold status
  rw [h.opcode]
  split <;> rfl

theorem mode_mirrors (h : m.Mirrors p none m')
    (hops : m'.instr.operands = m.instr.operands.map (·.readBack p none)) :
    (mode m').toOption = (mode m).toOption := by
  unfold mode
  rw [hops, h.opcode]
  rcases m.instr.operands with _ | ⟨o, rest⟩
  · rfl
  · rcases o with r | ⟨a, v⟩ | s | v | r | t | c | k
    case key => cases k <;> rfl
    all_goals rfl

theorem move_mirrors (h : m.Mirrors p none m')
    (hops : m'.instr.operands = m.instr.operands.map (·.readBack p none)) :
    ((cx.within q).move m').toOption = (cx.move m).toOption := by
  unfold move
  rw [hops, h.shape]
  rcases m.instr.operands with _ | ⟨o, _ | ⟨o', rest⟩⟩
  · cases m.shape <;> rfl
  · cases m.shape <;> cases o <;> rfl
  · cases m.shape <;> first
    | rfl
    | (cases o <;> first
        | rfl
        | (cases o' <;> rfl))

/-- The names of the two programs: those of `p`, and none. -/
structure Names (p : Program) (cx : Context) (q : Program) : Prop where
  symbols : cx.program.symbols = p.symbols
  nameless : q.symbols = {}

section Names

variable {cx q}

theorem Names.targetAddr (hn : Names p cx q) (t : Target) :
    (q.targetAddr (t.resolved p)).toOption = (cx.program.targetAddr t).toOption := by
  cases t with
  | abs a => rfl
  | label name =>
    have hq : q.symbols.addr name = .error (.unknownSymbol name) := by rw [hn.nameless]; rfl
    simp only [Program.targetAddr, hn.symbols]
    cases ha : p.symbols.addr name <;> simp [Target.resolved, ha, hq]

theorem Names.target (hn : Names p cx q) (t : Target) :
    ((cx.within q).target (t.resolved p)).toOption = (cx.target t).toOption := by
  have ht := hn.targetAddr t
  have hwithin : (cx.within q).program = q := rfl
  unfold Context.target
  rw [hwithin]
  cases hq : q.targetAddr (t.resolved p) <;> cases hcx : cx.program.targetAddr t <;> rw [hq, hcx] at ht <;>
    simp_all

theorem Names.access (hn : Names p cx q) (mode : AddrMode) :
    ((cx.within q).access (mode.resolved p)).toOption = (cx.access mode).toOption := by
  have hwithin : (cx.within q).program = q := rfl
  cases mode with
  | symbol name =>
    have hq : q.symbols.addr name = .error (.unknownSymbol name) := by rw [hn.nameless]; rfl
    cases ha : p.symbols.addr name <;>
      simp [AddrMode.resolved, ha, hq, Context.access, Program.dataAddr?, hwithin, hn.symbols, Except.map]
  | _ => rfl

theorem Names.withAccess (hn : Names p cx q) (h : m.Mirrors p none m')
    (writes : Reg → Nat → Except ExecError (List Write)) :
    ((cx.within q).withAccess m' writes).toOption = (cx.withAccess m writes).toOption := by
  simp only [Context.withAccess, toOption_bind, toOption_need, h.mem?, h.dataReg?]
  rw [Option.bind_map]
  refine Option.bind_congr fun r _ => Option.bind_congr fun d _ => ?_
  rw [show _ = _ from hn.access r.mode]
  rfl

theorem Names.transfer (hn : Names p cx q)
    (hops : m'.instr.operands = m.instr.operands.map (·.readBack p none)) (f : Nat → Effects) :
    (match m'.instr.operands with
      | .target t :: _ => do return f (← (cx.within q).target t)
      | _ => m'.refuse).toOption =
    (match m.instr.operands with
      | .target t :: _ => do return f (← cx.target t)
      | _ => m.refuse).toOption := by
  rw [hops]
  rcases m.instr.operands with _ | ⟨o, rest⟩
  · rfl
  · cases o with
    | target t => simp only [List.map_cons, Operand.readBack, toOption_bind, hn.target, toOption_pure]
    | _ => rfl

theorem Names.branch (hn : Names p cx q) (h : m.Mirrors p none m')
    (hops : m'.instr.operands = m.instr.operands.map (·.readBack p none)) :
    ((cx.within q).branch m').toOption = (cx.branch m).toOption := by
  have hindex (f : Nat → Effects) :
      (do return f (← Core.fetch (cx.within q).core.index (← m'.regIndex 0)) :
        Except ExecError Effects).toOption =
      (do return f (← Core.fetch cx.core.index (← m.regIndex 0)) : Except ExecError Effects).toOption := by
    simp only [toOption_bind, h.regIndex, core_within]
  unfold Context.branch
  rw [h.opcode, h.shape]
  by_cases hcall : m.opcode = .call <;> simp only [hcall, if_true, if_false] <;> split
  all_goals first
    | rfl
    | exact hn.transfer hops _
    | exact hindex _

theorem Names.loop (hn : Names p cx q)
    (hops : m'.instr.operands = m.instr.operands.map (·.readBack p none)) :
    ((cx.within q).loop m').toOption = (cx.loop m).toOption := by
  unfold Context.loop
  rw [hops]
  rcases m.instr.operands with _ | ⟨o, _ | ⟨o', rest⟩⟩
  · rfl
  · cases o <;> rfl
  · cases o with
    | target t =>
      cases o' with
      | cond c => simp only [List.map_cons, Operand.readBack, toOption_bind, hn.target]; rfl
      | _ => rfl
    | _ => rfl

theorem Names.load (hn : Names p cx q) (h : m.Mirrors p none m')
    (hops : m'.instr.operands = m.instr.operands.map (·.readBack p none)) :
    ((cx.within q).load m').toOption = (cx.load m).toOption := by
  unfold Context.load
  rw [h.shape]
  split
  · simp only [toOption_bind, h.regIndex, h.immediate]
  · simp only [toOption_bind, h.register, h.immediate]
  · rw [hops]
    rcases m.instr.operands with _ | ⟨o, rest⟩
    · rfl
    · cases o with
      | sys r => simp only [List.map_cons, Operand.readBack, toOption_bind, h.immediate]
      | _ => rfl
  · exact hn.withAccess h _

end Names

end Context

theorem Opcode.isMac_of_unit? {op : Opcode} {u : ExecUnit} (hu : op.unit? = some u) (hne : u ≠ .multiply) :
    op.isMac = false := by
  cases op <;> first | rfl | exact absurd (Option.some.inj hu).symm hne

open Context in
/-- An operation that is read back has the same effects on a unit. -/
theorem ExecUnit.run_mirrors {p : Program} {m m' : Member} {cx : Context} {q : Program} {u : ExecUnit}
    (hn : Names p cx q) (h : m.Mirrors p none m') (hu : m.opcode.unit? = some u) :
    (u.run (cx.within q) m').toOption = (u.run cx m).toOption := by
  have hops (hne : u ≠ .multiply) := h.operands (Opcode.isMac_of_unit? hu hne)
  have harith : (run.arithmetic (cx.within q) m').toOption = (run.arithmetic cx m).toOption := by
    unfold run.arithmetic
    rw [h.shape]
    split
    · next hshape => exact cx.complexBinary_mirrors q h hshape
    · exact cx.binary_mirrors q h
    · exact cx.binary_mirrors q h
    · rfl
  cases u with
  | binary => exact harith
  | unary =>
    simp only [run, h.shape]
    split
    · exact cx.complexUnary_mirrors q h
    · exact cx.unary_mirrors q h
    · rfl
  | clear =>
    simp only [run, h.shape]
    split
    · exact cx.accumulator_mirrors q h
    · exact clearReg_mirrors h
    · rfl
  | compare => exact cx.compare_mirrors q h
  | divide => exact cx.divide_mirrors q h
  | bits =>
    simp only [run, h.opcode]
    split
    · exact cx.testBit_mirrors q h
    · exact harith
  | shift => exact cx.shift_mirrors q h
  | multiply => exact cx.multiply_mirrors q h
  | accumulator => exact cx.accumulator_mirrors q h
  | conjugate => exact cx.complexUnary_mirrors q h
  | convert => exact cx.convert_mirrors q h
  | load => exact hn.load h (hops ExecUnit.noConfusion)
  | store => exact hn.withAccess h _
  | move => exact cx.move_mirrors q h (hops ExecUnit.noConfusion)
  | modify => exact cx.modify_mirrors q h
  | branch => exact hn.branch h (hops ExecUnit.noConfusion)
  | loop => exact hn.loop (hops ExecUnit.noConfusion)
  | status => exact cx.status_mirrors q h
  | mode => exact mode_mirrors h (hops ExecUnit.noConfusion)
  | idle => rfl
  | reset => rfl

/-- An operation that is read back has the same effects, if no immediate may be read as another. -/
theorem Member.Mirrors.execute {p : Program} {m m' : Member} {cx : Context} {q : Program}
    (hn : Context.Names p cx q) (h : m.Mirrors p none m') :
    (m'.execute (cx.within q)).toOption = (m.execute cx).toOption := by
  simp only [Member.execute, toOption_bind, toOption_need, h.opcode]
  refine Option.bind_congr fun u hu => ExecUnit.run_mirrors hn h hu

end QuadDsp
