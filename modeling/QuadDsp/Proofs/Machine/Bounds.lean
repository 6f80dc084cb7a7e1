import QuadDsp.Proofs.Machine.Fit

/-! # What an accepted operation reaches

An operation of an accepted word finds every register that it reads, and writes to places that are there
(`Member.Fit.execute_runs`). It can fail for one reason only: a name that it refers to is not defined. There
is a lemma for each unit, and the shapes and opcodes that a unit takes are those of the table
(`FormatEntry.takes_of_mem`). -/

namespace QuadDsp

/-- The place that is written is there. -/
def Write.InBounds (mem : Memory) : Write → Prop
  | .reg i _ => i < 32
  | .acc i _ | .accView i _ _ => i < 8
  | .address r _ => r.cls.isAddress = true ∧ r.index < 8
  | .mem addr _ => addr < mem.size
  | .sys .. | .flags .. | .modes .. => True

def Effects.InBounds (fx : Effects) (mem : Memory) : Prop := ∀ w ∈ fx.writes, w.InBounds mem

/-- The name that an operand refers to. -/
def Operand.name? : Operand → Option String
  | .mem ⟨_, .symbol name⟩ | .target (.label name) => some name
  | _ => none

theorem Operand.eq_of_name? {o : Operand} {name : String} (h : o.name? = some name) :
    (∃ space, o = .mem ⟨space, .symbol name⟩) ∨ o = .target (.label name) := by
  unfold name? at h
  split at h
  · cases h
    exact .inl ⟨_, rfl⟩
  · cases h
    exact .inr rfl
  · cases h

/-- An operand refers to the name, and it is not defined. -/
structure Member.Lacks (m : Member) (p : Program) (name : String) : Prop where
  undefined : p.symbols.find? name = none
  named : ∃ o ∈ m.instr.plain, o.name? = some name

/-- The result is effects on places that are there, or a name is missing. -/
def Context.Runs (cx : Context) (m : Member) (x : Except ExecError Effects) : Prop :=
  (∃ fx, x = .ok fx ∧ fx.InBounds cx.mem) ∨
    ∃ name, x = .error (.structural (.unknownSymbol name)) ∧ m.Lacks cx.program name

/-! ### Reading registers -/

theorem Core.fetch_of_lt {α : Type} {n : Nat} (file : Vector α n) {i : Nat} (h : i < n) :
    ∃ a, Core.fetch file i = .ok a := ⟨_, dif_pos h⟩

theorem Memory.read_of_lt {mem : Memory} {addr : Nat} (h : addr < mem.size) : ∃ v, mem.read addr = .ok v := by
  have hlt : addr < mem.words.size := h
  refine ⟨mem.words[addr], ?_⟩
  rw [Memory.read, Array.getElem?_eq_getElem hlt]

theorem Core.pair_of_lt (s : Core) {k : Nat} (h : k < 16) : ∃ v, s.pair k = .ok v := by
  obtain ⟨re, hre⟩ := fetch_of_lt s.regs (i := 2 * k) (by omega)
  obtain ⟨im, him⟩ := fetch_of_lt s.regs (i := 2 * k + 1) (by omega)
  exact ⟨_, by simp only [pair, reg, hre, him]; rfl⟩

theorem Core.address_of_isAddress (s : Core) {r : Reg} (hr : r.cls.isAddress = true) (hin : r.index < 8) :
    ∃ v, s.address r = .ok v := by
  obtain ⟨cls, k⟩ := r
  have hk : k < 8 := hin
  obtain ⟨i, hi⟩ := fetch_of_lt s.index hk
  obtain ⟨m, hm⟩ := fetch_of_lt s.modify hk
  obtain ⟨l, hl⟩ := fetch_of_lt s.length hk
  obtain ⟨b, hb⟩ := fetch_of_lt s.base hk
  cases cls with
  | index => exact ⟨_, by rw [address, hi]; rfl⟩
  | modify => exact ⟨_, hm⟩
  | length => exact ⟨_, by rw [address, hl]; rfl⟩
  | base => exact ⟨_, by rw [address, hb]; rfl⟩
  | _ => cases hr

theorem Core.stepIndex_of_lt (s : Core) {i : Nat} (h : i < 8) (delta : Int) : ∃ v, s.stepIndex i delta = .ok v := by
  obtain ⟨index, hindex⟩ := fetch_of_lt s.index h
  obtain ⟨base, hbase⟩ := fetch_of_lt s.base h
  obtain ⟨length, hlength⟩ := fetch_of_lt s.length h
  exact ⟨_, by simp only [stepIndex, hindex, hbase, hlength]; rfl⟩

namespace Member.Classified

variable {m : Member} {n : Nat} (hm : m.Classified)

include hm

theorem regIndex_of_slot {slot : Slot} {cls : RegClass} (hslot : m.shape.slots[n]? = some slot)
    (hcls : slot.regClass? = some cls) : ∃ k, m.regIndex n = .ok k ∧ m.reg? n = some ⟨cls, k⟩ ∧ k < cls.count := by
  obtain ⟨k, hreg, hk⟩ := hm.reg?_of_slot hslot hcls
  refine ⟨k, ?_, hreg, hk⟩
  simp only [regIndex, register, hreg, need]
  rfl

theorem immediate_of_slot (hslot : m.shape.slots[n]? = some .imm) :
    ∃ v, m.imm? n = some v ∧ m.immediate n = .ok (wrap 32 v) := by
  obtain ⟨v, hv⟩ := hm.imm?_of_slot hslot
  exact ⟨v, hv, by simp only [immediate, hv, need]; rfl⟩

theorem reg_of_slot (cx : Context) (hslot : m.shape.slots[n]? = some .general) : ∃ v, cx.reg m n = .ok v := by
  obtain ⟨k, hk, -, hlt⟩ := hm.regIndex_of_slot hslot rfl
  obtain ⟨v, hv⟩ := Core.fetch_of_lt cx.core.regs hlt
  refine ⟨v, ?_⟩
  rw [Context.reg, hk]
  exact hv

theorem pair_of_slot (cx : Context) (hslot : m.shape.slots[n]? = some .complex) : ∃ v, cx.pair m n = .ok v := by
  obtain ⟨k, hk, -, hlt⟩ := hm.regIndex_of_slot hslot rfl
  obtain ⟨v, hv⟩ := cx.core.pair_of_lt hlt
  refine ⟨v, ?_⟩
  rw [Context.pair, hk]
  exact hv

/-- The second input of an operation, in either form. -/
theorem input_of_slot (cx : Context) (isImmediate : Bool)
    (hslot : m.shape.slots[n]? = some (if isImmediate then .imm else .general)) :
    ∃ v, cx.input m n isImmediate = .ok v := by
  cases isImmediate with
  | false => exact hm.reg_of_slot cx hslot
  | true =>
    obtain ⟨v, -, hv⟩ := hm.immediate_of_slot hslot
    refine ⟨Lanes.fill (wrap 32 v), ?_⟩
    rw [Context.input, if_pos rfl, hv]
    rfl

end Member.Classified

/-! ### Effects -/

theorem Effects.inBounds_result {rd : Nat} (h : rd < 32) (mem : Memory) (group : Flags) (v : Lanes Flagged) :
    (Effects.result rd group v).InBounds mem := by
  intro w hw
  rcases List.mem_cons.1 hw with rfl | hw
  · exact h
  · rw [List.mem_singleton.1 hw]
    trivial

theorem Effects.inBounds_flagsOnly (mem : Memory) (group : Flags) (v : Lanes Flagged) :
    (Effects.flagsOnly group v).InBounds mem := by
  intro w hw
  rw [List.mem_singleton.1 hw]
  trivial

theorem Effects.inBounds_single {w : Write} {mem : Memory} (h : w.InBounds mem) : (ofWrites [w]).InBounds mem := by
  intro w' hw
  rw [List.mem_singleton.1 hw]
  exact h

theorem ComplexResult.inBounds_effects {rd : Nat} (h : rd < 16) (mem : Memory) (v : Lanes ComplexResult) :
    (ComplexResult.effects rd v).InBounds mem := by
  have hre : 2 * rd < 32 := by omega
  have him : 2 * rd + 1 < 32 := by omega
  intro w hw
  simp only [effects, Effects.ofWrites, List.mem_cons, List.not_mem_nil, or_false] at hw
  rcases hw with rfl | rfl | rfl | rfl | rfl
  · exact hre
  · exact him
  all_goals trivial

theorem Context.inBounds_gated (cx : Context) (f : Flow) : (cx.gated f).InBounds cx.mem := by
  intro w hw
  exact absurd hw List.not_mem_nil

theorem Context.runs_ok {cx : Context} {m : Member} {fx : Effects} (h : fx.InBounds cx.mem) :
    cx.Runs m (.ok fx) := .inl ⟨fx, rfl, h⟩

/-! ### Data operations -/

theorem Shape.slots_of_ternary (s : Shape) (h : s = .rrr ∨ s = .rrImm) :
    s.slots[0]? = some Slot.general ∧ s.slots[1]? = some Slot.general ∧
      s.slots[2]? = some (if s == .rrImm then Slot.imm else .general) := by
  rcases h with rfl | rfl <;> exact ⟨rfl, rfl, rfl⟩

namespace Context

variable {m : Member} (cx : Context) (hm : m.Classified)

include hm

theorem binary_runs (hshape : m.shape = .rrr ∨ m.shape = .rrImm) : cx.Runs m (cx.binary m) := by
  have hslots := m.shape.slots_of_ternary hshape
  obtain ⟨rd, hrd, -, hlt⟩ := hm.regIndex_of_slot hslots.1 rfl
  obtain ⟨a, ha⟩ := hm.reg_of_slot cx hslots.2.1
  obtain ⟨b, hb⟩ := hm.input_of_slot cx _ hslots.2.2
  rw [binary, hrd, ha, hb]
  exact runs_ok (Effects.inBounds_result hlt _ _ _)

theorem unary_runs (hshape : m.shape = .rr) : cx.Runs m (cx.unary m) := by
  obtain ⟨rd, hrd, -, hlt⟩ := hm.regIndex_of_slot (n := 0) (by rw [hshape]; rfl) rfl
  obtain ⟨x, hx⟩ := hm.reg_of_slot (n := 1) cx (by rw [hshape]; rfl)
  rw [unary, hrd, hx]
  exact runs_ok (Effects.inBounds_result hlt _ _ _)

theorem clearReg_runs (hshape : m.shape = .r) : cx.Runs m (clearReg m) := by
  obtain ⟨rd, hrd, -, hlt⟩ := hm.regIndex_of_slot (n := 0) (by rw [hshape]; rfl) rfl
  rw [clearReg, hrd]
  exact runs_ok (Effects.inBounds_result hlt _ _ _)

theorem compare_runs (hshape : m.shape = .rr ∨ m.shape = .rImm) : cx.Runs m (cx.compare m) := by
  have hslots : m.shape.slots[0]? = some Slot.general ∧
      m.shape.slots[1]? = some (if m.shape == .rImm then Slot.imm else .general) := by
    rcases hshape with h | h <;> rw [h] <;> exact ⟨rfl, rfl⟩
  obtain ⟨a, ha⟩ := hm.reg_of_slot cx hslots.1
  obtain ⟨b, hb⟩ := hm.input_of_slot cx _ hslots.2
  unfold compare
  rw [ha, hb]
  rcases hshape with h | h <;> rw [h] <;> exact runs_ok (Effects.inBounds_flagsOnly _ _ _)

theorem testBit_runs (hshape : m.shape = .rImm) : cx.Runs m (cx.testBit m) := by
  obtain ⟨a, ha⟩ := hm.reg_of_slot (n := 0) cx (by rw [hshape]; rfl)
  obtain ⟨v, -, hv⟩ := hm.immediate_of_slot (n := 1) (by rw [hshape]; rfl)
  rw [testBit, ha, hv]
  exact runs_ok (Effects.inBounds_flagsOnly _ _ _)

/-- A division needs an even register, so that there is one behind it. -/
theorem divide_runs (hshape : m.shape = .rr) (heven : ∀ r, m.reg? 0 = some r → r.index % 2 = 0) :
    cx.Runs m (cx.divide m) := by
  obtain ⟨rd, hrd, hreg, hlt⟩ := hm.regIndex_of_slot (n := 0) (by rw [hshape]; rfl) rfl
  obtain ⟨div, hdiv⟩ := hm.reg_of_slot (n := 1) cx (by rw [hshape]; rfl)
  have hlt : rd < 32 := hlt
  have hrd2 : rd % 2 = 0 := heven _ hreg
  have hbehind : rd + 1 < 32 := by omega
  obtain ⟨rem, hrem⟩ := Core.fetch_of_lt cx.core.regs hlt
  obtain ⟨quo, hquo⟩ := Core.fetch_of_lt cx.core.regs hbehind
  unfold divide
  rw [hrd, hdiv]
  simp only [Core.reg, hrem, hquo, bind, Except.bind]
  refine runs_ok fun w hw => ?_
  simp only [Effects.ofWrites, List.mem_cons, List.not_mem_nil, or_false] at hw
  rcases hw with rfl | rfl | rfl
  · exact hlt
  · exact hbehind
  · trivial

theorem shift_runs (hshape : m.shape = .rrr ∨ m.shape = .rrImm) : cx.Runs m (cx.shift m) := by
  have hslots := m.shape.slots_of_ternary hshape
  obtain ⟨rd, hrd, -, hlt⟩ := hm.regIndex_of_slot hslots.1 rfl
  obtain ⟨a, ha⟩ := hm.reg_of_slot cx hslots.2.1
  obtain ⟨n, hn⟩ := hm.input_of_slot cx _ hslots.2.2
  unfold shift
  rw [hrd, ha, hn]
  rcases hshape with h | h <;> rw [h] <;> exact runs_ok (Effects.inBounds_result hlt _ _ _)

theorem complexBinary_runs (hshape : m.shape = .crCrCr) (hop : m.opcode = .add ∨ m.opcode = .sub) :
    cx.Runs m (cx.complexBinary m) := by
  obtain ⟨rd, hrd, -, hlt⟩ := hm.regIndex_of_slot (n := 0) (by rw [hshape]; rfl) rfl
  obtain ⟨a, ha⟩ := hm.pair_of_slot (n := 1) cx (by rw [hshape]; rfl)
  obtain ⟨b, hb⟩ := hm.pair_of_slot (n := 2) cx (by rw [hshape]; rfl)
  unfold complexBinary
  rw [hrd, ha, hb]
  rcases hop with h | h <;> rw [h] <;> exact runs_ok (ComplexResult.inBounds_effects hlt _ _)

theorem complexMap_runs (hshape : m.shape = .crCr) (f : ComplexPair → ComplexResult) :
    cx.Runs m (cx.complexMap m f) := by
  obtain ⟨rd, hrd, -, hlt⟩ := hm.regIndex_of_slot (n := 0) (by rw [hshape]; rfl) rfl
  obtain ⟨x, hx⟩ := hm.pair_of_slot (n := 1) cx (by rw [hshape]; rfl)
  unfold complexMap
  rw [hshape, hrd, hx]
  exact runs_ok (ComplexResult.inBounds_effects hlt _ _)

theorem complexUnary_runs (hshape : m.shape = .crCr) : cx.Runs m (cx.complexUnary m) :=
  cx.complexMap_runs hm hshape fun x => Alu.complexUnary m.opcode x cx.core.modes.aluSat

theorem convert_runs (hshape : m.shape = .crCr) : cx.Runs m (cx.convert m) :=
  cx.complexMap_runs hm hshape (Alu.convert m.opcode)

theorem accumulator_runs (hshape : m.shape = .acc) : cx.Runs m (cx.accumulator m) := by
  obtain ⟨acc, hacc, -, hlt⟩ := hm.regIndex_of_slot (n := 0) (by rw [hshape]; rfl) rfl
  obtain ⟨old, hold⟩ := Core.fetch_of_lt cx.core.accs hlt
  unfold accumulator
  rw [hacc]
  simp only [Core.acc, hold, bind, Except.bind]
  refine runs_ok fun w hw => ?_
  simp only [Effects.ofWrites, List.mem_cons, List.not_mem_nil, or_false] at hw
  rcases hw with rfl | rfl
  · exact hlt
  · trivial

/-- A complex multiplication needs an even accumulator, so that there is one behind it. -/
theorem multiply_runs (hshape : m.shape = .accRR ∨ m.shape = .accCrCr)
    (heven : m.shape = .accCrCr → ∀ r, m.reg? 0 = some r → r.index % 2 = 0) : cx.Runs m (cx.multiply m) := by
  rcases hshape with h | h
  · obtain ⟨acc, hacc, -, hlt⟩ := hm.regIndex_of_slot (n := 0) (by rw [h]; rfl) rfl
    obtain ⟨x, hx, -, hxlt⟩ := hm.regIndex_of_slot (n := 1) (by rw [h]; rfl) rfl
    obtain ⟨y, hy, -, hylt⟩ := hm.regIndex_of_slot (n := 2) (by rw [h]; rfl) rfl
    obtain ⟨old, hold⟩ := Core.fetch_of_lt cx.core.accs hlt
    obtain ⟨a, ha⟩ := Core.fetch_of_lt cx.core.regs hxlt
    obtain ⟨b, hb⟩ := Core.fetch_of_lt cx.core.regs hylt
    unfold multiply
    rw [hacc, hx, hy, h]
    simp only [bind, Except.bind, multiplyReal, Core.acc, Core.reg, hold, ha, hb]
    refine runs_ok fun w hw => ?_
    simp only [Effects.ofWrites, List.mem_cons, List.not_mem_nil, or_false] at hw
    rcases hw with rfl | rfl
    · exact hlt
    · trivial
  · obtain ⟨acc, hacc, hreg, hlt⟩ := hm.regIndex_of_slot (n := 0) (by rw [h]; rfl) rfl
    obtain ⟨x, hx, -, hxlt⟩ := hm.regIndex_of_slot (n := 1) (by rw [h]; rfl) rfl
    obtain ⟨y, hy, -, hylt⟩ := hm.regIndex_of_slot (n := 2) (by rw [h]; rfl) rfl
    have hlt : acc < 8 := hlt
    have hacc2 : acc % 2 = 0 := heven h _ hreg
    have hbehind : acc + 1 < 8 := by omega
    obtain ⟨oldRe, hre⟩ := Core.fetch_of_lt cx.core.accs hlt
    obtain ⟨oldIm, him⟩ := Core.fetch_of_lt cx.core.accs hbehind
    obtain ⟨a, ha⟩ := cx.core.pair_of_lt hxlt
    obtain ⟨b, hb⟩ := cx.core.pair_of_lt hylt
    have hroom : ¬RegClass.acc.count ≤ acc + 1 := Nat.not_le_of_lt hbehind
    unfold multiply
    rw [hacc, hx, hy, h]
    simp only [bind, Except.bind, multiplyComplex, if_neg hroom, Core.acc, hre, him, ha, hb]
    refine runs_ok fun w hw => ?_
    simp only [Effects.ofWrites, List.mem_cons, List.not_mem_nil, or_false] at hw
    rcases hw with rfl | rfl | rfl | rfl | rfl
    · exact hlt
    · exact hbehind
    all_goals trivial

end Context

/-! ### Transfers -/

namespace Context

variable {m : Member} (cx : Context)

/-- The address of a memory operand is found, unless it is that of a missing name. -/
theorem access_of_inFile {ref : MemRef} (hin : (Operand.mem ref).inFile = true) :
    (∃ a, cx.access ref.mode = .ok a ∧ ∀ w ∈ a.writes, w.InBounds cx.mem) ∨
      ∃ name, ref.mode = .symbol name ∧ cx.program.symbols.find? name = none ∧
        cx.access ref.mode = .error (.structural (.unknownSymbol name)) := by
  have hindex {addr i next : Nat} (hi : i < 8) :
      ∀ w ∈ (Access.mk addr (some (i, next))).writes, w.InBounds cx.mem := by
    intro w hw
    rw [List.mem_singleton.1 hw]
    exact ⟨rfl, hi⟩
  have hnone {addr : Nat} : ∀ w ∈ (Access.mk addr none).writes, w.InBounds cx.mem := by
    intro w hw
    exact absurd hw List.not_mem_nil
  obtain ⟨space, mode⟩ := ref
  cases mode with
  | direct a => exact .inl ⟨_, rfl, hnone⟩
  | symbol name =>
    cases hfind : cx.program.symbols.find? name with
    | none =>
      refine .inr ⟨name, rfl, hfind, ?_⟩
      simp [access, Program.dataAddr?, SymbolTable.addr, hfind, Except.map]
    | some s =>
      refine .inl ⟨⟨s.addr, none⟩, ?_, hnone⟩
      simp [access, Program.dataAddr?, SymbolTable.addr, hfind, Except.map]
  | post i k =>
    simp only [Operand.inFile, Bool.and_eq_true, decide_eq_true_eq] at hin
    have hlt : i < 8 ∧ k < 8 := hin
    obtain ⟨delta, hdelta⟩ := Core.fetch_of_lt cx.core.modify hlt.2
    obtain ⟨addr, haddr⟩ := Core.fetch_of_lt cx.core.index hlt.1
    obtain ⟨next, hnext⟩ := cx.core.stepIndex_of_lt hlt.1 delta
    refine .inl ⟨⟨cx.core.reversed i addr, some (i, next)⟩, ?_, hindex hlt.1⟩
    simp only [access, Core.accessBefore, hdelta, haddr, hnext, bind, Except.bind, pure, Except.pure]
  | pre k i =>
    simp only [Operand.inFile, Bool.and_eq_true, decide_eq_true_eq] at hin
    have hlt : i < 8 ∧ k < 8 := hin
    obtain ⟨delta, hdelta⟩ := Core.fetch_of_lt cx.core.modify hlt.2
    obtain ⟨next, hnext⟩ := cx.core.stepIndex_of_lt hlt.1 delta
    refine .inl ⟨⟨cx.core.reversed i next, some (i, next)⟩, ?_, hindex hlt.1⟩
    simp only [access, Core.accessAfter, hdelta, hnext, bind, Except.bind, pure, Except.pure]
  | postImm i step =>
    simp only [Operand.inFile, decide_eq_true_eq] at hin
    have hlt : i < 8 := hin
    obtain ⟨addr, haddr⟩ := Core.fetch_of_lt cx.core.index hlt
    obtain ⟨next, hnext⟩ := cx.core.stepIndex_of_lt hlt step
    by_cases hstep : step = 0
    · refine .inl ⟨⟨cx.core.reversed i addr, none⟩, ?_, hnone⟩
      simp only [access, if_pos hstep, haddr, bind, Except.bind, pure, Except.pure]
    · refine .inl ⟨⟨cx.core.reversed i addr, some (i, next)⟩, ?_, hindex hlt⟩
      simp only [access, if_neg hstep, Core.accessBefore, haddr, hnext, bind, Except.bind, pure, Except.pure]
  | preImm step i =>
    simp only [Operand.inFile, decide_eq_true_eq] at hin
    have hlt : i < 8 := hin
    obtain ⟨next, hnext⟩ := cx.core.stepIndex_of_lt hlt step
    refine .inl ⟨⟨cx.core.reversed i next, some (i, next)⟩, ?_, hindex hlt⟩
    simp only [access, Core.accessAfter, hnext, bind, Except.bind, pure, Except.pure]

theorem lt_of_accessFault? {addr : Nat} {isComplex : Bool} (h : cx.accessFault? addr isComplex = none) :
    addr + isComplex.toNat < cx.mem.size := by
  unfold accessFault? Memory.fault? at h
  split at h
  · cases h
  · split at h
    · assumption
    · cases h

variable {writes : Reg → Nat → Except ExecError (List Write)}

theorem withAccess_runs {n : Nat} {slot : Slot} (hm : m.Classified) (hslot : m.shape.slots[n]? = some slot)
    (hmem : slot.isMem = true) {r : Reg} (hr : m.dataReg? = some r)
    (hwrites : ∀ addr, cx.accessFault? addr (r.cls == .complex) = none →
      ∃ ws, writes r addr = .ok ws ∧ ∀ w ∈ ws, w.InBounds cx.mem) : cx.Runs m (cx.withAccess m writes) := by
  obtain ⟨ref, href, hin, hplain⟩ := hm.mem?_of_slot hslot hmem
  unfold withAccess
  simp only [href, hr, Member.need, bind, Except.bind]
  rcases cx.access_of_inFile hin with ⟨a, ha, hstep⟩ | ⟨name, hmode, hundefined, ha⟩
  · rw [ha]
    dsimp only
    split
    · exact runs_ok hstep
    · next hfault =>
      obtain ⟨ws, hws, hin⟩ := hwrites a.addr hfault
      rw [hws]
      exact runs_ok fun w hw => (List.mem_append.1 hw).elim (hstep w) (hin w)
  · rw [ha]
    obtain ⟨space, mode⟩ := ref
    obtain rfl : mode = .symbol name := hmode
    exact .inr ⟨name, rfl, hundefined, _, hplain, rfl⟩

/-- What a load writes is in the register file. -/
theorem loaded_of_fits {r : Reg} {addr : Nat} (hcls : r.cls = .general ∨ r.cls = .complex)
    (hin : r.index < r.cls.count) (h : cx.accessFault? addr (r.cls == .complex) = none) :
    ∃ ws, cx.loaded r addr = .ok ws ∧ ∀ w ∈ ws, w.InBounds cx.mem := by
  have hlt := cx.lt_of_accessFault? h
  obtain ⟨cls, k⟩ := r
  rcases hcls with rfl | rfl
  · have hlt : addr < cx.mem.size := Nat.lt_of_le_of_lt (Nat.le_add_right _ _) hlt
    obtain ⟨v, hv⟩ := Memory.read_of_lt hlt
    refine ⟨[.reg k v], by simp [loaded, hv, bind, Except.bind, pure, Except.pure], fun w hw => ?_⟩
    rw [List.mem_singleton.1 hw]
    exact hin
  · have hlt : addr + 1 < cx.mem.size := hlt
    have hk : k < 16 := hin
    have hfirst : addr < cx.mem.size := Nat.lt_of_succ_lt hlt
    obtain ⟨high, hhigh⟩ := Memory.read_of_lt hfirst
    obtain ⟨low, hlow⟩ := Memory.read_of_lt hlt
    simp only [loaded, if_true, readPair, hhigh, hlow, bind, Except.bind, pure, Except.pure]
    refine ⟨_, rfl, fun w hw => ?_⟩
    rcases List.mem_cons.1 hw with rfl | hw
    · show 2 * k < 32
      omega
    · rw [List.mem_singleton.1 hw]
      show 2 * k + 1 < 32
      omega

/-- What a store writes is in memory. -/
theorem stored_of_fits {r : Reg} {addr : Nat} (hcls : r.cls = .general ∨ r.cls = .complex)
    (hin : r.index < r.cls.count) (h : cx.accessFault? addr (r.cls == .complex) = none) :
    ∃ ws, cx.stored r addr = .ok ws ∧ ∀ w ∈ ws, w.InBounds cx.mem := by
  have hlt := cx.lt_of_accessFault? h
  obtain ⟨cls, k⟩ := r
  rcases hcls with rfl | rfl
  · obtain ⟨v, hv⟩ := Core.fetch_of_lt cx.core.regs hin
    refine ⟨[.mem addr v], by simp [stored, Core.reg, hv, bind, Except.bind, pure, Except.pure], fun w hw => ?_⟩
    rw [List.mem_singleton.1 hw]
    exact Nat.lt_of_le_of_lt (Nat.le_add_right _ _) hlt
  · have hlt : addr + 1 < cx.mem.size := hlt
    obtain ⟨v, hv⟩ := cx.core.pair_of_lt hin
    simp only [stored, if_true, hv, bind, Except.bind, pure, Except.pure]
    refine ⟨_, rfl, fun w hw => ?_⟩
    rcases List.mem_cons.1 hw with rfl | hw
    · show addr < cx.mem.size
      omega
    · rw [List.mem_singleton.1 hw]
      exact hlt

/-- The register that a load or store moves. -/
theorem dataReg?_of_slots {n k : Nat} {slot dataSlot : Slot} (hm : m.Classified)
    (hslot : m.shape.slots[n]? = some slot) (hmem : slot.isMem = true) (hk : k = 1 - n)
    (hdata : m.shape.slots[k]? = some dataSlot) (hreg : dataSlot = .general ∨ dataSlot = .complex) :
    ∃ r, m.dataReg? = some r ∧ (r.cls = .general ∨ r.cls = .complex) ∧ r.index < r.cls.count := by
  have hoperand : m.operand? .data = m.operand? (.nth k) := by
    rw [Member.operand?, Member.operand?, Shape.dataSlot?, m.shape.memSlot?_of_isMem hslot hmem, hk]
    rfl
  have hdata? : m.dataReg? = m.reg? k := by rw [Member.dataReg?, Member.reg?, hoperand]
  rw [hdata?]
  rcases hreg with rfl | rfl
  · obtain ⟨i, hi, hlt⟩ := hm.reg?_of_slot hdata rfl
    exact ⟨_, hi, .inl rfl, hlt⟩
  · obtain ⟨i, hi, hlt⟩ := hm.reg?_of_slot hdata rfl
    exact ⟨_, hi, .inr rfl, hlt⟩

end Context

/-- The target of a transfer is found, unless its name is missing. -/
theorem Context.target_cases (cx : Context) {m : Member} {t : Target} (ho : Operand.target t ∈ m.instr.operands) :
    (∃ a, cx.target t = .ok a) ∨
      ∃ name, cx.target t = .error (.structural (.unknownSymbol name)) ∧ m.Lacks cx.program name := by
  cases t with
  | abs a => exact .inl ⟨a, rfl⟩
  | label name =>
    cases hfind : cx.program.symbols.find? name with
    | none =>
      refine .inr ⟨name, ?_, hfind, _, List.mem_filter.2 ⟨ho, rfl⟩, rfl⟩
      simp [target, Program.targetAddr, SymbolTable.addr, hfind]
    | some s => exact .inl ⟨s.addr, by simp [target, Program.targetAddr, SymbolTable.addr, hfind]⟩

theorem Context.gated_target_runs (cx : Context) {m : Member} {t : Target} (ho : Operand.target t ∈ m.instr.operands)
    (f : Nat → Flow) : cx.Runs m ((cx.target t).bind fun a => .ok (cx.gated (f a))) := by
  rcases cx.target_cases ho with ⟨a, ha⟩ | ⟨name, ha, hlacks⟩
  · rw [ha]
    exact runs_ok (cx.inBounds_gated _)
  · rw [ha]
    exact .inr ⟨name, rfl, hlacks⟩

/-- The shape moves a data register or a complex register to or from memory. -/
def Shape.isTransfer (s : Shape) : Bool :=
  s.memSlot?.any fun n => s.slots[1 - n]? == some .general || s.slots[1 - n]? == some .complex

/-- The slot of memory and the register of a load or store. -/
theorem Member.Classified.of_isTransfer {m : Member} (hm : m.Classified) (hshape : m.shape.isTransfer = true) :
    (∃ (n : Nat) (slot : Slot), m.shape.slots[n]? = some slot ∧ slot.isMem = true) ∧
      ∃ r, m.dataReg? = some r ∧ (r.cls = .general ∨ r.cls = .complex) ∧ r.index < r.cls.count := by
  obtain ⟨n, hn, hdata⟩ := (Option.any_eq_true _ _).1 hshape
  obtain ⟨slot, hslot, hmem⟩ := Shape.slot_of_memSlot? hn
  obtain ⟨dataSlot, hk, hreg⟩ : ∃ dataSlot, m.shape.slots[1 - n]? = some dataSlot ∧
      (dataSlot = .general ∨ dataSlot = .complex) := by
    rw [Bool.or_eq_true, beq_iff_eq, beq_iff_eq] at hdata
    rcases hdata with h | h
    · exact ⟨_, h, .inl rfl⟩
    · exact ⟨_, h, .inr rfl⟩
  exact ⟨⟨n, slot, hslot, hmem⟩, Context.dataReg?_of_slots hm hslot hmem rfl hk hreg⟩

namespace Context

variable {m : Member} (cx : Context) (hm : m.Classified)

include hm

theorem transfer_runs {writes : Reg → Nat → Except ExecError (List Write)} (hshape : m.shape.isTransfer = true)
    (hwrites : ∀ {r : Reg} {addr : Nat}, (r.cls = .general ∨ r.cls = .complex) → r.index < r.cls.count →
      cx.accessFault? addr (r.cls == .complex) = none →
      ∃ ws, writes r addr = .ok ws ∧ ∀ w ∈ ws, w.InBounds cx.mem) : cx.Runs m (cx.withAccess m writes) := by
  obtain ⟨⟨n, slot, hslot, hmem⟩, r, hr, hcls, hin⟩ := hm.of_isTransfer hshape
  exact cx.withAccess_runs hm hslot hmem hr fun addr hfault => hwrites hcls hin hfault

theorem store_runs (hshape : m.shape.isTransfer = true) : cx.Runs m (cx.store m) :=
  cx.transfer_runs hm hshape cx.stored_of_fits

theorem load_runs (hshape : m.shape.isTransfer = true ∨ m.shape ∈ [.rImm, .dagImm, .sysImm]) :
    cx.Runs m (cx.load m) := by
  unfold load
  split
  · next h =>
    obtain ⟨rd, hrd, -, hlt⟩ := hm.regIndex_of_slot (n := 0) (by rw [h]; rfl) rfl
    obtain ⟨v, -, hv⟩ := hm.immediate_of_slot (n := 1) (by rw [h]; rfl)
    rw [hrd, hv]
    exact runs_ok (Effects.inBounds_single hlt)
  · next h =>
    obtain ⟨r, hr, hcls, hlt⟩ := hm.address_of_slot (n := 0) (by rw [h]; rfl)
    obtain ⟨v, -, hv⟩ := hm.immediate_of_slot (n := 1) (by rw [h]; rfl)
    simp only [Member.register, hr, hv, Member.need]
    exact runs_ok (Effects.inBounds_single ⟨hcls, hlt⟩)
  · next h =>
    obtain ⟨v, -, hv⟩ := hm.immediate_of_slot (n := 1) (by rw [h]; rfl)
    obtain ⟨o, rest, hops, hsys, -⟩ := hm.first_operand (by rw [h]; rfl) (by rw [h]; rfl)
    obtain ⟨r, rfl⟩ := Slot.sys_of_accepts hsys
    rw [hops]
    simp only [hv]
    exact runs_ok (Effects.inBounds_single trivial)
  · next hR hdag hsys =>
    have htransfer : m.shape.isTransfer = true := by
      refine hshape.resolve_right fun h => ?_
      simp only [List.mem_cons, List.not_mem_nil, or_false] at h
      rcases h with h | h | h
      · exact hR h
      · exact hdag h
      · exact hsys h
    refine cx.transfer_runs hm htransfer fun hcls hin hfault => ?_
    obtain ⟨ws, hws, hbounds⟩ := cx.loaded_of_fits hcls hin hfault
    exact ⟨ws, by rw [hws], hbounds⟩

theorem move_runs (hshape : m.shape ∈ [.rr, .rAccPart, .accPartR, .rDag, .dagR, .rSys, .sysR]) :
    cx.Runs m (cx.move m) := by
  unfold move
  simp only [List.mem_cons, List.not_mem_nil, or_false] at hshape
  rcases hshape with h | h | h | h | h | h | h <;>
    obtain ⟨o, o', hops, ho, hin, ho', hin'⟩ := hm.both_operands (by rw [h]; rfl) (by rw [h]; rfl)
  · obtain ⟨d, rfl, hd⟩ := Slot.reg_of_inFile rfl ho hin
    obtain ⟨r, rfl, hr⟩ := Slot.reg_of_inFile rfl ho' hin'
    obtain ⟨v, hv⟩ := Core.fetch_of_lt cx.core.regs hr
    simp only [h, hops, Core.reg, hv, bind, Except.bind]
    exact runs_ok (Effects.inBounds_single hd)
  · obtain ⟨d, rfl, hd⟩ := Slot.reg_of_inFile rfl ho hin
    obtain ⟨a, view, rfl, ha⟩ := Slot.accView_of_inFile ho' hin'
    obtain ⟨v, hv⟩ := Core.fetch_of_lt cx.core.accs ha
    simp only [h, hops, Core.accView, Core.acc, hv, bind, Except.bind]
    exact runs_ok (Effects.inBounds_single hd)
  · obtain ⟨a, view, rfl, ha⟩ := Slot.accView_of_inFile ho hin
    obtain ⟨r, rfl, hr⟩ := Slot.reg_of_inFile rfl ho' hin'
    obtain ⟨v, hv⟩ := Core.fetch_of_lt cx.core.regs hr
    simp only [h, hops, Core.reg, hv, bind, Except.bind]
    exact runs_ok (Effects.inBounds_single ha)
  · obtain ⟨d, rfl, hd⟩ := Slot.reg_of_inFile rfl ho hin
    obtain ⟨r, rfl, hcls, hr⟩ := Slot.address_of_inFile ho' hin'
    obtain ⟨v, hv⟩ := cx.core.address_of_isAddress hcls hr
    simp only [h, hops, hv, bind, Except.bind]
    exact runs_ok (Effects.inBounds_single hd)
  · obtain ⟨d, rfl, hcls, hd⟩ := Slot.address_of_inFile ho hin
    obtain ⟨r, rfl, hr⟩ := Slot.reg_of_inFile rfl ho' hin'
    obtain ⟨v, hv⟩ := Core.fetch_of_lt cx.core.regs hr
    simp only [h, hops, Core.reg, hv, bind, Except.bind]
    exact runs_ok (Effects.inBounds_single ⟨hcls, hd⟩)
  · obtain ⟨d, rfl, hd⟩ := Slot.reg_of_inFile rfl ho hin
    obtain ⟨r, rfl⟩ := Slot.sys_of_accepts ho'
    simp only [h, hops]
    exact runs_ok (Effects.inBounds_single hd)
  · obtain ⟨d, rfl⟩ := Slot.sys_of_accepts ho
    obtain ⟨r, rfl, hr⟩ := Slot.reg_of_inFile rfl ho' hin'
    obtain ⟨v, hv⟩ := Core.fetch_of_lt cx.core.regs hr
    simp only [h, hops, Core.reg, hv, bind, Except.bind]
    exact runs_ok (Effects.inBounds_single trivial)

theorem modify_runs (hshape : m.shape = .im) : cx.Runs m (cx.modify m) := by
  obtain ⟨i, hi, hilt⟩ := hm.reg?_of_slot (n := 0) (by rw [hshape]; rfl) rfl
  obtain ⟨k, hk, -, hklt⟩ := hm.regIndex_of_slot (n := 1) (by rw [hshape]; rfl) rfl
  obtain ⟨delta, hdelta⟩ := Core.fetch_of_lt cx.core.modify hklt
  obtain ⟨v, hv⟩ := cx.core.stepIndex_of_lt hilt delta
  unfold modify
  simp only [Member.register, hi, hk, Member.need, hdelta, hv, bind, Except.bind]
  exact runs_ok (Effects.inBounds_single ⟨rfl, hilt⟩)

/-! ### The sequencer -/

theorem branch_runs (hshape : m.shape = .target ∨ m.shape = .index ∨ m.shape = .bare ∧ m.opcode = .rts) :
    cx.Runs m (cx.branch m) := by
  unfold branch
  rcases hshape with h | h | ⟨h, hop⟩
  · obtain ⟨o, rest, hops, ho, -⟩ := hm.first_operand (by rw [h]; rfl) (by rw [h]; rfl)
    obtain ⟨t, rfl⟩ := Slot.target_of_accepts ho
    simp only [h, hops]
    exact cx.gated_target_runs (by rw [hops]; exact List.mem_cons_self) _
  · obtain ⟨k, hk, -, hlt⟩ := hm.regIndex_of_slot (n := 0) (by rw [h]; rfl) rfl
    obtain ⟨v, hv⟩ := Core.fetch_of_lt cx.core.index hlt
    simp only [h, hk, hv, bind, Except.bind]
    exact runs_ok (cx.inBounds_gated _)
  · rw [h, hop]
    exact runs_ok (cx.inBounds_gated _)

theorem loop_runs (hshape : m.shape = .targetCond) : cx.Runs m (cx.loop m) := by
  obtain ⟨o, o', hops, ho, -, ho', -⟩ := hm.both_operands (by rw [hshape]; rfl) (by rw [hshape]; rfl)
  obtain ⟨t, rfl⟩ := Slot.target_of_accepts ho
  obtain ⟨c, rfl⟩ := Slot.cond_of_accepts ho'
  unfold loop
  simp only [hops]
  exact cx.gated_target_runs (by rw [hops]; exact List.mem_cons_self) _

theorem mode_runs (hshape : m.shape = .modeBit) : cx.Runs m (mode m) := by
  obtain ⟨o, rest, hops, ho, -⟩ := hm.first_operand (by rw [hshape]; rfl) (by rw [hshape]; rfl)
  obtain ⟨b, rfl⟩ := Slot.modeBit_of_accepts ho
  unfold mode
  simp only [hops]
  exact runs_ok (Effects.inBounds_single trivial)

end Context

/-! ### Units -/

/-- The operations and shapes that a unit takes. -/
def ExecUnit.takes (u : ExecUnit) (op : Opcode) (s : Shape) : Bool :=
  match u with
  | binary => s ∈ [.rrr, .rrImm] ∨ s = .crCrCr ∧ op ∈ [.add, .sub]
  | unary => s ∈ [.rr, .crCr]
  | clear => s ∈ [.acc, .r]
  | compare => s ∈ [.rr, .rImm]
  | divide => s = .rr ∧ op ∈ [.divs, .divq]
  | bits => s = .rrImm ∧ op ∈ [.setb, .clrb, .tglb] ∨ s = .rImm ∧ op = .tstb
  | shift => s ∈ [.rrr, .rrImm]
  | multiply => s ∈ [.accRR, .accCrCr]
  | accumulator => s = .acc
  | conjugate | convert => s = .crCr
  | load => s.isTransfer ∨ s ∈ [.rImm, .dagImm, .sysImm]
  | store => s.isTransfer
  | move => s ∈ [.rr, .rAccPart, .accPartR, .rDag, .dagR, .rSys, .sysR]
  | modify => s = .im
  | branch => s ∈ [.target, .index] ∨ s = .bare ∧ op = .rts
  | loop => s = .targetCond
  | status => op ∈ [.push, .pop]
  | mode => s = .modeBit
  | idle | reset => true

theorem FormatEntry.takes_of_mem : ∀ e ∈ formatEntries,
    ∃ u ∈ e.opcode.unit?, u.takes e.opcode e.shape = true := by
  decide +kernel

namespace Member.Fit

variable {m : Member} (h : m.Fit)

include h

theorem even_of_divide (hop : m.opcode ∈ [.divs, .divq]) {r : Reg} (hr : m.reg? 0 = some r) :
    r.index % 2 = 0 := by
  have hcheck := h.checked
  simp only [List.mem_cons, List.not_mem_nil, or_false] at hop
  rcases hop with hop | hop <;>
  · simp only [checkOperands, hop, hr] at hcheck
    split at hcheck
    · assumption
    · cases hcheck

open Context in
/-- On its unit, an accepted operation has effects on places that are there, or lacks a name. -/
theorem run_runs {u : ExecUnit} (hu : u.takes m.opcode m.shape = true) (cx : Context) : cx.Runs m (u.run cx m) := by
  have hm := h.classified
  cases u <;> simp only [ExecUnit.takes, decide_eq_true_eq, Bool.decide_or, Bool.or_eq_true, List.mem_cons,
    List.not_mem_nil, or_false] at hu
  case binary =>
    rcases hu with hs | ⟨hs, hop⟩
    · rcases hs with hs | hs <;>
      · simp only [ExecUnit.run, ExecUnit.run.arithmetic, hs]
        exact cx.binary_runs hm (by simp [hs])
    · simp only [ExecUnit.run, ExecUnit.run.arithmetic, hs]
      exact cx.complexBinary_runs hm hs (by simpa using hop)
  case unary =>
    rcases hu with hs | hs <;> simp only [ExecUnit.run, hs]
    · exact cx.unary_runs hm hs
    · exact cx.complexUnary_runs hm hs
  case clear =>
    rcases hu with hs | hs <;> simp only [ExecUnit.run, hs]
    · exact cx.accumulator_runs hm hs
    · exact cx.clearReg_runs hm hs
  case compare => exact cx.compare_runs hm hu
  case divide => exact cx.divide_runs hm hu.1 fun r hr => h.even_of_divide (by simpa using hu.2) hr
  case bits =>
    rcases hu with ⟨hs, hop⟩ | ⟨hs, hop⟩
    · have hne : m.opcode ≠ .tstb := by rcases hop with hop | hop | hop <;> rw [hop] <;> decide
      simp only [ExecUnit.run, if_neg hne, ExecUnit.run.arithmetic, hs]
      exact cx.binary_runs hm (.inr hs)
    · simp only [ExecUnit.run, if_pos hop]
      exact cx.testBit_runs hm hs
  case shift => exact cx.shift_runs hm hu
  case multiply => exact cx.multiply_runs hm hu h.pair
  case accumulator => exact cx.accumulator_runs hm hu
  case conjugate => exact cx.complexUnary_runs hm hu
  case convert => exact cx.convert_runs hm hu
  case load => exact cx.load_runs hm (by simpa using hu)
  case store => exact cx.store_runs hm (by simpa using hu)
  case move => exact cx.move_runs hm (by simpa using hu)
  case modify => exact cx.modify_runs hm hu
  case branch => exact cx.branch_runs hm (by simpa [or_assoc] using hu)
  case loop => exact cx.loop_runs hm hu
  case status =>
    simp only [ExecUnit.run, status]
    rcases hu with hop | hop <;> rw [hop] <;> exact runs_ok (cx.inBounds_gated _)
  case mode => exact cx.mode_runs hm hu
  case idle => exact runs_ok fun w hw => absurd hw List.not_mem_nil
  case reset => exact runs_ok (cx.inBounds_gated _)

/-- An accepted operation has effects on places that are there, unless it lacks a name. -/
theorem execute_runs (cx : Context) : cx.Runs m (m.execute cx) := by
  obtain ⟨e, he, hop, hshape⟩ := h.listed
  obtain ⟨u, hu, htakes⟩ := FormatEntry.takes_of_mem e he
  rw [hop] at hu htakes
  rw [hshape] at htakes
  rw [Member.execute_eq_run hu]
  exact h.run_runs htakes cx

end Member.Fit

/-! ### Words -/

/-- A word whose operations are accepted has effects on places that are there, unless one lacks a name. -/
theorem executeMembers_runs {cx : Context} {ms : List Member} (h : ∀ m ∈ ms, m.Fit) {fx : Effects}
    (hfx : fx.InBounds cx.mem) :
    (∃ fx', executeMembers cx fx ms = .ok fx' ∧ fx'.InBounds cx.mem) ∨
      ∃ m ∈ ms, ∃ name, executeMembers cx fx ms = .error (.structural (.unknownSymbol name)) ∧
        m.Lacks cx.program name := by
  induction ms generalizing fx with
  | nil => exact .inl ⟨fx, rfl, hfx⟩
  | cons m rest ih =>
    rcases (h m List.mem_cons_self).execute_runs cx with ⟨fx', hrun, hin⟩ | ⟨name, hrun, hlacks⟩
    · have hboth : (fx.and fx').InBounds cx.mem := fun w hw => (List.mem_append.1 hw).elim (hfx w) (hin w)
      have hstep : executeMembers cx fx (m :: rest) = executeMembers cx (fx.and fx') rest := by
        rw [executeMembers, hrun]
        rfl
      rw [hstep]
      rcases ih (fun m hm => h m (List.mem_cons_of_mem _ hm)) hboth with hok | ⟨m', hm', hlacks⟩
      · exact .inl hok
      · exact .inr ⟨m', List.mem_cons_of_mem _ hm', hlacks⟩
    · refine .inr ⟨m, List.mem_cons_self, name, ?_, hlacks⟩
      rw [executeMembers, hrun]
      rfl

theorem execute_of_select (s : Core) (mem : Memory) (p : Program) {i : Instruction} {sel : Selection}
    (hstructure : checkStructure i = .ok ()) (hselect : select i = .ok sel) :
    (∃ fx, execute s mem p i = .ok fx ∧ fx.InBounds mem) ∨
      ∃ m ∈ sel.members, ∃ name, execute s mem p i = .error (.structural (.unknownSymbol name)) ∧
        m.Lacks p name := by
  have hexecute :
      execute s mem p i = executeMembers ⟨s, mem, p, s.mask i.cond⟩ { mask := s.mask i.cond } sel.members := by
    rw [execute, hstructure, hselect]
  rw [hexecute]
  exact executeMembers_runs (fit_of_select hselect) fun w hw => absurd hw List.not_mem_nil

/-- Whatever the word, no register is looked for past the end of its file, and what is written is there. -/
theorem execute_inBounds (s : Core) (mem : Memory) (p : Program) (i : Instruction) :
    (∀ index size, execute s mem p i ≠ .error (.outsideFile index size)) ∧
      ∀ fx, execute s mem p i = .ok fx → fx.InBounds mem := by
  cases hstructure : checkStructure i with
  | error e =>
    have hexecute : execute s mem p i = .error (.structural e) := by rw [execute, hstructure]
    rw [hexecute]
    exact ⟨fun _ _ => nofun, fun _ => nofun⟩
  | ok =>
    cases hselect : select i with
    | error e =>
      have hexecute : execute s mem p i = .error (.shape e) := by rw [execute, hstructure, hselect]
      rw [hexecute]
      exact ⟨fun _ _ => nofun, fun _ => nofun⟩
    | ok sel =>
      rcases execute_of_select s mem p hstructure hselect with ⟨fx, h, hin⟩ | ⟨m, -, name, h, -⟩
      · rw [h]
        refine ⟨fun _ _ => nofun, fun fx' h' => ?_⟩
        cases h'
        exact hin
      · rw [h]
        exact ⟨fun _ _ => nofun, fun _ => nofun⟩

end QuadDsp
