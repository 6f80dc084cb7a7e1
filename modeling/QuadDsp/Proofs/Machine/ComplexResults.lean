import QuadDsp.Proofs.Machine.ComplexProduct

/-! # Results of complex arithmetic

ADD, SUB, PASS, NEG and CONJ of complex registers have an exact result, and each half of it is to be stored wrapped or
clamped, with flags that describe it (`Core.LeavesExact`). The imaginary half of a conjugate can be 2048, which is no
number of twelve bits. Sums and differences take it for what it is; PASS takes it for a word that fits, so it leaves
-2048 without overflow, and this is the only exception (`Simulator.WorksOnPairs.leavesExact_iff`). -/

namespace QuadDsp

namespace Opcode

/-- The operations on two complex registers. -/
def pairSums : List Opcode := [.add, .sub]

/-- The operations on one complex register. -/
def pairMaps : List Opcode := [.pass, .neg, .conj]

/-- The operands of an operation on complex registers; with one input, this is `y`. -/
def pairOperands (op : Opcode) (rd x y : Nat) : List Operand :=
  if op ∈ pairSums then [.reg ⟨.complex, rd⟩, .reg ⟨.complex, x⟩, .reg ⟨.complex, y⟩]
  else [.reg ⟨.complex, rd⟩, .reg ⟨.complex, y⟩]

end Opcode

open Opcode (pairSums pairMaps)

/-! ### Halves -/

namespace Alu

/-- The number that is stored for an exact one. -/
def settled (saturate : Bool) (e : Int) : Int := if saturate then clamp dataBits e else wrap dataBits e

theorem fits_settled (saturate : Bool) (e : Int) : Fits dataBits (settled saturate e) := by
  unfold settled
  split
  · exact fits_clamp dataBits e
  · exact fits_wrap (by decide) e

theorem settled_of_fits {e : Int} (h : Fits dataBits e) (saturate : Bool) : settled saturate e = e := by
  unfold settled
  split
  · exact (clamp_eq_self_iff dataBits e).2 h
  · exact (wrap_eq_self_iff (by decide) e).2 h

/-- A result, with its flags, is what an exact number settles to. -/
structure Settles (saturate : Bool) (e : Int) (r : Flagged) : Prop where
  value : r.1 = settled saturate e
  overflow : r.2.overflow = !decide (Fits dataBits e)
  zero : r.2.zero = (settled saturate e == 0)
  negative : r.2.negative = decide (settled saturate e < 0)

theorem settles_addSub (a b : Int) (carry subtract saturate : Bool) :
    Settles saturate (if subtract then a - b - (!carry).toNat else a + b + carry.toNat)
      (addSub a b carry subtract saturate) := by
  have hvalue := addSub_fst a b carry subtract saturate
  exact ⟨hvalue, rfl, congrArg (· == 0) hvalue, congrArg (fun v : Int => decide (v < 0)) hvalue⟩

theorem settles_add (a b : Int) (saturate : Bool) : Settles saturate (a + b) (addSub a b false false saturate) := by
  simpa using settles_addSub a b false false saturate

theorem settles_sub (a b : Int) (saturate : Bool) : Settles saturate (a - b) (addSub a b true true saturate) := by
  simpa using settles_addSub a b true true saturate

theorem settles_neg (a : Int) (saturate : Bool) : Settles saturate (-a) (sub 0 a saturate) := by
  simpa [sub] using settles_sub 0 a saturate

theorem settles_logic_iff (saturate : Bool) (e : Int) : Settles saturate e (logic e) ↔ Fits dataBits e := by
  constructor
  · intro h
    have hoverflow : false = !decide (Fits dataBits e) := h.overflow
    simpa using hoverflow
  · intro h
    have hwrap : wrap dataBits e = e := (wrap_eq_self_iff (by decide) e).2 h
    constructor <;> simp [logic, Flags.ofResult, hwrap, settled_of_fits h, h]

end Alu

/-! ### Pairs -/

namespace ComplexResult

/-- Both halves are what those of an exact pair settle to. -/
def Settles (saturate : Bool) (e : ComplexPair) (r : ComplexResult) : Prop :=
  Alu.Settles saturate e.re r.re ∧ Alu.Settles saturate e.im r.im

/-- The flags of a result in a bank. -/
def flags (r : ComplexResult) : Bank → Flags
  | .real => r.re.2
  | .imag => r.im.2
  | .both => r.bothFlags

theorem effects_eq_halves (rd : Nat) (v : Lanes ComplexResult) : effects rd v =
    .halves (.reg (2 * rd) (v.map (·.re.1))) (.reg (2 * rd + 1) (v.map (·.im.1))) .arith
      fun bank => v.map (·.flags bank) := rfl

/-- Both halves are words. -/
structure InWidth (r : ComplexResult) : Prop where
  re : Fits dataBits r.re.1
  im : Fits dataBits r.im.1

end ComplexResult

/-- The exact result of an operation on complex registers. -/
def ComplexPair.exact (op : Opcode) (x y : ComplexPair) : ComplexPair :=
  match op with
  | .add => ⟨x.re + y.re, x.im + y.im⟩
  | .sub => ⟨x.re - y.re, x.im - y.im⟩
  | .neg => ⟨-y.re, -y.im⟩
  | .conj => ⟨y.re, -y.im⟩
  | _ => y

/-- What an operation on complex registers does. -/
def Alu.onPairs (op : Opcode) (x y : ComplexPair) (saturate : Bool) : ComplexResult :=
  match op with
  | .add => complexBinary false x y saturate
  | .sub => complexBinary true x y saturate
  | _ => complexUnary op y saturate

namespace Alu

theorem fits_addSub (a b : Int) (carry subtract saturate : Bool) :
    Fits dataBits (addSub a b carry subtract saturate).1 :=
  (settles_addSub a b carry subtract saturate).value ▸ fits_settled _ _

theorem fits_logic (v : Int) : Fits dataBits (logic v).1 := fits_wrap (by decide) v

theorem inWidth_onPairs (op : Opcode) (x y : ComplexPair) (saturate : Bool) : (onPairs op x y saturate).InWidth := by
  have hmap : (complexUnary op y saturate).InWidth := by
    unfold complexUnary
    split
    · exact ⟨fits_addSub .., fits_addSub ..⟩
    · exact ⟨fits_logic _, fits_addSub ..⟩
    · exact ⟨fits_logic _, fits_logic _⟩
  unfold onPairs
  split
  · exact ⟨fits_addSub .., fits_addSub ..⟩
  · exact ⟨fits_addSub .., fits_addSub ..⟩
  · exact hmap

/-- PASS of a conjugate whose imaginary half does not fit is the only operation that misses the exact result. -/
theorem settles_onPairs_iff {op : Opcode} (hop : op ∈ pairSums ++ pairMaps) {c : ComplexPair} (hc : c.InWidth)
    (x : ComplexPair) (conj saturate : Bool) :
    (onPairs op x (c.conjIf conj) saturate).Settles saturate (.exact op x (c.conjIf conj)) ↔
      ¬(op = .pass ∧ conj = true ∧ c.im = -2048) := by
  have hre : Fits dataBits (c.conjIf conj).re := by
    unfold ComplexPair.conjIf
    split <;> exact hc.re
  simp only [pairSums, pairMaps, List.cons_append, List.nil_append, List.mem_cons, List.not_mem_nil, or_false] at hop
  rcases hop with rfl | rfl | rfl | rfl | rfl
  · exact iff_of_true ⟨settles_add .., settles_add ..⟩ (by simp)
  · exact iff_of_true ⟨settles_sub .., settles_sub ..⟩ (by simp)
  · have hpass : (onPairs .pass x (c.conjIf conj) saturate).Settles saturate (c.conjIf conj) ↔
        Fits dataBits (c.conjIf conj).im :=
      (and_congr (settles_logic_iff ..) (settles_logic_iff ..)).trans (and_iff_right hre)
    refine hpass.trans ?_
    cases conj with
    | false => exact iff_of_true hc.im (by simp)
    | true =>
      have him := hc.im
      simp only [ComplexPair.conjIf, if_true, true_and, fits_data_iff] at him ⊢
      omega
  · exact iff_of_true ⟨settles_neg .., settles_neg ..⟩ (by simp)
  · exact iff_of_true ⟨(settles_logic_iff ..).2 hre, settles_neg ..⟩ (by simp)

end Alu

/-! ### Words -/

/-- An operation on complex registers, the last input conjugated or not. -/
structure Member.WorksOnPairs (m : Member) (op : Opcode) (conj : Bool) (rd x y : Nat) : Prop where
  opcode : m.opcode = op
  conj : m.instr.conjugate = conj
  operands : ∀ n, m.operand? (.nth n) = (op.pairOperands rd x y)[n]?

theorem FormatEntry.shape_of_pairs : ∀ e ∈ formatEntries, e.opcode ∈ pairSums ++ pairMaps →
    e.shape.slots[0]? = some .general ∨ e.shape = if e.opcode ∈ pairSums then .crCrCr else .crCr := by
  decide +kernel

namespace Member.WorksOnPairs

variable {m : Member} {op : Opcode} {conj : Bool} {rd x y : Nat} (h : m.WorksOnPairs op conj rd x y)

include h

theorem target : m.operand? (.nth 0) = some (.reg ⟨.complex, rd⟩) := by
  rw [h.operands, Opcode.pairOperands]
  split <;> rfl

theorem shape (hop : op ∈ pairSums ++ pairMaps) (hm : m.Fit) :
    m.shape = if op ∈ pairSums then .crCrCr else .crCr := by
  obtain ⟨e, he, heop, hshape⟩ := hm.listed
  have hshapes := FormatEntry.shape_of_pairs e he
  rw [heop, h.opcode, hshape] at hshapes
  rcases hshapes hop with hgeneral | hcomplex
  · obtain ⟨hcls, -⟩ := hm.classified.cls_of_operand h.target hgeneral rfl
    cases hcls
  · exact hcomplex

theorem lt (hop : op ∈ pairSums ++ pairMaps) (hm : m.Fit) : rd < 16 := by
  have hslot : m.shape.slots[0]? = some .complex := by
    rw [h.shape hop hm]
    split <;> rfl
  exact (hm.classified.cls_of_operand h.target hslot rfl).2

variable (cx : Context) {a c : Lanes ComplexPair}

theorem execute_of_sum (hop : op ∈ pairSums) (hm : m.Fit) (ha : cx.core.pair x = .ok a) (hc : cx.core.pair y = .ok c) :
    m.execute cx = .ok (ComplexResult.effects rd (.ofFn fun l =>
      Alu.onPairs op (a l) ((c l).conjIf conj) cx.core.modes.aluSat)) := by
  have hshape := h.shape (List.mem_append_left _ hop) hm
  have hoperands := h.operands
  rw [if_pos hop] at hshape
  rw [Opcode.pairOperands, if_pos hop] at hoperands
  have hunit : m.opcode.unit? = some .binary := by
    rw [h.opcode]
    exact (by decide : ∀ op ∈ pairSums, op.unit? = some .binary) op hop
  rw [execute_eq_run hunit, ExecUnit.run, ExecUnit.run.arithmetic, hshape]
  simp only [Context.complexBinary, Context.pair, regIndex_of_operand h.target, regIndex_of_operand (hoperands 1),
    regIndex_of_operand (hoperands 2), bind, Except.bind, ha, hc, h.opcode, h.conj]
  simp only [pairSums, List.mem_cons, List.not_mem_nil, or_false] at hop
  rcases hop with rfl | rfl <;> rfl

theorem execute_of_map (hop : op ∈ pairMaps) (hm : m.Fit) (hc : cx.core.pair y = .ok c) :
    m.execute cx = .ok (ComplexResult.effects rd (.ofFn fun l =>
      Alu.onPairs op (a l) ((c l).conjIf conj) cx.core.modes.aluSat)) := by
  have hsum : op ∉ pairSums := (by decide : ∀ op ∈ pairMaps, op ∉ pairSums) op hop
  have hshape := h.shape (List.mem_append_right _ hop) hm
  have hoperands := h.operands
  rw [if_neg hsum] at hshape
  rw [Opcode.pairOperands, if_neg hsum] at hoperands
  have hunary : m.execute cx = cx.complexUnary m := by
    have hunit := (by decide : ∀ op ∈ pairMaps, op.unit? = some .unary ∨ op.unit? = some .conjugate) op hop
    rw [← h.opcode] at hunit
    rcases hunit with hunit | hunit
    · rw [execute_eq_run hunit, ExecUnit.run, hshape]
    · rw [execute_eq_run hunit, ExecUnit.run]
  rw [hunary]
  simp only [Context.complexUnary, Context.complexMap, hshape, Context.pair, regIndex_of_operand h.target,
    regIndex_of_operand (hoperands 1), bind, Except.bind, hc, h.opcode, h.conj]
  simp only [pairMaps, List.mem_cons, List.not_mem_nil, or_false] at hop
  rcases hop with rfl | rfl | rfl <;> rfl

theorem execute (hop : op ∈ pairSums ++ pairMaps) (hm : m.Fit) (ha : op ∈ pairSums → cx.core.pair x = .ok a)
    (hc : cx.core.pair y = .ok c) : m.execute cx = .ok (ComplexResult.effects rd (.ofFn fun l =>
      Alu.onPairs op (a l) ((c l).conjIf conj) cx.core.modes.aluSat)) := by
  rcases List.mem_append.1 hop with hsum | hmap
  · exact h.execute_of_sum cx hsum hm (ha hsum) hc
  · exact h.execute_of_map cx hmap hm hc

end Member.WorksOnPairs

namespace Cell

variable (s : Core) (mem : Memory) (mask : Mask) (rd : Nat) (v : Lanes ComplexResult)

theorem behind_re_effects : (Cell.reg (2 * rd)).behind s mem mask (ComplexResult.effects rd v).writes =
    (s.reg (2 * rd)).map fun old => Lanes.merge mask old ((v.map (·.re.1)).map (wrap dataBits)) := by
  rw [ComplexResult.effects_eq_halves, behind_halves fun _ _ _ => id]
  show ((s.apply mask (.reg (2 * rd) (v.map (·.re.1)))).apply mask (.reg (2 * rd + 1) (v.map (·.im.1)))).reg
    (2 * rd) = _
  rw [reg_apply, reg_apply]
  dsimp only
  rw [if_neg (Nat.succ_ne_self _), if_pos rfl]

theorem behind_im_effects : (Cell.reg (2 * rd + 1)).behind s mem mask (ComplexResult.effects rd v).writes =
    (s.reg (2 * rd + 1)).map fun old => Lanes.merge mask old ((v.map (·.im.1)).map (wrap dataBits)) := by
  rw [ComplexResult.effects_eq_halves, behind_halves fun _ _ _ => id]
  show ((s.apply mask (.reg (2 * rd) (v.map (·.re.1)))).apply mask (.reg (2 * rd + 1) (v.map (·.im.1)))).reg
    (2 * rd + 1) = _
  rw [reg_apply, reg_apply]
  dsimp only
  rw [if_pos rfl, if_neg (Nat.succ_ne_self _).symm]

end Cell

namespace Core

/-- In a lane a complex register and the banks of flags have a result. -/
structure HasResult (s : Core) (rd : Nat) (l : Lane) (r : ComplexResult) : Prop where
  pair : s.GivesPair rd l ⟨r.re.1, r.im.1⟩
  flags : ∀ bank, let f := (s.flags l).get bank
    f.zero = (r.flags bank).zero ∧ f.negative = (r.flags bank).negative ∧ f.overflow = (r.flags bank).overflow

/-- The flags of a bank describe what an exact number settles to. -/
structure Describes (s : Core) (l : Lane) (bank : Bank) (saturate : Bool) (e : Int) : Prop where
  overflow : ((s.flags l).get bank).overflow = !decide (Fits dataBits e)
  zero : ((s.flags l).get bank).zero = (Alu.settled saturate e == 0)
  negative : ((s.flags l).get bank).negative = decide (Alu.settled saturate e < 0)

/-- In a lane a complex register holds what an exact pair settles to, and the banks of flags describe it. -/
structure LeavesExact (s : Core) (rd : Nat) (l : Lane) (saturate : Bool) (e : ComplexPair) : Prop where
  pair : s.GivesPair rd l ⟨Alu.settled saturate e.re, Alu.settled saturate e.im⟩
  real : s.Describes l .real saturate e.re
  imag : s.Describes l .imag saturate e.im
  overflow : (s.flags l).both.overflow = true ↔ ¬Fits dataBits e.re ∨ ¬Fits dataBits e.im
  zero : (s.flags l).both.zero = true ↔ Alu.settled saturate e.re = 0 ∧ Alu.settled saturate e.im = 0

variable {s : Core} {rd : Nat} {l : Lane} {r : ComplexResult} {saturate : Bool} {e : ComplexPair}

theorem GivesPair.unique {c c' : ComplexPair} (h : s.GivesPair rd l c) (h' : s.GivesPair rd l c') : c = c' :=
  Lanes.eq_of_read h h'

theorem HasResult.leaves_iff_settles (h : s.HasResult rd l r) :
    s.LeavesExact rd l saturate e ↔ r.Settles saturate e := by
  obtain ⟨hreZero, hreNegative, hreOverflow⟩ := h.flags .real
  obtain ⟨himZero, himNegative, himOverflow⟩ := h.flags .imag
  obtain ⟨hzero, -, hoverflow⟩ := h.flags .both
  constructor
  · intro hexact
    obtain ⟨hre, him⟩ := ComplexPair.mk.inj (h.pair.unique hexact.pair)
    exact ⟨⟨hre, hreOverflow.symm.trans hexact.real.overflow, hreZero.symm.trans hexact.real.zero,
        hreNegative.symm.trans hexact.real.negative⟩,
      ⟨him, himOverflow.symm.trans hexact.imag.overflow, himZero.symm.trans hexact.imag.zero,
        himNegative.symm.trans hexact.imag.negative⟩⟩
  · rintro ⟨hre, him⟩
    refine ⟨hre.value ▸ him.value ▸ h.pair, ⟨hreOverflow.trans hre.overflow, hreZero.trans hre.zero,
        hreNegative.trans hre.negative⟩, ⟨himOverflow.trans him.overflow, himZero.trans him.zero,
        himNegative.trans him.negative⟩, ?_, ?_⟩
    · have hboth : (s.flags l).both.overflow = (r.re.2.overflow || r.im.2.overflow) := hoverflow
      simp [hboth, hre.overflow, him.overflow]
    · have hboth : (s.flags l).both.zero = (r.re.2.zero && r.im.2.zero) := hzero
      simp [hboth, hre.zero, him.zero]

end Core

/-! ### Steps -/

namespace Simulator

/-- The next word works on complex registers; in a lane its condition holds, and its inputs hold these pairs, the last
of which is conjugated if the word asks for it. -/
def WorksOnPairs (sim : Simulator) (rd : Nat) (l : Lane) (op : Opcode) (conj : Bool) (a c : ComplexPair) : Prop :=
  ∃ idx i m x y, sim.current? = some (idx, i) ∧ sim.core.holds i.cond l = true ∧ i.Issues m ∧
    m.WorksOnPairs op conj rd x y ∧ (op ∈ pairSums → sim.core.GivesPair x l a) ∧ sim.core.GivesPair y l c

variable {sim : Simulator} {rd : Nat} {l : Lane} {op : Opcode} {conj : Bool} {a c : ComplexPair}

theorem WorksOnPairs.step (h : sim.WorksOnPairs rd l op conj a c) (hop : op ∈ pairSums ++ pairMaps) :
    sim.step.core.HasResult rd l (Alu.onPairs op a (c.conjIf conj) sim.core.modes.aluSat) := by
  obtain ⟨idx, i, m, x, y, hcurrent, hcond, hi, hm, hx, ⟨w, hw, rfl⟩⟩ := h
  obtain ⟨u, hu, rfl⟩ : ∃ u : Lanes ComplexPair, (op ∈ pairSums → sim.core.pair x = .ok u) ∧ u l = a := by
    by_cases hsum : op ∈ pairSums
    · obtain ⟨u, hu, hua⟩ := hx hsum
      exact ⟨u, fun _ => hu, hua⟩
    · exact ⟨Lanes.fill a, fun h => absurd h hsum, Lanes.fill_apply a l⟩
  have hfit := hi.fit
  have hasks : m.opcode.asks = false := by
    rw [hm.opcode]
    exact (by decide : ∀ op ∈ pairSums ++ pairMaps, op.asks = false) op hop
  have hfx := hm.execute ⟨sim.core, sim.mem, sim.program, sim.core.mask i.cond⟩ hop hfit hu hw
  have hl := (sim.core.mask_apply i.cond l).trans hcond
  have hwidth := Alu.inWidth_onPairs op (u l) ((w l).conjIf conj) sim.core.modes.aluSat
  have hlt := hm.lt hop hfit
  constructor
  · obtain ⟨oldRe, hre⟩ : ∃ old, sim.core.reg (2 * rd) = .ok old := Core.fetch_of_lt _ (by omega)
    obtain ⟨oldIm, him⟩ : ∃ old, sim.core.reg (2 * rd + 1) = .ok old := Core.fetch_of_lt _ (by omega)
    have hreStep := read_step_of_hits hcurrent hi hasks hfx (c := .reg (2 * rd)) ⟨_, List.mem_cons_self, rfl⟩
    have himStep := read_step_of_hits hcurrent hi hasks hfx (c := .reg (2 * rd + 1))
      ⟨_, List.mem_cons_of_mem _ List.mem_cons_self, rfl⟩
    rw [Cell.behind_re_effects, hre] at hreStep
    rw [Cell.behind_im_effects, him] at himStep
    refine ⟨_, by rw [Core.pair, show sim.step.core.reg (2 * rd) = _ from hreStep,
      show sim.step.core.reg (2 * rd + 1) = _ from himStep]; rfl, ?_⟩
    simp only [Lanes.zipWith_apply, Lanes.merge_apply, if_pos hl, Lanes.map_apply, Lanes.ofFn_apply,
      (wrap_eq_self_iff (by decide) _).2 hwidth.re, (wrap_eq_self_iff (by decide) _).2 hwidth.im]
  · intro bank
    rw [ComplexResult.effects_eq_halves] at hfx
    have hflag {n : Nat} (hn : n < 5) := flag_step_of_halves hcurrent hi hasks hfx trivial trivial hcond bank (n := n)
      (by interval_cases n <;> rfl)
    have hzero := Option.some.inj (hflag (n := 0) (by decide))
    have hnegative := Option.some.inj (hflag (n := 1) (by decide))
    have hoverflow := Option.some.inj (hflag (n := 2) (by decide))
    simp only [Flags.update, Lanes.map_apply, Lanes.ofFn_apply] at hzero hnegative hoverflow
    exact ⟨hzero, hnegative, hoverflow⟩

/-- A word on complex registers leaves its exact result, wrapped or clamped, with the flags that go with it, except
where it passes a conjugate whose imaginary half does not fit: this half is wrapped in either mode, and no bank has the
overflow. -/
theorem WorksOnPairs.leavesExact_iff (h : sim.WorksOnPairs rd l op conj a c) (hop : op ∈ pairSums ++ pairMaps)
    (hc : c.InWidth) :
    let e := ComplexPair.exact op a (c.conjIf conj)
    (sim.step.core.LeavesExact rd l sim.core.modes.aluSat e ↔ ¬(op = .pass ∧ conj = true ∧ c.im = -2048)) ∧
      (op = .pass ∧ conj = true ∧ c.im = -2048 →
        sim.step.core.GivesPair rd l ⟨e.re, -2048⟩ ∧ (sim.step.core.flags l).imag.overflow = false ∧
          (sim.step.core.flags l).both.overflow = false) := by
  intro e
  have hstep := h.step hop
  refine ⟨hstep.leaves_iff_settles.trans (Alu.settles_onPairs_iff hop hc a conj _), ?_⟩
  rintro ⟨rfl, rfl, him⟩
  obtain ⟨re, im⟩ := c
  obtain rfl : im = -2048 := him
  have hre := (wrap_eq_self_iff (by decide) re).2 hc.re
  refine ⟨?_, (hstep.flags .imag).2.2, (hstep.flags .both).2.2⟩
  have hpair : sim.step.core.GivesPair rd l ⟨wrap dataBits re, -2048⟩ := hstep.pair
  rwa [hre] at hpair

/-- A machine that passes the conjugate of a pair whose imaginary half is the least word. -/
def passing (modes : Modes) : Simulator :=
  let word : Instruction :=
    { line := 1
      opcode := .pass
      operands := [.reg ⟨.complex, 1⟩, .reg ⟨.complex, 0⟩]
      conjugate := true }
  let sim := load ((Builder.origin 0).push word).program {}
  { sim with core := { sim.core.setReg 1 (Lanes.fill (-2048)) Mask.all with modes := modes } }

theorem WorksOnPairs.leavesExact_iff_passing : (passing {}).WorksOnPairs 1 0 .pass true ⟨0, 0⟩ ⟨0, -2048⟩ ∧
    ¬(passing {}).step.core.LeavesExact 1 0 false ⟨0, 2048⟩ ∧ (passing {}).step.core.GivesPair 1 0 ⟨0, -2048⟩ := by
  have hpass : (passing {}).WorksOnPairs 1 0 .pass true ⟨0, 0⟩ ⟨0, -2048⟩ := by
    refine ⟨0, _, _, 0, 0, rfl, rfl, ⟨rfl, _, rfl, List.mem_singleton_self _⟩, ⟨rfl, rfl, fun n => rfl⟩, ?_,
      ⟨_, rfl, rfl⟩⟩
    intro hsum
    exact absurd hsum (by decide)
  obtain ⟨hexact, hmissed⟩ := WorksOnPairs.leavesExact_iff hpass (by decide) ⟨by decide, by decide⟩
  exact ⟨hpass, fun hleaves => hexact.1 hleaves ⟨rfl, rfl, rfl⟩, (hmissed ⟨rfl, rfl, rfl⟩).1⟩

end Simulator

end QuadDsp
