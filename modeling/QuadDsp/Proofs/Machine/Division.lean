import Mathlib.Tactic.FinCases
import Mathlib.Tactic.IntervalCases
import QuadDsp.Proofs.Machine.NonRestoring
import QuadDsp.Proofs.Machine.Rounds

/-! # Division

A division is twelve words: DIVS, then eleven times DIVQ, on the same pair of data registers and by the same divisor.
Every one of them is accepted, whatever else the instruction holds (`Instruction.DividesBy.select`), and does in each
lane one step of a division without restoring (`Simulator.dividing_step`). So the state behind the twelfth follows from
what `Alu.Divided` says of the steps (`Simulator.exists_divided`). -/

namespace QuadDsp

/-- DIVS, or else DIVQ, on the pair of data registers from `rd` on by the register `rs`, without a condition. -/
structure Instruction.DividesBy (i : Instruction) (first : Bool) (rd rs : Nat) : Prop where
  opcode : i.opcode = if first then .divs else .divq
  operands : i.operands = [.reg ⟨.general, rd⟩, .reg ⟨.general, rs⟩]
  cond : i.cond = .always
  alone : i.siblings = []

/-- The registers of a division, and the quotient flag of each lane. -/
structure Core.Dividing (s : Core) (rd rs : Nat) (rem quo div : Lanes Int) (flag : Lanes Bool) : Prop where
  rem : s.reg rd = .ok rem
  quo : s.reg (rd + 1) = .ok quo
  div : s.reg rs = .ok div
  flag : ∀ l, (s.flags l).real.quotient = flag l

/-- An even register and the one behind it, with a divisor outside this pair. -/
structure DivisionPair (rd rs : Nat) : Prop where
  even : rd % 2 = 0
  ne : rs ≠ rd
  ne_succ : rs ≠ rd + 1

/-- A step of a division in every lane. -/
def Alu.divideLanes (first : Bool) (rem quo div : Lanes Int) (flag : Lanes Bool) : Lanes (Int × Int × Bool) :=
  .ofFn fun l => divideStep first (rem l) (quo l) (div l) (flag l)

/-- The effects of a step of a division. -/
def Effects.divided (rd : Nat) (steps : Lanes (Int × Int × Bool)) : Effects :=
  .ofWrites [.reg rd (steps.map (·.1)), .reg (rd + 1) (steps.map (·.2.1)),
    .flags .real .division (steps.map fun s => { quotient := s.2.2 })]

theorem Core.lt_of_reg {s : Core} {n : Nat} {v : Lanes Int} (h : s.reg n = .ok v) : n < 32 := by
  unfold Core.reg Core.fetch at h
  split at h
  · assumption
  · cases h

namespace Instruction.DividesBy

variable {i : Instruction} {first : Bool} {rd rs : Nat} (h : i.DividesBy first rd rs)

include h

theorem operand? (k : Nat) :
    (⟨.op, i, .rr, none⟩ : Member).operand? (.nth k) =
      [Operand.reg ⟨.general, rd⟩, .reg ⟨.general, rs⟩][k]? := by
  rw [Member.operand?, Member.nth?, h.operands]
  rfl

theorem regIndex (k : Nat) {n : Nat}
    (hk : [Operand.reg ⟨.general, rd⟩, .reg ⟨.general, rs⟩][k]? = some (.reg ⟨.general, n⟩)) :
    (⟨.op, i, .rr, none⟩ : Member).regIndex k = .ok n := by
  rw [Member.regIndex, Member.register, Member.reg?, h.operand?, hk]
  rfl

/-- The number of each register fits its field. -/
theorem memberValue (k : Nat) {n : Nat} (hn : n < 32)
    (hk : [Operand.reg ⟨.general, rd⟩, .reg ⟨.general, rs⟩][k]? = some (.reg ⟨.general, n⟩)) :
    (Layout.reg k 5).memberValue ⟨.op, i, .rr, none⟩ = .ok n := by
  have harg : (⟨.op, i, .rr, none⟩ : Member).operand? (Layout.reg k 5).arg = some (.reg ⟨.general, n⟩) :=
    (h.operand? k).trans hk
  simp only [Field.memberValue, Layout.reg] at harg ⊢
  rw [harg]
  exact fitField_eq_ok_iff.2 ⟨hn, Int.sub_zero _⟩

theorem classify (hrd : rd < 32) (hrs : rs < 32) : Shape.classify i = .ok (.rr, none) := by
  have husable {n : Nat} (hn : n < 32) : (Operand.reg ⟨.general, n⟩).Usable :=
    ⟨decide_eq_true hn, fun _ hmem => by cases hmem⟩
  refine Shape.classify_eq_ok_iff.2 ⟨?_, ?_, ?_⟩
  · rw [Instruction.plain, h.operands]
    rfl
  · rw [Instruction.modes, h.operands]
    rfl
  · rw [h.operands]
    simp [husable hrd, husable hrs]

theorem checkOperands (heven : rd % 2 = 0) : (⟨.op, i, .rr, none⟩ : Member).checkOperands = .ok () := by
  have hreg : (⟨.op, i, .rr, none⟩ : Member).reg? 0 = some ⟨.general, rd⟩ := by
    rw [Member.reg?, h.operand?]
    rfl
  unfold Member.checkOperands
  rw [Member.opcode, h.opcode]
  cases first with
  | false => simp only [Bool.false_eq_true, if_false, hreg, heven, if_true]
  | true => simp only [if_true, hreg, heven]

theorem select (heven : rd % 2 = 0) (hrd : rd < 32) (hrs : rs < 32) :
    QuadDsp.select i = .ok ⟨.alu2r, if first then 0x017 else 0x018, i, [⟨.op, i, .rr, none⟩]⟩ := by
  have hentry : (⟨if first then .divs else .divq, .rr, .alu2r, if first then 0x017 else 0x018⟩ : FormatEntry) ∈
      formatEntries := by
    cases first <;> decide
  rw [QuadDsp.select, h.alone, List.isEmpty_nil, if_pos rfl]
  refine selectSingle_eq_ok_iff.2 ⟨⟨.op, i, .rr, none⟩, _, hentry, rfl, ⟨h.classify hrd hrs, rfl⟩,
    ⟨rfl, rfl, fun _ => h.opcode⟩, h.checkOperands heven, rfl, fun _ => h.cond,
    Selection.validate_eq_ok_iff.2 fun f hf => ?_⟩
  simp only [FormatId.layout, List.mem_cons, List.not_mem_nil, or_false] at hf
  rcases hf with rfl | rfl | rfl | rfl | rfl
  · exact ⟨_, rfl⟩
  · rw [Selection.fieldValue_of_member? (m := ⟨.op, i, .rr, none⟩) rfl rfl rfl, h.memberValue 0 hrd rfl]
    exact ⟨_, rfl⟩
  · rw [Selection.fieldValue_of_member? (m := ⟨.op, i, .rr, none⟩) rfl rfl rfl, h.memberValue 1 hrs rfl]
    exact ⟨_, rfl⟩
  · exact ⟨_, rfl⟩
  · exact ⟨_, rfl⟩

/-- The word does a step of a division in every lane. -/
theorem execute {s : Core} {rem quo div : Lanes Int} {flag : Lanes Bool} (heven : rd % 2 = 0)
    (hs : s.Dividing rd rs rem quo div flag) (mem : Memory) (p : Program) :
    QuadDsp.execute s mem p i = .ok (.divided rd (Alu.divideLanes first rem quo div flag)) := by
  have hstructure : checkStructure i = .ok () := by rw [checkStructure, h.alone]
  have hunit : (⟨.op, i, .rr, none⟩ : Member).opcode.unit? = some .divide := by
    rw [Member.opcode, h.opcode]
    cases first <;> rfl
  have hfirst : ((⟨.op, i, .rr, none⟩ : Member).opcode == .divs) = first := by
    rw [Member.opcode, h.opcode]
    cases first <;> rfl
  have hrun : (⟨.op, i, .rr, none⟩ : Member).execute ⟨s, mem, p, s.mask .always⟩ =
      .ok (.divided rd (Alu.divideLanes first rem quo div flag)) := by
    rw [Member.execute, hunit]
    show Context.divide _ _ = _
    simp only [Context.divide, Context.reg, h.regIndex 0 rfl, h.regIndex 1 rfl, hs.rem, hs.quo, hs.div, hs.flag, hfirst,
      bind, Except.bind]
    rfl
  rw [execute_of_selected hstructure (h.select heven (Core.lt_of_reg hs.rem) (Core.lt_of_reg hs.div)), h.cond,
    executeMembers, hrun]
  rfl

theorem asks : i.opcode.asks = false := by
  rw [h.opcode]
  cases first <;> rfl

theorem reran {j : Instruction} (hij : i.Reran j) : j.DividesBy first rd rs := by
  rw [hij]
  exact ⟨h.opcode, h.operands, h.cond, h.alone⟩

end Instruction.DividesBy

section Committing

variable {s : Core} {rd rs : Nat} {rem quo div : Lanes Int} {flag : Lanes Bool}

theorem Core.reg_setReg_all {n : Nat} {old v : Lanes Int} (hold : s.reg n = .ok old)
    (hv : ∀ l, wrap dataBits (v l) = v l) : (s.setReg n v Mask.all).reg n = .ok v := by
  rw [Core.reg_setReg, if_pos rfl, hold, Except.map]
  refine congrArg Except.ok ?_
  rw [Mask.all, Lanes.merge_fill_true]
  exact Lanes.ext fun l => (Lanes.map_apply _ v l).trans (hv l)

/-- The results of a step are in range. -/
theorem Alu.wrap_divideStep (first : Bool) (rem quo div : Int) (previous : Bool) :
    wrap dataBits (divideStep first rem quo div previous).1 = (divideStep first rem quo div previous).1 ∧
      wrap dataBits (divideStep first rem quo div previous).2.1 = (divideStep first rem quo div previous).2.1 := by
  cases first with
  | false => exact ⟨wrap_wrap _ _, wrap_wrap _ _⟩
  | true => exact ⟨wrap_wrap _ _, wrap_wrap _ _⟩

/-- A step replaces the pair and the quotient flags, and keeps the divisor. -/
theorem Core.Dividing.commit (hs : s.Dividing rd rs rem quo div flag) (hpair : DivisionPair rd rs) (first : Bool)
    (mem : Memory) :
    let steps := Alu.divideLanes first rem quo div flag
    (QuadDsp.commit s mem (.divided rd steps)).1.Dividing rd rs (steps.map (·.1)) (steps.map (·.2.1)) div
      (steps.map (·.2.2)) := by
  intro steps
  have hsteps (l : Lane) : steps l = Alu.divideStep first (rem l) (quo l) (div l) (flag l) := Lanes.ofFn_apply _ l
  have hreg (n : Nat) : (QuadDsp.commit s mem (.divided rd steps)).1.reg n =
      ((s.setReg rd (steps.map (·.1)) Mask.all).setReg (rd + 1) (steps.map (·.2.1)) Mask.all).reg n := rfl
  refine ⟨?_, ?_, ?_, fun l => ?_⟩
  · rw [hreg, Core.reg_setReg, if_neg (by omega)]
    refine Core.reg_setReg_all hs.rem fun l => ?_
    rw [Lanes.map_apply, hsteps]
    exact (Alu.wrap_divideStep ..).1
  · rw [hreg]
    have hold : (s.setReg rd (steps.map (·.1)) Mask.all).reg (rd + 1) = .ok quo := by
      rw [Core.reg_setReg, if_neg (by omega), hs.quo]
    refine Core.reg_setReg_all hold fun l => ?_
    rw [Lanes.map_apply, hsteps]
    exact (Alu.wrap_divideStep ..).2
  · rw [hreg, Core.reg_setReg, if_neg hpair.ne_succ.symm, Core.reg_setReg, if_neg hpair.ne.symm, hs.div]
  · have hflags : (QuadDsp.commit s mem (.divided rd steps)).1.flags =
        (s.updateFlags Mask.all .real .division (steps.map fun s => { quotient := s.2.2 })).flags := rfl
    rw [hflags, Core.updateFlags, Mask.all, Lanes.merge_fill_true, Lanes.zipWith_apply, Lanes.map_apply,
      Lanes.map_apply]
    rfl

end Committing

namespace Simulator

variable {sim : Simulator} {idx : Nat} {i : Instruction} {rd rs : Nat} {rem quo div : Lanes Int} {flag : Lanes Bool}

theorem dividing_step {first : Bool} (hcurrent : sim.current? = some (idx, i)) (hi : i.DividesBy first rd rs)
    (hpair : DivisionPair rd rs) (hs : sim.core.Dividing rd rs rem quo div flag) :
    let steps := Alu.divideLanes first rem quo div flag
    sim.step.core.Dividing rd rs (steps.map (·.1)) (steps.map (·.2.1)) div (steps.map (·.2.2)) := by
  intro steps
  have heffects : (effects sim.core sim.mem sim.program i).1 = .divided rd steps := by
    rw [fst_effects, hi.execute hpair.even hs]
    rfl
  obtain ⟨loops, counter, hrounded⟩ := sim.controller.exists_rounded
    (commit sim.core sim.mem (.divided rd steps)).1 sim.program i none
  have hcommit := hs.commit hpair first sim.mem
  rw [core_step hcurrent, heffects]
  dsimp only [Effects.divided, Effects.ofWrites] at hrounded ⊢
  rw [hrounded]
  exact ⟨hcommit.rem, hcommit.quo, hcommit.div, hcommit.flag⟩

/-- The next twelve words are those of a division. -/
def Divides (sim : Simulator) (rd rs : Nat) : Prop :=
  ∀ k < 12, ∃ idx i, (step^[k] sim).current? = some (idx, i) ∧ i.DividesBy (k == 0) rd rs

/-- In every lane whose dividend and divisor allow it, the steps carry the division on. -/
theorem exists_divided (h : sim.Divides rd rs) (hpair : DivisionPair rd rs)
    (hs : sim.core.Dividing rd rs rem quo div flag) {k : Nat} (hk : k < 12) :
    ∃ rem' quo' flag', (step^[k + 1] sim).core.Dividing rd rs rem' quo' div flag' ∧
      ∀ l, Alu.InRange (Alu.dividend (rem l) (quo l)) (div l) →
        Alu.Divided (Alu.dividend (rem l) (quo l)) (div l) (k + 1) (11 - k) (rem' l) (quo' l) (flag' l) := by
  obtain ⟨idx, i, hcurrent, hi⟩ := h k hk
  rw [Function.iterate_succ_apply']
  induction k generalizing idx i with
  | zero =>
    refine ⟨_, _, _, dividing_step hcurrent hi hpair hs, fun l hl => ?_⟩
    have hfirst := Alu.divided_first hl (flag l)
    simpa [Alu.divideLanes] using hfirst
  | succ k ih =>
    obtain ⟨idx', i', hcurrent', hi'⟩ := h k (by omega)
    obtain ⟨rem', quo', flag', hs', hdivided⟩ := ih (by omega) idx' i' hcurrent' hi'
    rw [← Function.iterate_succ_apply' step k sim] at hs'
    refine ⟨_, _, _, dividing_step hcurrent hi hpair hs', fun l hl => ?_⟩
    have hbefore := hdivided l hl
    rw [show 11 - k = 11 - (k + 1) + 1 by omega] at hbefore
    have hstep := hbefore.step hl (Nat.succ_pos k) (by omega)
    simpa [Alu.divideLanes] using hstep

/-- Behind the twelve words the second register of the pair holds the quotient, and the first one the remainder, less
the divisor where the quotient is even. -/
theorem Divides.completed (h : sim.Divides rd rs) (hpair : DivisionPair rd rs) (hrem : sim.core.reg rd = .ok rem)
    (hquo : sim.core.reg (rd + 1) = .ok quo) (hdiv : sim.core.reg rs = .ok div) :
    ∃ rest quotient, (step^[12] sim).core.reg rd = .ok rest ∧
      (step^[12] sim).core.reg (rd + 1) = .ok quotient ∧
      ∀ l, let n := Alu.dividend (rem l) (quo l)
        0 ≤ n → 0 < div l → div l ≤ 2047 → n < 2048 * div l →
          quotient l = n / div l ∧ rest l = if n / div l % 2 = 1 then n % div l else n % div l - div l := by
  have hs : sim.core.Dividing rd rs rem quo div (sim.core.flags.map (·.real.quotient)) :=
    ⟨hrem, hquo, hdiv, fun l => (Lanes.map_apply (·.real.quotient) sim.core.flags l).symm⟩
  obtain ⟨rest, quotient, _, hs', hdivided⟩ := exists_divided h hpair hs (show 11 < 12 by decide)
  refine ⟨rest, quotient, hs'.rem, hs'.quo, fun l hn hpos hle hlt => ?_⟩
  have hrange : Alu.InRange (Alu.dividend (rem l) (quo l)) (div l) := ⟨hn, hpos, hle, hlt⟩
  exact (hdivided l hrange).finished hrange

/-- Twelve words of a division at addresses in a row are executed one after another, where no loop is run and no
target waits. -/
theorem divides_of_straight {addr : Nat} (hstraight : sim.program.Straight addr (addr + 11))
    (hwords : ∀ k < 12, ∃ i, sim.program.wordAt? (addr + k) = some i ∧ i.DividesBy (k == 0) rd rs)
    (hpc : sim.pc = sim.program.indexOf? addr) (hempty : ∀ t ∈ sim.core.loops.states, t.length = 0)
    (hpending : sim.controller.pending = none) : sim.Divides rd rs := by
  have hword {k : Nat} {here : Simulator} (hk : k < 12)
      (hstands : sim.Stands [] (sim.program.indexOf? (addr + k)) here) :
      ∃ idx i, sim.program.indexOf? (addr + k) = some idx ∧ here.current? = some (idx, i) ∧
        i.DividesBy (k == 0) rd rs := by
    obtain ⟨i, hi, hdivides⟩ := hwords k hk
    obtain ⟨idx, hidx, hinstr⟩ := Program.wordAt?_eq_some_iff.1 hi
    rw [hidx] at hstands
    obtain ⟨j, hcurrent, hij⟩ := hstands.exists_current hinstr
    exact ⟨idx, j, hidx, hcurrent, hdivides.reran hij⟩
  have hstands {k : Nat} (hk : k < 12) : sim.Stands [] (sim.program.indexOf? (addr + k)) (step^[k] sim) := by
    induction k with
    | zero => exact ⟨.refl _, hpc, by rw [LoopStacks.holding_of_empty hempty]; rfl, rfl⟩
    | succ k ih =>
      have hbefore := ih (by omega)
      obtain ⟨idx, i, hidx, hcurrent, hdivides⟩ := hword (by omega) hbefore
      rw [hidx] at hbefore
      rw [Function.iterate_succ_apply', ← Nat.add_assoc, ← hstraight.nextWord?_eq (by omega) (by omega) hidx]
      exact (hbefore.step_of_asked_none hcurrent (asked_of_asks hdivides.asks) (fun _ => hpending) nofun).2
  intro k hk
  obtain ⟨idx, i, -, hcurrent, hdivides⟩ := hword hk (hstands hk)
  exact ⟨idx, i, hcurrent, hdivides⟩

/-- A division of `R0` and `R1` by `R2`. -/
def divisionWords : Program :=
  (((List.replicate 12 [Operand.reg ⟨.general, 0⟩, .reg ⟨.general, 2⟩]).zipIdx.map fun (operands, k) =>
    ({ line := k + 1, opcode := if k = 0 then .divs else .divq, operands := operands } : Instruction)).foldl
      Builder.push (Builder.origin 0)).program

/-- Four dividends with their divisors, one in each lane, in front of the words that divide them. -/
def fourDivisions : Simulator :=
  let sim := load divisionWords {}
  { sim with
    core := ((sim.core.setReg 0 ⟨0, 0, 1, 0⟩ Mask.all).setReg 1 ⟨100, 1000, 0, 100⟩ Mask.all).setReg 2 ⟨7, 10, 100, 7⟩
      Mask.all }

theorem divides_fourDivisions : fourDivisions.Divides 0 2 := by
  have hstraight : fourDivisions.program.Straight 0 11 := by
    intro addr _ hhi
    interval_cases addr <;> exact ⟨_, rfl, fun _ => rfl⟩
  refine divides_of_straight hstraight (fun k hk => ?_) rfl (by decide) rfl
  interval_cases k <;> exact ⟨_, rfl, rfl, rfl, rfl, rfl⟩

theorem completed_fourDivisions :
    fourDivisions.Divides 0 2 ∧ (step^[12] fourDivisions).core.reg 0 = .ok ⟨-5, -10, -4, -5⟩ ∧
      (step^[12] fourDivisions).core.reg 1 = .ok ⟨14, 100, 40, 14⟩ := by
  have hpair : DivisionPair 0 2 := ⟨by decide, by decide, by decide⟩
  have hrem : fourDivisions.core.reg 0 = .ok ⟨0, 0, 1, 0⟩ := rfl
  have hquo : fourDivisions.core.reg 1 = .ok ⟨100, 1000, 0, 100⟩ := rfl
  have hdiv : fourDivisions.core.reg 2 = .ok ⟨7, 10, 100, 7⟩ := rfl
  obtain ⟨rest, quotient, hrest, hquotient, hlanes⟩ := Divides.completed divides_fourDivisions hpair hrem hquo hdiv
  obtain rfl : rest = ⟨-5, -10, -4, -5⟩ := Lanes.ext fun l => by
    fin_cases l <;> exact (hlanes _ (by decide) (by decide) (by decide) (by decide)).2
  obtain rfl : quotient = ⟨14, 100, 40, 14⟩ := Lanes.ext fun l => by
    fin_cases l <;> exact (hlanes _ (by decide) (by decide) (by decide) (by decide)).1
  exact ⟨divides_fourDivisions, hrest, hquotient⟩

end Simulator

end QuadDsp
