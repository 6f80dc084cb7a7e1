import QuadDsp.Proofs.Machine.Comparison

/-! # The condition table

A word is to test the flags of its own class: those of complex results where it computes with complex registers, and
the real ones elsewhere; NEG and POS are to test the sign of the input (`Condition.specified`). The lane mask of a word
is taken from the real flags in any case, and NEG and POS read the sign of the result there. So the mask is the
specified one exactly where those flags tell the same (`mask_eq_specified_iff`); in a word on data registers, this
leaves NEG and POS as the only exceptions. -/

namespace QuadDsp

/-- The specified value of a condition: what it tests of a set of flags, or of the loop counter. -/
def Condition.specified (c : Condition) (f : Flags) (counter : Nat) : Bool :=
  match c with
  | .eq => f.zero
  | .ne => !f.zero
  | .gt => !f.less && !f.zero
  | .le => f.less || f.zero
  | .lt => f.less
  | .ge => !f.less
  | .av => f.overflow
  | .notAv => !f.overflow
  | .ac => f.carry
  | .notAc => !f.carry
  | .neg => f.inputSign
  | .pos => !f.inputSign
  | .mv => f.mulOverflow
  | .notMv => !f.mulOverflow
  | .sv => f.shiftOverflow
  | .notSv => !f.shiftOverflow
  | .ce => counter == 1
  | .notCe => counter != 1
  | .aq => f.quotient
  | .notAq => !f.quotient
  | .forever => false
  | .always => true

/-- Operations that compute with complex registers; loads and stores only move them. -/
def Shape.isComplexClass (s : Shape) : Bool := s ∈ [.crCr, .crCrCr, .accCrCr]

/-- The flags that a word is to test. -/
def Selection.bank (s : Selection) : Bank := if s.members.any (·.shape.isComplexClass) then .both else .real

/-- What a condition reads of the real flags is what it is to read of these flags. -/
def Condition.Agrees (c : Condition) (real f : Flags) : Prop :=
  match c with
  | .eq | .ne => real.zero = f.zero
  | .gt | .le => (real.less || real.zero) = (f.less || f.zero)
  | .lt | .ge => real.less = f.less
  | .av | .notAv => real.overflow = f.overflow
  | .ac | .notAc => real.carry = f.carry
  | .neg | .pos => real.negative = f.inputSign
  | .mv | .notMv => real.mulOverflow = f.mulOverflow
  | .sv | .notSv => real.shiftOverflow = f.shiftOverflow
  | .aq | .notAq => real.quotient = f.quotient
  | .ce | .notCe | .forever | .always => True

theorem Condition.agrees_self {c : Condition} (hc : c ≠ .neg ∧ c ≠ .pos) (f : Flags) : c.Agrees f f := by
  cases c with
  | neg => exact absurd rfl hc.1
  | pos => exact absurd rfl hc.2
  | ce | notCe | forever | always => trivial
  | _ => rfl

theorem Core.holds_eq_specified (s : Core) (c : Condition) (l : Lane) : s.holds c l =
    c.specified { (s.flags l).real with inputSign := (s.flags l).real.negative } s.loopCounter := by
  cases c with
  | gt => exact Bool.not_or ..
  | _ => rfl

theorem Core.holds_eq_specified_iff (s : Core) (c : Condition) (l : Lane) (f : Flags) :
    s.holds c l = c.specified f s.loopCounter ↔ c.Agrees (s.flags l).real f := by
  rw [holds_eq_specified]
  cases c with
  | gt =>
    show (!(s.flags l).real.less && !(s.flags l).real.zero) = (!f.less && !f.zero) ↔ _
    rw [← Bool.not_or, ← Bool.not_or, Bool.not_inj_iff]
    rfl
  | ne | ge | notAv | notAc | pos | notMv | notSv | notAq => exact Bool.not_inj_iff
  | ce | notCe | forever | always => exact iff_of_true rfl trivial
  | _ => exact Iff.rfl

/-- The lane mask of an accepted word, which is executed unless it lacks a name, is the specified one exactly in the
lanes where the condition reads the same of the real flags as it is to read of those of the word's class. In a word on
data registers this is every lane, unless the condition is NEG or POS. -/
theorem mask_eq_specified_iff (s : Core) (mem : Memory) (p : Program) {i : Instruction} {sel : Selection}
    (hstructure : checkStructure i = .ok ()) (hselect : select i = .ok sel) :
    (∃ m ∈ sel.members, ∃ name, execute s mem p i = .error (.structural (.unknownSymbol name)) ∧ m.Lacks p name) ∨
      ∃ fx, execute s mem p i = .ok fx ∧ ∀ l,
        (fx.mask l = i.cond.specified ((s.flags l).get sel.bank) s.loopCounter ↔
          i.cond.Agrees (s.flags l).real ((s.flags l).get sel.bank)) ∧
        (sel.bank = .real → i.cond ≠ .neg ∧ i.cond ≠ .pos →
          fx.mask l = i.cond.specified (s.flags l).real s.loopCounter) := by
  rcases execute_of_select s mem p hstructure hselect with ⟨fx, hfx, -⟩ | hlacks
  · refine .inr ⟨fx, hfx, fun l => ?_⟩
    rw [mask_of_execute hfx, Core.mask_apply]
    refine ⟨s.holds_eq_specified_iff i.cond l _, fun _ hcond => ?_⟩
    exact (s.holds_eq_specified_iff i.cond l _).2 (Condition.agrees_self hcond _)
  · exact .inl hlacks

/-- The halves zero and one are passed on, and then again on condition that the result is zero. -/
def halvesApart : Program :=
  ([{ line := 1, opcode := .ld, operands := [.reg ⟨.general, 3⟩, .imm 1] },
    { line := 2, opcode := .pass, operands := [.reg ⟨.complex, 2⟩, .reg ⟨.complex, 1⟩] },
    { line := 3, opcode := .pass, operands := [.reg ⟨.complex, 4⟩, .reg ⟨.complex, 1⟩],
      condition := some .eq }].foldl Builder.push (Builder.origin 0)).program

theorem mask_eq_specified_iff_halvesApart :
    let sim := Simulator.step^[2] (Simulator.load halvesApart {})
    ∃ i sel fx, sim.current? = some (2, i) ∧ checkStructure i = .ok () ∧ select i = .ok sel ∧
      execute sim.core sim.mem sim.program i = .ok fx ∧
      fx.mask 0 ≠ i.cond.specified ((sim.core.flags 0).get sel.bank) sim.core.loopCounter := by
  intro sim
  obtain ⟨i, sel, fx, hcurrent, hcond, hstructure, hselect, hbank, hfx⟩ : ∃ i sel fx, sim.current? = some (2, i) ∧
      i.cond = .eq ∧ checkStructure i = .ok () ∧ select i = .ok sel ∧ sel.bank = .both ∧
      execute sim.core sim.mem sim.program i = .ok fx := ⟨_, _, _, rfl, rfl, rfl, rfl, rfl, rfl⟩
  refine ⟨i, sel, fx, hcurrent, hstructure, hselect, hfx, fun hmask => ?_⟩
  have hspecified := mask_eq_specified_iff sim.core sim.mem sim.program hstructure hselect
  rcases hspecified with ⟨m, -, name, herror, -⟩ | ⟨fx', hfx', h⟩
  · cases hfx.symm.trans herror
  · cases hfx.symm.trans hfx'
    have hagrees := (h 0).1.1 hmask
    rw [hcond, hbank] at hagrees
    -- the real result is zero, the whole one is not
    have hzero : true = false := hagrees
    cases hzero

end QuadDsp
