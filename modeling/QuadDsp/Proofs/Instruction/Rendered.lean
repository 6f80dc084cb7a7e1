import QuadDsp.Program.Builder
import QuadDsp.Proofs.Format.Alike
import QuadDsp.Proofs.Instruction.Respell

/-! # Built instructions read back

An instruction that is put together by hand, names among its operands, is shown in full by its text
(`Instruction.Printable`). A builder that is given the text gets the same word back, except where a name is
misread in the line though it is read by itself (`Builder.readLine_text_iff`). -/

namespace QuadDsp

namespace Instruction

variable {i j k : Instruction}

/-- An instruction that its text shows in full. -/
structure Printable (i : Instruction) : Prop where
  inOrder : ∀ m ∈ i.members, InOrder m.operands
  /-- the condition that always holds is not shown -/
  notAlways : i.condition ≠ some .always
  /-- nor is any condition of a directive or a loop -/
  unconditional : i.isDirective = true ∨ i.opcode = .loop → i.condition = none
  /-- nor one of a sibling -/
  siblings : ∀ s ∈ i.siblings, s.condition = none

theorem Printable.shownCondition?_eq (h : i.Printable) : i.shownCondition? = i.condition := by
  cases hcondition : i.condition with
  | none => simp [Instruction.shownCondition?, Instruction.cond, hcondition]
  | some c =>
    have hc : c ≠ .always := by
      rintro rfl
      exact h.notAlways hcondition
    have hno : i.isDirective = false ∧ i.opcode ≠ .loop := by
      rw [← Bool.not_eq_true, Ne, ← not_or]
      intro hor
      rw [h.unconditional hor] at hcondition
      cases hcondition
    simp [Instruction.shownCondition?, Instruction.cond, hcondition, hc, hno]

theorem SameWord.of_eq (hop : j.opcode = i.opcode) (hoperands : j.operands = i.operands)
    (hcondition : j.condition = i.condition) (hconjugate : j.conjugate = i.conjugate)
    (hsiblings : j.siblings = i.siblings) :
    i.SameWord j := by
  refine .cons ⟨hop, hoperands, hcondition, hconjugate⟩ ?_
  rw [hsiblings]
  exact List.forall₂_same.2 fun s _ => .refl s

theorem exists_withDataAddr (i : Instruction) : ∃ a, withDataAddr i = { i with dataAddr := a } := by
  unfold withDataAddr
  split
  · exact ⟨_, rfl⟩
  · cases i
    exact ⟨_, rfl⟩

theorem misread_eq_false (h : InOrder i.operands) (hread : readOperation i.operationText.toList = .ok j)
    (hsame : i.SameAction j) : misread i.operands = false := by
  have hbare : j = i.bare := by
    rw [← bare_of_readOperation h.betweenBars hread, bare, bare, hsame.opcode, hsame.operands, hsame.conjugate]
  exact (readOperation_text_iff h).1 (hbare ▸ hread)

/-- The text of an instruction is read as the same word, unless a name is misread. -/
theorem read_text_iff (h : i.Printable) :
    (∃ j, read i.text.toList = .ok j ∧ i.SameWord j) ↔ ∀ m ∈ i.members, misread m.operands = false := by
  constructor
  · rintro ⟨j, hread, hsame⟩
    rw [read_text_eq fun m hm => (h.inOrder m hm).betweenBars] at hread
    obtain ⟨head, hhead, hread⟩ := bind_eq_ok_iff.1 hread
    obtain ⟨siblings, hsiblings, hread⟩ := bind_eq_ok_iff.1 hread
    obtain ⟨a, haddr⟩ := exists_withDataAddr { head with condition := i.shownCondition?, siblings := siblings }
    obtain rfl : _ = j := haddr.symm.trans (Except.ok.inj hread)
    obtain ⟨hi, hrest⟩ := List.forall_mem_cons.1 h.inOrder
    refine List.forall_mem_cons.2 ⟨?_, fun s hs => ?_⟩
    · exact misread_eq_false hi hhead ⟨hsame.head.opcode, hsame.head.operands, hsame.head.conjugate⟩
    · rw [mapM_eq_ok_iff, List.forall₂_map_left_iff] at hsiblings
      have hboth : List.Forall₂ (fun s s' => readOperation s.operationText.toList = .ok s' ∧ s.SameOperation s')
          i.siblings siblings := hsiblings.mp (fun _ _ hr hs => ⟨hr, hs⟩) hsame.siblings
      obtain ⟨s', -, hs', hsame'⟩ := exists_right_of_forall₂ hboth hs
      exact misread_eq_false (hrest s hs) hs' hsame'.sameAction
  · intro hmisread
    refine ⟨withDataAddr i.respelled, read_text_of_not_misread h.inOrder hmisread, ?_⟩
    obtain ⟨a, haddr⟩ := exists_withDataAddr i.respelled
    rw [haddr]
    refine .cons ⟨rfl, rfl, h.shownCondition?_eq, rfl⟩ ?_
    show List.Forall₂ SameOperation i.siblings (i.siblings.map bare)
    rw [List.forall₂_map_right_iff, List.forall₂_same]
    exact fun s hs => ⟨rfl, rfl, (h.siblings s hs).symm, rfl⟩

end Instruction

namespace Builder

theorem placed_enterSection (b : Builder) (i : Instruction) : (b.enterSection i).placed = b.placed := by
  unfold enterSection
  split <;> rfl

theorem placed_push (b : Builder) (i : Instruction) :
    ∃ j, ((b.enterSection i).push i).placed = j :: b.placed ∧ i.SameWord j ∧ j.SameWord i := by
  let here := b.enterSection i
  refine ⟨{ i with line := here.line + 1, address := here.addr, sectionName := here.sectionName },
    congrArg (_ :: ·) (b.placed_enterSection i), .of_eq rfl rfl rfl rfl rfl, .of_eq rfl rfl rfl rfl rfl⟩

/-- A builder that reads the text of an instruction places the same word, unless a name is misread. -/
theorem readLine_text_iff {i : Instruction} (h : i.Printable) (b : Builder) :
    (∃ b' j, b.readLine i.text.toList = .ok b' ∧ b'.placed = j :: b.placed ∧ i.SameWord j) ↔
      ∀ m ∈ i.members, Instruction.misread m.operands = false := by
  rw [← Instruction.read_text_iff h]
  constructor
  · rintro ⟨b', j, hline, hplaced, hsame⟩
    obtain ⟨k, hread, hk⟩ := bind_eq_ok_iff.1 hline
    cases hk
    obtain ⟨j', hplaced', -, hback⟩ := b.placed_push k
    obtain rfl : j = j' := (List.cons.inj (hplaced.symm.trans hplaced')).1
    exact ⟨k, hread, hsame.trans hback⟩
  · rintro ⟨k, hread, hsame⟩
    obtain ⟨j, hplaced, hforth, -⟩ := b.placed_push k
    exact ⟨_, j, bind_eq_ok_iff.2 ⟨k, hread, rfl⟩, hplaced, hsame.trans hforth⟩

/-- `IF AV ST DM(SS), R0 || MAC ACC0, R1, R2 (UU)`: the symbol has the name of a multiply mode, but does not stand at
the end. -/
def storeNamed : Instruction where
  line := 0
  opcode := .st
  operands := [.mem ⟨.data, .symbol "SS"⟩, .reg ⟨.general, 0⟩]
  condition := some .av
  siblings := [{ line := 0, opcode := .mac
                 operands := [.reg ⟨.acc, 0⟩, .reg ⟨.general, 1⟩, .reg ⟨.general, 2⟩] ++ [.key (.mul .uu)] }]

/-- `LD R0, DM(SS)`: here it does. -/
def loadNamed : Instruction where
  line := 0
  opcode := .ld
  operands := [.reg ⟨.general, 0⟩, .mem ⟨.data, .symbol "SS"⟩]

theorem readLine_text_iff_named :
    (storeNamed.Printable ∧ ∃ b j, (origin 0).readLine storeNamed.text.toList = .ok b ∧ b.placed = [j] ∧
      storeNamed.SameWord j) ∧
    (loadNamed.Printable ∧ ¬∃ b j, (origin 0).readLine loadNamed.text.toList = .ok b ∧ b.placed = [j] ∧
      loadNamed.SameWord j) := by
  have hreg (r : Reg) (h : r.inFile = true) : (Operand.reg r).Plain := ⟨.spelled h, rfl⟩
  have hsymbol : (Operand.mem ⟨.data, .symbol "SS"⟩).Plain := ⟨.symbol (by rw [Operand.symbol_text]; rfl), rfl⟩
  have hstore : storeNamed.Printable := by
    refine ⟨?_, by decide, by decide, by decide⟩
    refine List.forall_mem_cons.2 ⟨.list ?_, List.forall_mem_singleton.2 (.mode ?_ .uu)⟩
    · exact List.forall_mem_cons.2 ⟨hsymbol, List.forall_mem_singleton.2 (hreg _ rfl)⟩
    · exact List.forall_mem_cons.2 ⟨hreg _ rfl, List.forall_mem_cons.2 ⟨hreg _ rfl,
        List.forall_mem_singleton.2 (hreg _ rfl)⟩⟩
  have hload : loadNamed.Printable := by
    refine ⟨?_, by decide, by decide, by decide⟩
    refine List.forall_mem_singleton.2 (.list ?_)
    exact List.forall_mem_cons.2 ⟨hreg _ rfl, List.forall_mem_singleton.2 hsymbol⟩
  refine ⟨⟨hstore, (readLine_text_iff hstore (origin 0)).2 (by decide)⟩, hload, fun h => ?_⟩
  exact absurd ((readLine_text_iff hload (origin 0)).1 h) (by decide)

end Builder

end QuadDsp
