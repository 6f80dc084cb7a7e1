import QuadDsp.Proofs.Format.Alike
import QuadDsp.Word.Listing

/-! # The same word, encoded

What a word encodes to depends on its operations, its address and its format
(`Instruction.SameWord.encode`); whatever else a run has recorded in the instruction does not count. Of the program
around it nothing counts but the symbols (`Instruction.assemble_congr`). -/

namespace QuadDsp

variable {s s' : Selection} {p : Program}

theorem Member.Alike.mem? {m m' : Member} (h : m.Alike m') : m'.mem? = m.mem? := by
  rw [Member.mem?, Member.mem?, h.operand?]

theorem Selection.Alike.relocValue (h : s.Alike s') (haddr : s'.head.programAddr = s.head.programAddr) (f : Field) :
    s'.relocValue p f = s.relocValue p f := by
  have hmember := member?_alike h.members f.role
  unfold Selection.relocValue Selection.member?
  rw [haddr, h.head.opcode]
  generalize s.members.find? (·.role == f.role) = o at hmember ⊢
  generalize s'.members.find? (·.role == f.role) = o' at hmember ⊢
  cases hmember with
  | none => rfl
  | some hab => simp only [hab.operand?, hab.mem?]

theorem Selection.Alike.encodeFields (h : s.Alike s') (haddr : s'.head.programAddr = s.head.programAddr)
    (hcond : s'.head.cond = s.head.cond) (pos : Nat) (fields : List Field) :
    s'.encodeFields p pos fields = s.encodeFields p pos fields := by
  induction fields generalizing pos with
  | nil => rfl
  | cons f rest ih =>
    rw [Selection.encodeFields, Selection.encodeFields, Selection.encodeField, Selection.encodeField,
      fieldValue_alike h.fixed h.head h.members (.inl hcond), h.relocValue haddr, ih]

/-- The same word at the same address, with the same format, encodes to the same bits. -/
theorem Instruction.SameWord.encode {i j : Instruction} (h : i.SameWord j) (haddr : j.programAddr = i.programAddr)
    (hformat : j.format = i.format) (p : Program) : j.encode p = i.encode p := by
  unfold Instruction.encode
  rw [h.checkStructure, hformat, h.head.opcode]
  split
  · rfl
  · cases hi : select i with
    | error e =>
      have halike := hi ▸ select_alike h
      generalize select j = y at halike ⊢
      cases halike
      rfl
    | ok s =>
      obtain ⟨s', hj, halike⟩ := (select_alike h).of_ok hi
      obtain ⟨_, -, hfills⟩ := select_fills hi
      obtain ⟨_, -, hfills'⟩ := select_fills hj
      have haddr' : s'.head.programAddr = s.head.programAddr := by rw [hfills.head, hfills'.head, haddr]
      have hcond : s'.head.cond = s.head.cond := by rw [hfills.head, hfills'.head, h.cond]
      rw [hj]
      dsimp only
      rw [halike.format, halike.encodeFields haddr' hcond]

section Symbols

variable {q : Program} (h : q.symbols = p.symbols)

include h

theorem Program.targetAddr_congr (t : Target) : q.targetAddr t = p.targetAddr t := by
  cases t with
  | abs a => rfl
  | label name => rw [Program.targetAddr, Program.targetAddr, h]

theorem Program.dataAddr?_congr (mode : AddrMode) : q.dataAddr? mode = p.dataAddr? mode := by
  cases mode with
  | symbol name => rw [Program.dataAddr?, Program.dataAddr?, h]
  | _ => rfl

theorem Selection.encodeFields_congr (pos : Nat) (fields : List Field) :
    s.encodeFields q pos fields = s.encodeFields p pos fields := by
  have hreloc (f : Field) : s.relocValue q f = s.relocValue p f := by
    simp only [Selection.relocValue, Program.targetAddr_congr h, Program.dataAddr?_congr h]
  induction fields generalizing pos with
  | nil => rfl
  | cons f rest ih => simp only [Selection.encodeFields, Selection.encodeField, hreloc, ih]

theorem Instruction.encode_congr (i : Instruction) : i.encode q = i.encode p := by
  unfold Instruction.encode
  simp only [Selection.encodeFields_congr h]

/-- Programs with the same symbols make the same of an instruction, whatever stands around it. -/
theorem Instruction.assemble_congr (i : Instruction) : i.assemble q = i.assemble p := by
  unfold Instruction.assemble
  rw [i.encode_congr h]

end Symbols

end QuadDsp
