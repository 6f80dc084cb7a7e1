import QuadDsp.Machine.Execute
import QuadDsp.Program.Resolve
import QuadDsp.Proofs.Format.Alike
import QuadDsp.Word.Listing

/-! # Refused words

The resolver, the assembler and the simulator each ask afresh whether a word is well-formed and has a format.
What a word is refused for (`Instruction.fault?`) depends on its operations alone, so all three say the same:
the resolver leaves such a word without format, and reports the diagnostic that the assembler reports for it
(`Program.resolve_diagnostics`) and the fault that its execution ends in (`Instruction.execute_of_fault?`). -/

namespace QuadDsp

namespace Instruction

/-- What a word is refused for. -/
def fault? (i : Instruction) : Option ExecError :=
  match checkStructure i with
  | .error e => some (.structural e)
  | .ok () =>
    match select i with
    | .error e => some (.shape e)
    | .ok _ => none

variable {i j : Instruction} {e : ExecError}

theorem fault?_of_select {s : Selection} (hstructure : checkStructure i = .ok ()) (hselect : select i = .ok s) :
    i.fault? = none := by
  rw [fault?, hstructure, hselect]

/-- A word is malformed, or it is well-formed and has no format. -/
theorem fault?_cases (h : i.fault? = some e) :
    (∃ e', checkStructure i = .error e' ∧ e = .structural e') ∨
      ∃ e', checkStructure i = .ok () ∧ select i = .error e' ∧ e = .shape e' := by
  rw [fault?] at h
  cases hstructure : checkStructure i with
  | error e' =>
    rw [hstructure] at h
    exact .inl ⟨e', rfl, (Option.some.inj h).symm⟩
  | ok u =>
    rw [hstructure] at h
    cases hselect : select i with
    | error e' =>
      rw [hselect] at h
      exact .inr ⟨e', rfl, rfl, (Option.some.inj h).symm⟩
    | ok s =>
      rw [hselect] at h
      cases h

theorem select_of_fault? (h : i.fault? = none) : checkStructure i = .ok () ∧ ∃ s, select i = .ok s := by
  rw [fault?] at h
  cases hstructure : checkStructure i with
  | error e' =>
    rw [hstructure] at h
    cases h
  | ok u =>
    rw [hstructure] at h
    cases hselect : select i with
    | error e' =>
      rw [hselect] at h
      cases h
    | ok s => exact ⟨rfl, s, rfl⟩

theorem SameWord.fault? (h : i.SameWord j) : j.fault? = i.fault? := by
  unfold Instruction.fault?
  rw [h.checkStructure]
  split
  · rfl
  · have halike := select_alike h
    generalize select i = x at halike ⊢
    generalize select j = y at halike ⊢
    cases halike <;> rfl

theorem withFormat_of_fault? (hformat : i.format = none) (h : i.fault? = some e) :
    i.withFormat = (i, some (i.execDiagnostic e)) := by
  rcases fault?_cases h with ⟨e', hstructure, rfl⟩ | ⟨e', hstructure, hselect, rfl⟩
  · rw [withFormat, hformat, hstructure]
    rfl
  · rw [withFormat, hformat, hstructure, hselect]
    rfl

theorem withFormat_of_select {s : Selection} (hformat : i.format = none) (hstructure : checkStructure i = .ok ())
    (hselect : select i = .ok s) : i.withFormat = ({ i with format := some s.format }, none) := by
  rw [withFormat, hformat, hstructure, hselect]
  rfl

theorem assemble_of_fault? (p : Program) (h : i.fault? = some e) :
    (i.assemble p).2 = some (i.execDiagnostic e) := by
  rcases fault?_cases h with ⟨e', hstructure, rfl⟩ | ⟨e', hstructure, hselect, rfl⟩
  · rw [assemble, encode, hstructure]
    rfl
  · rw [assemble, encode, hstructure, hselect]
    rfl

/-- The simulator gives it no effect. -/
theorem execute_of_fault? (s : Core) (mem : Memory) (p : Program) (h : i.fault? = some e) :
    execute s mem p i = .error e := by
  rcases fault?_cases h with ⟨e', hstructure, rfl⟩ | ⟨e', hstructure, hselect, rfl⟩
  · rw [execute, hstructure]
  · rw [execute, hstructure, hselect]

/-- Resolution gives conditions, marks a delay slot and chooses a format. -/
theorem fst_resolve (i : Instruction) (inDelaySlot : Bool) :
    ∃ format, (i.resolve inDelaySlot).1 =
      { i.withConditions with inDelaySlot := inDelaySlot, format := format } := by
  unfold resolve withFormat
  split
  · exact ⟨i.format, rfl⟩
  · split
    · exact ⟨i.format, rfl⟩
    · split
      · exact ⟨_, rfl⟩
      · exact ⟨i.format, rfl⟩

theorem isDirective_resolve (i : Instruction) (inDelaySlot : Bool) :
    (i.resolve inDelaySlot).1.isDirective = i.isDirective := by
  obtain ⟨format, h⟩ := i.fst_resolve inDelaySlot
  rw [h]
  rfl

theorem programAddr_resolve (i : Instruction) (inDelaySlot : Bool) :
    (i.resolve inDelaySlot).1.programAddr = i.programAddr := by
  obtain ⟨format, h⟩ := i.fst_resolve inDelaySlot
  rw [h]
  rfl

/-- A word without format is refused and reported, or gets the format of its selection. -/
theorem resolve_cases (hi : i.format = none) (inDelaySlot : Bool) :
    (∃ e, (i.resolve inDelaySlot).1.fault? = some e ∧ (i.resolve inDelaySlot).1.format = none ∧
        (i.resolve inDelaySlot).2 = some ((i.resolve inDelaySlot).1.execDiagnostic e)) ∨
      ∃ s, checkStructure (i.resolve inDelaySlot).1 = .ok () ∧ select (i.resolve inDelaySlot).1 = .ok s ∧
        (i.resolve inDelaySlot).1.format = some s.format ∧ (i.resolve inDelaySlot).2 = none := by
  unfold resolve
  generalize hj : { i.withConditions with inDelaySlot := inDelaySlot } = j
  have hformat : j.format = none := by
    rw [← hj]
    exact hi
  cases hfault : j.fault? with
  | some e =>
    rw [withFormat_of_fault? hformat hfault]
    exact .inl ⟨e, hfault, hformat, rfl⟩
  | none =>
    obtain ⟨hstructure, s, hselect⟩ := select_of_fault? hfault
    rw [withFormat_of_select hformat hstructure hselect]
    -- with its format set it is still the same word
    have hsame : j.SameWord { j with format := some s.format } :=
      .cons ⟨rfl, rfl, rfl, rfl⟩ (List.forall₂_same.2 fun k _ => .refl k)
    obtain ⟨s', hs', halike⟩ := (select_alike hsame).of_ok hselect
    refine .inr ⟨s', hsame.checkStructure.trans hstructure, hs', ?_, rfl⟩
    rw [halike.format]

end Instruction

section Resolve

variable (delaySlots afterBranch : Bool) (instrs : List Instruction)

/-- Directives stay as they are, and every word is resolved. -/
theorem forall₂_resolveList :
    List.Forall₂ (fun i j => if i.isDirective then j = i else ∃ b, j = (i.resolve b).1) instrs
      (resolveList delaySlots afterBranch instrs).1 := by
  induction instrs generalizing afterBranch with
  | nil => exact .nil
  | cons i rest ih =>
    rw [resolveList]
    split
    · next hi => exact .cons (by rw [if_pos hi]) (ih afterBranch)
    · next hi => exact .cons (by rw [if_neg hi]; exact ⟨_, rfl⟩) (ih _)

/-- In a list without formats, resolution reports for the words that it leaves without format what the
assembler reports for them. -/
theorem snd_resolveList (q : Program) (h : ∀ i ∈ instrs, i.isDirective = false → i.format = none) :
    (resolveList delaySlots afterBranch instrs).2 =
      (((resolveList delaySlots afterBranch instrs).1.filter fun i => !i.isDirective).filter
        (·.format.isNone)).filterMap fun r => (r.assemble q).2 := by
  induction instrs generalizing afterBranch with
  | nil => rfl
  | cons i rest ih =>
    have hrest := fun b => ih b fun j hj => h j (List.mem_cons_of_mem _ hj)
    rw [resolveList]
    split
    · next hi =>
      rw [List.filter_cons, hi]
      exact hrest afterBranch
    · next hi =>
      have hi : i.isDirective = false := Bool.eq_false_iff.2 hi
      dsimp only
      generalize hb : (delaySlots && afterBranch) = b
      rw [List.filter_cons, i.isDirective_resolve, hi, hrest]
      rcases Instruction.resolve_cases (h i List.mem_cons_self hi) b with ⟨e, hfault, hformat, hd⟩ |
        ⟨s, -, -, hformat, hd⟩
      · simp [hd, hformat, Instruction.assemble_of_fault? q hfault]
      · simp [hd, hformat]

end Resolve

namespace Program

variable {p : Program} {delaySlots : Bool}

theorem resolve_diagnostics (delaySlots : Bool) (h : ∀ i ∈ p.instrs, i.isDirective = false → i.format = none)
    (q : Program) :
    (p.resolve delaySlots).2 = ((p.resolve delaySlots).1.words.filter (·.format.isNone)).filterMap
      fun r => (r.assemble q).2 :=
  snd_resolveList delaySlots false p.instrs q h

theorem exists_of_resolve {idx : Nat} {r : Instruction} (hr : (p.resolve delaySlots).1.instrs[idx]? = some r)
    (hword : r.isDirective = false) : ∃ i b, p.instrs[idx]? = some i ∧ i.isDirective = false ∧ r = (i.resolve b).1 := by
  have hall := forall₂_resolveList delaySlots false p.instrs
  obtain ⟨hlt, rfl⟩ := List.getElem?_eq_some_iff.1 hr
  have hlt' : idx < p.instrs.length := hall.length_eq ▸ hlt
  have hij := hall.get hlt' hlt
  refine ⟨p.instrs[idx], ?_⟩
  dsimp only [List.get_eq_getElem] at hij
  split at hij
  · next hdir =>
    have heq : (p.resolve delaySlots).1.instrs[idx] = p.instrs[idx] := hij
    rw [heq, hdir] at hword
    cases hword
  · next hdir =>
    obtain ⟨b, hb⟩ := hij
    exact ⟨b, List.getElem?_eq_getElem hlt', Bool.eq_false_iff.2 hdir, hb⟩

theorem programAddr_resolve {idx : Nat} {r : Instruction} (hr : (p.resolve delaySlots).1.instrs[idx]? = some r) :
    ∃ i ∈ p.instrs, i.programAddr = r.programAddr := by
  obtain ⟨i, hi, hij⟩ := exists_left_of_forall₂ (forall₂_resolveList delaySlots false p.instrs)
    (List.mem_of_getElem? hr)
  refine ⟨i, hi, ?_⟩
  split at hij
  · rw [hij]
  · obtain ⟨b, rfl⟩ := hij
    exact (i.programAddr_resolve b).symm

end Program

end QuadDsp
