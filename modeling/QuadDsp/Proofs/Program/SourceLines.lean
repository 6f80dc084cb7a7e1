import QuadDsp.Proofs.Machine.Reachable
import QuadDsp.Proofs.Program.Layout
import QuadDsp.Word.Listing

/-! # Source lines of programs

A program that is read from a text has one instruction for each line of the text that is not blank. Instructions are
numbered as they come, and a diagnostic names the number of the instruction that it is about (`Program.Causes.line`).
So the number is that of the source line if no blank line stands in front of it, and of no other line then
(`Program.ofText_sourceLines`). A text that cannot be read is refused at a line that is named by its true number. -/

namespace QuadDsp

open Text

/-! ### Lines that are not blank -/

/-- The lines of a text that are not blank, with their numbers. -/
def sourceLines (text : String) : List (List Char × Nat) :=
  ((lines text.toList).zipIdx 1).filter fun l => trim l.1 ≠ []

/-- No blank line stands in front of the line with the number. -/
def NoBlankBefore (text : String) (n : Nat) : Prop := ∀ l ∈ (lines text.toList).take (n - 1), trim l ≠ []

instance (text : String) (n : Nat) : Decidable (NoBlankBefore text n) := inferInstanceAs (Decidable (∀ l ∈ _, _))

theorem exists_of_getElem?_filter {α : Type} {p : α → Bool} {l : List α} {k : Nat} {a : α}
    (h : (l.filter p)[k]? = some a) :
    ∃ m, l[m]? = some a ∧ (l.take m).countP p = k := by
  induction l generalizing k with
  | nil => cases h
  | cons b rest ih =>
    by_cases hb : p b = true
    · rw [List.filter_cons_of_pos hb] at h
      cases k with
      | zero => exact ⟨0, h, rfl⟩
      | succ k =>
        obtain ⟨m, hm, hcount⟩ := ih h
        exact ⟨m + 1, hm, by rw [List.take_succ_cons, List.countP_cons_of_pos hb, hcount]⟩
    · rw [List.filter_cons_of_neg hb] at h
      obtain ⟨m, hm, hcount⟩ := ih h
      exact ⟨m + 1, hm, by rw [List.take_succ_cons, List.countP_cons_of_neg hb, hcount]⟩

/-- The lines that are not blank have their own numbers if no blank line stands in front of them. -/
theorem number_sourceLines {text : String} {k n : Nat} {l : List Char} (h : (sourceLines text)[k]? = some (l, n)) :
    (lines text.toList)[n - 1]? = some l ∧ 0 < n ∧ (k + 1 = n ↔ NoBlankBefore text n) := by
  obtain ⟨m, hm, hcount⟩ := exists_of_getElem?_filter h
  rw [List.getElem?_zipIdx] at hm
  obtain ⟨l', hl', heq⟩ := Option.map_eq_some_iff.1 hm
  obtain ⟨rfl, rfl⟩ := Prod.mk.inj heq
  have hlt : m < (lines text.toList).length := (List.getElem?_eq_some_iff.1 hl').1
  have hcount' : ((lines text.toList).take m).countP (fun l => trim l ≠ []) = k := by
    have hmap : (lines text.toList).take m = (((lines text.toList).zipIdx 1).take m).map Prod.fst := by
      rw [List.map_take, List.zipIdx_map_fst]
    rw [hmap, List.countP_map, ← hcount]
    rfl
  refine ⟨by rwa [Nat.add_sub_cancel_left], by omega, ?_⟩
  have hlength : ((lines text.toList).take m).length = m := by
    rw [List.length_take, Nat.min_eq_left (Nat.le_of_lt hlt)]
  rw [NoBlankBefore, Nat.add_sub_cancel_left]
  have hall := List.countP_eq_length (p := fun l => decide (trim l ≠ [])) (l := (lines text.toList).take m)
  rw [hcount', hlength] at hall
  simp only [decide_eq_true_eq] at hall
  rw [← hall]
  omega

/-! ### Instructions and their lines -/

/-- The same instruction, where it stands. -/
def Instruction.Placed (i j : Instruction) : Prop :=
  j = { i with line := j.line, address := j.address, sectionName := j.sectionName }

/-- The instruction is what the line says. -/
def ReadFrom (l : List Char × Nat) (i : Instruction) : Prop := ∃ j, Instruction.read l.1 = .ok j ∧ j.Placed i

namespace Builder

variable {b b' : Builder} {l : List Char} {n : Nat}

theorem line_enterSection (b : Builder) (i : Instruction) : (b.enterSection i).line = b.line := by
  unfold enterSection
  split <;> rfl

theorem exists_of_readLine (h : b.readLine l = .ok b') : ∃ i j, Instruction.read l = .ok i ∧ i.Placed j ∧
    j.line = b.line + 1 ∧ b'.program.instrs = b.program.instrs ++ [j] ∧ b'.line = b.line + 1 := by
  obtain ⟨i, hi, h⟩ := bind_eq_ok_iff.1 h
  cases h
  have hinstrs := instrs_push (b.enterSection i) i
  rw [(b.instrs_enterSection i).1] at hinstrs
  refine ⟨i, _, hi, ?_, ?_, hinstrs, congrArg (· + 1) (b.line_enterSection i)⟩
  · exact rfl
  · exact congrArg (· + 1) (b.line_enterSection i)

theorem readLine_eq_error_iff {e : LineError} : b.readLine l = .error e ↔ Instruction.read l = .error e := by
  unfold readLine
  cases Instruction.read l with
  | error e' => exact ⟨fun h => by cases h; rfl, fun h => by cases h; rfl⟩
  | ok i => exact iff_of_false nofun nofun

/-- Lines that are read add their instructions one behind the other, numbered without gaps. -/
theorem exists_of_readNumbered {lines : List (List Char)} (h : b.readNumbered n lines = .ok b') :
    ∃ instrs, b'.program.instrs = b.program.instrs ++ instrs ∧
      List.Forall₂ ReadFrom ((lines.zipIdx n).filter fun l => trim l.1 ≠ []) instrs ∧
      ∀ k i, instrs[k]? = some i → i.line = b.line + k + 1 := by
  induction lines generalizing b n with
  | nil =>
    cases h
    exact ⟨[], (List.append_nil _).symm, .nil, nofun⟩
  | cons l rest ih =>
    rw [readNumbered] at h
    split at h
    · next hblank =>
      rw [List.zipIdx_cons, List.filter_cons_of_neg (by simpa using hblank)]
      exact ih h
    · next hblank =>
      cases hline : b.readLine l with
      | error e => rw [hline] at h; cases h
      | ok b'' =>
        rw [hline] at h
        obtain ⟨i, j, hi, hplaced, hnumber, hinstrs, hnext⟩ := exists_of_readLine hline
        obtain ⟨instrs, happend, hrest, hnumbers⟩ := ih h
        refine ⟨j :: instrs, by rw [happend, hinstrs, List.append_assoc]; rfl, ?_, fun k i hk => ?_⟩
        · rw [List.zipIdx_cons, List.filter_cons_of_pos (by simpa using hblank)]
          exact .cons ⟨i, hi, hplaced⟩ hrest
        · cases k with
          | zero =>
            cases hk
            exact hnumber
          | succ k =>
            have hk := hnumbers k i hk
            omega

/-- Lines are refused at the first that cannot be read, which is named by its number. -/
theorem exists_of_readNumbered_error {lines : List (List Char)} {e : TextError}
    (h : b.readNumbered n lines = .error e) :
    ∃ m l, lines[m]? = some l ∧ e.line = n + m ∧ trim l ≠ [] ∧ e.text = String.ofList (trim l) ∧
      Instruction.read l = .error e.cause ∧
      ∀ l' ∈ lines.take m, trim l' ≠ [] → ∃ i, Instruction.read l' = .ok i := by
  induction lines generalizing b n with
  | nil => cases h
  | cons l rest ih =>
    rw [readNumbered] at h
    split at h
    · next hblank =>
      obtain ⟨m, l', hl', hnumber, hne, htext, hcause, hbefore⟩ := ih h
      refine ⟨m + 1, l', hl', by omega, hne, htext, hcause, ?_⟩
      rw [List.take_succ_cons]
      exact List.forall_mem_cons.2 ⟨fun h => absurd hblank h, hbefore⟩
    · next hblank =>
      cases hline : b.readLine l with
      | error e' =>
        rw [hline] at h
        cases h
        exact ⟨0, l, rfl, rfl, hblank, rfl, readLine_eq_error_iff.1 hline, fun l' hl' => by cases hl'⟩
      | ok b'' =>
        rw [hline] at h
        obtain ⟨m, l', hl', hnumber, hne, htext, hcause, hbefore⟩ := ih h
        obtain ⟨i, -, hi, -⟩ := exists_of_readLine hline
        refine ⟨m + 1, l', hl', by omega, hne, htext, hcause, ?_⟩
        rw [List.take_succ_cons]
        exact List.forall_mem_cons.2 ⟨fun _ => ⟨i, hi⟩, hbefore⟩

end Builder

/-! ### Diagnostics and their instructions -/

namespace Instruction

variable {i : Instruction} {d : Diagnostic}

theorem line_resolve (i : Instruction) (inDelaySlot : Bool) : (i.resolve inDelaySlot).1.line = i.line := by
  obtain ⟨format, h⟩ := i.fst_resolve inDelaySlot
  rw [h]
  rfl

theorem line_of_resolve {inDelaySlot : Bool} (h : (i.resolve inDelaySlot).2 = some d) : d.line = i.line := by
  unfold resolve withFormat at h
  split at h
  · cases h
  · split at h
    · cases h
      rfl
    · split at h <;> cases h
      rfl

theorem line_of_assemble {p : Program} (h : (i.assemble p).2 = some d) : d.line = i.line := by
  unfold assemble at h
  split at h <;> cases h
  rfl

end Instruction

theorem Simulator.diagnostics_step {sim : Simulator} {idx : Nat} {i : Instruction} (h : sim.current? = some (idx, i)) :
    ∃ found, sim.step.diagnostics.toList = sim.diagnostics.toList ++ found ∧ ∀ d ∈ found, d.line = i.line := by
  rw [step_of_current? h]
  unfold stepAt
  dsimp only
  rw [Array.toList_appendList]
  refine ⟨_, rfl, ?_⟩
  simp only [List.forall_mem_append, List.forall_mem_map]
  exact ⟨⟨⟨fun _ _ => rfl, fun _ _ => rfl⟩, fun _ _ => rfl⟩, fun _ _ => rfl⟩

namespace Program

variable {p : Program} {k : Nat} {d : Diagnostic}

/-- The instruction at the place is the one that the diagnostic is about: it is found where the instruction is
resolved, encoded or executed. -/
inductive Causes (p : Program) (k : Nat) (d : Diagnostic) : Prop
  | resolving {i : Instruction} (inDelaySlot : Bool) (hi : p.instrs[k]? = some i)
      (h : (i.resolve inDelaySlot).2 = some d) :
    Causes p k d
  | encoding {r : Instruction} (delaySlots : Bool) (hr : (p.resolve delaySlots).1.instrs[k]? = some r)
    (h : (r.assemble (p.resolve delaySlots).1).2 = some d) : Causes p k d
  | executing {config : Config} {sim : Simulator} {i : Instruction} (hsim : Simulator.Reachable p config sim)
    (hi : sim.current? = some (k, i)) (h : d ∈ sim.step.diagnostics.toList.drop sim.diagnostics.size) : Causes p k d

/-- The diagnostics of a program: those of resolving it, of assembling it and of its runs. -/
inductive Reports (p : Program) (d : Diagnostic) : Prop
  | resolving (delaySlots : Bool) (h : d ∈ (p.resolve delaySlots).2) : Reports p d
  | assembling (delaySlots : Bool) (h : d ∈ (p.resolve delaySlots).1.assemble.diagnostics) : Reports p d
  | running {config : Config} {sim : Simulator} (hsim : Simulator.Reachable p config sim)
      (h : d ∈ sim.diagnostics.toList) :
    Reports p d

theorem exists_line_resolve {delaySlots : Bool} {r : Instruction} (hr : (p.resolve delaySlots).1.instrs[k]? = some r) :
    ∃ i, p.instrs[k]? = some i ∧ r.line = i.line := by
  obtain ⟨i, hi, hir⟩ := exists_getElem?_of_forall₂ (forall₂_resolveList delaySlots false p.instrs) hr
  refine ⟨i, hi, ?_⟩
  split at hir
  · rw [hir]
  · obtain ⟨b, rfl⟩ := hir
    exact i.line_resolve b

/-- A diagnostic has the line of its instruction. -/
theorem Causes.line (h : p.Causes k d) : ∃ i, p.instrs[k]? = some i ∧ d.line = i.line := by
  cases h with
  | resolving inDelaySlot hi h => exact ⟨_, hi, Instruction.line_of_resolve h⟩
  | encoding delaySlots hr h =>
    obtain ⟨i, hi, hline⟩ := exists_line_resolve hr
    exact ⟨i, hi, (Instruction.line_of_assemble h).trans hline⟩
  | @executing config sim j hsim hj h =>
    obtain ⟨r, hr, hreran⟩ := hsim.ran.exists_instr (Simulator.current?_eq_some_iff.1 hj).2
    obtain ⟨i, hi, hline⟩ := exists_line_resolve hr
    obtain ⟨found, hfound, hlines⟩ := Simulator.diagnostics_step hj
    rw [hfound, ← Array.length_toList, List.drop_left] at h
    have hran : j.line = r.line := by rw [hreran]
    exact ⟨i, hi, ((hlines d h).trans hran).trans hline⟩

theorem exists_of_mem_resolveList {delaySlots afterBranch : Bool} {instrs : List Instruction}
    (h : d ∈ (resolveList delaySlots afterBranch instrs).2) :
    ∃ (k : Nat) (i : Instruction) (inDelaySlot : Bool), instrs[k]? = some i ∧ (i.resolve inDelaySlot).2 = some d := by
  induction instrs generalizing afterBranch with
  | nil => cases h
  | cons i rest ih =>
    rw [resolveList] at h
    split at h
    · obtain ⟨k, j, inDelaySlot, hj, hd⟩ := ih h
      exact ⟨k + 1, j, inDelaySlot, hj, hd⟩
    · rcases List.mem_append.1 h with h | h
      · exact ⟨0, i, _, rfl, Option.mem_toList.1 h⟩
      · obtain ⟨k, j, inDelaySlot, hj, hd⟩ := ih h
        exact ⟨k + 1, j, inDelaySlot, hj, hd⟩

theorem exists_causes_of_resolve {delaySlots : Bool} (h : d ∈ (p.resolve delaySlots).2) : ∃ k, p.Causes k d := by
  obtain ⟨k, i, inDelaySlot, hi, hd⟩ := exists_of_mem_resolveList h
  exact ⟨k, .resolving inDelaySlot hi hd⟩

theorem Reports.exists_causes (h : p.Reports d) : ∃ k, p.Causes k d := by
  cases h with
  | resolving delaySlots h => exact exists_causes_of_resolve h
  | assembling delaySlots h =>
    obtain ⟨_, hmem, hd⟩ := List.mem_filterMap.1 h
    obtain ⟨r, hr, rfl⟩ := List.mem_map.1 hmem
    obtain ⟨k, hk⟩ := List.mem_iff_getElem?.1 (List.mem_of_mem_filter hr)
    exact ⟨k, .encoding delaySlots hk hd⟩
  | running hsim h =>
    induction hsim with
    | load => exact exists_causes_of_resolve h
    | @step sim hsim ih =>
      cases hcurrent : sim.current? with
      | none =>
        rw [Simulator.step_of_none hcurrent] at h
        exact ih h
      | some current =>
        obtain ⟨idx, i⟩ := current
        obtain ⟨found, hfound, -⟩ := Simulator.diagnostics_step hcurrent
        have hmem := h
        rw [hfound] at hmem
        rcases List.mem_append.1 hmem with hbefore | hnew
        · exact ih hbefore
        · refine ⟨idx, .executing hsim hcurrent ?_⟩
          rw [hfound, ← Array.length_toList, List.drop_left]
          exact hnew
    | loadText base text _ ih => exact ih h

/-- Each instruction of a program that is read from a text comes from one line that is not blank, in order. It is
numbered as that line, and so is every diagnostic that is about it, exactly if no blank line stands in front of the
line. A text that is refused is refused at its first line that cannot be read, under the number of that line. -/
theorem ofText_sourceLines (text : String) :
    (∀ p, ofText text = .ok p →
      List.Forall₂ ReadFrom (sourceLines text) p.instrs ∧
      (∀ k l n i, (sourceLines text)[k]? = some (l, n) → p.instrs[k]? = some i →
        (i.line = n ↔ NoBlankBefore text n) ∧ ∀ d, p.Causes k d → (d.line = n ↔ NoBlankBefore text n)) ∧
      ∀ d, p.Reports d → ∃ k, p.Causes k d) ∧
    ∀ e, ofText text = .error e → ∃ l, (lines text.toList)[e.line - 1]? = some l ∧ 0 < e.line ∧ trim l ≠ [] ∧
      e.text = String.ofList (trim l) ∧ Instruction.read l = .error e.cause ∧
      ∀ l' ∈ (lines text.toList).take (e.line - 1), trim l' ≠ [] → ∃ i, Instruction.read l' = .ok i := by
  refine ⟨fun p h => ?_, fun e h => ?_⟩
  · obtain ⟨b, hread, rfl⟩ := map_eq_ok_iff.1 h
    obtain ⟨instrs, happend, hlines, hnumbers⟩ := Builder.exists_of_readNumbered hread
    have hinstrs : b.program.instrs = instrs := happend
    rw [hinstrs]
    refine ⟨hlines, fun k l n i hl hi => ?_, fun d hd => hd.exists_causes⟩
    obtain ⟨-, -, hnumber⟩ := number_sourceLines hl
    have hline : i.line = k + 1 := by
      have hk := hnumbers k i hi
      rw [hk]
      exact congrArg (· + 1) (Nat.zero_add k)
    refine ⟨by rw [hline]; exact hnumber, fun d hd => ?_⟩
    obtain ⟨j, hj, hd⟩ := hd.line
    rw [hinstrs, hi] at hj
    cases hj
    rw [hd, hline]
    exact hnumber
  · cases hread : (Builder.origin 0).readNumbered 1 (lines text.toList) with
    | ok b =>
      rw [ofText, hread] at h
      cases h
    | error e' =>
      rw [ofText, hread] at h
      cases h
      obtain ⟨m, l, hl, hnumber, hne, htext, hcause, hbefore⟩ := Builder.exists_of_readNumbered_error hread
      have hm : e.line - 1 = m := by omega
      rw [hm]
      exact ⟨l, hl, by omega, hne, htext, hcause, hbefore⟩

/-- Behind a blank line, an instruction does not have the number of its line. -/
theorem ofText_sourceLines_blank :
    ∃ p i, ofText "\nNOP" = .ok p ∧ (sourceLines "\nNOP")[0]? = some ("NOP".toList, 2) ∧ p.instrs[0]? = some i ∧
      i.line ≠ 2 := by
  have hsource : (sourceLines "\nNOP")[0]? = some ("NOP".toList, 2) := by decide
  have hok : (ofText "\nNOP").toBool = true := by decide +kernel
  cases h : ofText "\nNOP" with
  | error e =>
    rw [h] at hok
    cases hok
  | ok p =>
    obtain ⟨hlines, hnumbers, -⟩ := (ofText_sourceLines "\nNOP").1 p h
    obtain ⟨i, hi, -⟩ := exists_getElem?_of_forall₂ hlines.flip hsource
    refine ⟨p, i, rfl, hsource, hi, fun hline => ?_⟩
    have hbroken : ¬NoBlankBefore "\nNOP" 2 := by decide
    exact hbroken ((hnumbers 0 "NOP".toList 2 i hsource hi).1.1 hline)

end Program

end QuadDsp
