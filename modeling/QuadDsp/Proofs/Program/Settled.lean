import QuadDsp.Proofs.Program.Symbols

/-! # Resolving again

A second resolution finds nothing left to do. Each name that a line declares is in the table by then, and stays what
it is; each name that a line makes global is marked (`SymbolTable.collect_again`). A word has its conditions and its
mark, and either a format, which stays, or a fault, for which it is refused once more with the same report
(`Instruction.resolve_again`). So the program and the report are those of the first time (`Program.resolve_resolve`). -/

namespace QuadDsp

namespace SymbolTable

variable {t : SymbolTable} {i : Instruction} {instrs : List Instruction} {name : String}

/-! ### Declarations -/

theorem isSome_find?_markGlobal (t : SymbolTable) (i : Instruction) (name : String) :
    ((t.markGlobal i).find? name).isSome = (t.find? name).isSome := by
  unfold markGlobal
  split
  · rw [NameTable.find?_modify]
    split <;> simp
  · rfl

theorem declare_of_isSome (h : ∀ name, (i.declares? name).isSome = true → (t.find? name).isSome = true) :
    t.declare i = t := by
  unfold declare
  split
  · next name s hname hs =>
    have hdeclares : i.declares? name = some s := by rw [Instruction.declares?, if_pos hname, hs]
    have hfound : (t.find? name).isSome = true := h name (by simp [hdeclares])
    rw [define, if_pos hfound]
  · rfl

theorem isSome_find?_collect (hi : i ∈ instrs) (h : (i.declares? name).isSome = true) :
    ((t.collect instrs).find? name).isSome = true := by
  have hdeclared : ((instrs.foldl declare t).find? name).isSome = true := by
    rw [find?_foldl_declare]
    have hfirst : (instrs.findSome? (·.declares? name)).isSome = true := by
      rw [List.findSome?_isSome_iff]
      exact ⟨i, hi, h⟩
    cases t.find? name with
    | none => exact hfirst
    | some s => rfl
  refine List.foldlRecOn instrs markGlobal (motive := fun t' => (t'.find? name).isSome = true) hdeclared ?_
  intro t' ht' j _
  rw [isSome_find?_markGlobal, ht']

/-! ### Global names -/

/-- Every symbol of the name is marked as global. -/
def IsGlobal (t : SymbolTable) (name : String) : Prop := ∀ e ∈ t.entries, e.1 = name → e.2.isGlobal = true

theorem isGlobal_modify (t : SymbolTable) (name : String) :
    IsGlobal (t.modify name fun s => { s with isGlobal := true }) name := by
  intro e he hname
  obtain ⟨⟨n, s⟩, -, rfl⟩ := List.mem_map.1 he
  dsimp only at hname ⊢
  split at hname
  · next hn => rw [if_pos hn]
  · next hn => exact absurd hname hn

theorem IsGlobal.modify (h : t.IsGlobal name) (other : String) :
    IsGlobal (t.modify other fun s => { s with isGlobal := true }) name := by
  intro e he hname
  obtain ⟨⟨n, s⟩, hs, rfl⟩ := List.mem_map.1 he
  dsimp only at hname ⊢
  split at hname
  · next hn => rw [if_pos hn]
  · next hn =>
    rw [if_neg hn]
    exact h _ hs hname

theorem modify_of_isGlobal (h : t.IsGlobal name) : t.modify name (fun s => { s with isGlobal := true }) = t := by
  have hkeep : ∀ e ∈ t.entries,
      (if e.1 = name then (e.1, { e.2 with isGlobal := true }) else (e.1, e.2)) = e := by
    rintro ⟨n, s⟩ he
    split
    · next hn => rw [← h _ he hn]
    · rfl
  unfold NameTable.modify
  rw [List.map_congr_left hkeep, List.map_id']

theorem IsGlobal.markGlobal (h : t.IsGlobal name) (i : Instruction) : (t.markGlobal i).IsGlobal name := by
  unfold SymbolTable.markGlobal
  split
  · next other _ _ => exact h.modify other
  · exact h

theorem IsGlobal.foldl (h : t.IsGlobal name) (instrs : List Instruction) :
    (instrs.foldl SymbolTable.markGlobal t).IsGlobal name :=
  List.foldlRecOn instrs _ (motive := fun t => IsGlobal t name) h fun _ ht i _ => ht.markGlobal i

theorem isGlobal_foldl (hi : i ∈ instrs) (hop : i.opcode = .global) (hname : i.declaredName? = some name) :
    (instrs.foldl markGlobal t).IsGlobal name := by
  induction instrs generalizing t with
  | nil => exact absurd hi List.not_mem_nil
  | cons j rest ih =>
    rw [List.foldl_cons]
    rcases List.mem_cons.1 hi with rfl | hi
    · apply IsGlobal.foldl
      rw [markGlobal, hop, hname]
      exact isGlobal_modify t name
    · exact ih hi

theorem markGlobal_of_isGlobal (h : ∀ name, i.opcode = .global → i.declaredName? = some name → t.IsGlobal name) :
    t.markGlobal i = t := by
  unfold markGlobal
  split
  · next name hop hname => exact modify_of_isGlobal (h name hop hname)
  · rfl

/-! ### Both -/

/-- A second collection of the same lines adds nothing. -/
theorem collect_again (t : SymbolTable) (instrs : List Instruction) :
    (t.collect instrs).collect instrs = t.collect instrs := by
  have hdeclare : ∀ i ∈ instrs, (t.collect instrs).declare i = t.collect instrs := by
    intro i hi
    exact declare_of_isSome fun name h => isSome_find?_collect hi h
  have hmark : ∀ i ∈ instrs, (t.collect instrs).markGlobal i = t.collect instrs := by
    intro i hi
    exact markGlobal_of_isGlobal fun name hop hname => isGlobal_foldl hi hop hname
  show instrs.foldl markGlobal (instrs.foldl declare (t.collect instrs)) = t.collect instrs
  rw [foldl_eq_self hdeclare, foldl_eq_self hmark]

theorem collect_resolveList (t : SymbolTable) (delaySlots afterBranch : Bool) (instrs : List Instruction) :
    t.collect (resolveList delaySlots afterBranch instrs).1 = t.collect instrs := by
  have hall := forall₂_resolveList delaySlots afterBranch instrs
  have hfold {f : SymbolTable → Instruction → SymbolTable} (hword : ∀ t i, i.isDirective = false → f t i = t)
      (t : SymbolTable) : instrs.foldl f t = (resolveList delaySlots afterBranch instrs).1.foldl f t := by
    refine List.rel_foldl (P := Eq) ?_ rfl hall
    rintro t _ rfl i j hij
    split at hij
    · rw [hij]
    · next hdir =>
      obtain ⟨b, rfl⟩ := hij
      have hi : i.isDirective = false := Bool.eq_false_iff.2 hdir
      rw [hword t i hi, hword t _ ((i.isDirective_resolve b).trans hi)]
  rw [collect, collect, ← hfold fun t i hi => declare_of_word hi, ← hfold fun t i hi => markGlobal_of_word hi]

end SymbolTable

namespace Instruction

variable (i : Instruction)

theorem withConditions_again : i.withConditions.withConditions = i.withConditions := by
  simp [withConditions, cond, Function.comp_def]

theorem withFormat_again : i.withFormat.1.withFormat = i.withFormat := by
  cases hformat : i.format with
  | some f =>
    have hkept : i.withFormat = (i, none) := by rw [withFormat, hformat]; rfl
    rw [hkept]
    exact hkept
  | none =>
    cases hfault : i.fault? with
    | some e =>
      rw [withFormat_of_fault? hformat hfault]
      exact withFormat_of_fault? hformat hfault
    | none =>
      obtain ⟨hstructure, s, hselect⟩ := select_of_fault? hfault
      rw [withFormat_of_select hformat hstructure hselect]
      rfl

/-- A resolved word is resolved to itself, with the same report. -/
theorem resolve_again (inDelaySlot : Bool) : (i.resolve inDelaySlot).1.resolve inDelaySlot = i.resolve inDelaySlot := by
  obtain ⟨format, hfst⟩ := i.fst_resolve inDelaySlot
  have hconditions : { (i.resolve inDelaySlot).1.withConditions with inDelaySlot := inDelaySlot } =
      (i.resolve inDelaySlot).1 := by
    rw [hfst]
    show { i.withConditions.withConditions with inDelaySlot := inDelaySlot, format := format } = _
    rw [i.withConditions_again]
  rw [resolve, hconditions]
  exact withFormat_again _

end Instruction

theorem resolveList_again (delaySlots afterBranch : Bool) (instrs : List Instruction) :
    resolveList delaySlots afterBranch (resolveList delaySlots afterBranch instrs).1 =
      resolveList delaySlots afterBranch instrs := by
  induction instrs generalizing afterBranch with
  | nil => rfl
  | cons i rest ih =>
    by_cases hdir : i.isDirective = true
    · simp only [resolveList, hdir, if_true, ih]
    · have hword : (i.resolve (delaySlots && afterBranch)).1.isDirective = false := by
        rw [i.isDirective_resolve]
        exact Bool.eq_false_iff.2 hdir
      simp only [resolveList, hdir, hword, Bool.false_eq_true, if_false, Instruction.resolve_again,
        Program.opcode_resolve, ih]

/-- Resolving a program a second time leaves it as it is after the first time, and reports the same. -/
theorem Program.resolve_resolve (p : Program) (delaySlots : Bool) :
    (p.resolve delaySlots).1.resolve delaySlots = p.resolve delaySlots := by
  have hsymbols : (p.symbols.collect p.instrs).collect (resolveList delaySlots false p.instrs).1 =
      p.symbols.collect p.instrs := by
    rw [SymbolTable.collect_resolveList, SymbolTable.collect_again]
  unfold resolve
  simp only [hsymbols, resolveList_again]

end QuadDsp
