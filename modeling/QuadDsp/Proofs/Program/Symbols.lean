import QuadDsp.Proofs.Program.Layout

/-! # Names of addresses

A name stands for what the first line that declares it says, whatever `.GLOBAL` lines there are
(`SymbolTable.addr_collect`). So a label that no other line declares stands for the address of the word that comes
next in the program (`Program.LabelledOnce.addr_nextWord?`), however many directives lie between. -/

namespace QuadDsp

namespace NameTable

variable {α : Type}

theorem find?_modify (t : NameTable α) (name key : String) (f : α → α) :
    (t.modify name f).find? key = if name = key then (t.find? key).map f else t.find? key := by
  obtain ⟨entries⟩ := t
  unfold modify find?
  dsimp only
  induction entries with
  | nil => simp [lookup]
  | cons e rest ih =>
    obtain ⟨n, a⟩ := e
    by_cases hn : n = name
    · subst hn
      by_cases hkey : n = key
      · simp [lookup, hkey]
      · simpa [lookup, hkey] using ih
    · by_cases hkey : n = key
      · subst hkey
        simp [lookup, hn, Ne.symm hn]
      · simpa [lookup, hn, hkey] using ih

end NameTable

/-- What the line declares a name to be. -/
def Instruction.declares? (name : String) (i : Instruction) : Option ProgramSymbol :=
  if i.declaredName? = some name then i.declared? else none

namespace SymbolTable

/-! ### Words declare nothing -/

section Words

variable {t : SymbolTable} {i : Instruction}

theorem declare_of_word (h : i.isDirective = false) : t.declare i = t := by
  have hdeclared : i.declared? = none := by
    unfold Instruction.declared?
    split <;> first
      | rfl
      | next hop => exact absurd h (by rw [Instruction.isDirective, hop]; decide)
  unfold declare
  rw [hdeclared]
  split <;> first | rfl | contradiction

theorem markGlobal_of_word (h : i.isDirective = false) : t.markGlobal i = t := by
  unfold markGlobal
  split
  · next hop _ => exact absurd h (by rw [Instruction.isDirective, hop]; decide)
  · rfl

theorem foldl_eq_self {f : SymbolTable → Instruction → SymbolTable} {instrs : List Instruction}
    (h : ∀ i ∈ instrs, f t i = t) : instrs.foldl f t = t := by
  refine List.foldlRecOn instrs f (motive := (· = t)) rfl ?_
  intro t' ht' i hi
  rw [ht', h i hi]

end Words

/-! ### The first declaration of a name counts -/

variable (t : SymbolTable) (i : Instruction) (name : String)

theorem find?_declare : (t.declare i).find? name = (t.find? name <|> i.declares? name) := by
  unfold declare Instruction.declares?
  cases hname : i.declaredName? with
  | none => simp
  | some other =>
    cases hdeclared : i.declared? with
    | none => simp
    | some s =>
      dsimp only
      unfold define
      by_cases hother : other = name
      · subst hother
        cases hfind : t.find? other with
        | none => simp [NameTable.find?_insert]
        | some s' => simp [hfind]
      · split <;> simp [NameTable.find?_insert, hother]

theorem find?_foldl_declare (instrs : List Instruction) :
    (instrs.foldl declare t).find? name = (t.find? name <|> instrs.findSome? (·.declares? name)) := by
  induction instrs generalizing t with
  | nil => simp
  | cons i rest ih =>
    rw [List.foldl_cons, ih, find?_declare, List.findSome?_cons]
    cases t.find? name with
    | none => cases i.declares? name <;> rfl
    | some s => rfl

theorem addr_markGlobal : (t.markGlobal i).addr name = t.addr name := by
  unfold markGlobal
  split
  · next other _ _ =>
    rw [addr, addr, NameTable.find?_modify]
    by_cases hother : other = name
    · rw [if_pos hother]
      cases t.find? name <;> rfl
    · rw [if_neg hother]
  · rfl

theorem addr_foldl_markGlobal (instrs : List Instruction) : (instrs.foldl markGlobal t).addr name = t.addr name := by
  induction instrs generalizing t with
  | nil => rfl
  | cons i rest ih => rw [List.foldl_cons, ih, addr_markGlobal]

/-- The first declaration of a name counts. -/
theorem addr_collect {instrs : List Instruction} {s : ProgramSymbol}
    (h : instrs.findSome? (·.declares? name) = some s) : (collect {} instrs).addr name = .ok s.addr := by
  have hfind : (instrs.foldl declare {}).find? name = some s := by
    rw [find?_foldl_declare, h]
    rfl
  rw [collect, addr_foldl_markGlobal, addr, hfind]

end SymbolTable

namespace Program

variable {p : Program} {idx idx' : Nat} {i j : Instruction} {name : String}

/-- The line at a place is a label, and no other line declares its name. -/
structure LabelledOnce (p : Program) (idx : Nat) (name : String) : Prop where
  label : ∃ i, p.instrs[idx]? = some i ∧ i.opcode = .label ∧ i.declaredName? = some name
  once : ∀ k j, p.instrs[k]? = some j → (j.declares? name).isSome = true → k = idx

theorem number_nextWord?_of_directive (hi : p.instrs[idx]? = some i) (hdir : i.isDirective = true)
    (h : p.nextWord? idx = some idx') : p.number idx' = p.number idx := by
  obtain ⟨n, hn, rfl⟩ := Option.map_eq_some_iff.1 h
  obtain ⟨hlt, -, hfirst⟩ := List.findIdx?_eq_some_iff_getElem.1 hn
  have hbetween : ((p.instrs.drop (idx + 1)).take n).countP (!·.isDirective) = 0 := by
    rw [List.countP_eq_zero]
    intro j hj
    obtain ⟨k, hk, rfl⟩ := List.mem_iff_getElem.1 hj
    rw [List.getElem_take]
    exact hfirst k (by simp at hk; omega)
  obtain ⟨hidx, rfl⟩ := List.getElem?_eq_some_iff.1 hi
  rw [number, List.take_add, List.take_succ_eq_append_getElem hidx, List.countP_append, List.countP_append,
    hbetween, List.countP_singleton, if_neg (by simp [hdir])]
  rfl

namespace LabelledOnce

variable (h : p.LabelledOnce idx name)

include h

theorem isDirective (hi : p.instrs[idx]? = some i) : i.isDirective = true := by
  obtain ⟨j, hj, hop, -⟩ := h.label
  cases hi.symm.trans hj
  rw [Instruction.isDirective, hop]
  rfl

theorem findSome? (hi : p.instrs[idx]? = some i) :
    p.instrs.findSome? (·.declares? name) = some ⟨i.programAddr, .code, false, false⟩ := by
  obtain ⟨j, hj, hop, hname⟩ := h.label
  cases hi.symm.trans hj
  have hdeclares : i.declares? name = some ⟨i.programAddr, .code, false, false⟩ := by
    rw [Instruction.declares?, if_pos hname, Instruction.declared?, hop]
  obtain ⟨hidx, rfl⟩ := List.getElem?_eq_some_iff.1 hi
  rw [List.findSome?_eq_some_iff]
  refine ⟨p.instrs.take idx, _, p.instrs.drop (idx + 1), ?_, hdeclares, fun j hj => ?_⟩
  · rw [← List.drop_eq_getElem_cons hidx, List.take_append_drop]
  · -- no line in front of the label declares its name
    obtain ⟨k, hk, rfl⟩ := List.mem_iff_getElem.1 hj
    rw [List.length_take] at hk
    rw [List.getElem_take]
    by_contra hsome
    have hk' := h.once k _ (List.getElem?_eq_getElem (by omega)) (Option.isSome_iff_ne_none.2 hsome)
    omega

variable {first : Nat} (hlaid : p.LaidFrom first) (hsymbols : p.symbols = {}) (delaySlots : Bool)

include hlaid hsymbols

theorem addr : (p.resolve delaySlots).1.symbols.addr name = .ok (first + p.number idx) := by
  obtain ⟨i, hi, -⟩ := h.label
  rw [← hlaid idx i hi, resolve, hsymbols]
  exact SymbolTable.addr_collect name (h.findSome? hi)

/-- The label stands for the address of the word behind it. -/
theorem addr_nextWord? (hnext : p.nextWord? idx = some idx') (hj : p.instrs[idx']? = some j) :
    (p.resolve delaySlots).1.symbols.addr name = .ok j.programAddr := by
  obtain ⟨i, hi, -⟩ := h.label
  rw [h.addr hlaid hsymbols delaySlots, hlaid idx' j hj, number_nextWord?_of_directive hi (h.isDirective hi) hnext]

end LabelledOnce

end Program

end QuadDsp
