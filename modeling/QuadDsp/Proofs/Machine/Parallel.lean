import QuadDsp.Proofs.Machine.Cells
import QuadDsp.Proofs.Word.Reorder

/-! # Bundles issue in parallel

The operations of an accepted bundle never write the same cell of the machine (`Member.Beside.not_hits`): places apart
have no cell in common, and of the flags in one bank a sum and a product set different ones, sticky ones included. So
what a bundle leaves in a cell is what the operation that writes it would leave there alone, and the order of the
operations does not count (`Instruction.parallel_of_select`). -/

namespace QuadDsp

/-! ### Cells of different operations -/

/-- The place that a cell is in, unless it is a flag. -/
def Cell.place? : Cell → Option Place
  | reg i => some (.reg i)
  | acc i => some (.acc i)
  | index i => some (.address ⟨.index, i⟩)
  | word _ => some .mem
  | flag .. => none

theorem Write.place_of_hits {w : Write} {c : Cell} (h : w.Hits c) {p : Place} (hp : c.place? = some p) :
    w.place = p := by
  cases c <;> cases w <;> simp_all [Hits, place, Cell.place?]

theorem Write.eq_of_hits_flag {w : Write} {l : Lane} {bank : Bank} {n : Nat} (h : w.Hits (.flag l bank n)) :
    ∃ group v, w = .flags bank group v ∧ (Flags.touched group (v l)).toList[n]? = some true := by
  cases w with
  | flags bank' group v =>
    obtain ⟨rfl, htouched⟩ := h
    exact ⟨group, v, rfl, htouched⟩
  | _ => exact h.elim

/-- A sum that latches no other overflow, and a product that does not either, set different flags. -/
theorem Flags.not_touched_of_arith {new new' : Flags} (hmul : new.mulOverflow = false)
    (hshift : new.shiftOverflow = false)
    (hoverflow' : new'.overflow = false) (hshift' : new'.shiftOverflow = false) {n : Nat}
    (h : (touched arith new).toList[n]? = some true) : (touched multiplier new').toList[n]? ≠ some true := by
  by_cases hn : n < 13
  · interval_cases n <;> simp_all [touched, toList, arith, multiplier]
  · rw [getElem?_toList_of_le (Nat.le_of_not_lt hn)]
    exact (Option.some_ne_none true).symm

theorem Alu.latches_binary (op : Opcode) (a b : Int) (carry saturate : Bool) :
    (binary op a b carry saturate).2.mulOverflow = false ∧ (binary op a b carry saturate).2.shiftOverflow = false := by
  cases op <;> exact ⟨rfl, rfl⟩

theorem Multiplier.latches_step (op : Opcode) (mode : MulMode) (saturate : Bool) (old p : Int) :
    (step op mode saturate old p).2.overflow = false ∧ (step op mode saturate old p).2.shiftOverflow = false :=
  ⟨rfl, rfl⟩

namespace Member

variable {m m' : Member} {cx : Context} {fx fx' : Effects} {bank : Bank} {group : Flags} {v : Lanes Flags}

theorem latches_of_alu (hm : m.Bundled) (hcoded : m.Coded) (hrole : m.role = .alu) (h : m.execute cx = .ok fx)
    (hw : .flags bank group v ∈ fx.writes) (l : Lane) : (v l).mulOverflow = false ∧ (v l).shiftOverflow = false := by
  obtain ⟨rd, a, b, -, rfl⟩ := exists_of_alu hm hcoded hrole h
  rcases List.mem_cons.1 hw with hw | hw
  · cases hw
  · cases List.mem_singleton.1 hw
    simp only [Lanes.map_apply, Lanes.ofFn_apply]
    exact Alu.latches_binary _ _ _ _ _

theorem latches_of_mac (hm : m.Bundled) (hcoded : m.Coded) (hrole : m.role = .mac) (h : m.execute cx = .ok fx)
    (hw : .flags bank group v ∈ fx.writes) (l : Lane) : (v l).overflow = false ∧ (v l).shiftOverflow = false := by
  obtain ⟨acc, u, rfl, hu⟩ := exists_of_mac hm hcoded hrole h
  rcases List.mem_cons.1 hw with hw | hw
  · cases hw
  · cases List.mem_singleton.1 hw
    obtain ⟨old, p, hstep⟩ := hu l
    rw [Lanes.map_apply, hstep]
    exact Multiplier.latches_step _ _ _ _ _

theorem not_touched_of_alu (hm : m.Bundled ∧ m.Coded) (hm' : m'.Bundled ∧ m'.Coded) (hrole : m.role = .alu)
    (hrole' : m'.role = .mac) (hfx : m.execute cx = .ok fx) (hfx' : m'.execute cx = .ok fx') {v' : Lanes Flags}
    (hw : .flags bank .arith v ∈ fx.writes) (hw' : .flags bank .multiplier v' ∈ fx'.writes) {l : Lane} {n : Nat}
    (h : (Flags.touched .arith (v l)).toList[n]? = some true) :
    (Flags.touched .multiplier (v' l)).toList[n]? ≠ some true := by
  obtain ⟨hmul, hshift⟩ := latches_of_alu hm.1 hm.2 hrole hfx hw l
  obtain ⟨hoverflow', hshift'⟩ := latches_of_mac hm'.1 hm'.2 hrole' hfx' hw' l
  exact Flags.not_touched_of_arith hmul hshift hoverflow' hshift' h

/-- Operations beside each other write no cell both. -/
theorem Beside.not_hits (h : m.Beside m') (hm : m.Bundled ∧ m.Coded) (hm' : m'.Bundled ∧ m'.Coded)
    (hfx : m.execute cx = .ok fx) (hfx' : m'.execute cx = .ok fx') {c : Cell} (hc : fx.Hits c) : ¬fx'.Hits c := by
  rintro ⟨w', hw', hc'⟩
  obtain ⟨w, hw, hc⟩ := hc
  have htouches := (leaves_of_execute hm.1 hm.2 hfx).touches w hw
  have htouches' := (leaves_of_execute hm'.1 hm'.2 hfx').touches w' hw'
  cases hplace : c.place? with
  | some p =>
    have hapart := h.apart htouches htouches'
    rw [Write.place_of_hits hc hplace, Write.place_of_hits hc' hplace] at hapart
    cases c <;> cases hplace <;> exact hapart rfl
  | none =>
    cases c with
    | flag l bank n =>
      obtain ⟨group, v, rfl, htouched⟩ := Write.eq_of_hits_flag hc
      obtain ⟨group', v', rfl, htouched'⟩ := Write.eq_of_hits_flag hc'
      rcases htouches with ⟨hrole, rfl⟩ | ⟨hrole, rfl⟩ | ⟨hrole, rfl⟩ <;>
        rcases htouches' with ⟨hrole', rfl⟩ | ⟨hrole', rfl⟩ | ⟨hrole', rfl⟩
      · exact h.role (hrole.trans hrole'.symm)
      · exact not_touched_of_alu hm hm' hrole hrole' hfx hfx' hw hw' htouched htouched'
      · exact absurd (h.shf' hrole') (by rw [hrole]; decide)
      · exact not_touched_of_alu hm' hm hrole' hrole hfx' hfx hw' hw htouched' htouched
      · exact h.role (hrole.trans hrole'.symm)
      · exact absurd (h.shf' hrole') (by rw [hrole]; decide)
      · exact absurd (h.shf hrole) (by rw [hrole']; decide)
      · exact absurd (h.shf hrole) (by rw [hrole']; decide)
      · exact h.role (hrole.trans hrole'.symm)
    | _ => cases hplace

end Member

/-! ### The bundle and its operations -/

/-- An instruction writes the cell, executed in a state. -/
def Cell.WrittenBy (c : Cell) (s : Core) (mem : Memory) (p : Program) (i : Instruction) : Prop :=
  ∃ fx, execute s mem p i = .ok fx ∧ fx.Hits c

/-- What a cell holds when an instruction has been executed in a state. -/
def Cell.after (c : Cell) (s : Core) (mem : Memory) (p : Program) (i : Instruction) : c.Value :=
  let (core, mem, _) := commit s mem (Simulator.effects s mem p i).1
  c.read core mem

theorem Cell.after_of_execute (c : Cell) {s : Core} {mem : Memory} {p : Program} {i : Instruction} {fx : Effects}
    (h : execute s mem p i = .ok fx) :
    c.after s mem p i = c.read (fx.writes.foldl (·.apply fx.mask ·) s) (fx.writes.foldl (·.apply fx.mask ·) mem) := by
  rw [after, Simulator.fst_effects, h]
  rfl

/-- In a state, the operations of the word do together what they do alone: each of them can be executed, and so can the
word; no cell is written by two of them; and a cell holds what the one operation that writes it leaves there alone, or
what it held before. -/
structure Instruction.Parallel (i : Instruction) (s : Core) (mem : Memory) (p : Program) : Prop where
  runs : ∃ fx, execute s mem p i = .ok fx
  runsAlone : ∀ k ∈ i.members, ∃ fx, execute s mem p (i.alone k) = .ok fx
  apart : i.members.Pairwise fun k k' => ∀ c : Cell, c.WrittenBy s mem p (i.alone k) → ¬c.WrittenBy s mem p (i.alone k')
  written : ∀ k ∈ i.members, ∀ c : Cell, c.WrittenBy s mem p (i.alone k) →
    c.after s mem p i = c.after s mem p (i.alone k)
  kept : ∀ c : Cell, (∀ k ∈ i.members, ¬c.WrittenBy s mem p (i.alone k)) → c.after s mem p i = c.read s mem

section Bundle

variable {i : Instruction} {sel : Selection} (hstructure : checkStructure i = .ok ()) (hselect : select i = .ok sel)
  (hbundle : i.siblings ≠ [])

include hselect hbundle

theorem writtenBy_alone_iff {s : Core} {mem : Memory} {p : Program} {m : Member} (hm : m ∈ sel.members) {fx : Effects}
    (hfx : m.execute ⟨s, mem, p, s.mask i.cond⟩ = .ok fx) (c : Cell) :
    c.WrittenBy s mem p (i.alone m.instr) ↔ fx.Hits c := by
  unfold Cell.WrittenBy
  rw [execute_alone hselect hbundle s mem p hm hfx]
  constructor
  · rintro ⟨fx', h, hc⟩
    cases h
    exact hc
  · exact fun hc => ⟨_, rfl, hc⟩

include hstructure

theorem not_hits_of_ne {cx : Context} {m m' : Member} (hm : m ∈ sel.members) (hm' : m' ∈ sel.members) (hne : m ≠ m')
    {fx fx' : Effects} (hfx : m.execute cx = .ok fx) (hfx' : m'.execute cx = .ok fx') {c : Cell} (hc : fx.Hits c) :
    ¬fx'.Hits c := by
  obtain ⟨t, ht, hfills⟩ := select_fills hselect
  have hall := selectBundle_members (selectBundle_of_select hselect hbundle)
  exact (hfills.beside ht hstructure hm hm' hne).not_hits (hall m hm) (hall m' hm') hfx hfx' hc

/-- The operations of a bundle do together what they do alone. -/
theorem parallel_of_bundle (s : Core) (mem : Memory) (p : Program) : i.Parallel s mem p := by
  obtain ⟨t, ht, hfills⟩ := select_fills hselect
  obtain ⟨l, hl, hexecute⟩ := execute_bundle hselect hbundle s mem p hstructure
  have hnodup : sel.members.Nodup := (hfills.nodup_roles ht).of_map _
  have hwritten {m : Member} (hm : m ∈ sel.members) {fx : Effects}
      (hfx : m.execute ⟨s, mem, p, s.mask i.cond⟩ = .ok fx) (c : Cell) :=
    writtenBy_alone_iff hselect hbundle hm hfx c
  have hafter (c : Cell) : c.after s mem p i =
      c.read ((l.flatMap Effects.writes).foldl (·.apply (s.mask i.cond) ·) s)
        ((l.flatMap Effects.writes).foldl (·.apply (s.mask i.cond) ·) mem) := by
    rw [c.after_of_execute hexecute, Effects.mask_foldl_and, Effects.writes_foldl_and]
    rfl
  have hmember {k : Instruction} (hk : k ∈ i.members) : ∃ m ∈ sel.members, m.instr = k :=
    List.mem_map.1 (hfills.instrs ▸ hk)
  refine ⟨⟨_, hexecute⟩, fun k hk => ?_, ?_, fun k hk c hc => ?_, fun c hc => ?_⟩
  · obtain ⟨m, hm, rfl⟩ := hmember hk
    obtain ⟨fx, -, hfx⟩ := exists_right_of_forall₂ hl hm
    exact ⟨_, execute_alone hselect hbundle s mem p hm hfx⟩
  · rw [← hfills.instrs, List.pairwise_map]
    refine hnodup.pairwise_of_forall_ne fun m hm m' hm' hne c hc hc' => ?_
    obtain ⟨fx, -, hfx⟩ := exists_right_of_forall₂ hl hm
    obtain ⟨fx', -, hfx'⟩ := exists_right_of_forall₂ hl hm'
    exact not_hits_of_ne hstructure hselect hbundle hm hm' hne hfx hfx' ((hwritten hm hfx c).1 hc)
      ((hwritten hm' hfx' c).1 hc')
  · obtain ⟨m, hm, rfl⟩ := hmember hk
    obtain ⟨front, back, hsplit⟩ := List.append_of_mem hm
    rw [hsplit] at hl hnodup
    obtain ⟨frontFx, fx, backFx, rfl, hfront, hfx, hback⟩ := exists_append_of_forall₂ hl
    -- the others do not write the cell
    have hothers {ms : List Member} {fxs : List Effects} (hms : ms ⊆ sel.members) (hne : m ∉ ms)
        (hfxs : List.Forall₂ (fun (m : Member) fx => m.execute ⟨s, mem, p, s.mask i.cond⟩ = .ok fx) ms fxs) :
        ∀ w ∈ fxs.flatMap Effects.writes, ¬w.Hits c := fun w hw hwc => by
      obtain ⟨fx', hfx', hw⟩ := List.mem_flatMap.1 hw
      obtain ⟨m', hm', hexecute'⟩ := exists_left_of_forall₂ hfxs hfx'
      exact not_hits_of_ne hstructure hselect hbundle hm (hms hm') (fun h => hne (h ▸ hm')) hfx hexecute'
        ((hwritten hm hfx c).1 hc) ⟨w, hw, hwc⟩
    obtain ⟨hfrontNe, hbackNe⟩ : m ∉ front ∧ m ∉ back := by
      rw [List.nodup_middle, List.nodup_cons, List.mem_append] at hnodup
      exact not_or.1 hnodup.1
    rw [hafter, c.after_of_execute (execute_alone hselect hbundle s mem p hm hfx), List.flatMap_append,
      List.flatMap_cons]
    exact Cell.read_foldl_of_others (hothers (by simp [hsplit]) hfrontNe hfront)
      (hothers (by simp [hsplit]) hbackNe hback)
  · rw [hafter]
    refine Cell.read_foldl_of_not_hits fun w hw hwc => ?_
    obtain ⟨fx, hfx, hw⟩ := List.mem_flatMap.1 hw
    obtain ⟨m, hm, hexecute⟩ := exists_left_of_forall₂ hl hfx
    exact hc m.instr (hfills.instrs ▸ List.mem_map_of_mem hm) ((hwritten hm hexecute c).2 ⟨w, hw, hwc⟩)

/-- In another order, the operations have the same effects. -/
theorem alike_of_reorders {i' : Instruction} (h : i.Reorders i') (hcond : ∀ k ∈ i.siblings, k.cond = i.cond) (s : Core)
    (mem : Memory) (p : Program) :
    ∃ fx fx', execute s mem p i = .ok fx ∧ execute s mem p i' = .ok fx' ∧ Effects.Alike s mem fx fx' := by
  obtain ⟨t, ht, hfills⟩ := select_fills hselect
  have hall := selectBundle_members (selectBundle_of_select hselect hbundle)
  obtain ⟨l, -, hexecute⟩ := execute_bundle hselect hbundle s mem p hstructure
  obtain ⟨sel', hselect', hreorders⟩ := h.exists_select hcond hstructure hselect hbundle
  obtain ⟨ms, hperm, halike⟩ := hreorders.members
  have hresults : Option.Rel (Effects.Alike s mem)
      (executeMembers ⟨s, mem, p, s.mask i.cond⟩ { mask := s.mask i.cond } sel.members).toOption
      (executeMembers ⟨s, mem, p, s.mask i.cond⟩ { mask := s.mask i.cond } ms).toOption :=
    executeMembers_perm hperm
      (fun m hm m' hm' hne fx fx' hfx hfx' => hfills.apart ht hselect hstructure hm hm' hne hfx hfx')
      (fun m hm fx hfx => (Member.leaves_of_execute (hall m hm).1 (hall m hm).2 hfx).flow) s mem (s.mask i.cond)
  rw [← executeMembers_alike halike, ← execute_of_selected hstructure hselect, hexecute] at hresults
  have hexecute' := execute_of_selected (h.checkStructure hcond hstructure) hselect' s mem p
  rw [h.cond_eq hcond] at hexecute'
  rw [← hexecute'] at hresults
  generalize hx : (execute s mem p i').toOption = o at hresults
  cases hresults with
  | some hfx => exact ⟨_, _, hexecute, toOption_eq_some_iff.1 hx, hfx⟩

end Bundle

/-- The other word is accepted in the same format; in every state it asks for the same and leaves the same state and
memory; and it encodes to the same bits. -/
structure Instruction.Equivalent (i i' : Instruction) : Prop where
  accepted : checkStructure i' = .ok ()
  format : ∃ sel sel', select i = .ok sel ∧ select i' = .ok sel' ∧ sel'.format = sel.format
  effects : ∀ s mem p, ∃ fx fx', execute s mem p i = .ok fx ∧ execute s mem p i' = .ok fx' ∧ Effects.Alike s mem fx fx'
  word : ∀ p, (i'.encode p).toOption = (i.encode p).toOption
  encodes : ∀ sel, select i = .ok sel → i.format = some sel.format → ∀ p, ∃ e, i.encode p = .ok e ∧ i'.encode p = .ok e

/-- An accepted bundle issues its operations in parallel: they do together what each of them does alone, in whatever
order they stand, if the one in front carries the word's condition. -/
theorem Instruction.parallel_of_select {i : Instruction} {sel : Selection} (hstructure : checkStructure i = .ok ())
    (hselect : select i = .ok sel) (hbundle : i.siblings ≠ []) :
    (∀ s mem p, i.Parallel s mem p) ∧
      ((∀ k ∈ i.siblings, k.cond = i.cond) → ∀ i', i.Reorders i' → i.Equivalent i') := by
  refine ⟨parallel_of_bundle hstructure hselect hbundle, fun hcond i' h => ?_⟩
  obtain ⟨sel', hselect', hreorders⟩ := h.exists_select hcond hstructure hselect hbundle
  have hword := h.encode hcond hstructure hselect hbundle
  refine ⟨h.checkStructure hcond hstructure, ⟨sel, sel', hselect, hselect', hreorders.format⟩,
    alike_of_reorders hstructure hselect hbundle h hcond, hword, fun sel₁ hsel₁ hformat p => ?_⟩
  cases hselect.symm.trans hsel₁
  obtain ⟨e, he⟩ := exists_encode_of_bundle hselect hbundle hstructure hformat p
  exact ⟨e, he, toOption_eq_some_iff.1 ((hword p).trans (toOption_eq_some_iff.2 he))⟩

/-- Multiplies two registers while the next factors are loaded, each load into one half of the registers. -/
def multiplyAndLoads : Instruction :=
  { line := 1
    opcode := .mac
    operands := [.reg ⟨.acc, 0⟩, .reg ⟨.general, 0⟩, .reg ⟨.general, 4⟩, .key (.mul .ss)]
    condition := some .eq
    siblings :=
      [{ line := 1, opcode := .ld, operands := [.reg ⟨.general, 4⟩, .mem ⟨.data, .post 4 4⟩], condition := some .eq },
        { line := 1, opcode := .ld, operands := [.reg ⟨.general, 0⟩, .mem ⟨.data, .post 0 0⟩],
          condition := some .eq }] }

/-- The same word with its last load in front. -/
def loadsAndMultiply : Instruction :=
  { line := 1
    opcode := .ld
    operands := [.reg ⟨.general, 0⟩, .mem ⟨.data, .post 0 0⟩]
    condition := some .eq
    siblings :=
      [{ line := 1, opcode := .ld, operands := [.reg ⟨.general, 4⟩, .mem ⟨.data, .post 4 4⟩], condition := some .eq },
        { line := 1
          opcode := .mac
          operands := [.reg ⟨.acc, 0⟩, .reg ⟨.general, 0⟩, .reg ⟨.general, 4⟩, .key (.mul .ss)]
          condition := some .eq }] }

theorem Instruction.parallel_of_select_multiplyAndLoads :
    checkStructure multiplyAndLoads = .ok () ∧ (∃ sel, select multiplyAndLoads = .ok sel) ∧
      multiplyAndLoads.siblings ≠ [] ∧ (∀ s mem p, multiplyAndLoads.Parallel s mem p) ∧
      multiplyAndLoads.Equivalent loadsAndMultiply := by
  have hboth := Instruction.parallel_of_select (i := multiplyAndLoads) rfl rfl nofun
  refine ⟨rfl, ⟨_, rfl⟩, nofun, hboth.1, hboth.2 (by decide) _ ⟨⟨_, (List.reverse_perm _).symm, ?_⟩, rfl, rfl⟩⟩
  exact .cons ⟨rfl, rfl, rfl, rfl⟩ (.cons ⟨rfl, rfl, rfl, rfl⟩ (.cons ⟨rfl, rfl, rfl, rfl⟩ .nil))

end QuadDsp
