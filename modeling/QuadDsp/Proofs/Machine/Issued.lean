import QuadDsp.Proofs.Machine.Parallel
import QuadDsp.Proofs.Machine.Stepping

/-! # What one operation of a word leaves

An operation can stand alone in its word or together with others. Either way, what the word leaves in a cell that the
operation writes is what the writes of that operation leave there (`Instruction.Issues.after_of_hits`), and a step of
the simulator leaves the same (`Simulator.read_step`). A register that no word writes keeps its value
(`Simulator.reg_iterate`), and words that only load, store and move keep every flag (`Simulator.status_iterate`). -/

namespace QuadDsp

/-- The operation is one of an accepted word. -/
structure Instruction.Issues (i : Instruction) (m : Member) : Prop where
  structured : checkStructure i = .ok ()
  selected : ∃ sel, select i = .ok sel ∧ m ∈ sel.members

theorem Instruction.Issues.fit {i : Instruction} {m : Member} (h : i.Issues m) : m.Fit := by
  obtain ⟨sel, hsel, hmem⟩ := h.selected
  exact fit_of_select hsel m hmem

theorem Core.mask_apply (s : Core) (c : Condition) (l : Lane) : s.mask c l = s.holds c l := Lanes.ofFn_apply _ l

theorem mask_of_execute {s : Core} {mem : Memory} {p : Program} {i : Instruction} {fx : Effects}
    (h : execute s mem p i = .ok fx) : fx.mask = s.mask i.cond := by
  obtain ⟨-, sel, -, hrun⟩ := exists_selected_of_execute h
  exact mask_executeMembers hrun

theorem Lanes.eq_of_read {α : Type} {r : Except ExecError (Lanes α)} {l : Lane} {v w : α}
    (h : ∃ u : Lanes α, r = .ok u ∧ u l = v) (h' : ∃ u : Lanes α, r = .ok u ∧ u l = w) : v = w := by
  obtain ⟨u, hu, rfl⟩ := h
  obtain ⟨u', hu', rfl⟩ := h'
  cases hu.symm.trans hu'
  rfl

/-- An operand stands for a value in a lane: the number that it is, or what its data register holds. -/
def Core.Gives (s : Core) (o : Operand) (l : Lane) (v : Int) : Prop :=
  match o with
  | .reg r => ∃ u, s.reg r.index = .ok u ∧ u l = v
  | .imm n => n = v
  | _ => False

theorem Member.reg?_of_operand {m : Member} {n : Nat} {r : Reg} (h : m.operand? (.nth n) = some (.reg r)) :
    m.reg? n = some r := by
  rw [reg?, h]
  rfl

theorem Member.regIndex_of_operand {m : Member} {n : Nat} {r : Reg} (h : m.operand? (.nth n) = some (.reg r)) :
    m.regIndex n = .ok r.index := by
  rw [regIndex, register, reg?_of_operand h]
  rfl

/-- The slot of a register operand fixes its class, and its file has it. -/
theorem Member.Classified.cls_of_operand {m : Member} (hm : m.Classified) {n : Nat} {r : Reg}
    (h : m.operand? (.nth n) = some (.reg r)) {slot : Slot} (hslot : m.shape.slots[n]? = some slot) {cls : RegClass}
    (hcls : slot.regClass? = some cls) : r.cls = cls ∧ r.index < r.cls.count := by
  obtain ⟨k, hk, hlt⟩ := hm.reg?_of_slot hslot hcls
  cases hk.symm.trans (reg?_of_operand h)
  exact ⟨rfl, hlt⟩

/-- An input that is a register or a number is what its operand stands for. -/
theorem Member.Classified.exists_input {m : Member} (hm : m.Classified) {n : Nat} {isImmediate : Bool}
    (hslot : m.shape.slots[n]? = some (if isImmediate then .imm else .general)) {y : Operand}
    (hy : m.operand? (.nth n) = some y) (cx : Context) :
    ∃ b : Lanes Int, cx.input m n isImmediate = .ok b ∧ ∀ l v, cx.core.Gives y l v → Fits dataBits v → b l = v := by
  cases isImmediate with
  | false =>
    obtain ⟨b, hb⟩ := hm.reg_of_slot cx hslot
    obtain ⟨k, hk, hreg, -⟩ := hm.regIndex_of_slot hslot rfl
    refine ⟨b, hb, fun l v hgives _ => ?_⟩
    rw [reg?, hy] at hreg
    obtain rfl : y = .reg ⟨.general, k⟩ := by
      cases y <;> first | exact congrArg Operand.reg (Option.some.inj hreg) | cases hreg
    obtain ⟨u, hu, rfl⟩ := hgives
    rw [Context.reg, hk] at hb
    cases hb.symm.trans hu
    rfl
  | true =>
    obtain ⟨c, hc, himm⟩ := hm.immediate_of_slot hslot
    have hinput : cx.input m n true = .ok (Lanes.fill (wrap 32 c)) := by
      rw [Context.input, if_pos rfl, himm]
      rfl
    refine ⟨_, hinput, fun l v hgives hv => ?_⟩
    obtain rfl : y = .imm c := by
      rw [imm?, hy] at hc
      cases y <;> first | exact congrArg Operand.imm (Option.some.inj hc) | cases hc
    obtain rfl : c = v := hgives
    rw [Lanes.fill_apply]
    refine (wrap_eq_self_iff (by decide) c).2 ?_
    have h32 : (span (32 - 1) : Int) = 2147483648 := rfl
    rw [fits_data_iff] at hv
    unfold Fits
    omega

theorem Member.Fit.takes {m : Member} (hm : m.Fit) {u : ExecUnit} (hop : m.opcode.unit? = some u) :
    u.takes m.opcode m.shape = true := by
  obtain ⟨e, he, heop, hshape⟩ := hm.listed
  obtain ⟨u', hu', htakes⟩ := FormatEntry.takes_of_mem e he
  rw [heop, hop] at hu'
  cases hu'
  rwa [heop, hshape] at htakes

/-- What a cell holds behind writes through a mask. -/
def Cell.behind (c : Cell) (s : Core) (mem : Memory) (mask : Mask) (ws : List Write) : c.Value :=
  c.read (ws.foldl (·.apply mask ·) s) (ws.foldl (·.apply mask ·) mem)

/-- Every write of a word is a write of one of its operations. -/
theorem exists_member_of_write {s : Core} {mem : Memory} {p : Program} {i : Instruction} {fx : Effects}
    (h : execute s mem p i = .ok fx) {w : Write} (hw : w ∈ fx.writes) :
    ∃ m fx', i.Issues m ∧ m.instr ∈ i.members ∧ m.execute ⟨s, mem, p, s.mask i.cond⟩ = .ok fx' ∧ w ∈ fx'.writes := by
  obtain ⟨hstructure, sel, hs, h⟩ := exists_selected_of_execute h
  rw [← toOption_eq_some_iff, toOption_executeMembers, Option.map_eq_some_iff] at h
  obtain ⟨l, hl, rfl⟩ := h
  rw [Effects.writes_foldl_and, List.nil_append] at hw
  obtain ⟨fx', hfx', hw⟩ := List.mem_flatMap.1 hw
  obtain ⟨m, hm, hrun⟩ := exists_left_of_forall₂ (mapM_eq_some_iff.1 hl) hfx'
  obtain ⟨t, -, hfills⟩ := select_fills hs
  exact ⟨m, fx', ⟨hstructure, sel, hs, hm⟩, hfills.instrs ▸ List.mem_map_of_mem hm, toOption_eq_some_iff.1 hrun, hw⟩

namespace Instruction.Issues

variable {i : Instruction} {m : Member} (h : i.Issues m) {s : Core} {mem : Memory} {p : Program} {fx : Effects}

include h

theorem alone_or_bundled : (∃ sel, select i = .ok sel ∧ sel.members = [m] ∧ m.instr = i) ∨
    ∃ sel, select i = .ok sel ∧ i.siblings ≠ [] ∧ m ∈ sel.members ∧ m.Bundled ∧ m.Coded := by
  obtain ⟨sel, hs, hm⟩ := h.selected
  by_cases hbundle : i.siblings = []
  · rw [select, if_pos (by simp [hbundle])] at hs
    obtain ⟨m', e, he, hinstr, -, -, -, hsel, -⟩ := selectSingle_eq_ok_iff.1 hs
    have hmembers : sel.members = [m'] := by rw [hsel]
    rw [hmembers, List.mem_singleton] at hm
    refine .inl ⟨sel, ?_, hm ▸ hmembers, hm ▸ hinstr⟩
    rw [select, if_pos (by simp [hbundle]), hs]
  · exact .inr ⟨sel, hs, hbundle, hm, selectBundle_members (selectBundle_of_select hs hbundle) m hm⟩

theorem eq_of_alone {sel : Selection} (hs : select i = .ok sel) {m' : Member}
    (hmembers : sel.members = [m']) : m = m' := by
  obtain ⟨sel', hs', hm⟩ := h.selected
  cases hs.symm.trans hs'
  rwa [hmembers, List.mem_singleton] at hm

theorem asks (hasks : m.opcode.asks = false) : i.opcode.asks = false := by
  rcases h.alone_or_bundled with ⟨sel, -, -, rfl⟩ | ⟨sel, hs, hbundle, -⟩
  · exact hasks
  · exact asks_of_bundle hs (selectBundle_members (selectBundle_of_select hs hbundle))

/-- A cell that no other operation of the word writes holds what this one leaves there. -/
theorem after_of_others (hfx : m.execute ⟨s, mem, p, s.mask i.cond⟩ = .ok fx) {c : Cell}
    (hothers : ∀ m' fx', i.Issues m' → m' ≠ m → m'.execute ⟨s, mem, p, s.mask i.cond⟩ = .ok fx' → ¬fx'.Hits c) :
    c.after s mem p i = c.behind s mem (s.mask i.cond) fx.writes := by
  have hown {k : Instruction} (hk : execute s mem p k = .ok (Effects.and { mask := s.mask i.cond } fx)) :
      c.after s mem p k = c.behind s mem (s.mask i.cond) fx.writes := by
    rw [c.after_of_execute hk, Effects.and, List.nil_append]
    rfl
  rcases h.alone_or_bundled with ⟨sel, hs, hmembers, -⟩ | ⟨sel, hs, hbundle, hm, -⟩
  · refine hown ?_
    rw [execute_of_selected h.structured hs, hmembers, executeMembers, hfx]
    rfl
  · have hparallel := parallel_of_bundle h.structured hs hbundle s mem p
    obtain ⟨t, -, hfills⟩ := select_fills hs
    by_cases hc : fx.Hits c
    · rw [hparallel.written m.instr (hfills.instrs ▸ List.mem_map_of_mem hm) c
        ((writtenBy_alone_iff hs hbundle hm hfx c).2 hc)]
      exact hown (execute_alone hs hbundle s mem p hm hfx)
    · -- neither this operation nor another one writes the cell
      have hnone : ∀ k ∈ i.members, ¬c.WrittenBy s mem p (i.alone k) := by
        intro k hk
        rw [← hfills.instrs] at hk
        obtain ⟨m', hm', rfl⟩ := List.mem_map.1 hk
        obtain ⟨fx', hfx'⟩ := exists_execute_of_bundle hs hbundle hm' ⟨s, mem, p, s.mask i.cond⟩
        rw [writtenBy_alone_iff hs hbundle hm' hfx' c]
        by_cases hne : m' = m
        · subst hne
          cases hfx.symm.trans hfx'
          exact hc
        · exact hothers m' fx' ⟨h.structured, sel, hs, hm'⟩ hne hfx'
      rw [hparallel.kept c hnone, Cell.behind]
      exact (Cell.read_foldl_of_not_hits fun w hw hwc => hc ⟨w, hw, hwc⟩).symm

/-- What a word leaves in a cell that an operation writes, that operation leaves there. -/
theorem after_of_hits (hfx : m.execute ⟨s, mem, p, s.mask i.cond⟩ = .ok fx) {c : Cell} (hc : fx.Hits c) :
    c.after s mem p i = c.behind s mem (s.mask i.cond) fx.writes := by
  refine h.after_of_others hfx fun m' fx' h' hne hfx' => ?_
  obtain ⟨sel', hs', hm'⟩ := h'.selected
  rcases h.alone_or_bundled with ⟨sel, hs, hmembers, -⟩ | ⟨sel, hs, hbundle, hm, -⟩ <;> cases hs.symm.trans hs'
  · rw [hmembers, List.mem_singleton] at hm'
    exact absurd hm' hne
  · exact not_hits_of_ne h.structured hs hbundle hm hm' hne.symm hfx hfx' hc

/-- What holds of the places that an operation writes to, and of all that bundled operations can write to, holds of
those that its word writes to. -/
theorem places (hfx : m.execute ⟨s, mem, p, s.mask i.cond⟩ = .ok fx) {P : Place → Prop}
    (hown : ∀ w ∈ fx.writes, P w.place) (htouches : ∀ (m' : Member) (place : Place), m'.Touches place → P place) :
    ∀ w ∈ (Simulator.effects s mem p i).1.writes, P w.place := by
  intro w hw
  rw [Simulator.fst_effects] at hw
  cases hexecute : execute s mem p i with
  | error e => rw [hexecute] at hw; cases hw
  | ok fx' =>
    rw [hexecute] at hw
    obtain ⟨m', fx'', h', -, hfx'', hw⟩ := exists_member_of_write hexecute hw
    obtain ⟨sel', hs', hm'⟩ := h'.selected
    rcases h.alone_or_bundled with ⟨sel, hs, hmembers, -⟩ | ⟨sel, hs, hbundle, hm, -⟩ <;> cases hs.symm.trans hs'
    · rw [hmembers, List.mem_singleton] at hm'
      subst hm'
      cases hfx.symm.trans hfx''
      exact hown w hw
    · obtain ⟨hbundled, hcoded⟩ := selectBundle_members (selectBundle_of_select hs hbundle) m' hm'
      exact htouches m' w.place ((Member.leaves_of_execute hbundled hcoded hfx'').touches w hw)

theorem place_ne_sys (hfx : m.execute ⟨s, mem, p, s.mask i.cond⟩ = .ok fx) (hown : ∀ w ∈ fx.writes, w.place ≠ .sys) :
    ∀ w ∈ (Simulator.effects s mem p i).1.writes, w.place ≠ .sys := by
  refine h.places (P := (· ≠ .sys)) hfx hown ?_
  rintro m' _ htouches rfl
  exact htouches

end Instruction.Issues

/-! ### Words that only load, store and move -/

/-- The write sets the mode register. -/
def Write.SetsModes : Write → Prop
  | .sys .mode _ | .modes .. => True
  | _ => False

theorem Write.place_of_setsModes {w : Write} (h : w.SetsModes) : w.place = .sys := by
  cases w <;> first | rfl | exact h.elim

/-- Every operation of the word is a load, a store or a move. -/
def Instruction.Transfers (i : Instruction) : Prop := ∀ k ∈ i.members, k.opcode ∈ [Opcode.ld, .st, .mov]

/-- The write is not one of flags. -/
def Write.KeepsFlags : Write → Prop
  | .flags .. => False
  | _ => True

namespace Context

variable {cx : Context} {m : Member} {fx : Effects}

theorem keepsFlags_of_withAccess {writes : Reg → Nat → Except ExecError (List Write)}
    (hwrites : ∀ r addr ws, writes r addr = .ok ws → ∀ w ∈ ws, w.KeepsFlags) (h : cx.withAccess m writes = .ok fx) :
    ∀ w ∈ fx.writes, w.KeepsFlags := by
  obtain ⟨-, ref, r, a, -, -, -, hfx⟩ := withAccess_writes h
  intro w hw
  rcases hfx w hw with hw | ⟨ws, hws, hw⟩
  · obtain ⟨addr, step⟩ := a
    cases step with
    | none => cases hw
    | some step =>
      rw [List.mem_singleton.1 hw]
      trivial
  · exact hwrites r a.addr ws hws w hw

theorem exists_reg_of_loaded {r : Reg} {addr : Nat} {ws : List Write} (h : cx.loaded r addr = .ok ws) :
    ∀ w ∈ ws, ∃ n v, w = .reg n v := by
  unfold loaded at h
  split at h
  · obtain ⟨c, -, h⟩ := bind_eq_ok_iff.1 h
    cases h
    simp
  · obtain ⟨v, -, h⟩ := bind_eq_ok_iff.1 h
    cases h
    simp

theorem exists_mem_of_stored {r : Reg} {addr : Nat} {ws : List Write} (h : cx.stored r addr = .ok ws) :
    ∀ w ∈ ws, ∃ a v, w = .mem a v := by
  unfold stored at h
  split at h
  · obtain ⟨c, -, h⟩ := bind_eq_ok_iff.1 h
    cases h
    simp
  · obtain ⟨v, -, h⟩ := bind_eq_ok_iff.1 h
    cases h
    simp

theorem keepsFlags_store (h : cx.store m = .ok fx) : ∀ w ∈ fx.writes, w.KeepsFlags := by
  refine keepsFlags_of_withAccess (fun r addr ws hws w hw => ?_) h
  obtain ⟨a, v, rfl⟩ := exists_mem_of_stored hws w hw
  trivial

theorem keepsFlags_load (h : cx.load m = .ok fx) : ∀ w ∈ fx.writes, w.KeepsFlags := by
  unfold load at h
  split at h
  · obtain ⟨n, -, h⟩ := bind_eq_ok_iff.1 h
    obtain ⟨v, -, h⟩ := bind_eq_ok_iff.1 h
    cases h
    simp [Effects.ofWrites, Write.KeepsFlags]
  · obtain ⟨r, -, h⟩ := bind_eq_ok_iff.1 h
    obtain ⟨v, -, h⟩ := bind_eq_ok_iff.1 h
    cases h
    simp [Effects.ofWrites, Write.KeepsFlags]
  · split at h
    · obtain ⟨v, -, h⟩ := bind_eq_ok_iff.1 h
      cases h
      simp [Effects.ofWrites, Write.KeepsFlags]
    · cases h
  · refine keepsFlags_of_withAccess (fun r addr ws hws w hw => ?_) h
    split at hws
    · next hloaded =>
      cases hws
      obtain ⟨n, v, rfl⟩ := exists_reg_of_loaded hloaded w hw
      trivial
    · cases hws

theorem keepsFlags_move (h : cx.move m = .ok fx) : ∀ w ∈ fx.writes, w.KeepsFlags := by
  unfold move at h
  split at h
  case h_6 =>
    cases h
    simp [Effects.ofWrites, Write.KeepsFlags]
  case h_8 => cases h
  all_goals
    obtain ⟨v, -, h⟩ := bind_eq_ok_iff.1 h
    cases h
    simp [Effects.ofWrites, Write.KeepsFlags]

end Context

theorem Instruction.Transfers.keepsFlags {i : Instruction} (h : i.Transfers) (s : Core) (mem : Memory) (p : Program) :
    ∀ w ∈ (Simulator.effects s mem p i).1.writes, w.KeepsFlags := by
  intro w hw
  rw [Simulator.fst_effects] at hw
  cases hexecute : execute s mem p i with
  | error e => rw [hexecute] at hw; cases hw
  | ok fx =>
    rw [hexecute] at hw
    obtain ⟨m, fx', -, hmem, hfx', hw⟩ := exists_member_of_write hexecute hw
    have hop : m.opcode ∈ [Opcode.ld, .st, .mov] := h m.instr hmem
    simp only [List.mem_cons, List.not_mem_nil, or_false] at hop
    rcases hop with hop | hop | hop
    · rw [Member.execute_eq_run (u := .load) (by rw [hop]; rfl)] at hfx'
      exact Context.keepsFlags_load hfx' w hw
    · rw [Member.execute_eq_run (u := .store) (by rw [hop]; rfl)] at hfx'
      exact Context.keepsFlags_store hfx' w hw
    · rw [Member.execute_eq_run (u := .move) (by rw [hop]; rfl)] at hfx'
      exact Context.keepsFlags_move hfx' w hw

theorem Instruction.Transfers.asks {i : Instruction} (h : i.Transfers) : i.opcode.asks = false := by
  have htable : ∀ op ∈ [Opcode.ld, .st, .mov], op.asks = false := by decide
  exact htable i.opcode (h i List.mem_cons_self)

namespace Core

variable {s : Core} {mask : Mask} {ws : List Write}

theorem modes_foldl_apply (h : ∀ w ∈ ws, ¬w.SetsModes) : (ws.foldl (·.apply mask ·) s).modes = s.modes := by
  refine foldl_apply_eq (·.modes) (fun w hw s => ?_) s
  have hkeeps := h w hw
  cases w with
  | address r v =>
    obtain ⟨cls, i⟩ := r
    simp only [apply]
    split <;> cases cls <;> rfl
  | sys r v =>
    cases r with
    | mode => exact absurd trivial hkeeps
    | _ => simp only [apply]; split <;> rfl
  | modes => exact absurd trivial hkeeps
  | _ => rfl

theorem flags_foldl_apply (h : ∀ w ∈ ws, w.KeepsFlags) : (ws.foldl (·.apply mask ·) s).flags = s.flags := by
  refine foldl_apply_eq (·.flags) (fun w hw s => ?_) s
  have hkeeps := h w hw
  cases w with
  | address r v => exact congrArg (·.2.2) (s.lanewise_apply mask (.address r v) trivial)
  | sys r v => exact congrArg (·.2.2) (s.lanewise_apply mask (.sys r v) trivial)
  | modes chosen on => exact congrArg (·.2.2) (s.lanewise_apply mask (.modes chosen on) trivial)
  | flags => exact hkeeps.elim
  | _ => rfl

end Core

/-- The flags of a bank behind writes of other things and one of these flags. -/
theorem Cell.behind_flag_last {s : Core} {mask : Mask} {front : List Write} (hfront : ∀ w ∈ front, w.KeepsFlags)
    (mem : Memory) (bank : Bank) (group : Flags) (v : Lanes Flags) {l : Lane} (hl : mask l = true) (n : Nat) :
    (Cell.flag l bank n).behind s mem mask (front ++ [.flags bank group v]) =
      (Flags.update group (v l) ((s.flags l).get bank)).toList[n]? := by
  have hbefore : (front.foldl (·.apply mask ·) s).flags = s.flags := Core.flags_foldl_apply hfront
  have hbehind : (front ++ [Write.flags bank group v]).foldl (·.apply mask ·) s =
      (front.foldl (·.apply mask ·) s).apply mask (.flags bank group v) := List.foldl_concat ..
  rw [behind, hbehind, read, flags_apply, hbefore]
  dsimp only
  rw [if_pos ⟨hl, rfl⟩]

/-- The effects of an operation on halves: two writes, and flags of the three banks. -/
def Effects.halves (re im : Write) (group : Flags) (v : Bank → Lanes Flags) : Effects :=
  .ofWrites [re, im, .flags .real group (v .real), .flags .imag group (v .imag), .flags .both group (v .both)]

theorem Cell.behind_flag_halves {s : Core} {mask : Mask} {re im : Write} (hre : re.KeepsFlags) (him : im.KeepsFlags)
    (mem : Memory) (group : Flags) (v : Bank → Lanes Flags) {l : Lane} (hl : mask l = true) (bank : Bank) (n : Nat) :
    (Cell.flag l bank n).behind s mem mask (Effects.halves re im group v).writes =
      (Flags.update group (v bank l) ((s.flags l).get bank)).toList[n]? := by
  have hbefore : ((s.apply mask re).apply mask im).flags = s.flags := by
    have hkeeps : ∀ w ∈ [re, im], w.KeepsFlags := by simp [hre, him]
    exact Core.flags_foldl_apply hkeeps
  show ((((((((s.apply mask re).apply mask im).apply mask (.flags .real group (v .real))).apply mask
    (.flags .imag group (v .imag))).apply mask (.flags .both group (v .both))).flags l).get bank).toList[n]?) = _
  rw [flags_apply, flags_apply, flags_apply]
  dsimp only
  rw [hl, hbefore]
  cases bank <;> rfl

theorem Effects.hits_halves {re im : Write} {group : Flags} {v : Bank → Lanes Flags} {l : Lane} {bank : Bank} {n : Nat}
    (h : (Flags.touched group (v bank l)).toList[n]? = some true) : (halves re im group v).Hits (.flag l bank n) := by
  refine ⟨.flags bank group (v bank), ?_, rfl, h⟩
  cases bank <;> simp [halves, ofWrites]

theorem Cell.behind_halves {c : Cell} (hc : ∀ bank group v, ¬(Write.flags bank group v).Hits c) (s : Core)
    (mem : Memory) (mask : Mask) (re im : Write) (group : Flags) (v : Bank → Lanes Flags) :
    c.behind s mem mask (Effects.halves re im group v).writes = c.behind s mem mask [re, im] := by
  have hflags : ∀ w ∈ [Write.flags .real group (v .real), .flags .imag group (v .imag), .flags .both group (v .both)],
      ¬w.Hits c := by
    simp [hc]
  exact read_foldl_of_not_hits (s := [re, im].foldl (·.apply mask ·) s) (m := [re, im].foldl (·.apply mask ·) mem)
    hflags

/-! ### Steps -/

namespace Simulator

variable {sim : Simulator} {idx : Nat} {i : Instruction}

/-- The writes of the next word. -/
def writes (sim : Simulator) : List Write :=
  match sim.current? with
  | some (_, i) => (effects sim.core sim.mem sim.program i).1.writes
  | none => []

theorem writes_of_current? (h : sim.current? = some (idx, i)) :
    sim.writes = (effects sim.core sim.mem sim.program i).1.writes := by
  rw [writes, h]

/-- Behind a word that asks for nothing, only the loops and their counter can differ from what its effects leave. -/
theorem exists_core_step (h : sim.current? = some (idx, i)) (hasks : i.opcode.asks = false) :
    ∃ loops counter, sim.step.core = { (sim.committed i).1 with loops := loops, counter := counter } := by
  obtain ⟨loops, counter, hrounded⟩ := sim.controller.exists_rounded (sim.committed i).1 sim.program i (sim.asked i)
  rw [followed_of_asked_none (asked_of_asks hasks)] at hrounded
  exact ⟨loops, counter, (core_step h).trans hrounded⟩

/-- A step leaves in a cell what the effects of the word leave there. -/
theorem read_step (h : sim.current? = some (idx, i)) (hasks : i.opcode.asks = false) (c : Cell) :
    c.read sim.step.core sim.step.mem = c.after sim.core sim.mem sim.program i := by
  obtain ⟨loops, counter, hcore⟩ := exists_core_step h hasks
  have hmem : sim.step.mem = (sim.committed i).2.1 := by rw [step_of_current? h, mem_stepAt]; rfl
  rw [hcore, hmem]
  cases c <;> rfl

/-- A step leaves in a cell that an operation of the word writes what that operation leaves there. -/
theorem read_step_of_hits (h : sim.current? = some (idx, i)) {m : Member} (hi : i.Issues m)
    (hasks : m.opcode.asks = false) {fx : Effects}
    (hfx : m.execute ⟨sim.core, sim.mem, sim.program, sim.core.mask i.cond⟩ = .ok fx) {c : Cell} (hc : fx.Hits c) :
    c.read sim.step.core sim.step.mem = c.behind sim.core sim.mem (sim.core.mask i.cond) fx.writes :=
  (read_step h (hi.asks hasks) c).trans (hi.after_of_hits hfx hc)

/-- The flags of a bank behind an operation on halves. -/
theorem flag_step_of_halves (h : sim.current? = some (idx, i)) {m : Member} (hi : i.Issues m)
    (hasks : m.opcode.asks = false) {re im : Write} {group : Flags} {v : Bank → Lanes Flags}
    (hfx : m.execute ⟨sim.core, sim.mem, sim.program, sim.core.mask i.cond⟩ = .ok (.halves re im group v))
    (hre : re.KeepsFlags) (him : im.KeepsFlags) {l : Lane} (hl : sim.core.holds i.cond l = true) (bank : Bank) {n : Nat}
    (hn : (Flags.touched group (v bank l)).toList[n]? = some true) :
    ((sim.step.core.flags l).get bank).toList[n]? =
      (Flags.update group (v bank l) ((sim.core.flags l).get bank)).toList[n]? := by
  have hmask := (sim.core.mask_apply i.cond l).trans hl
  have hread := read_step_of_hits h hi hasks hfx (c := .flag l bank n) (Effects.hits_halves hn)
  rwa [Cell.behind_flag_halves hre him _ _ _ hmask] at hread

theorem modes_step (h : sim.current? = some (idx, i)) (hasks : i.opcode.asks = false)
    (hkeeps : ∀ w ∈ sim.writes, ¬w.SetsModes) : sim.step.core.modes = sim.core.modes := by
  obtain ⟨loops, counter, hcore⟩ := exists_core_step h hasks
  rw [writes_of_current? h] at hkeeps
  rw [hcore]
  exact Core.modes_foldl_apply hkeeps

/-- Where an operation of the word writes no register of the sequencer, the word keeps the modes. -/
theorem modes_step_of_issues (h : sim.current? = some (idx, i)) {m : Member} (hi : i.Issues m)
    (hasks : m.opcode.asks = false) {fx : Effects}
    (hfx : m.execute ⟨sim.core, sim.mem, sim.program, sim.core.mask i.cond⟩ = .ok fx)
    (hown : ∀ w ∈ fx.writes, w.place ≠ .sys) : sim.step.core.modes = sim.core.modes := by
  refine modes_step h (hi.asks hasks) fun w hw hmode => ?_
  rw [writes_of_current? h] at hw
  exact hi.place_ne_sys hfx hown w hw (Write.place_of_setsModes hmode)

theorem flags_step (h : sim.current? = some (idx, i)) (hasks : i.opcode.asks = false)
    (hkeeps : ∀ w ∈ sim.writes, w.KeepsFlags) : sim.step.core.flags = sim.core.flags := by
  obtain ⟨loops, counter, hcore⟩ := exists_core_step h hasks
  rw [writes_of_current? h] at hkeeps
  rw [hcore]
  exact Core.flags_foldl_apply hkeeps

theorem files_step (h : sim.current? = some (idx, i)) : sim.step.core.files = (sim.committed i).1.files := by
  rw [step_of_current? h, core_stepAt]
  exact Controller.files_advance ..

/-- The next word writes a cell. -/
def WritesCell (sim : Simulator) (c : Cell) : Prop := ∃ w ∈ sim.writes, w.Hits c

/-- A cell of the register files or of memory that the next word does not write keeps what it holds. -/
theorem read_step_of_not_writes {c : Cell} (hc : c.place?.isSome) (h : ¬sim.WritesCell c) :
    c.read sim.step.core sim.step.mem = c.read sim.core sim.mem := by
  cases hcurrent : sim.current? with
  | none => rw [step_of_none hcurrent]
  | some current =>
    obtain ⟨idx, i⟩ := current
    rw [WritesCell, writes_of_current? hcurrent] at h
    have hfiles := files_step hcurrent
    simp only [Core.files, Prod.mk.injEq] at hfiles
    obtain ⟨hregs, haccs, hindex, -⟩ := hfiles
    have hmem : sim.step.mem = (sim.committed i).2.1 := by rw [step_of_current? hcurrent, mem_stepAt]; rfl
    have hcommitted : c.read sim.step.core sim.step.mem = c.read (sim.committed i).1 (sim.committed i).2.1 := by
      rw [hmem]
      cases c with
      | reg n => exact congrArg (Core.fetch · n) hregs
      | acc n => exact congrArg (Core.fetch · n) haccs
      | index n => exact congrArg (Core.fetch · n) hindex
      | word => rfl
      | flag => cases hc
    exact hcommitted.trans (Cell.read_foldl_of_not_hits fun w hw hwc => h ⟨w, hw, hwc⟩)

/-- A cell of the register files or of memory that no word writes keeps what it holds. -/
theorem read_iterate {c : Cell} (hc : c.place?.isSome) {t t' : Nat} (hle : t ≤ t')
    (h : ∀ k, t ≤ k → k < t' → ¬(step^[k] sim).WritesCell c) :
    c.read (step^[t'] sim).core (step^[t'] sim).mem = c.read (step^[t] sim).core (step^[t] sim).mem := by
  induction t', hle using Nat.le_induction with
  | base => rfl
  | succ t' hle ih =>
    rw [Function.iterate_succ_apply', read_step_of_not_writes hc (h t' hle (Nat.lt_succ_self t'))]
    exact ih fun k hk hlt => h k hk (Nat.lt_succ_of_lt hlt)

/-- The next word writes a data register. -/
def WritesReg (sim : Simulator) (n : Nat) : Prop := ∃ w ∈ sim.writes, w.Hits (.reg n)

/-- A register that no word writes keeps what it holds. -/
theorem reg_iterate {n t t' : Nat} (hle : t ≤ t') (h : ∀ k, t ≤ k → k < t' → ¬(step^[k] sim).WritesReg n) :
    (step^[t'] sim).core.reg n = (step^[t] sim).core.reg n :=
  read_iterate (c := .reg n) rfl hle h

/-- The next word, if there is one, only loads, stores and moves, and leaves the mode register alone. -/
structure Transfers (sim : Simulator) : Prop where
  word : ∀ idx i, sim.current? = some (idx, i) → i.Transfers
  modes : ∀ w ∈ sim.writes, ¬w.SetsModes

theorem Transfers.step (h : sim.Transfers) :
    sim.step.core.flags = sim.core.flags ∧ sim.step.core.modes = sim.core.modes := by
  cases hcurrent : sim.current? with
  | none => rw [step_of_none hcurrent]; exact ⟨rfl, rfl⟩
  | some current =>
    obtain ⟨idx, i⟩ := current
    have hword := h.word idx i hcurrent
    refine ⟨flags_step hcurrent hword.asks ?_, modes_step hcurrent hword.asks h.modes⟩
    rw [writes_of_current? hcurrent]
    exact hword.keepsFlags _ _ _

/-- Words that only load, store and move keep flags and modes. -/
theorem status_iterate {t t' : Nat} (hle : t ≤ t') (h : ∀ k, t ≤ k → k < t' → (step^[k] sim).Transfers) :
    (step^[t'] sim).core.flags = (step^[t] sim).core.flags ∧
      (step^[t'] sim).core.modes = (step^[t] sim).core.modes := by
  induction t', hle using Nat.le_induction with
  | base => exact ⟨rfl, rfl⟩
  | succ t' hle ih =>
    obtain ⟨hflags, hmodes⟩ := ih fun k hk hlt => h k hk (Nat.lt_succ_of_lt hlt)
    obtain ⟨hflags', hmodes'⟩ := (h t' hle (Nat.lt_succ_self t')).step
    rw [Function.iterate_succ_apply']
    exact ⟨hflags'.trans hflags, hmodes'.trans hmodes⟩

end Simulator

end QuadDsp
