import QuadDsp.Proofs.Machine.Gating
import QuadDsp.Proofs.Machine.Gather

/-! # Words under a condition

A word that has room for a condition does under it, in the lanes where it holds, what it does without; in the
other lanes nothing happens. What is shared, and the way the program goes on, follow lane 0: where the condition
does not hold there, the word passes without effect (`Simulator.stepAt_predicated`). Its faults are the same
under any condition. What the sequencer reports of it is not: a return that does not take place finds no stack
empty, and a jump misses no word. -/

namespace QuadDsp

namespace Instruction

/-- The word under a condition, which its operations share. -/
def predicated (c : Condition) (i : Instruction) : Instruction :=
  { i with
    condition := some c
    siblings := i.siblings.map fun s => { s with condition := s.condition.map fun _ => c } }

variable (c : Condition) (i : Instruction)

theorem sameActions_predicated : List.Forall₂ SameAction i.members (i.predicated c).members := by
  refine .cons ⟨rfl, rfl, rfl⟩ (List.forall₂_map_right_iff.2 (List.forall₂_same.2 fun s _ => ⟨rfl, rfl, rfl⟩))

/-- What is asked of some operation of the word, but for its condition. -/
theorem any_members_predicated {q : Instruction → Bool} (hq : ∀ j j' : Instruction, j.SameAction j' → q j = q j') :
    (i.predicated c).members.any q = i.members.any q := by
  have hmap := map_eq_map_of_forall₂ hq (i.sameActions_predicated c)
  simpa [List.any_map] using congrArg (List.any · id) hmap.symm

variable {i}

theorem checkStructure_predicated (h : checkStructure i = .ok ()) : checkStructure (i.predicated c) = .ok () := by
  obtain ⟨hlength, -, hnodup⟩ := checkStructure_eq_ok_iff.1 h
  have hdestinations := map_eq_map_of_forall₂ (fun j j' hj => SameAction.destination? hj)
    (i.sameActions_predicated c).flip
  refine checkStructure_eq_ok_iff.2 ⟨?_, fun j hj => ?_, ?_⟩
  · rw [predicated, List.length_map]
    exact hlength
  · obtain ⟨s, -, rfl⟩ := List.mem_map.1 hj
    cases s.condition <;> rfl
  · have hfilter := congrArg (List.filterMap id) hdestinations
    rw [List.filterMap_map, List.filterMap_map] at hfilter
    exact hfilter ▸ hnodup

/-- An accepted word is accepted under any condition, with the same operations in the same parts, if its format has
a field for conditions. -/
theorem select_predicated {s : Selection} (hs : select i = .ok s) (hcond : s.format.hasCond = true) :
    ∃ s', select (i.predicated c) = .ok s' ∧ s.Alike s' :=
  select_of_sameActions (i.sameActions_predicated c) hs hcond

/-- A word that has room for a condition asks for a jump, a call or a return, if for anything. -/
theorem opcode_of_hasCond {s : Selection} (hs : select i = .ok s) (hcond : s.format.hasCond = true) :
    i.opcode ∉ [.loop, .push, .pop, .reset] := by
  have htable : ∀ e ∈ formatEntries, e.format.hasCond = true → e.opcode ∉ [.loop, .push, .pop, .reset] := by
    decide +kernel
  rcases select_members hs with ⟨m, e, he, -, rfl, hopcode, -, hformat⟩ | ⟨hall, -⟩
  · rw [show m.instr.opcode = e.opcode from hopcode]
    exact htable e he (hformat ▸ hcond)
  · have hasks : ∀ op ∈ [Opcode.loop, .push, .pop, .reset], op.asks = true := by decide
    intro hmem
    cases (hasks _ hmem).symm.trans (asks_of_bundle hs hall)

end Instruction

/-- A jump, a call or a return. -/
def Flow.isTransfer : Flow → Bool
  | jump _ | call _ | ret => true
  | _ => false

theorem Flow.isTransfer_of_opcode {f : Flow} (h : f.opcode ∉ [.loop, .push, .pop, .reset]) : f.isTransfer = true := by
  cases f <;> simp_all [Flow.opcode, Flow.isTransfer]

section Execute

variable {i : Instruction} {sel : Selection} (hstructure : checkStructure i = .ok ()) (hselect : select i = .ok sel)
  (hcond : sel.format.hasCond = true)

include hstructure hselect hcond

theorem execute_predicated_eq (s : Core) (mem : Memory) (p : Program) (c : Condition) :
    execute s mem p (i.predicated c) =
      executeMembers ⟨s, mem, p, s.mask c⟩ { mask := s.mask c } sel.members := by
  obtain ⟨sel', hselect', halike⟩ := i.select_predicated c hselect hcond
  rw [execute_of_selected (Instruction.checkStructure_predicated c hstructure) hselect',
    executeMembers_alike halike.members]
  rfl

/-- Under a condition a word has the effects that it has without, in the lanes where the condition holds. -/
theorem execute_predicated (s : Core) (mem : Memory) (p : Program) (c : Condition) :
    execute s mem p (i.predicated c) = (execute s mem p (i.predicated .always)).map (·.under (s.mask c)) := by
  have hnone : ({} : Effects).under (s.mask c) = { mask := s.mask c } := by simp [Effects.under, Effects.gate]
  rw [execute_predicated_eq hstructure hselect hcond, execute_predicated_eq hstructure hselect hcond, ← hnone]
  exact executeMembers_under s mem p (s.mask c) sel.members {}

/-- So committing it merges what it leaves with what was there; its faults are the same, and what it asks of the
sequencer follows lane 0. -/
theorem effects_predicated (s : Core) (mem : Memory) (p : Program) (c : Condition) :
    let fx := (Simulator.effects s mem p (i.predicated c)).1
    let full := (Simulator.effects s mem p (i.predicated .always)).1
    commit s mem fx =
        (s.merge (s.mask c) (commit s mem full).1, mem.merge (s.mask c) (commit s mem full).2.1,
          (commit s mem full).2.2) ∧
      fx.flow = (if s.holds c .first then full.flow else none) ∧
      (Simulator.effects s mem p (i.predicated c)).2 = (Simulator.effects s mem p (i.predicated .always)).2 := by
  unfold Simulator.effects
  rw [execute_predicated hstructure hselect hcond]
  cases hfull : execute s mem p (i.predicated .always) with
  | error e =>
    have hcommit : commit s mem {} = (s, mem, []) := rfl
    simp only [Except.map, hcommit, Core.merge_self, Memory.merge_self, ite_self, and_self]
  | ok fx =>
    rw [execute_predicated_eq hstructure hselect hcond] at hfull
    refine ⟨commit_under (mask_executeMembers hfull) s mem (s.mask c), ?_, rfl⟩
    simp only [Except.map, Effects.under, Effects.gate, Core.mask, Lanes.ofFn_apply]

omit hstructure in
theorem isTransfer_of_effects (s : Core) (mem : Memory) (p : Program) (c : Condition) (f : Flow)
    (hflow : (Simulator.effects s mem p (i.predicated c)).1.flow = some f) : f.isTransfer = true := by
  have hopcode := Instruction.opcode_of_hasCond hselect hcond
  obtain ⟨fx, hexecute, hasks⟩ := Simulator.execute_of_flow hflow
  exact Flow.isTransfer_of_opcode (opcode_of_flow hexecute hasks ▸ hopcode)

end Execute

/-! ### Sequencing -/

namespace Controller

variable (c : Controller) (s : Core) (p : Program) (idx : Nat) (i : Instruction)

/-- For a transfer the controller changes the return stack, the loop stacks and the loop counter. -/
theorem exists_rounded_of_transfer {flow : Option Flow} (hflow : ∀ f, flow = some f → f.isTransfer = true) :
    ∃ calls loops counter, (c.rounded s p i flow).1 =
      { s with calls := calls, loops := loops, counter := counter } := by
  obtain ⟨calls, hfollowed⟩ : ∃ calls, (c.followed s i flow).1 = { s with calls := calls } := by
    cases flow with
    | none => exact ⟨_, rfl⟩
    | some f =>
      cases f with
      | jump | call | ret => exact ⟨_, rfl⟩
      | _ => cases hflow _ rfl
  obtain ⟨loops, counter, hrounded⟩ := c.exists_rounded s p i flow
  rw [hfollowed] at hrounded
  exact ⟨calls, loops, counter, hrounded⟩

theorem advance_predicated (cond : Condition) (flow : Option Flow) :
    c.advance s p idx (i.predicated cond) flow = c.advance s p idx i flow := by
  have hreads : (i.predicated cond).readsMemory = i.readsMemory :=
    i.any_members_predicated cond fun j j' h => by
      unfold Instruction.hasMemOperand
      rw [h.opcode, h.operands]
  have hwrites : (i.predicated cond).writesMemory = i.writesMemory :=
    i.any_members_predicated cond fun j j' h => by
      unfold Instruction.hasMemOperand
      rw [h.opcode, h.operands]
  have hmac : (i.predicated cond).isMacWord = i.isMacWord :=
    i.any_members_predicated cond fun j j' h => by rw [h.opcode]
  have hstall (next : Option Nat) : c.stallOf p (i.predicated cond) next = c.stallOf p i next := by
    unfold stallOf
    rw [hreads, hmac]
  rw [advance_eq, advance_eq, hwrites]
  simp only [hstall]
  rfl

end Controller

namespace Core

/-- What is left of a core without its lanes. -/
def withoutLanes (s : Core) : Core :=
  { s with regs := .replicate 32 (.fill 0), accs := .replicate 8 (.fill 0), flags := .fill {} }

variable (mask : Mask) (s t : Core)

theorem lane_merge (l : Lane) : (s.merge mask t).lane l = if mask l then t.lane l else s.lane l := by
  have hfile {n : Nat} (file file' : Vector (Lanes Int) n) :
      (Vector.zipWith (Lanes.merge mask) file file').map (· l) =
        if mask l then file'.map (· l) else file.map (· l) := by
    refine Vector.ext fun k hk => ?_
    split <;> simp [*]
  unfold lane merge
  rw [hfile, hfile, Lanes.merge_apply]
  split <;> rfl

/-- A merged core looks in lane 0 like the one that lane 0 is taken from, and shares the rest with it. -/
theorem sameCore_merge : (LaneView.beside .first).SameCore (if mask .first then t else s) (s.merge mask t) := by
  have hlanes {α : Type} (v w : Lanes α) :
      (LaneView.beside .first).Same (if mask .first then w else v) (Lanes.merge mask v w) := by
    rintro l (rfl | rfl) <;> (rw [Lanes.merge_apply]; split <;> rfl)
  have hfile {n : Nat} (file file' : Vector (Lanes Int) n) :
      (LaneView.beside .first).SameFile (if mask .first then file' else file)
        (Vector.zipWith (Lanes.merge mask) file file') := by
    intro k hk
    rw [Vector.getElem_zipWith]
    have h := hlanes file[k] file'[k]
    split at h <;> simp_all
  have hregs := hfile s.regs t.regs
  have haccs := hfile s.accs t.accs
  have hflags := hlanes s.flags t.flags
  unfold merge
  split at hregs <;> simp only [*] at haccs hflags ⊢ <;>
    exact ⟨hregs, haccs, hflags, rfl, rfl, rfl, rfl, rfl, rfl, rfl, rfl, rfl, rfl⟩

end Core

theorem Memory.lane_merge (mask : Mask) {m n : Memory} (hsize : n.size = m.size) (l : Lane) :
    (m.merge mask n).lane l = if mask l then n.lane l else m.lane l := by
  have hwords : n.words.size = m.words.size := hsize
  unfold lane merge
  refine Array.ext ?_ fun k hk hk' => ?_
  · split <;> simp [hwords]
  · split <;> simp [*]

/-- Cores that look the same in lane 0 have the same besides lanes, if they have put aside the same statuses. -/
theorem LaneView.SameCore.withoutLanes {ρ : LaneView} {s s' : Core} (h : ρ.SameCore s s')
    (hstatuses : s'.statuses = s.statuses) : s'.withoutLanes = s.withoutLanes := by
  obtain ⟨-, -, -, hindex, hmodify, hlength, hbase, hmodes, hcounter, hcalls, hloops, -, hdepth⟩ := h
  unfold Core.withoutLanes
  rw [hindex, hmodify, hlength, hbase, hmodes, hcounter, hcalls, hloops, hdepth, hstatuses]

namespace Simulator

/-- What is left of a simulator without its lanes: all that is shared, and the way the program goes. -/
def withoutLanes (sim : Simulator) : Simulator := { sim with core := sim.core.withoutLanes, mem := .empty 0 }

/-- Goes on behind the word `i` with the core that it leaves and what it asks of the sequencer, and reports its
faults. -/
def goOn (idx : Nat) (i : Instruction) (faults : List ExecError) (s : Core) (flow : Option Flow) (sim : Simulator) :
    Simulator :=
  let decided := sim.controller.advance s sim.program idx i flow
  { sim with
    program := sim.program.setLatency idx decided.2.2
    core := decided.2.1
    controller := decided.1
    pc := decided.2.2.next
    steps := sim.steps + 1
    diagnostics := sim.diagnostics ++ (faults.map i.execDiagnostic ++ sequencerReports sim.core i decided) }

/-- Passes the word `i` without effect. Its faults are reported all the same. -/
def passAt (idx : Nat) (i : Instruction) (sim : Simulator) : Simulator :=
  sim.goOn idx i (sim.faultsOf (i.predicated .always)) sim.core none

variable (sim : Simulator) (idx : Nat) (i : Instruction)

theorem stepAt_eq_goOn :
    sim.stepAt idx i =
      { sim.goOn idx i (sim.faultsOf i) (sim.committed i).1 (effects sim.core sim.mem sim.program i).1.flow with
        mem := (sim.committed i).2.1 } := stepAt_eq ..

theorem goOn_predicated (c : Condition) : goOn idx (i.predicated c) = goOn idx i := by
  funext faults s flow sim
  unfold goOn
  rw [Controller.advance_predicated]
  rfl

/-- A step of the word `i` under the condition `c`, next to its step without condition, and to none of it. -/
structure PredicatedAt (c : Condition) : Prop where
  lane : ∀ l, (sim.stepAt idx (i.predicated c)).lane l =
    if sim.core.holds c l then (sim.stepAt idx (i.predicated .always)).lane l else sim.lane l
  shared : (sim.stepAt idx (i.predicated c)).withoutLanes =
    (if sim.core.holds c .first then sim.stepAt idx (i.predicated .always) else sim.passAt idx i).withoutLanes
  faults : sim.faultsOf (i.predicated c) = sim.faultsOf (i.predicated .always)
  /-- a loop may end at the word that is passed -/
  passed : ∃ loops counter, (sim.passAt idx i).core = { sim.core with loops := loops, counter := counter }
  untouched : (∀ last, sim.core.loops.last.top? = some last → last ≠ i.programAddr) →
    (sim.passAt idx i).core = sim.core

section Step

variable {sim idx i} {ρ : LaneView}

theorem core_goOn (faults : List ExecError) (s : Core) (flow : Option Flow) :
    (sim.goOn idx i faults s flow).core = (sim.controller.rounded s sim.program i flow).1 :=
  sim.controller.core_advance s sim.program idx i flow

theorem lane_goOn (faults : List ExecError) (s : Core) {flow : Option Flow}
    (hflow : ∀ f, flow = some f → f.isTransfer = true) (l : Lane) :
    (sim.goOn idx i faults s flow).core.lane l = s.lane l := by
  obtain ⟨calls, loops, counter, hrounded⟩ := sim.controller.exists_rounded_of_transfer s sim.program i hflow
  rw [core_goOn, hrounded]
  rfl

/-- What is shared goes on alike from cores that look the same in lane 0. -/
theorem withoutLanes_goOn (hρ : ρ.Anchored) (faults : List ExecError) {s s' : Core} (hcore : ρ.SameCore s s')
    (hstatuses : s'.statuses = s.statuses) {flow : Option Flow} (hflow : ∀ f, flow = some f → f.isTransfer = true) :
    (sim.goOn idx i faults s' flow).withoutLanes = (sim.goOn idx i faults s flow).withoutLanes := by
  have hwhole : ρ.SameWhole s s' := ⟨hcore, hstatuses ▸ hρ.sameStatuses _⟩
  obtain ⟨hcontroller, hsame, hadvance⟩ :=
    sim.controller.same_advance idx (i := i) (p := sim.program) hcore (.inl hwhole) fun _ => .inl hρ
  have hleft (s : Core) : (sim.controller.advance s sim.program idx i flow).2.1.statuses = s.statuses := by
    obtain ⟨calls, loops, counter, hrounded⟩ := sim.controller.exists_rounded_of_transfer s sim.program i hflow
    rw [Controller.core_advance, hrounded]
  have hshared := hsame.withoutLanes (by rw [hleft, hleft, hstatuses])
  unfold withoutLanes goOn sequencerReports
  dsimp only
  rw [hcontroller, hadvance, hsame.stackFaults, hshared]

theorem exists_passAt (sim : Simulator) (idx : Nat) (i : Instruction) :
    ∃ loops counter, (sim.passAt idx i).core = { sim.core with loops := loops, counter := counter } := by
  unfold passAt
  rw [core_goOn]
  exact sim.controller.exists_rounded sim.core sim.program i none

theorem passAt_of_ne (idx : Nat) (hnot : ∀ last, sim.core.loops.last.top? = some last → last ≠ i.programAddr) :
    (sim.passAt idx i).core = sim.core := by
  unfold passAt
  rw [core_goOn, Controller.rounded]
  split
  · rfl
  · exact congrArg Prod.fst (Core.endRound_of_ne sim.program hnot)

variable {sel : Selection} (hstructure : checkStructure i = .ok ()) (hselect : select i = .ok sel)
  (hcond : sel.format.hasCond = true)

include hselect hcond

/-- The controller leaves the lanes of a word under a condition as they are committed. -/
theorem lane_stepAt (sim : Simulator) (idx : Nat) (c : Condition) (l : Lane) :
    (sim.stepAt idx (i.predicated c)).lane l =
      ((sim.committed (i.predicated c)).1.lane l, (sim.committed (i.predicated c)).2.1.lane l) := by
  have htransfer := isTransfer_of_effects hselect hcond sim.core sim.mem sim.program c
  rw [stepAt_eq_goOn]
  unfold Simulator.lane
  dsimp only
  rw [lane_goOn _ _ htransfer]

include hstructure

theorem committed_predicated (sim : Simulator) (c : Condition) :
    let full := sim.committed (i.predicated .always)
    sim.committed (i.predicated c) =
      (sim.core.merge (sim.core.mask c) full.1, sim.mem.merge (sim.core.mask c) full.2.1, full.2.2) :=
  (effects_predicated hstructure hselect hcond sim.core sim.mem sim.program c).1

theorem faultsOf_predicated (sim : Simulator) (c : Condition) :
    sim.faultsOf (i.predicated c) = sim.faultsOf (i.predicated .always) := by
  have hfaults := (effects_predicated hstructure hselect hcond sim.core sim.mem sim.program c).2.2
  unfold faultsOf
  rw [hfaults, committed_predicated hstructure hselect hcond]

theorem lane_stepAt_predicated (sim : Simulator) (idx : Nat) (c : Condition) (l : Lane) :
    (sim.stepAt idx (i.predicated c)).lane l =
      if sim.core.holds c l then (sim.stepAt idx (i.predicated .always)).lane l else sim.lane l := by
  have hholds : sim.core.mask c l = sim.core.holds c l := Lanes.ofFn_apply _ l
  have hsize : (sim.committed (i.predicated .always)).2.1.size = sim.mem.size := size_commit ..
  rw [lane_stepAt hselect hcond, lane_stepAt hselect hcond, committed_predicated hstructure hselect hcond]
  dsimp only
  rw [Core.lane_merge, Memory.lane_merge _ hsize, hholds]
  split <;> rfl

theorem withoutLanes_stepAt_predicated (sim : Simulator) (idx : Nat) (c : Condition) :
    (sim.stepAt idx (i.predicated c)).withoutLanes =
      (if sim.core.holds c .first then sim.stepAt idx (i.predicated .always)
        else sim.passAt idx i).withoutLanes := by
  have hstep (c : Condition) : (sim.stepAt idx (i.predicated c)).withoutLanes =
      (sim.goOn idx i (sim.faultsOf (i.predicated c)) (sim.committed (i.predicated c)).1
        (effects sim.core sim.mem sim.program (i.predicated c)).1.flow).withoutLanes := by
    rw [stepAt_eq_goOn, goOn_predicated]
    rfl
  have hflow := (effects_predicated hstructure hselect hcond sim.core sim.mem sim.program c).2.1
  have hsame := Core.sameCore_merge (sim.core.mask c) sim.core (sim.committed (i.predicated .always)).1
  have hstatuses : (sim.core.merge (sim.core.mask c) (sim.committed (i.predicated .always)).1).statuses =
      (if sim.core.mask c .first then (sim.committed (i.predicated .always)).1 else sim.core).statuses := rfl
  have hfirst : sim.core.mask c .first = sim.core.holds c .first := Lanes.ofFn_apply _ _
  have hρ := LaneView.anchored_beside .first
  -- lane 0 says which of the two cores the merged one looks like, so the controller decides as it does on that one
  rw [hfirst] at hsame hstatuses
  rw [hstep, faultsOf_predicated hstructure hselect hcond, hflow, committed_predicated hstructure hselect hcond]
  split at hsame
  · next htrue =>
    rw [if_pos htrue] at hstatuses ⊢
    rw [if_pos htrue, hstep]
    exact withoutLanes_goOn hρ _ hsame hstatuses
      (isTransfer_of_effects hselect hcond sim.core sim.mem sim.program .always)
  · next hfalse =>
    rw [if_neg hfalse] at hstatuses ⊢
    rw [if_neg hfalse]
    exact withoutLanes_goOn hρ _ hsame hstatuses nofun

/-- Under a condition a word does in the lanes where the condition holds what it does without, and nothing in the
others; what is shared, and the way the program goes on, follow lane 0. Its faults are the same. -/
theorem stepAt_predicated (sim : Simulator) (idx : Nat) (c : Condition) : sim.PredicatedAt idx i c where
  lane := lane_stepAt_predicated hstructure hselect hcond sim idx c
  shared := withoutLanes_stepAt_predicated hstructure hselect hcond sim idx c
  faults := faultsOf_predicated hstructure hselect hcond sim c
  passed := sim.exists_passAt idx i
  untouched := passAt_of_ne idx

end Step

/-- Adds two registers while a third one is loaded. -/
def addAndLoad : Instruction :=
  { line := 1
    opcode := .add
    operands := [.reg ⟨.general, 2⟩, .reg ⟨.general, 0⟩, .reg ⟨.general, 1⟩]
    siblings := [{ line := 1, opcode := .ld, operands := [.reg ⟨.general, 3⟩, .mem ⟨.data, .post 0 0⟩] }] }

/-- In a state whose lanes 0 and 2 are negative. -/
theorem stepAt_predicated_addAndLoad :
    let sim := load { instrs := [addAndLoad] } {}
    let negative : FlagBank := { real := { negative := true } }
    let mixed := { sim with core := { sim.core with flags := ⟨negative, {}, negative, {}⟩ } }
    checkStructure addAndLoad = .ok () ∧ (∃ sel, select addAndLoad = .ok sel ∧ sel.format.hasCond = true) ∧
      mixed.PredicatedAt 0 addAndLoad .neg :=
  ⟨rfl, ⟨_, rfl, rfl⟩, stepAt_predicated rfl rfl rfl _ 0 .neg⟩

/-- Jumps out of the program. -/
def jumpOut : Instruction := { line := 1, opcode := .jump, operands := [.target (.abs 7)] }

/-- What is reported of it depends on the condition: where it does not take place, no word is missing. -/
theorem reports_jumpOut :
    let sim := load { instrs := [jumpOut] } {}
    checkStructure jumpOut = .ok () ∧ (∃ sel, select jumpOut = .ok sel ∧ sel.format.hasCond = true) ∧
      sim.reports 0 (jumpOut.predicated .eq) = [] ∧
      sim.reports 0 (jumpOut.predicated .always) = [jumpOut.execDiagnostic (.address (.noWord 7))] :=
  ⟨rfl, ⟨_, rfl, rfl⟩, rfl, rfl⟩

end Simulator

end QuadDsp
