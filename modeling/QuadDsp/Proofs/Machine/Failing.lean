import QuadDsp.Proofs.Machine.Calls
import QuadDsp.Proofs.Machine.LoopFrames
import QuadDsp.Proofs.Machine.Sequel

/-! # Words that fail

A word whose execution fails leaves the state alone, reports its fault and lets the sequencer go on. That is what an
idle word in its place does, but for the report (`Simulator.stepAt_of_error`): the controller looks at nothing of a
word that asks for nothing but its address and whether it is a delay slot (`Controller.sameCourse_advance`). An idle
word that stands in the program instead of the failing one changes nothing either, where no other word has the address
(`Simulator.Reachable.fails`): the controller reads the end of a loop off the word in front of its body, and that word
has begun the loop (`Simulator.Reachable.begunAt`), so it is not one that fails. -/

namespace QuadDsp

/-- An idle word in the place of an instruction. -/
def Instruction.idle (i : Instruction) : Instruction where
  line := i.line
  opcode := .nop
  address := i.address
  format := some .sys
  condition := some .always
  inDelaySlot := i.inDelaySlot
  sectionName := i.sectionName

theorem Instruction.select_idle (i : Instruction) :
    select i.idle = .ok ⟨.sys, 0x7E2, i.idle, [⟨.op, i.idle, .bare, none⟩]⟩ := rfl

theorem Instruction.execute_idle (s : Core) (mem : Memory) (p : Program) (i : Instruction) :
    execute s mem p i.idle = .ok {} := by
  have hcond : i.idle.cond = .always := rfl
  rw [execute_of_selected rfl i.select_idle, hcond, Core.mask_always]
  rfl

/-- The program with an idle word at a place. -/
def Program.idleAt (p : Program) (idx : Nat) : Program := { p with instrs := p.instrs.modify idx Instruction.idle }

namespace LoopStacks

variable {s : LoopStacks}

theorem last_again (s : LoopStacks) : s.again.last = s.last := by
  unfold again
  split <;> rfl

/-- A loop that is left takes an entry off each stack, so no stack finds itself empty. -/
theorem faults_pop {top : LoopFrame} {outer : List LoopFrame} (h : s.frames = top :: outer) (name : StackName) :
    s.pop.last.faults name = s.last.faults name := by
  obtain ⟨⟨_, first⟩, ⟨_, last⟩, ⟨_, count⟩, ⟨_, forever⟩⟩ := s
  cases last with
  | nil => cases first <;> cases h
  | cons => rfl

end LoopStacks

namespace Core

variable {p q : Program} {addr : Nat} {s : Core} {frames : List LoopFrame}

theorem stackFaults_withLoops (s : Core) {loops : LoopStacks} {counter : Nat}
    (h : loops.last.faults .loops = s.loops.last.faults .loops) :
    ({ s with loops := loops, counter := counter } : Core).stackFaults = s.stackFaults := by
  simp only [stackFaults, h]

theorem stackFaults_endRound (h : s.loops.frames = frames) :
    (endRound p addr s frames).1.stackFaults = s.stackFaults := by
  induction frames generalizing s with
  | nil => rfl
  | cons top outer ih =>
    unfold endRound
    split
    · rfl
    split
    · rw [ih (frames_leaveLoop h)]
      exact s.stackFaults_withLoops (LoopStacks.faults_pop h .loops)
    · exact s.stackFaults_withLoops (by rw [LoopStacks.last_again])

theorem endRound_congr (h : ∀ f ∈ frames, q.loopCondition f.first = p.loopCondition f.first) :
    endRound q addr s frames = endRound p addr s frames := by
  induction frames generalizing s with
  | nil => rfl
  | cons top outer ih =>
    obtain ⟨htop, houter⟩ := List.forall_mem_cons.1 h
    rw [endRound, endRound, htop, ih houter]

end Core

namespace Program

variable {p q : Program} {idx : Nat} {i : Instruction}

theorem forall₂_idleAt (hi : p.instrs[idx]? = some i) (hword : i.isDirective = false) :
    List.Forall₂ (fun i j => j.isDirective = i.isDirective ∧ j.programAddr = i.programAddr) p.instrs
      (p.idleAt idx).instrs := by
  rw [List.forall₂_iff_get]
  refine ⟨by simp [idleAt], fun k hk hk' => ?_⟩
  simp only [idleAt, List.get_eq_getElem, List.getElem_modify]
  split
  · next heq =>
    subst heq
    cases (List.getElem?_eq_getElem hk).symm.trans hi
    exact ⟨hword.symm, rfl⟩
  · exact ⟨rfl, rfl⟩

theorem indexOf?_idleAt (hi : p.instrs[idx]? = some i) (hword : i.isDirective = false) :
    (p.idleAt idx).indexOf? = p.indexOf? :=
  funext fun _ => findIdx?_eq_of_forall₂ (forall₂_idleAt hi hword) fun a b hab => by rw [hab.1, hab.2]

theorem nextWord?_idleAt (hi : p.instrs[idx]? = some i) (hword : i.isDirective = false) :
    (p.idleAt idx).nextWord? = p.nextWord? :=
  funext fun k => congrArg (Option.map _) <|
    findIdx?_eq_of_forall₂ (List.forall₂_drop (k + 1) (forall₂_idleAt hi hword)) fun a b hab => by rw [hab.1]

theorem loopCondition_idleAt (hi : p.instrs[idx]? = some i) (hword : i.isDirective = false) {first : Nat}
    (hne : first ≠ 0 → p.indexOf? (first - 1) ≠ some idx) :
    (p.idleAt idx).loopCondition first = p.loopCondition first := by
  unfold loopCondition
  split
  · rfl
  next hfirst =>
  have hwordAt : (p.idleAt idx).wordAt? (first - 1) = p.wordAt? (first - 1) := by
    show ((p.idleAt idx).indexOf? (first - 1)).bind ((p.idleAt idx).instrs[·]?) =
      (p.indexOf? (first - 1)).bind (p.instrs[·]?)
    rw [indexOf?_idleAt hi hword]
    refine Option.bind_congr fun k hk => ?_
    have hne : idx ≠ k := fun heq => hne hfirst (heq ▸ hk)
    simp only [idleAt, List.getElem?_modify, if_neg hne, id_map']
  rw [hwordAt]

end Program

namespace Controller

/-- Decisions that lead the same way, whatever they cost. -/
structure SameCourse (x y : Controller × Core × Advance) : Prop where
  pending : y.1.pending = x.1.pending
  core : y.2.1 = x.2.1
  next : y.2.2.next = x.2.2.next
  missing : y.2.2.missing = x.2.2.missing

/-- Of a word that asks for nothing the controller looks at its address, and whether it is a delay slot. -/
theorem sameCourse_advance (c : Controller) (s : Core) {p q : Program} (idx : Nat) {i j : Instruction}
    (haddr : j.programAddr = i.programAddr) (hslot : j.inDelaySlot = i.inDelaySlot) (hindex : q.indexOf? = p.indexOf?)
    (hnext : q.nextWord? idx = p.nextWord? idx)
    (hround : ∀ f ∈ s.loops.frames, q.loopCondition f.first = p.loopCondition f.first) :
    SameCourse (c.advance s p idx i none) (c.advance s q idx j none) := by
  have htransfer : c.transfer j none = c.transfer i none := by rw [transfer_none, transfer_none, hslot]
  have hend : Core.endRound q i.programAddr s s.loops.frames = Core.endRound p i.programAddr s s.loops.frames :=
    Core.endRound_congr hround
  have hrounded : c.rounded s q j none = c.rounded s p i none := by
    unfold rounded
    dsimp only [followed]
    rw [htransfer, haddr, hend]
  have hdestination : c.destination s q j none = c.destination s p i none := by
    simp only [destination, followed, htransfer, hrounded]
  refine ⟨?_, by rw [core_advance, core_advance, hrounded], ?_, ?_⟩
  · rw [controller_advance, controller_advance]
    simp only [followed, htransfer]
  · rw [next_advance, next_advance, hdestination, hindex, hnext]
  · have hmissing (p : Program) (i : Instruction) : (c.advance s p idx i none).2.2.missing =
        if ((c.destination s p i none).bind p.indexOf?).isSome then none else c.destination s p i none := rfl
    rw [hmissing, hmissing, hdestination, hindex]

end Controller

/-! ### The word in front of a body -/

/-- Whether a DO fails is decided by its operands and the symbols. -/
theorem Context.exists_loop {cx cx' : Context} (hsymbols : cx'.program.symbols = cx.program.symbols) {m m' : Member}
    (hm : m.Alike m') {fx : Effects} (h : cx.loop m = .ok fx) : ∃ fx', cx'.loop m' = .ok fx' := by
  have htarget (t : Target) : cx'.target t = cx.target t := by
    rw [target, target, Program.targetAddr_congr hsymbols]
  unfold loop at h ⊢
  rw [hm.instr.operands]
  split at h
  · next t c _ _ =>
    rw [htarget]
    obtain ⟨last, hlast, -⟩ := bind_eq_ok_iff.1 h
    rw [hlast]
    exact ⟨_, rfl⟩
  · cases h

/-- The word can be executed in every state, as long as the symbols are those of the program. -/
def Instruction.NeverFails (p : Program) (i : Instruction) : Prop :=
  ∀ s mem q j, q.symbols = p.symbols → i.SameWord j → ∃ fx, execute s mem q j = .ok fx

theorem Instruction.NeverFails.ran {p q : Program} {i j : Instruction} (h : i.NeverFails p) (hran : p.Ran q)
    (hij : i.Reran j) : j.NeverFails q :=
  fun s mem r k hr hk => h s mem r k (hr.trans hran.symbols) (hij.sameWord.trans hk)

/-- In front of an address stands a word that can be executed in every state. -/
def Program.BegunAt (p : Program) (first : Nat) : Prop :=
  ∃ (idx : Nat) (i : Instruction), p.instrs[idx]? = some i ∧ i.isDirective = false ∧
    first = addrBehind i.programAddr 1 ∧ i.NeverFails p

theorem Program.BegunAt.ran {p q : Program} {first : Nat} (h : p.BegunAt first) (hran : p.Ran q) : q.BegunAt first := by
  obtain ⟨idx, i, hi, hword, hfirst, hnever⟩ := h
  obtain ⟨j, hj, hij⟩ := exists_getElem?_of_forall₂ hran.instrs.flip hi
  have hij : i.Reran j := hij
  exact ⟨idx, j, hj, hij.isDirective.trans hword, by rw [hfirst, hij.programAddr], hnever.ran hran hij⟩

/-- A word that begins a loop once can be executed in every state. -/
theorem Instruction.neverFails_of_loop {s : Core} {mem : Memory} {p : Program} {i : Instruction} {fx : Effects}
    (h : execute s mem p i = .ok fx) {last : Nat} {term : Condition} (hflow : fx.flow = some (.loop last term)) :
    i.NeverFails p := by
  obtain ⟨hop, hstructure, sel, m, fx', hs, hm, rfl, hrun, -⟩ := exists_of_loop h hflow
  intro s' mem' q j hsymbols hij
  obtain ⟨sel', hs', halike⟩ := (select_alike hij).of_ok hs
  have hmembers := halike.members
  rw [hm] at hmembers
  obtain ⟨m', rest, hmm', hnil, hm'⟩ := List.forall₂_cons_left_iff.1 hmembers
  rw [List.forall₂_nil_left_iff.1 hnil] at hm'
  have hunit' : m'.opcode.unit? = some .loop := by
    rw [show m'.opcode = m.opcode from hmm'.instr.opcode, show m.opcode = .loop from hop]
    rfl
  obtain ⟨fx₂, hfx₂⟩ : ∃ fx₂, (⟨s', mem', q, s'.mask j.cond⟩ : Context).loop m' = .ok fx₂ :=
    Context.exists_loop hsymbols hmm' hrun
  have hexecute : m'.execute ⟨s', mem', q, s'.mask j.cond⟩ = .ok fx₂ := by
    rw [Member.execute, hunit']
    exact hfx₂
  rw [execute_of_selected (hij.checkStructure.trans hstructure) hs', hm', executeMembers, hexecute]
  exact ⟨_, rfl⟩

namespace Simulator

variable {sim : Simulator} {idx : Nat} {i : Instruction} {e : ExecError} {p : Program} {config : Config}

/-- In front of the body of every loop that runs stands a word that can be executed in every state. -/
theorem Reachable.begunAt (h : Reachable p config sim) {f : LoopFrame} (hf : f ∈ sim.core.loops.frames) :
    sim.program.BegunAt f.first := by
  obtain ⟨start, idx, i, last, term, hstart, hran, hcurrent, hasked, hbody⟩ := h.begun _ (List.mem_map_of_mem hf)
  obtain ⟨hi, hword⟩ := (Runs.of_reachable hstart).word hcurrent
  obtain ⟨fx, hexecute, hflow⟩ := execute_of_asked hasked
  have hbegun : start.program.BegunAt f.first :=
    ⟨idx, i, hi, hword, congrArg (·.1) hbody, Instruction.neverFails_of_loop hexecute hflow⟩
  exact hbegun.ran hran

/-! ### A failing word and an idle one -/

/-- A word without effects leaves it all to the controller. -/
theorem advanced_of_effects {faults : List ExecError}
    (h : effects sim.core sim.mem sim.program i = ({}, faults)) (idx : Nat) :
    sim.committed i = (sim.core, sim.mem, []) ∧ sim.faultsOf i = faults ∧
      sim.advanced idx i = sim.controller.advance sim.core sim.program idx i none := by
  have hcommitted : sim.committed i = (sim.core, sim.mem, []) := by
    rw [committed, h]
    rfl
  exact ⟨hcommitted, by rw [faultsOf, h, hcommitted, List.append_nil], by rw [advanced, hcommitted, h]⟩

theorem effects_of_error (herror : execute sim.core sim.mem sim.program i = .error e) :
    effects sim.core sim.mem sim.program i = ({}, [e]) := by
  rw [effects, herror]

theorem effects_idle (sim : Simulator) (i : Instruction) :
    effects sim.core sim.mem sim.program i.idle = ({}, []) := by
  rw [effects, i.execute_idle]

/-- The reports of a target without a word. -/
def missingReports (i : Instruction) (missing : Option Nat) : List Diagnostic :=
  missing.toList.map fun addr => i.execDiagnostic (.address (.noWord addr))

theorem sequencerReports_advance (c : Controller) (s : Core) (p : Program) (idx : Nat) (i : Instruction) :
    sequencerReports s i (c.advance s p idx i none) = missingReports i (c.advance s p idx i none).2.2.missing := by
  have hfaults : (c.advance s p idx i none).2.1.stackFaults = s.stackFaults := by
    rw [Controller.core_advance]
    unfold Controller.rounded
    dsimp only [Controller.followed]
    split
    · rfl
    · exact Core.stackFaults_endRound rfl
  have hnone : (s.stackFaults.filter fun f => !s.stackFaults.contains f) = [] :=
    List.filter_eq_nil_iff.2 fun f hf => by simp [hf]
  rw [sequencerReports, missingReports, hfaults, hnone, List.map_map]
  rfl

/-- What a step behind a word that fails has in common with a step behind an idle word: the core with its stacks and
its loop counter, memory, the next word, the target that waits and the report of a target without a word. The failing
word reports its fault besides. -/
structure IdlesAs (sim : Simulator) (i : Instruction) (e : ExecError) (failed idle : Simulator) : Prop where
  core : failed.core = idle.core
  mem : failed.mem = idle.mem
  next : failed.pc = idle.pc
  pending : failed.controller.pending = idle.controller.pending
  reports : ∃ missing : Option Nat,
    failed.diagnostics = sim.diagnostics ++ (i.execDiagnostic e :: missingReports i missing) ∧
      idle.diagnostics = sim.diagnostics ++ missingReports i.idle missing

/-- A word that fails does what an idle one does, in a program that the controller does not tell from its own. -/
theorem stepAt_of_error (herror : execute sim.core sim.mem sim.program i = .error e) {q : Program}
    (hindex : q.indexOf? = sim.program.indexOf?) (hnext : q.nextWord? idx = sim.program.nextWord? idx)
    (hround : ∀ f ∈ sim.core.loops.frames, q.loopCondition f.first = sim.program.loopCondition f.first) :
    sim.IdlesAs i e (sim.stepAt idx i) ({ sim with program := q }.stepAt idx i.idle) := by
  obtain ⟨hcommitted, hfaults, hadvanced⟩ := advanced_of_effects (effects_of_error herror) idx
  obtain ⟨hcommitted', hfaults', hadvanced'⟩ := advanced_of_effects (effects_idle { sim with program := q } i) idx
  have hcourse := sim.controller.sameCourse_advance sim.core (p := sim.program) (q := q) idx (i := i) (j := i.idle) rfl
    rfl hindex hnext hround
  rw [← hadvanced, ← hadvanced'] at hcourse
  rw [stepAt_eq, stepAt_eq]
  refine ⟨hcourse.core.symm, by rw [hcommitted, hcommitted'], hcourse.next.symm, hcourse.pending.symm,
    (sim.advanced idx i).2.2.missing, ?_, ?_⟩
  · dsimp only
    rw [reports, hfaults, hadvanced, sequencerReports_advance]
    rfl
  · dsimp only
    rw [reports, hfaults', ← hcourse.missing, hadvanced', sequencerReports_advance]
    rfl

/-- What a step behind a word that fails leaves as it was: the registers, the flags and modes, the return and status
stacks and memory. -/
structure Untouched (sim sim' : Simulator) : Prop where
  files : sim'.core.files = sim.core.files
  flags : sim'.core.flags = sim.core.flags
  modes : sim'.core.modes = sim.core.modes
  calls : sim'.core.calls = sim.core.calls
  statuses : sim'.core.statuses = sim.core.statuses
  mem : sim'.mem = sim.mem

theorem untouched_of_error (herror : execute sim.core sim.mem sim.program i = .error e) :
    sim.Untouched (sim.stepAt idx i) := by
  obtain ⟨loops, counter, hcore⟩ :
      ∃ loops counter, (sim.stepAt idx i).core = { sim.core with loops := loops, counter := counter } := by
    rw [core_stepAt, effects_of_error herror]
    dsimp only
    rw [Controller.core_advance]
    exact Controller.exists_rounded ..
  have hmem : (sim.stepAt idx i).mem = sim.mem := by
    rw [mem_stepAt, effects_of_error herror]
    rfl
  exact ⟨by rw [hcore]; rfl, by rw [hcore], by rw [hcore], by rw [hcore], by rw [hcore], hmem⟩

/-- A word that fails is a no-op, wherever it stands: it leaves the state as it was, and the step is that of an idle
word in its place, put there for this step or, where it is the only word at its address, into the program. -/
structure FailsAt (sim : Simulator) (idx : Nat) (i : Instruction) (e : ExecError) : Prop where
  untouched : sim.Untouched sim.step
  inPlace : sim.IdlesAs i e sim.step (sim.stepAt idx i.idle)
  inProgram : (∀ k j, sim.program.instrs[k]? = some j → j.isDirective = false → j.programAddr = i.programAddr →
      k = idx) →
    sim.IdlesAs i e sim.step ({ sim with program := sim.program.idleAt idx } : Simulator).step

theorem current?_idleAt (hcurrent : sim.current? = some (idx, i)) :
    ({ sim with program := sim.program.idleAt idx } : Simulator).current? = some (idx, i.idle) := by
  obtain ⟨hpc, hi⟩ := current?_eq_some_iff.1 hcurrent
  refine current?_eq_some_iff.2 ⟨hpc, ?_⟩
  simp [Program.idleAt, hi]

/-- In every run of every program, words that fail are no-ops. -/
theorem Reachable.fails (h : Reachable p config sim) (hcurrent : sim.current? = some (idx, i))
    (herror : execute sim.core sim.mem sim.program i = .error e) : sim.FailsAt idx i e := by
  obtain ⟨hi, hword⟩ := (Runs.of_reachable h).word hcurrent
  have hstep := step_of_current? hcurrent
  refine ⟨hstep ▸ untouched_of_error herror, hstep ▸ stepAt_of_error herror rfl rfl fun _ _ => rfl, fun honly => ?_⟩
  rw [hstep, step_of_current? (current?_idleAt hcurrent)]
  refine stepAt_of_error herror (Program.indexOf?_idleAt hi hword)
    (congrFun (Program.nextWord?_idleAt hi hword) idx) fun f hf => ?_
  -- the word that began the loop does not fail, so it is another one
  refine Program.loopCondition_idleAt hi hword fun hne hat => ?_
  obtain ⟨k, j, hj, hwordj, hfirst, hnever⟩ := h.begunAt hf
  obtain ⟨i', hi', -, haddr⟩ := Program.exists_of_indexOf? hat
  cases hi.symm.trans hi'
  rw [hfirst, addrBehind_one_sub_one j.programAddr_lt (hfirst ▸ hne)] at haddr
  obtain rfl := honly k j hj hwordj haddr.symm
  cases hi.symm.trans hj
  obtain ⟨fx, hok⟩ := hnever sim.core sim.mem sim.program i rfl (.refl i)
  cases herror.symm.trans hok

/-- A loop over an addition with a load into the register of its sum. -/
def clashingLoop : Program :=
  { instrs :=
      [{ line := 1, opcode := .loop, operands := [.target (.abs 1), .cond .ce] },
        { line := 2, opcode := .add, address := 1,
          operands := [.reg ⟨.general, 2⟩, .reg ⟨.general, 0⟩, .reg ⟨.general, 1⟩],
          siblings := [{ line := 2, opcode := .ld, operands := [.reg ⟨.general, 2⟩, .mem ⟨.data, .post 0 0⟩] }] }] }

/-- The loop goes round behind its only word, which fails. -/
theorem Reachable.fails_clashingLoop :
    let sim := (Simulator.load clashingLoop {}).step
    let e := ExecError.structural (.duplicateDestination (Reg.text ⟨.general, 2⟩))
    ∃ i, Reachable clashingLoop {} sim ∧ sim.current? = some (1, i) ∧
      execute sim.core sim.mem sim.program i = .error e ∧ sim.FailsAt 1 i e ∧
      sim.IdlesAs i e sim.step ({ sim with program := sim.program.idleAt 1 } : Simulator).step ∧
      sim.step.pc = some 1 := by
  intro sim e
  have h : Reachable clashingLoop {} sim := .step .load
  have hcurrent : sim.current? = some (1, _) := rfl
  have hfails : sim.FailsAt 1 _ e := h.fails hcurrent rfl
  refine ⟨_, h, hcurrent, rfl, hfails, hfails.inProgram fun k j hj hword haddr => ?_, rfl⟩
  have hk : k < 2 := (List.getElem?_eq_some_iff.1 hj).1
  obtain rfl | rfl : k = 0 ∨ k = 1 := by omega
  · cases hj
    cases haddr
  · rfl

end Simulator

end QuadDsp
