import QuadDsp.Proofs.Machine.LaneWise
import QuadDsp.Proofs.Machine.Stacks

/-! # A step, seen lane by lane

Two simulators of one program that look the same go on looking the same: the word has effects that look the
same, through masks that do, and the controller decides the same (`LaneView.SameRun.stepAt`). Lane 0 steers the
controller; a view that is not anchored will do only for a word that is lane-local, and only where no loop ends
by a condition that lane 0 decides. -/

namespace QuadDsp

namespace LaneView

variable {α : Type} {ρ : LaneView}

/-! ### Flags put aside -/

/-- Stacks that look the same, entry by entry. -/
structure SameStack (ρ : LaneView) (b b' : BoundedStack (Lanes α)) : Prop where
  depth : b'.depth = b.depth
  overflow : b'.overflow = b.overflow
  underflow : b'.underflow = b.underflow
  items : List.Forall₂ ρ.Same b.items b'.items

namespace SameStack

variable {b b' : BoundedStack (Lanes α)} (h : ρ.SameStack b b')

include h

theorem isFull : b'.isFull = b.isFull := by
  rw [BoundedStack.isFull, BoundedStack.isFull, h.depth, h.items.length_eq]

theorem overflowed : ρ.SameStack b.overflowed b'.overflowed := { h with overflow := rfl }

theorem push {v v' : Lanes α} (hv : ρ.Same v v') : ρ.SameStack (b.push v) (b'.push v') := by
  unfold BoundedStack.push
  rw [h.isFull]
  split
  · exact h.overflowed
  · exact { h with items := .cons hv h.items }

theorem pop : ρ.SameStack b.pop b'.pop := by
  obtain ⟨hdepth, hoverflow, hunderflow, hitems⟩ := h
  obtain ⟨depth, items, overflow, underflow⟩ := b
  obtain ⟨depth', items', overflow', underflow'⟩ := b'
  cases hitems with
  | nil => exact ⟨hdepth, hoverflow, rfl, .nil⟩
  | cons hv hrest => exact ⟨hdepth, hoverflow, hunderflow, hrest⟩

theorem top? : Option.Rel ρ.Same b.top? b'.top? := by
  obtain ⟨-, -, -, hitems⟩ := h
  obtain ⟨depth, items, overflow, underflow⟩ := b
  obtain ⟨depth', items', overflow', underflow'⟩ := b'
  cases hitems with
  | nil => exact .none
  | cons hv hrest => exact .some hv

end SameStack

/-- Statuses put aside: the modes are the same, and the flags look the same. -/
structure SameStatuses (ρ : LaneView) (x x' : StatusStacks) : Prop where
  real : ρ.SameStack x.real x'.real
  imag : ρ.SameStack x.imag x'.imag
  both : ρ.SameStack x.both x'.both
  modes : x'.modes = x.modes

namespace SameStatuses

variable {x x' : StatusStacks} (h : ρ.SameStatuses x x')

include h

theorem push {f f' : StatusFrame} (hflags : ρ.Same f.flags f'.flags) (hmodes : f'.modes = f.modes) :
    ρ.SameStatuses (x.push f) (x'.push f') := by
  have hfull : x'.isFull = x.isFull := congrArg BoundedStack.isFull h.modes
  unfold StatusStacks.push
  rw [hfull]
  split
  · exact ⟨h.real.overflowed, h.imag.overflowed, h.both.overflowed, congrArg BoundedStack.overflowed h.modes⟩
  · exact ⟨h.real.push (hflags.map _), h.imag.push (hflags.map _), h.both.push (hflags.map _), by rw [h.modes, hmodes]⟩

theorem pop : ρ.SameStatuses x.pop x'.pop :=
  ⟨h.real.pop, h.imag.pop, h.both.pop, congrArg BoundedStack.pop h.modes⟩

theorem top? : Option.Rel (fun f f' => ρ.Same f.flags f'.flags ∧ f'.modes = f.modes) x.top? x'.top? := by
  have hreal := h.real.top?
  have himag := h.imag.top?
  have hboth := h.both.top?
  -- a frame is on top only if all four stacks have an entry
  unfold StatusStacks.top?
  rw [h.modes]
  generalize x.real.top? = real at hreal ⊢
  generalize x'.real.top? = real' at hreal ⊢
  generalize x.imag.top? = imag at himag ⊢
  generalize x'.imag.top? = imag' at himag ⊢
  generalize x.both.top? = both at hboth ⊢
  generalize x'.both.top? = both' at hboth ⊢
  cases hreal with
  | none => exact .none
  | some hreal =>
  cases himag with
  | none => exact .none
  | some himag =>
  cases hboth with
  | none => exact .none
  | some hboth =>
  cases x.modes.top? with
  | none => exact .none
  | some modes => exact .some ⟨.ofFn fun l hl => by rw [hreal l hl, himag l hl, hboth l hl], rfl⟩

end SameStatuses

theorem Anchored.sameStatuses (h : ρ.Anchored) (x : StatusStacks) : ρ.SameStatuses x x := by
  have hstack (b : BoundedStack (Lanes Flags)) : ρ.SameStack b b :=
    ⟨rfl, rfl, rfl, List.forall₂_same.2 fun v _ => h.same v⟩
  exact ⟨hstack _, hstack _, hstack _, rfl⟩

/-! ### Sequencing -/

/-- Cores that look the same, with the statuses that they have put aside. -/
structure SameWhole (ρ : LaneView) (s s' : Core) : Prop extends ρ.SameCore s s' where
  statuses : ρ.SameStatuses s.statuses s'.statuses

section Sequencing

variable {s s' : Core}

theorem SameWhole.withStatuses (h : ρ.SameWhole s s') {x x' : StatusStacks} (hx : ρ.SameStatuses x x') :
    ρ.SameWhole { s with statuses := x } { s' with statuses := x' } :=
  { h with statuses := hx, saved := hx.modes }

theorem SameWhole.setStatus (h : ρ.SameWhole s s') {f f' : StatusFrame} (hflags : ρ.Same f.flags f'.flags)
    (hmodes : f'.modes = f.modes) : ρ.SameWhole (s.setStatus f) (s'.setStatus f') :=
  { h with flags := hflags, modes := hmodes }

theorem SameCore.withLoops (h : ρ.SameCore s s') (loops : LoopStacks) (counter : Nat) :
    ρ.SameCore { s with loops := loops, counter := counter } { s' with loops := loops, counter := counter } :=
  { h with loops := rfl, counter := rfl }

theorem SameWhole.reset (h : ρ.SameWhole s s') : ρ.SameWhole s.reset s'.reset := by
  have hempty (depth : Nat) : ρ.SameStack (BoundedStack.empty depth : BoundedStack (Lanes Flags)) (.empty depth) :=
    ⟨rfl, rfl, rfl, .nil⟩
  have hdepth : s'.stackDepth = s.stackDepth := h.stackDepth
  have hstatuses : ρ.SameStatuses s.reset.statuses s'.reset.statuses := by
    unfold Core.reset
    rw [hdepth]
    exact ⟨hempty _, hempty _, hempty _, rfl⟩
  exact {
    h with
    flags := .fill _
    modes := rfl
    counter := rfl
    calls := congrArg BoundedStack.empty hdepth
    loops := congrArg LoopStacks.empty hdepth
    saved := hstatuses.modes
    statuses := hstatuses }

/-- The sequencer carries out the same, and finds the same target. -/
theorem SameWhole.follow (h : ρ.SameWhole s s') (addr : Nat) (delaySlots : Bool) (f : Flow) :
    ρ.SameWhole (s.follow addr delaySlots f).1 (s'.follow addr delaySlots f).1 ∧
      (s'.follow addr delaySlots f).2 = (s.follow addr delaySlots f).2 := by
  cases f with
  | jump t => exact ⟨h, rfl⟩
  | call t =>
    have hcalls (back : Nat) : s'.calls.push back = s.calls.push back := by rw [h.calls]
    exact ⟨{ h with calls := hcalls _ }, rfl⟩
  | ret => exact ⟨{ h with calls := congrArg (·.pop) h.calls }, congrArg (·.top?) h.calls⟩
  | loop last term =>
    have hloops : s'.loops.push ⟨addrBehind addr 1, last, s'.counter, term == .forever⟩ =
        s.loops.push ⟨addrBehind addr 1, last, s.counter, term == .forever⟩ := by
      rw [h.loops, h.counter]
    exact ⟨{ h with loops := hloops }, rfl⟩
  | pushStatus => exact ⟨h.withStatuses (h.statuses.push h.flags h.modes), rfl⟩
  | popStatus =>
    have htop := h.statuses.top?
    have hpop := h.withStatuses h.statuses.pop
    simp only [Core.follow]
    generalize s.statuses.top? = top at htop ⊢
    generalize s'.statuses.top? = top' at htop ⊢
    cases htop with
    | none => exact ⟨hpop, rfl⟩
    | some hf => exact ⟨hpop.setStatus hf.1 hf.2, rfl⟩
  | reset => exact ⟨h.reset, rfl⟩

theorem SameCore.holds (h : ρ.SameCore s s') (c : Condition) {l : Lane} (hl : ρ.seen l) :
    s'.holds c l = s.holds c (ρ.origin l) := by
  unfold Core.holds Core.loopCounter
  rw [h.flags l hl, h.loops, h.counter]

theorem SameCore.mask (h : ρ.SameCore s s') (c : Condition) : ρ.Same (s.mask c) (s'.mask c) :=
  .ofFn fun _ hl => h.holds c hl

theorem SameCore.holds_first (h : ρ.SameCore s s') {c : Condition} (hc : ρ.Anchored ∨ c = .ce) :
    s'.holds c .first = s.holds c .first := by
  rcases hc with hρ | rfl
  · rw [h.holds c hρ.first, hρ.origin _ hρ.first]
  · unfold Core.holds Core.loopCounter
    rw [h.loops, h.counter]

/-- The same loops end, and the same one goes round. -/
theorem SameCore.endRound (h : ρ.SameCore s s') (p : Program) (addr : Nat)
    (hcond : ∀ first, ρ.Anchored ∨ p.loopCondition first = .ce) (frames : List LoopFrame) :
    ρ.SameCore (Core.endRound p addr s frames).1 (Core.endRound p addr s' frames).1 ∧
      (Core.endRound p addr s' frames).2 = (Core.endRound p addr s frames).2 := by
  induction frames generalizing s s' with
  | nil => exact ⟨h, rfl⟩
  | cons top outer ih =>
    unfold Core.endRound
    rw [h.holds_first (hcond top.first)]
    split
    · exact ⟨h, rfl⟩
    split
    · refine ih ?_
      unfold Core.leaveLoop
      rw [h.loops, h.counter]
      exact h.withLoops _ _
    · unfold Core.repeatLoop
      rw [h.loops]
      exact ⟨h.withLoops _ _, rfl⟩

end Sequencing

end LaneView

namespace Controller

variable (c : Controller) {s s' : Core} (p : Program) (idx : Nat) (i : Instruction) (flow : Option Flow)

theorem advance_eq (s : Core) : c.advance s p idx i flow =
    let due := (c.transfer i (c.followed s i flow).2).1
    let again := (c.rounded s p i flow).2
    let found := (due <|> again).bind p.indexOf?
    let next := found <|> p.nextWord? idx
    let looped := again.isSome && found.isSome
    let stall := c.stallOf p i (if looped then next else p.nextWord? idx)
    ({ c with
        pending := if flow = some .reset then none else (c.transfer i (c.followed s i flow).2).2
        storedBefore := i.writesMemory
        cycles := c.cycles + 1 + stall },
      (c.rounded s p i flow).1, ⟨next, 1 + stall, stall, looped, if found.isSome then none else (due <|> again)⟩) := by
  cases flow <;> rfl

theorem advance_congr (hfollowed : (c.followed s' i flow).2 = (c.followed s i flow).2)
    (hrounded : (c.rounded s' p i flow).2 = (c.rounded s p i flow).2) :
    (c.advance s' p idx i flow).1 = (c.advance s p idx i flow).1 ∧
      (c.advance s' p idx i flow).2.2 = (c.advance s p idx i flow).2.2 := by
  rw [advance_eq, advance_eq, hfollowed, hrounded]
  exact ⟨rfl, rfl⟩

theorem statuses_rounded (s : Core) : (c.rounded s p i flow).1.statuses = (c.followed s i flow).1.statuses := by
  obtain ⟨loops, counter, hrounded⟩ := c.exists_rounded s p i flow
  rw [hrounded]

variable {ρ : LaneView} {p i flow}

theorem same_followed (h : ρ.SameWhole s s') :
    ρ.SameWhole (c.followed s i flow).1 (c.followed s' i flow).1 ∧
      (c.followed s' i flow).2 = (c.followed s i flow).2 := by
  cases flow with
  | none => exact ⟨h, rfl⟩
  | some f => exact h.follow i.programAddr c.delaySlots f

theorem same_rounded (hcore : ρ.SameCore (c.followed s i flow).1 (c.followed s' i flow).1)
    (htaken : (c.followed s' i flow).2 = (c.followed s i flow).2)
    (hcond : ∀ first, ρ.Anchored ∨ p.loopCondition first = .ce) :
    ρ.SameCore (c.rounded s p i flow).1 (c.rounded s' p i flow).1 ∧
      (c.rounded s' p i flow).2 = (c.rounded s p i flow).2 := by
  unfold rounded
  dsimp only
  rw [htaken]
  split
  · exact ⟨hcore, rfl⟩
  · rw [hcore.loops]
    exact hcore.endRound p _ hcond _

/-- Decisions that are the same, and leave cores that look the same. -/
structure SameAdvance (ρ : LaneView) (x x' : Controller × Core × Advance) : Prop where
  controller : x'.1 = x.1
  core : ρ.SameCore x.2.1 x'.2.1
  advance : x'.2.2 = x.2.2

/-- On cores that look the same the controller decides the same. -/
theorem same_advance (h : ρ.SameCore s s') (hwhole : ρ.SameWhole s s' ∨ flow = none)
    (hcond : ∀ first, ρ.Anchored ∨ p.loopCondition first = .ce) :
    SameAdvance ρ (c.advance s p idx i flow) (c.advance s' p idx i flow) := by
  obtain ⟨hcore, htaken⟩ : ρ.SameCore (c.followed s i flow).1 (c.followed s' i flow).1 ∧
      (c.followed s' i flow).2 = (c.followed s i flow).2 := by
    rcases hwhole with hwhole | rfl
    · exact ⟨(c.same_followed hwhole).1.toSameCore, (c.same_followed hwhole).2⟩
    · exact ⟨h, rfl⟩
  obtain ⟨hcore, hagain⟩ := c.same_rounded hcore htaken hcond
  obtain ⟨hcontroller, hadvance⟩ := c.advance_congr p idx i flow htaken hagain
  exact ⟨hcontroller, by rw [core_advance, core_advance]; exact hcore, hadvance⟩

theorem same_statuses (h : ρ.SameWhole s s') :
    ρ.SameStatuses (c.advance s p idx i flow).2.1.statuses (c.advance s' p idx i flow).2.1.statuses := by
  rw [core_advance, core_advance, statuses_rounded, statuses_rounded]
  exact (c.same_followed h).1.statuses

end Controller

/-! ### Words -/

theorem mask_executeMembers {cx : Context} {ms : List Member} {fx fx' : Effects}
    (h : executeMembers cx fx ms = .ok fx') : fx'.mask = fx.mask := by
  induction ms generalizing fx with
  | nil =>
    cases h
    rfl
  | cons m rest ih =>
    obtain ⟨other, -, h⟩ := bind_eq_ok_iff.1 h
    exact (ih h).trans rfl

namespace LaneView

variable {ρ : LaneView} {s s' : Core} {mem mem' : Memory} {i : Instruction}

/-- Effects of a word that look the same, through masks that do. -/
structure SameOutcome (ρ : LaneView) (fx fx' : Effects) : Prop where
  mask : ρ.Same fx.mask fx'.mask
  effects : ρ.SameEffects fx.mask fx'.mask fx fx'

theorem SameOutcome.flow (h : ρ.SameOutcome fx fx') : fx'.flow = fx.flow := h.effects.flow_eq h.mask

theorem members_of_select {sel : Selection} (hs : select i = .ok sel) (hlocal : ρ.Anchored ∨ i.isLaneLocal = true) :
    ∀ m ∈ sel.members, m.Classified ∧ (ρ.Anchored ∨ m.instr.isLaneLocal = true) := by
  intro m hm
  refine ⟨(fit_of_select hs m hm).classified, hlocal.imp_right fun hlocal => ?_⟩
  obtain ⟨t, -, hfills⟩ := select_fills hs
  have hinstr : m.instr ∈ i.members := hfills.instrs ▸ List.mem_map_of_mem hm
  rw [Instruction.members, (Instruction.isLaneLocal_iff.1 hlocal).1, List.mem_singleton] at hinstr
  rwa [hinstr]

/-- A word has the same effects, or the same fault, in states that look the same. -/
theorem same_execute (h : ρ.SameCore s s') (hmem : ρ.SameMemory mem mem') (p : Program)
    (hlocal : ρ.Anchored ∨ i.isLaneLocal = true) :
    Agree ρ.SameOutcome (execute s mem p i) (execute s' mem' p i) := by
  unfold execute
  cases checkStructure i with
  | error e => exact .error _
  | ok =>
  cases hs : select i with
  | error e => exact .error _
  | ok sel =>
    dsimp only
    have hstart : ρ.SameEffects (s.mask i.cond) (s'.mask i.cond) { mask := s.mask i.cond } { mask := s'.mask i.cond } :=
      .of_quiet .nil rfl rfl rfl
    have hcontext : ρ.SameContext ⟨s, mem, p, s.mask i.cond⟩ ⟨s', mem', p, s'.mask i.cond⟩ := ⟨h, hmem, rfl⟩
    have hboth := same_executeMembers hcontext (members_of_select hs hlocal) hstart
    generalize hx : executeMembers ⟨s, mem, p, s.mask i.cond⟩ { mask := s.mask i.cond } sel.members = x at hboth ⊢
    generalize hx' : executeMembers ⟨s', mem', p, s'.mask i.cond⟩ { mask := s'.mask i.cond } sel.members = x' at hboth ⊢
    cases hboth with
    | ok hfx =>
      have hmask := mask_executeMembers hx
      have hmask' := mask_executeMembers hx'
      refine .ok ⟨?_, ?_⟩ <;> rw [hmask, hmask']
      · exact h.mask i.cond
      · exact hfx
    | error e => exact .error e

theorem same_effects (h : ρ.SameCore s s') (hmem : ρ.SameMemory mem mem') (p : Program)
    (hlocal : ρ.Anchored ∨ i.isLaneLocal = true) :
    ρ.SameOutcome (Simulator.effects s mem p i).1 (Simulator.effects s' mem' p i).1 ∧
      (Simulator.effects s' mem' p i).2 = (Simulator.effects s mem p i).2 := by
  have hboth := same_execute h hmem p hlocal
  unfold Simulator.effects
  generalize execute s mem p i = x at hboth ⊢
  generalize execute s' mem' p i = x' at hboth ⊢
  cases hboth with
  | ok hfx => exact ⟨hfx, hfx.effects.faults⟩
  | error e => exact ⟨⟨.fill _, .of_quiet .nil rfl rfl rfl⟩, rfl⟩

/-- Committing effects that look the same leaves states that do, with the same faults. -/
structure SameCommit (ρ : LaneView) (x x' : Core × Memory × List ExecError) : Prop where
  core : ρ.SameCore x.1 x'.1
  mem : ρ.SameMemory x.2.1 x'.2.1
  faults : x'.2.2 = x.2.2

theorem SameOutcome.commit {fx fx' : Effects} (hfx : ρ.SameOutcome fx fx') (h : ρ.SameCore s s')
    (hmem : ρ.SameMemory mem mem') : ρ.SameCommit (commit s mem fx) (QuadDsp.commit s' mem' fx') :=
  ⟨h.foldl_apply hfx.mask hfx.effects.writes, hmem.foldl_apply hfx.mask hfx.effects.writes,
    hmem.writeFaults hfx.effects.writes⟩

end LaneView

namespace Simulator

variable (sim : Simulator) (idx : Nat) (i : Instruction)

/-- The state with the effects of a word, and the faults of committing them. -/
def committed : Core × Memory × List ExecError :=
  commit sim.core sim.mem (effects sim.core sim.mem sim.program i).1

/-- What the controller decides after a word. -/
def advanced : Controller × Core × Advance :=
  sim.controller.advance (sim.committed i).1 sim.program idx i (effects sim.core sim.mem sim.program i).1.flow

/-- The faults of a word: those of its execution and of committing its effects. -/
def faultsOf : List ExecError := (effects sim.core sim.mem sim.program i).2 ++ (sim.committed i).2.2

/-- What the sequencer reports of a word: the flags that stacks have set since the core `s`, and a target without
a word. -/
def sequencerReports (s : Core) (i : Instruction) (x : Controller × Core × Advance) : List Diagnostic :=
  (x.2.1.stackFaults.filter fun f => !s.stackFaults.contains f).map i.stackDiagnostic ++
    (x.2.2.missing.toList.map fun addr => ExecError.address (.noWord addr)).map i.execDiagnostic

/-- What a word reports. -/
def reports : List Diagnostic :=
  (sim.faultsOf i).map i.execDiagnostic ++ sequencerReports sim.core i (sim.advanced idx i)

theorem stepAt_eq : sim.stepAt idx i =
    { sim with
      program := sim.program.setLatency idx (sim.advanced idx i).2.2
      core := (sim.advanced idx i).2.1
      mem := (sim.committed i).2.1
      controller := (sim.advanced idx i).1
      pc := (sim.advanced idx i).2.2.next
      steps := sim.steps + 1
      diagnostics := sim.diagnostics ++ sim.reports idx i } := by
  rw [reports, sequencerReports, ← List.append_assoc]
  rfl

end Simulator

namespace LaneView

variable {ρ : LaneView} {sim sim' : Simulator}

theorem SameCore.stackFaults {s s' : Core} (h : ρ.SameCore s s') : s'.stackFaults = s.stackFaults := by
  unfold Core.stackFaults
  rw [h.calls, h.loops, h.saved]

/-- Simulators in the middle of one run, whose lanes look the same. -/
structure SameRun (ρ : LaneView) (sim sim' : Simulator) : Prop where
  core : ρ.SameCore sim.core sim'.core
  mem : ρ.SameMemory sim.mem sim'.mem
  program : sim'.program = sim.program
  config : sim'.config = sim.config
  controller : sim'.controller = sim.controller
  pc : sim'.pc = sim.pc
  steps : sim'.steps = sim.steps
  breakpoints : sim'.breakpoints = sim.breakpoints
  diagnostics : sim'.diagnostics = sim.diagnostics

theorem SameRun.current? (h : ρ.SameRun sim sim') : sim'.current? = sim.current? := by
  unfold Simulator.current?
  rw [h.pc, h.program]

section Step

variable {i : Instruction} (h : ρ.SameRun sim sim') (hlocal : ρ.Anchored ∨ i.isLaneLocal = true)

include h hlocal

theorem SameRun.effects : ρ.SameOutcome (Simulator.effects sim.core sim.mem sim.program i).1
      (Simulator.effects sim'.core sim'.mem sim'.program i).1 ∧
    (Simulator.effects sim'.core sim'.mem sim'.program i).2 = (Simulator.effects sim.core sim.mem sim.program i).2 := by
  rw [h.program]
  exact same_effects h.core h.mem sim.program hlocal

theorem SameRun.committed : ρ.SameCommit (sim.committed i) (sim'.committed i) :=
  (h.effects hlocal).1.commit h.core h.mem

variable (idx : Nat) (hcond : ∀ first, ρ.Anchored ∨ sim.program.loopCondition first = .ce)
  (hwhole : ρ.SameWhole (sim.committed i).1 (sim'.committed i).1 ∨
    (Simulator.effects sim.core sim.mem sim.program i).1.flow = none)

include hcond hwhole

theorem SameRun.advanced : Controller.SameAdvance ρ (sim.advanced idx i) (sim'.advanced idx i) := by
  unfold Simulator.advanced
  rw [(h.effects hlocal).1.flow, h.controller, h.program]
  exact sim.controller.same_advance idx (h.committed hlocal).core hwhole hcond

/-- A step of simulators that look the same, if what the word asks of the sequencer goes the same way. -/
theorem SameRun.stepAt : ρ.SameRun (sim.stepAt idx i) (sim'.stepAt idx i) := by
  have hcommitted := h.committed hlocal
  have hadvanced := h.advanced hlocal idx hcond hwhole
  have hreports : sim'.reports idx i = sim.reports idx i := by
    unfold Simulator.reports Simulator.faultsOf Simulator.sequencerReports
    rw [(h.effects hlocal).2, hcommitted.faults, hadvanced.core.stackFaults, h.core.stackFaults, hadvanced.advance]
  rw [Simulator.stepAt_eq, Simulator.stepAt_eq, hadvanced.advance, hadvanced.controller, hreports, h.program, h.steps,
    h.diagnostics]
  exact ⟨hadvanced.core, hcommitted.mem, rfl, h.config, rfl, rfl, rfl, h.breakpoints, rfl⟩

end Step

end LaneView

end QuadDsp
