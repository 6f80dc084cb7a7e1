import QuadDsp.Machine.Effects
import QuadDsp.Program.Basic

/-! # The controller

After each word the controller decides which word comes next and how many cycles the word took. It
remembers a branch that waits for its delay slot to pass, and whether the latest word stores to
memory; everything else it works on is the state of the core. The cycles are the sum of the
latencies (`cycles_advance`). -/

namespace QuadDsp

structure Controller where
  delaySlots : Bool
  /-- target of a branch whose delay slot comes next -/
  pending : Option Nat := none
  /-- the latest word stores to memory -/
  storedBefore : Bool := false
  cycles : Nat := 0
deriving DecidableEq, Repr

/-- What the controller decides after a word. -/
structure Advance where
  /-- place of the next word; none behind the end of the program -/
  next : Option Nat
  latency : Nat
  /-- stall cycles in the latency -/
  stall : Nat
  /-- the innermost loop goes round again -/
  looped : Bool
  /-- a target without a word; the program goes on behind the present word -/
  missing : Option Nat
deriving DecidableEq, Repr

namespace Program

/-- The condition that ends a loop is read off the word in front of its body. -/
def loopCondition (p : Program) (first : Nat) : Condition :=
  if first = 0 then .ce
  else
    match (p.wordAt? (first - 1)).bind (·.operands[1]?) with
    | some (Operand.cond c) => c
    | _ => .ce

/-- Whether the word at a place multiplies; there may be none. -/
def isMacAt (p : Program) (place : Option Nat) : Bool :=
  (place.bind (p.instrs[·]?)).any Instruction.isMacWord

end Program

namespace Core

/-- Carries out what a word at an address asks of the sequencer. A transfer gives its target; a
return with an empty stack has none. Calls return behind the delay slot, if there is one. -/
def follow (s : Core) (addr : Nat) (delaySlots : Bool) : Flow → Core × Option Nat
  | .jump t => (s, some t)
  | .call t =>
    ({ s with calls := s.calls.push (addrBehind addr (if delaySlots then 2 else 1)) }, some t)
  | .ret => ({ s with calls := s.calls.pop }, s.calls.top?)
  | .loop last term =>
    ({ s with loops := s.loops.push ⟨addrBehind addr 1, last, s.counter, term == .forever⟩ }, none)
  | .pushStatus => ({ s with statuses := s.statuses.push s.status }, none)
  | .popStatus =>
    match s.statuses.top? with
    | some f => ({ s with statuses := s.statuses.pop }.setStatus f, none)
    | none => ({ s with statuses := s.statuses.pop }, none)
  | .reset => (s.reset, none)

/-- Leaves the innermost loop; the loop counter follows the loop around it. -/
def leaveLoop (s : Core) (outer : List LoopFrame) : Core :=
  { s with
    loops := s.loops.pop
    counter := (outer.head?.map (·.count)).getD s.counter }

/-- Goes round the innermost loop again; the loop counter follows it. -/
def repeatLoop (s : Core) (top : LoopFrame) : Core :=
  { s with loops := s.loops.again, counter := top.again.count }

/-- Ends a round of the loops whose last word is at an address, innermost first: a loop that is over
is left, and the first one that is not goes round again from its first word. The list holds the
frames of the loop stacks. -/
def endRound (p : Program) (addr : Nat) (s : Core) : List LoopFrame → Core × Option Nat
  | [] => (s, none)
  | top :: outer =>
    if top.last ≠ addr then (s, none)
    else if !top.forever && s.holds (p.loopCondition top.first) .first then
      endRound p addr (s.leaveLoop outer) outer
    else (s.repeatLoop top, some top.first)

end Core

namespace Controller

/-- A load right behind a store stalls, and so does a multiplication that no other follows. -/
def stallOf (c : Controller) (p : Program) (i : Instruction) (successor : Option Nat) : Nat :=
  (i.readsMemory && c.storedBefore).toNat + (i.isMacWord && !p.isMacAt successor).toNat

/-- The target that is due after a word, and the one that goes on waiting. Without delay slots a
transfer is due at once; with them it waits for one word, and one that waited is due now. -/
def transfer (c : Controller) (i : Instruction) (taken : Option Nat) :
    Option Nat × Option Nat :=
  let (due, waiting) := if i.inDelaySlot then (c.pending, none) else (none, c.pending)
  match taken with
  | none => (due, waiting)
  | some t => if c.delaySlots then (due, some t) else (some t, waiting)

/-- Decides what follows the word `i` at place `idx`. -/
def advance (c : Controller) (s : Core) (p : Program) (idx : Nat) (i : Instruction)
    (flow : Option Flow) : Controller × Core × Advance :=
  let addr := i.programAddr
  let (s, taken) :=
    match flow with
    | some f => s.follow addr c.delaySlots f
    | none => (s, none)
  let (due, waiting) := c.transfer i taken
  let pending := if flow = some .reset then none else waiting
  let (s, again) := if due.isSome then (s, none) else s.endRound p addr s.loops.frames
  let behind := p.nextWord? idx
  let target := due <|> again
  let found := target.bind p.indexOf?
  let missing := if found.isSome then none else target
  let next := found <|> behind
  let looped := again.isSome && found.isSome
  let stall := c.stallOf p i (if looped then next else behind)
  ({ c with pending := pending, storedBefore := i.writesMemory, cycles := c.cycles + 1 + stall }, s,
    ⟨next, 1 + stall, stall, looped, missing⟩)

theorem cycles_advance (c : Controller) (s : Core) (p : Program) (idx : Nat) (i : Instruction)
    (flow : Option Flow) :
    (c.advance s p idx i flow).1.cycles = c.cycles + (c.advance s p idx i flow).2.2.latency :=
  Nat.add_assoc ..

end Controller

end QuadDsp
