import QuadDsp.Machine.Flags
import QuadDsp.Machine.Lanes

/-! # Bounded stacks

The sequencer's stacks hold a fixed number of entries. A push onto a full stack and a pop from an
empty one leave the entries alone and set a flag; the flags stay set until the stack is made anew.
`length_push_le` and `length_pop_le` say that a stack never grows past its depth.

A loop being run is kept on four stacks, one for each part of its frame, and so is a saved status.
The stacks of one kind are pushed and popped together: one of them is asked for room, and then all
of them take their part or none does. -/

namespace QuadDsp

structure BoundedStack (α : Type) where
  depth : Nat
  /-- the latest entry first -/
  items : List α := []
  overflow : Bool := false
  underflow : Bool := false
deriving DecidableEq, Repr, Inhabited

namespace BoundedStack

def empty (depth : Nat) : BoundedStack α := { depth := depth }

def isFull (s : BoundedStack α) : Bool := s.depth ≤ s.items.length

def top? (s : BoundedStack α) : Option α := s.items.head?

def push (s : BoundedStack α) (a : α) : BoundedStack α :=
  if s.isFull then { s with overflow := true } else { s with items := a :: s.items }

def pop (s : BoundedStack α) : BoundedStack α :=
  match s.items with
  | [] => { s with underflow := true }
  | _ :: rest => { s with items := rest }

/-- A push that finds no room. -/
def overflowed (s : BoundedStack α) : BoundedStack α := { s with overflow := true }

/-- Puts an entry in the place of the top one, if there is one. -/
def setTop (s : BoundedStack α) (a : α) : BoundedStack α :=
  match s.items with
  | [] => s
  | _ :: rest => { s with items := a :: rest }

theorem items_push (s : BoundedStack α) (a : α) :
    (s.push a).items = if s.isFull then s.items else a :: s.items := by
  unfold push; split <;> rfl

@[simp] theorem items_pop (s : BoundedStack α) : s.pop.items = s.items.tail := by
  unfold pop; split <;> simp_all

theorem length_push_le (s : BoundedStack α) (a : α) (h : s.items.length ≤ s.depth) :
    (s.push a).items.length ≤ s.depth := by
  rw [items_push]
  split
  · exact h
  · next hf => simp only [isFull, decide_eq_true_eq] at hf; simp only [List.length_cons]; omega

theorem length_pop_le (s : BoundedStack α) (h : s.items.length ≤ s.depth) :
    s.pop.items.length ≤ s.depth := by
  rw [items_pop, List.length_tail]; omega

end BoundedStack

/-- A loop being run. -/
structure LoopFrame where
  /-- address of the first word of the body -/
  first : Nat
  /-- address of the last word of the body -/
  last : Nat
  /-- rounds left; zero stands for 65536 -/
  count : Nat
  forever : Bool
deriving DecidableEq, Repr, Inhabited

/-- The rounds left when one of them begins; a count of zero wraps. -/
def countOff (count : Nat) : Nat := (count + 0xFFFF) % 0x10000

/-- The round that begins is counted off. -/
def LoopFrame.again (f : LoopFrame) : LoopFrame := { f with count := countOff f.count }

/-- The loops being run, part by part. -/
structure LoopStacks where
  first : BoundedStack Nat
  last : BoundedStack Nat
  count : BoundedStack Nat
  forever : BoundedStack Bool
deriving DecidableEq, Repr

namespace LoopStacks

def empty (depth : Nat) : LoopStacks := ⟨.empty depth, .empty depth, .empty depth, .empty depth⟩

/-- The stack of last words is asked for room. -/
def isFull (s : LoopStacks) : Bool := s.last.isFull

def push (s : LoopStacks) (f : LoopFrame) : LoopStacks :=
  if s.isFull then
    ⟨s.first.overflowed, s.last.overflowed, s.count.overflowed, s.forever.overflowed⟩
  else ⟨s.first.push f.first, s.last.push f.last, s.count.push f.count, s.forever.push f.forever⟩

def pop (s : LoopStacks) : LoopStacks := ⟨s.first.pop, s.last.pop, s.count.pop, s.forever.pop⟩

/-- The innermost loop, if all of its parts are there. -/
def top? (s : LoopStacks) : Option LoopFrame := do
  return ⟨← s.first.top?, ← s.last.top?, ← s.count.top?, ← s.forever.top?⟩

/-- The frames of which all parts are there, innermost first. -/
def frames (s : LoopStacks) : List LoopFrame :=
  (s.first.items.zip (s.last.items.zip (s.count.items.zip s.forever.items))).map
    fun (first, last, count, forever) => ⟨first, last, count, forever⟩

/-- The innermost loop begins another round. -/
def again (s : LoopStacks) : LoopStacks :=
  match s.count.top? with
  | some count => { s with count := s.count.setTop (countOff count) }
  | none => s

/-- The list of frames starts with the innermost loop. -/
theorem head?_frames (s : LoopStacks) : s.frames.head? = s.top? := by
  obtain ⟨⟨_, first⟩, ⟨_, last⟩, ⟨_, count⟩, ⟨_, forever⟩⟩ := s
  cases first <;> cases last <;> cases count <;> cases forever <;> rfl

/-- Leaving the innermost loop leaves the frames around it. -/
theorem frames_pop (s : LoopStacks) : s.pop.frames = s.frames.tail := by
  obtain ⟨⟨_, first⟩, ⟨_, last⟩, ⟨_, count⟩, ⟨_, forever⟩⟩ := s
  cases first <;> cases last <;> cases count <;> cases forever <;> simp [pop, frames]

end LoopStacks

/-- Flags and modes put aside by PUSH. -/
structure StatusFrame where
  flags : Lanes FlagBank
  modes : Modes
deriving DecidableEq, Repr, Inhabited

/-- The statuses put aside, part by part. -/
structure StatusStacks where
  real : BoundedStack (Lanes Flags)
  imag : BoundedStack (Lanes Flags)
  both : BoundedStack (Lanes Flags)
  modes : BoundedStack Modes
deriving DecidableEq, Repr

namespace StatusStacks

def empty (depth : Nat) : StatusStacks := ⟨.empty depth, .empty depth, .empty depth, .empty depth⟩

/-- The stack of modes is asked for room. -/
def isFull (s : StatusStacks) : Bool := s.modes.isFull

def push (s : StatusStacks) (f : StatusFrame) : StatusStacks :=
  if s.isFull then ⟨s.real.overflowed, s.imag.overflowed, s.both.overflowed, s.modes.overflowed⟩
  else
    ⟨s.real.push (f.flags.map (·.real)), s.imag.push (f.flags.map (·.imag)),
      s.both.push (f.flags.map (·.both)), s.modes.push f.modes⟩

def pop (s : StatusStacks) : StatusStacks := ⟨s.real.pop, s.imag.pop, s.both.pop, s.modes.pop⟩

/-- The latest status, if all of its parts are there. -/
def top? (s : StatusStacks) : Option StatusFrame := do
  let real ← s.real.top?
  let imag ← s.imag.top?
  let both ← s.both.top?
  return ⟨.ofFn fun l => ⟨real l, imag l, both l⟩, ← s.modes.top?⟩

end StatusStacks

/-- The stacks of the sequencer. -/
inductive StackName
  | calls | loops | statuses
deriving DecidableEq, Repr

/-- A flag that a stack has set. -/
structure StackFault where
  stack : StackName
  isOverflow : Bool
deriving DecidableEq, Repr

/-- The name in diagnostics. -/
def StackName.name : StackName → String
  | calls => "pc" | loops => "loop" | statuses => "status"

def StackFault.message (f : StackFault) : String :=
  f.stack.name ++ " stack " ++ (if f.isOverflow then "overflow" else "underflow")

def BoundedStack.faults (s : BoundedStack α) (name : StackName) : List StackFault :=
  (if s.overflow then [⟨name, true⟩] else []) ++ (if s.underflow then [⟨name, false⟩] else [])

end QuadDsp
