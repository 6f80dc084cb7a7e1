import QuadDsp.Fault
import QuadDsp.Machine.ComplexPair
import QuadDsp.Machine.Stack

/-! # The state of the core

Data registers, accumulators and flags exist once per lane; the registers of the address generator,
the modes, the loop counter and the stacks are shared. Reading a register past the end of its file
is an error, writing one changes nothing. Every write keeps the width of what it writes: 12 bits in
a data register, 16 in an address register, unsigned except in the modify registers. `reg_setReg`
and `acc_setAcc` say what a read sees after a write. -/

namespace QuadDsp

structure Core where
  regs : Vector (Lanes Int) 32
  accs : Vector (Lanes Int) 8
  index : Vector Nat 8
  modify : Vector Int 8
  length : Vector Nat 8
  base : Vector Nat 8
  flags : Lanes FlagBank
  modes : Modes
  /-- rounds of the next loop; zero stands for 65536 -/
  counter : Nat
  calls : BoundedStack Nat
  loops : LoopStacks
  statuses : StatusStacks
  stackDepth : Nat

namespace Core

/-- Everything zero and the stacks empty. -/
def initial (stackDepth : Nat) : Core where
  regs := .replicate 32 (Lanes.fill 0)
  accs := .replicate 8 (Lanes.fill 0)
  index := .replicate 8 0
  modify := .replicate 8 0
  length := .replicate 8 0
  base := .replicate 8 0
  flags := Lanes.fill {}
  modes := {}
  counter := 0
  calls := .empty stackDepth
  loops := .empty stackDepth
  statuses := .empty stackDepth
  stackDepth := stackDepth

/-- Clears flags, modes, loop counter and stacks; the register files stay. -/
def reset (s : Core) : Core :=
  { s with
    flags := Lanes.fill {}
    modes := {}
    counter := 0
    calls := .empty s.stackDepth
    loops := .empty s.stackDepth
    statuses := .empty s.stackDepth }

/-- Back to the initial state. -/
def clear (s : Core) : Core := initial s.stackDepth

/-! ### Registers -/

/-- Reads a register of a file. -/
def fetch (file : Vector α n) (i : Nat) : Except ExecError α :=
  if h : i < n then .ok file[i] else .error (.outsideFile i n)

/-- Changes a register of a file. -/
def alter (file : Vector α n) (i : Nat) (f : α → α) : Vector α n :=
  if h : i < n then file.set i (f file[i]) else file

theorem fetch_alter (file : Vector α n) (i j : Nat) (f : α → α) :
    fetch (alter file i f) j = if i = j then (fetch file j).map f else fetch file j := by
  unfold fetch alter
  by_cases hi : i < n
  · by_cases hij : i = j
    · subst hij; simp [hi, Except.map]
    · simp [hi, hij]
  · by_cases hij : i = j
    · subst hij; simp [hi, Except.map]
    · simp [hi, hij]

theorem alter_eq_self (file : Vector α n) (i : Nat) {f : α → α} (hf : ∀ a, f a = a) :
    alter file i f = file := by
  unfold alter
  split
  · rw [hf]; exact Vector.set_getElem_self _
  · rfl

def reg (s : Core) (i : Nat) : Except ExecError (Lanes Int) := fetch s.regs i

/-- Writes a data register in the lanes of the mask. -/
def setReg (s : Core) (i : Nat) (v : Lanes Int) (mask : Mask) : Core :=
  { s with regs := alter s.regs i fun old => Lanes.merge mask old (v.map (wrap dataBits)) }

theorem reg_setReg (s : Core) (i j : Nat) (v : Lanes Int) (mask : Mask) :
    (s.setReg i v mask).reg j =
      if i = j then (s.reg j).map fun old => Lanes.merge mask old (v.map (wrap dataBits))
      else s.reg j :=
  fetch_alter s.regs i j _

/-- The pair of data registers of a complex register. -/
def pair (s : Core) (i : Nat) : Except ExecError (Lanes ComplexPair) := do
  return Lanes.zipWith ComplexPair.mk (← s.reg (2 * i)) (← s.reg (2 * i + 1))

def setPair (s : Core) (i : Nat) (v : Lanes ComplexPair) (mask : Mask) : Core :=
  (s.setReg (2 * i) (v.map (·.re)) mask).setReg (2 * i + 1) (v.map (·.im)) mask

def acc (s : Core) (i : Nat) : Except ExecError (Lanes Int) := fetch s.accs i

def setAcc (s : Core) (i : Nat) (v : Lanes Int) (mask : Mask) : Core :=
  { s with accs := alter s.accs i fun old => Lanes.merge mask old v }

theorem acc_setAcc (s : Core) (i j : Nat) (v : Lanes Int) (mask : Mask) :
    (s.setAcc i v mask).acc j =
      if i = j then (s.acc j).map fun old => Lanes.merge mask old v else s.acc j :=
  fetch_alter s.accs i j _

@[simp] theorem acc_setReg (s : Core) (i j : Nat) (v : Lanes Int) (mask : Mask) :
    (s.setReg i v mask).acc j = s.acc j := rfl

@[simp] theorem reg_setAcc (s : Core) (i j : Nat) (v : Lanes Int) (mask : Mask) :
    (s.setAcc i v mask).reg j = s.reg j := rfl

/-- A part of an accumulator value, signed. -/
def viewOf (view : AccView) (acc : Int) : Int := wrap view.width (acc / span view.shift)

/-- An accumulator value with one part replaced. -/
def putView (view : AccView) (acc v : Int) : Int :=
  let bits := lowBits 32 acc
  let below := bits % span view.shift
  let above := bits / span (view.shift + view.width)
  let middle := lowBits view.width v
  wrap 32 (above * span (view.shift + view.width) + middle * span view.shift + below : Nat)

def accView (s : Core) (i : Nat) (view : AccView) : Except ExecError (Lanes Int) := do
  return (← s.acc i).map (viewOf view)

def setAccView (s : Core) (i : Nat) (view : AccView) (v : Lanes Int) (mask : Mask) : Core :=
  { s with accs := alter s.accs i fun old =>
      Lanes.merge mask old (Lanes.zipWith (putView view) old v) }

/-- An address register; a register of another class reads as zero. -/
def address (s : Core) (r : Reg) : Except ExecError Int :=
  match r.cls with
  | .index => (fetch s.index r.index).map Int.ofNat
  | .modify => fetch s.modify r.index
  | .length => (fetch s.length r.index).map Int.ofNat
  | .base => (fetch s.base r.index).map Int.ofNat
  | .general | .complex | .acc => .ok 0

def setAddress (s : Core) (r : Reg) (v : Int) : Core :=
  match r.cls with
  | .index => { s with index := s.index.setIfInBounds r.index (lowBits 16 v) }
  | .modify => { s with modify := s.modify.setIfInBounds r.index (wrap 16 v) }
  | .length => { s with length := s.length.setIfInBounds r.index (lowBits 16 v) }
  | .base => { s with base := s.base.setIfInBounds r.index (lowBits 16 v) }
  | .general | .complex | .acc => s

/-- A system register as each lane reads it. The status register leaves out the highest flag. -/
def sys (s : Core) : SysReg → Lanes Int
  | .counter => Lanes.fill s.counter
  | .mode => Lanes.fill s.modes.bits
  | .status => s.flags.map fun f => (f.real.bits % span dataBits : Nat)
  | .laneId => Lanes.ofFn fun l => l.val

/-- Writes a system register; status and lane number cannot be written. -/
def setSys (s : Core) (r : SysReg) (v : Int) : Core :=
  match r with
  | .counter => { s with counter := lowBits 16 v }
  | .mode => { s with modes := Modes.ofBits (lowBits 16 v) }
  | .status | .laneId => s

/-! ### Conditions -/

/-- The rounds left in the innermost loop, or those of the next loop where none is run. -/
def loopCounter (s : Core) : Nat := s.loops.count.top?.getD s.counter

/-- Whether a condition holds in a lane. -/
def holds (s : Core) (c : Condition) (l : Lane) : Bool :=
  let f := (s.flags l).real
  let less := f.negative != f.overflow
  match c with
  | .eq => f.zero
  | .ne => !f.zero
  | .gt => !(less || f.zero)
  | .le => less || f.zero
  | .lt => less
  | .ge => !less
  | .av => f.overflow
  | .notAv => !f.overflow
  | .ac => f.carry
  | .notAc => !f.carry
  | .neg => f.negative
  | .pos => !f.negative
  | .mv => f.mulOverflow
  | .notMv => !f.mulOverflow
  | .sv => f.shiftOverflow
  | .notSv => !f.shiftOverflow
  | .ce => s.loopCounter == 1
  | .notCe => s.loopCounter != 1
  | .aq => f.quotient
  | .notAq => !f.quotient
  | .forever => false
  | .always => true

/-- The lanes in which a condition holds. -/
def mask (s : Core) (c : Condition) : Mask := Lanes.ofFn (s.holds c)

theorem mask_always (s : Core) : s.mask .always = Mask.all := rfl

/-! ### Stacks -/

/-- The status to put aside. -/
def status (s : Core) : StatusFrame := ⟨s.flags, s.modes⟩

def setStatus (s : Core) (f : StatusFrame) : Core := { s with flags := f.flags, modes := f.modes }

/-- The stack flags that are set. -/
def stackFaults (s : Core) : List StackFault :=
  s.calls.faults .calls ++ s.loops.last.faults .loops ++ s.statuses.modes.faults .statuses

end Core

end QuadDsp
