import QuadDsp.Machine.ComplexAlu
import QuadDsp.Machine.Multiplier
import QuadDsp.Machine.Sequencer
import QuadDsp.Machine.Shifter
import QuadDsp.Machine.Transfer

/-! # Executing a word

`execute` gives the effects of a word: it is checked as a whole, its predicate is evaluated in every
lane, and the effects of its operations are put together. A fault in any of them leaves the word
without effect. -/

namespace QuadDsp

/-- The part of the core that an operation runs on. -/
inductive ExecUnit
  | binary | unary | clear | compare | divide | bits | shift
  | multiply | accumulator | conjugate | convert
  | load | store | move | modify
  | branch | loop | status | mode | idle | reset
deriving DecidableEq, Repr

namespace Opcode

/-- Directives run on no unit. -/
def unit? : Opcode → Option ExecUnit
  | add | adc | sub | sbc | and | or | xor | min | max => some .binary
  | not | neg | abs | pass | inc | dec | exp => some .unary
  | clr => some .clear
  | cmp => some .compare
  | divs | divq => some .divide
  | setb | clrb | tglb | tstb => some .bits
  | lsl | lsr | asr | rol => some .shift
  | mpy | mac | mas => some .multiply
  | sat | rnd => some .accumulator
  | conj => some .conjugate
  | polar | rect => some .convert
  | ld => some .load
  | st => some .store
  | mov => some .move
  | modify => some .modify
  | jump | call | rts => some .branch
  | loop => some .loop
  | push | pop => some .status
  | ena | dis => some .mode
  | nop | idle => some .idle
  | reset => some .reset
  | comment | label | sect | external | global | var | equ => none

theorem unit?_eq_none_iff (op : Opcode) : op.unit? = none ↔ op.isDirective = true := by
  cases op <;> decide

end Opcode

/-- The effects of an operation on a unit. -/
def ExecUnit.run (u : ExecUnit) (cx : Context) (m : Member) : Except ExecError Effects :=
  match u with
  | binary => arithmetic
  | unary =>
    match m.shape with
    | .crCr => cx.complexUnary m
    | .rr => cx.unary m
    | _ => m.refuse
  | clear =>
    match m.shape with
    | .acc => cx.accumulator m
    | .r => Context.clearReg m
    | _ => m.refuse
  | compare => cx.compare m
  | divide => cx.divide m
  | bits => if m.opcode = .tstb then cx.testBit m else arithmetic
  | shift => cx.shift m
  | multiply => cx.multiply m
  | accumulator => cx.accumulator m
  | conjugate => cx.complexUnary m
  | convert => cx.convert m
  | load => cx.load m
  | store => cx.store m
  | move => cx.move m
  | modify => cx.modify m
  | branch => cx.branch m
  | loop => cx.loop m
  | status => cx.status m
  | mode => Context.mode m
  | idle => .ok {}
  | reset => .ok (cx.gated .reset)
where
  arithmetic : Except ExecError Effects :=
    match m.shape with
    | .crCrCr => cx.complexBinary m
    | .rrr | .rrImm => cx.binary m
    | _ => m.refuse

/-- The effects of one operation of a word. -/
def Member.execute (m : Member) (cx : Context) : Except ExecError Effects := do
  (← m.need m.opcode.unit?).run cx m

/-- Adds the effects of the operations to those before them. -/
def executeMembers (cx : Context) : Effects → List Member → Except ExecError Effects
  | fx, [] => .ok fx
  | fx, m :: rest => do executeMembers cx (fx.and (← m.execute cx)) rest

/-- The effects of a word in a state. -/
def execute (s : Core) (mem : Memory) (p : Program) (i : Instruction) : Except ExecError Effects :=
  match checkStructure i with
  | .error e => .error (.structural e)
  | .ok () =>
    match select i with
    | .error e => .error (.shape e)
    | .ok sel =>
      let mask := s.mask i.cond
      executeMembers ⟨s, mem, p, mask⟩ { mask := mask } sel.members

end QuadDsp
