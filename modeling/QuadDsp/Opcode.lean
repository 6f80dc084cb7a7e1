import QuadDsp.Text.Blank

/-! # Operations

Every mnemonic that a source line can start with: the seven directives, which emit no word, and the
operations of the four-lane core. A mnemonic is read in either case (`Opcode.ofMnemonic?`). -/

namespace QuadDsp

inductive Opcode
  -- directives
  | comment | label | sect | external | global | var | equ
  -- arithmetic and logic
  | add | adc | sub | sbc | and | or | xor | not | neg | abs | pass | inc | dec | clr | cmp
  | min | max | exp | divs | divq | setb | clrb | tglb | tstb
  -- shifter
  | lsl | lsr | asr | rol
  -- multiplier and accumulators
  | mpy | mac | mas | sat | rnd
  -- complex unit
  | conj | polar | rect
  -- data moves
  | ld | st | mov | modify
  -- sequencer
  | jump | call | rts | loop | push | pop | ena | dis | nop | idle | reset
deriving DecidableEq, Repr, Inhabited

/-- The unit of the core that an operation belongs to. -/
inductive OpClass
  | directive | alu | shifter | multiplier | complex | memory | move | sequencer
deriving DecidableEq, Repr

namespace Opcode

/-- All operations, in the order of the instruction table. -/
def all : List Opcode :=
  [comment, label, sect, external, global, var, equ,
    add, adc, sub, sbc, and, or, xor, not, neg, abs, pass, inc, dec, clr, cmp, min, max, exp,
    divs, divq, setb, clrb, tglb, tstb,
    lsl, lsr, asr, rol, mpy, mac, mas, sat, rnd, conj, polar, rect, ld, st, mov, modify,
    jump, call, rts, loop, push, pop, ena, dis, nop, idle, reset]

theorem mem_all (op : Opcode) : op ∈ all := by cases op <;> decide

def mnemonic : Opcode → String
  | comment => ".COMMENT" | label => ".LABEL" | sect => ".SECTION" | external => ".EXTERN"
  | global => ".GLOBAL" | var => ".VAR" | equ => ".EQU"
  | add => "ADD" | adc => "ADC" | sub => "SUB" | sbc => "SBC" | and => "AND" | or => "OR"
  | xor => "XOR" | not => "NOT" | neg => "NEG" | abs => "ABS" | pass => "PASS" | inc => "INC"
  | dec => "DEC" | clr => "CLR" | cmp => "CMP" | min => "MIN" | max => "MAX" | exp => "EXP"
  | divs => "DIVS" | divq => "DIVQ" | setb => "SETB" | clrb => "CLRB" | tglb => "TGLB"
  | tstb => "TSTB"
  | lsl => "LSL" | lsr => "LSR" | asr => "ASR" | rol => "ROL"
  | mpy => "MPY" | mac => "MAC" | mas => "MAS" | sat => "SAT" | rnd => "RND"
  | conj => "CONJ" | polar => "POLAR" | rect => "RECT"
  | ld => "LD" | st => "ST" | mov => "MOV" | modify => "MODIFY"
  | jump => "JUMP" | call => "CALL" | rts => "RTS" | loop => "DO" | push => "PUSH"
  | pop => "POP" | ena => "ENA" | dis => "DIS" | nop => "NOP" | idle => "IDLE"
  | reset => "RESET"

def opClass : Opcode → OpClass
  | comment | label | sect | external | global | var | equ => .directive
  | lsl | lsr | asr | rol => .shifter
  | mpy | mac | mas | sat | rnd => .multiplier
  | conj | polar | rect => .complex
  | ld | st => .memory
  | mov | modify => .move
  | jump | call | rts | loop | push | pop | ena | dis | nop | idle | reset => .sequencer
  | _ => .alu

def ofMnemonic? (name : List Char) : Option Opcode :=
  all.find? fun op => Text.sameLetters op.mnemonic.toList name

/-- Directives describe the program and emit no word. -/
def isDirective (op : Opcode) : Bool := op.opClass == .directive

/-- The operations that occupy the multiplier pipeline. -/
def isMac : Opcode → Bool
  | mpy | mac | mas => true
  | _ => false

def isBranch : Opcode → Bool
  | jump | call | rts => true
  | _ => false

end Opcode

end QuadDsp
