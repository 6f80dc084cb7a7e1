import QuadDsp.Format.Shape
import QuadDsp.Width

/-! # Word layouts

Every instruction word has 32 bits. A layout lists the fields of a format, most significant first;
the first field holds fixed bits that tell the formats apart. Words with one operation start with a
`0` bit, bundles with a `1` and three bits for the shape of the bundle. `FormatId.layout` is the
whole description: encoding, decoding and the choice of a format all read it.
`FormatId.width_layout` says that each layout fills the word. -/

namespace QuadDsp

def wordBits : Nat := 32

/-- The operand that a field is taken from. -/
inductive Arg
  | nth (n : Nat)
  /-- the memory operand, wherever the shape puts it -/
  | mem
  /-- the register moved by a load or store -/
  | data
deriving DecidableEq, Repr

inductive Sign
  | signed | unsigned
  /-- whatever fits read as signed or as unsigned -/
  | either
deriving DecidableEq, Repr

/-- The values that a field of `width` bits can hold. -/
def Sign.fits (s : Sign) (v : Int) (width : Nat) : Bool :=
  match s with
  | .signed => Fits width v
  | .unsigned => 0 ≤ v && v < span width
  | .either => -span (width - 1) ≤ v && v < span width

inductive FieldKind
  | opcode
  | pad
  /-- condition code of the word -/
  | cond
  /-- register number less `base` -/
  | reg (base : Nat)
  /-- even accumulator of a complex pair, halved -/
  | accPair
  /-- five-bit code of an address register -/
  | dag
  | sys
  /-- part of an accumulator -/
  | part
  | imm (sign : Sign)
  /-- absolute data address -/
  | addr
  /-- distance from the word to its target -/
  | pcRel
  /-- distance from the word behind to the end of the loop -/
  | loopEnd
  | index (base : Nat)
  | modify (base : Nat)
  /-- set if the step comes before the access -/
  | pre
  /-- signed immediate step -/
  | step
  /-- multiply mode; a field without bits holds signed by signed only -/
  | mode
  | conj
  /-- place of the operation in a table -/
  | subOp (table : List Opcode)
  | modeBit
  /-- condition that ends a loop -/
  | termCond
deriving DecidableEq, Repr

structure Field where
  kind : FieldKind
  role : Role
  arg : Arg
  width : Nat
deriving DecidableEq, Repr

namespace Field

/-- The value depends on where the program stands in memory. -/
def isReloc (f : Field) : Bool :=
  match f.kind with
  | .addr | .pcRel | .loopEnd => true
  | _ => false

end Field

/-- The ALU operations that can be bundled, in the order of their codes. -/
def bundledAlu : List Opcode := [.add, .adc, .sub, .sbc, .and, .or, .xor, .max]

/-- The multiplications that can be bundled with memory, in the order of their codes. -/
def bundledMac : List Opcode := [.mpy, .mac, .mas]

/-- The multiplications that can be bundled with the ALU, in the order of their codes. -/
def bundledMacAlu : List Opcode := [.mac, .mas]

def bundledShift : List Opcode := [.lsl, .lsr, .asr, .rol]

namespace Layout

def on (role : Role) (kind : FieldKind) (arg : Arg) (width : Nat) : Field :=
  ⟨kind, role, arg, width⟩
def fixed (width : Nat) : Field := ⟨.opcode, .op, .nth 0, width⟩
def pad (width : Nat) : Field := ⟨.pad, .op, .nth 0, width⟩
def condition : Field := ⟨.cond, .op, .nth 0, 5⟩
def reg (n width : Nat) : Field := ⟨.reg 0, .op, .nth n, width⟩
def imm (n width : Nat) (sign : Sign) : Field := ⟨.imm sign, .op, .nth n, width⟩
def op (kind : FieldKind) (n width : Nat) : Field := ⟨kind, .op, .nth n, width⟩
def data (width : Nat) : Field := ⟨.reg 0, .op, .data, width⟩
def addr : Field := ⟨.addr, .op, .mem, 16⟩
def pre : Field := ⟨.pre, .op, .mem, 1⟩
def step : Field := ⟨.step, .op, .mem, 11⟩
def index (role : Role) (width base : Nat) : Field := ⟨.index base, role, .mem, width⟩
def stepReg (role : Role) (width base : Nat) : Field := ⟨.modify base, role, .mem, width⟩

/-- A bundled ALU operation. -/
def alu : List Field :=
  [on .alu (.subOp bundledAlu) (.nth 0) 3, on .alu (.reg 0) (.nth 0) 4, on .alu (.reg 0) (.nth 1) 4,
    on .alu (.reg 0) (.nth 2) 4]

/-- A multiplication bundled with one memory operation. -/
def mac : List Field :=
  [on .mac (.subOp bundledMac) (.nth 0) 2, on .mac (.reg 0) (.nth 0) 2, on .mac (.reg 0) (.nth 1) 4,
    on .mac (.reg 0) (.nth 2) 4, on .mac .mode (.nth 0) 3]

/-- A bundled shift by an immediate amount. -/
def shf : List Field :=
  [on .shf (.subOp bundledShift) (.nth 0) 2, on .shf (.reg 0) (.nth 0) 4,
    on .shf (.reg 0) (.nth 1) 4, on .shf (.imm .unsigned) (.nth 2) 5]

/-- A bundled memory operation on one of the first sixteen data registers. -/
def transfer (role : Role) : List Field :=
  [on role (.reg 0) .data 4, index role 2 0, stepReg role 2 0]

end Layout

open Layout in
def FormatId.layout : FormatId → List Field
  | alu3r => [fixed 12, reg 0 5, reg 1 5, reg 2 5, condition]
  | alu2r => [fixed 12, reg 0 5, reg 1 5, pad 5, condition]
  | alu1r => [fixed 12, reg 0 5, pad 10, condition]
  | aluCmp => [fixed 12, pad 5, reg 0 5, reg 1 5, condition]
  | aluRri => [fixed 8, reg 0 5, reg 1 5, imm 2 9 .signed, condition]
  | aluRi => [fixed 8, pad 5, reg 0 5, imm 1 9 .signed, condition]
  | shfR => [fixed 8, reg 0 5, reg 1 5, reg 2 5, pad 4, condition]
  | shfI => [fixed 8, reg 0 5, reg 1 5, imm 2 5 .unsigned, pad 4, condition]
  | ldiR => [fixed 7, reg 0 5, imm 1 12 .either, pad 3, condition]
  | ldiDag => [fixed 7, op .dag 0 5, imm 1 15 .either, condition]
  | ldiSys => [fixed 7, op .sys 0 4, imm 1 16 .either, condition]
  | memDir => [fixed 6, data 5, addr, condition]
  | memCDir => [fixed 6, pad 1, data 4, addr, condition]
  | memRm => [fixed 7, data 5, index .op 3 0, stepReg .op 3 0, pre, pad 8, condition]
  | memRi => [fixed 7, data 5, index .op 3 0, pre, step, condition]
  | memCm => [fixed 7, pad 1, data 4, index .op 3 0, stepReg .op 3 0, pre, pad 8, condition]
  | memCi => [fixed 7, pad 1, data 4, index .op 3 0, pre, step, condition]
  | macRr => [fixed 6, reg 0 3, reg 1 5, reg 2 5, op .mode 0 3, pad 5, condition]
  | macCc =>
    [fixed 7, op .accPair 0 2, reg 1 4, reg 2 4, op .conj 0 1, op .mode 0 3, pad 6, condition]
  | cpx3 => [fixed 12, reg 0 4, reg 1 4, reg 2 4, op .conj 0 1, pad 2, condition]
  | cpx2 => [fixed 12, reg 0 4, reg 1 4, pad 4, op .conj 0 1, pad 2, condition]
  | movRa => [fixed 8, reg 0 5, reg 1 3, op .part 1 2, pad 9, condition]
  | movAr => [fixed 8, reg 0 3, op .part 0 2, reg 1 5, pad 9, condition]
  | movRd => [fixed 8, reg 0 5, op .dag 1 5, pad 9, condition]
  | movDr => [fixed 8, op .dag 0 5, reg 1 5, pad 9, condition]
  | movRs => [fixed 8, reg 0 5, op .sys 1 4, pad 10, condition]
  | movSr => [fixed 8, op .sys 0 4, reg 1 5, pad 10, condition]
  | accOp => [fixed 11, reg 0 3, pad 13, condition]
  | modify => [fixed 8, reg 0 3, reg 1 3, pad 13, condition]
  | brRel => [fixed 8, op .pcRel 0 19, condition]
  | brInd => [fixed 8, reg 0 3, pad 16, condition]
  | loop => [fixed 8, op .loopEnd 0 16, pad 3, op .termCond 1 5]
  | ret => [fixed 8, pad 19, condition]
  | mode => [fixed 12, op .modeBit 0 4, pad 11, condition]
  | sys => [fixed 12, pad 20]
  | bAluLd => fixed 4 :: alu ++ transfer .ld ++ [condition]
  | bAluSt => fixed 4 :: alu ++ transfer .st ++ [condition]
  | bMacLd => fixed 4 :: mac ++ transfer .ld ++ [condition]
  | bMacSt => fixed 4 :: mac ++ transfer .st ++ [condition]
  | bMacLdLd =>
    [fixed 4, on .mac (.subOp bundledMac) (.nth 0) 2, on .mac (.reg 0) (.nth 0) 1,
      on .mac (.reg 0) (.nth 1) 3, on .mac (.reg 0) (.nth 2) 3, on .mac .mode (.nth 0) 0,
      on .ld (.reg 0) .data 2, index .ld 2 0, stepReg .ld 2 0,
      on .ld2 (.reg 4) .data 2, index .ld2 2 4, stepReg .ld2 2 4, pad 2, condition]
  | bShfLd => fixed 4 :: shf ++ transfer .ld ++ [condition]
  | bShfSt => fixed 4 :: shf ++ transfer .st ++ [condition]
  | bAluMac =>
    fixed 4 :: alu ++
      [on .mac (.subOp bundledMacAlu) (.nth 0) 1, on .mac (.reg 0) (.nth 0) 1,
        on .mac (.reg 0) (.nth 1) 3, on .mac (.reg 0) (.nth 2) 3, on .mac .mode (.nth 0) 0,
        condition]

namespace FormatId

def width (f : FormatId) : Nat := totalWidth (f.layout.map Field.width)

theorem width_layout (f : FormatId) : f.width = wordBits := by cases f <;> rfl

/-- Number of fixed bits that lead the word. -/
def fixedWidth (f : FormatId) : Nat :=
  match f.layout with
  | ⟨.opcode, _, _, w⟩ :: _ => w
  | _ => 0

def hasCond (f : FormatId) : Bool := f.layout.any (·.kind == .cond)

end FormatId

end QuadDsp
