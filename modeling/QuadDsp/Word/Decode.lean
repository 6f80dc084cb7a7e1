import QuadDsp.Word.Encode

/-! # Decoding words

A word is decoded through the same tables that it is encoded by: the leading bits give the entry,
and each field of the layout adds what it knows to a draft of its operation. A draft whose fields
are all read turns into an instruction with absolute targets. The error word decodes to nothing. -/

namespace QuadDsp

/-- An operation while the fields of its word are read. -/
structure Draft where
  role : Role
  opcode : Opcode
  shape : Shape
  operands : List (Option Operand)
  acc : Option Nat := none
  view : Option AccView := none
  index : Option Nat := none
  modify : Option Nat := none
  pre : Bool := false
  step : Option Int := none
  addr : Option Nat := none
  mode : Option MulMode := none
  conjugate : Bool := false

namespace Draft

def start (role : Role) (opcode : Opcode) (shape : Shape) : Draft :=
  { role := role, opcode := opcode, shape := shape
    operands := List.replicate shape.slots.length none }

def slotIndex? (d : Draft) : Arg → Option Nat
  | .nth n => some n
  | .mem => d.shape.memSlot?
  | .data => d.shape.dataSlot?

/-- Fills one operand. -/
def set? (d : Draft) (arg : Arg) (op : Operand) : Option Draft := do
  let n ← d.slotIndex? arg
  if n < d.operands.length then some { d with operands := d.operands.set n (some op) } else none

/-- Fills a register operand of the class that its slot asks for. -/
def setReg? (d : Draft) (arg : Arg) (index : Nat) : Option Draft := do
  let n ← d.slotIndex? arg
  let setClass (cls : RegClass) : Option Draft :=
    if index < cls.count then d.set? arg (.reg ⟨cls, index⟩) else none
  match (← d.shape.slots[n]?) with
  | .general => setClass .general
  | .complex => setClass .complex
  | .acc => setClass .acc
  | .index => setClass .index
  | .modify => setClass .modify
  | .accView => some { d with acc := some index }
  | _ => none

/-- Reads the value of one field into the draft. -/
def read? (d : Draft) (f : Field) (addr v : Nat) : Option Draft :=
  match f.kind with
  | .reg base => d.setReg? f.arg (v + base)
  | .accPair => d.set? f.arg (.reg ⟨.acc, v * 2⟩)
  | .dag => do d.set? f.arg (.reg ⟨← RegClass.ofAddressCode? (v / 8), v % 8⟩)
  | .sys => do d.set? f.arg (.sys (← SysReg.ofCode? v))
  | .part => do return { d with view := some (← AccView.ofCode? v) }
  | .imm .unsigned => d.set? f.arg (.imm v)
  | .imm _ => d.set? f.arg (.imm (wrap f.width v))
  | .addr => some { d with addr := some v }
  | .pcRel => do
    let target ← Operand.toAddr? (addr + wrap f.width v)
    d.set? f.arg (.target (.abs target))
  | .loopEnd => d.set? f.arg (.target (.abs (addrBehind addr (1 + v))))
  | .index base => some { d with index := some (v + base) }
  | .modify base => some { d with modify := some (v + base) }
  | .pre => some { d with pre := v == 1 }
  | .step => some { d with step := some (wrap f.width v) }
  | .mode => do return { d with mode := some (← MulMode.ofCode? v) }
  | .conj => some { d with conjugate := v == 1 }
  | .subOp table => do return { d with opcode := (← table[v]?) }
  | .modeBit => do d.set? f.arg (.key (.mode (← ModeBit.ofCode? v)))
  | .termCond => do d.set? f.arg (.cond (← Condition.ofCode? v))
  | .opcode | .pad | .cond => some d

/-- The addressing mode of the memory slot. -/
def addrMode? (d : Draft) (slot : Slot) : Option AddrMode :=
  match slot, d.pre with
  | .memAbs, _ => d.addr.map .direct
  | .memModify, true => do return .pre (← d.modify) (← d.index)
  | .memModify, false => do return .post (← d.index) (← d.modify)
  | .memImm, true => do return .preImm (← d.step) (← d.index)
  | .memImm, false => do return .postImm (← d.index) (← d.step)
  | _, _ => none

/-- The operand of one slot: what is not read from a field of its own is put together here. -/
def operand? (d : Draft) (slot : Slot) (read : Option Operand) : Option Operand :=
  match slot with
  | .accView => do return .accView (← d.acc) (← d.view)
  | .memAbs | .memModify | .memImm => do return .mem ⟨.data, ← d.addrMode? slot⟩
  | .sts => some (.key .sts)
  | _ => read

/-- The instruction that the draft describes. -/
def finish? (d : Draft) (condition : Condition) : Option Instruction := do
  let operands ← (d.shape.slots.zip d.operands).mapM fun (slot, read) => d.operand? slot read
  let mode := if d.shape.needsMode then [Operand.key (.mul (d.mode.getD .ss))] else []
  return { line := 0, opcode := d.opcode, operands := operands ++ mode
           condition := some condition, conjugate := d.conjugate }

end Draft

structure Decoded where
  format : FormatId
  instr : Instruction

/-- The `width` bits of a word behind the first `offset`. -/
def wordField (word offset width : Nat) : Nat :=
  word >>> (wordBits - offset - width) % span width

/-- Changes the first draft with this role. -/
def Draft.update? (role : Role) (f : Draft → Option Draft) : List Draft → Option (List Draft)
  | [] => none
  | d :: rest =>
    if d.role = role then (f d).map (· :: rest)
    else (update? role f rest).map (d :: ·)

/-- Reads fields from left to right into the drafts, and the condition of the word beside them. -/
def readFields? (word addr : Nat) :
    Nat → List Field → Condition × List Draft → Option (Condition × List Draft)
  | _, [], r => some r
  | offset, f :: rest, (condition, drafts) => do
    let v := wordField word offset f.width
    let next ←
      match f.kind with
      | .opcode | .pad => some (condition, drafts)
      | .cond => (Condition.ofCode? v).map (·, drafts)
      | _ => (Draft.update? f.role (·.read? f addr v) drafts).map (condition, ·)
    readFields? word addr (offset + f.width) rest next

/-- Reads a word of a known format into the instruction of the drafts, the first one as head. -/
def decodeAs? (format : FormatId) (word addr : Nat) (drafts : List Draft) : Option Decoded := do
  let (condition, drafts) ← readFields? word addr 0 format.layout (.always, drafts)
  match (← drafts.mapM (·.finish? condition)) with
  | [] => none
  | head :: siblings =>
    return ⟨format,
      { head with siblings := siblings, address := .ofNat addr, format := some format }⟩

/-- The draft of a bundled operation; what plays the part is read from the word, unless it is a load
or a store. -/
def Role.draft (role : Role) : Draft :=
  let opcode :=
    match role with
    | .ld | .ld2 => .ld
    | .st => .st
    | _ => .nop
  .start role opcode role.shape

/-- Decodes the word at a program address. -/
def decodeWord? (word addr : Nat) : Option Decoded :=
  if word = errorWord then none
  else
    match formatEntries.find? fun e => e.format.leads e.fixed word with
    | some e => decodeAs? e.format word addr [.start .op e.opcode e.shape]
    | none => do
      let b ← bundleEntries.find? fun b => b.format.leads b.fixed word
      decodeAs? b.format word addr (b.shape.roles.map Role.draft)

theorem decodeWord?_errorWord (addr : Nat) : decodeWord? errorWord addr = none := if_pos rfl

/-- The decoded word as a source line. -/
def Decoded.text (d : Decoded) : String := d.instr.text

end QuadDsp
