import QuadDsp.Format.Entry
import QuadDsp.Width

/-! # Choosing a format

`select` is the one place where an instruction gets its word format: the resolver, the assembler and
the simulator all ask it, so they accept the same instructions. A `Selection` lists the operations
of the word with the parts they play, and `fieldValue` reads each field of the layout off it. The
checks of `select` end in reading every field once, so an accepted instruction has a value for each
field that does not wait for final addresses. -/

namespace QuadDsp

/-- One operation of a word with its shape. -/
structure Member where
  role : Role
  instr : Instruction
  shape : Shape
  mode : Option MulMode

namespace Member

def opcode (m : Member) : Opcode := m.instr.opcode

/-- The operand with this number, multiply modes not counted. -/
def nth? (m : Member) (n : Nat) : Option Operand :=
  (m.instr.operands.filter fun o => !o.isMulMode)[n]?

def operand? (m : Member) : Arg → Option Operand
  | .nth n => m.nth? n
  | .mem => m.shape.memSlot?.bind m.nth?
  | .data => m.shape.dataSlot?.bind m.nth?

def reg? (m : Member) (n : Nat) : Option Reg := (m.operand? (.nth n)).bind Operand.reg?

def imm? (m : Member) (n : Nat) : Option Int :=
  match m.operand? (.nth n) with
  | some (.imm v) => some v
  | _ => none

def mem? (m : Member) : Option MemRef :=
  match m.operand? .mem with
  | some (.mem r) => some r
  | _ => none

/-- The register moved by a load or store. -/
def dataReg? (m : Member) : Option Reg := (m.operand? .data).bind Operand.reg?

def mulMode (m : Member) : MulMode := m.mode.getD .ss

def noForm (m : Member) : ShapeError := Shape.noForm m.instr

def tokenAt (m : Member) (n : Nat) : String := ((m.operand? (.nth n)).map Operand.text).getD ""

end Member

structure Selection where
  format : FormatId
  /-- value of the leading field -/
  fixed : Nat
  head : Instruction
  members : List Member

namespace Selection

def member? (s : Selection) (role : Role) : Option Member := s.members.find? (·.role == role)

end Selection

/-- A register number that must fit the field. -/
def fitField (width : Nat) (v : Int) (o : Operand) : Except ShapeError Nat :=
  if 0 ≤ v ∧ v < span width then .ok v.toNat else .error (.registerNotAllowed o.text)

@[macro_inline] def orElse (e : ShapeError) : Option α → Except ShapeError α
  | some a => .ok a
  | none => .error e

/-- The value that one operation puts into a field of its own. -/
def Field.memberValue (f : Field) (m : Member) : Except ShapeError Nat :=
  match f.kind with
  | .reg base => do
    let o ← orElse m.noForm (m.operand? f.arg)
    match o with
    | .reg r => fitField f.width ((r.index : Int) - base) o
    | .accView acc _ => fitField f.width ((acc : Int) - base) o
    | _ => throw m.noForm
  | .accPair => do
    let o ← orElse m.noForm (m.operand? f.arg)
    match o with
    | .reg r =>
      if r.index % 2 = 0 then fitField f.width (r.index / 2) o
      else throw (.registerNotAllowed o.text)
    | _ => throw (.registerNotAllowed o.text)
  | .dag =>
    match m.operand? f.arg with
    | some (.reg r) => if r.cls.isAddress then .ok r.code else .error m.noForm
    | _ => .error m.noForm
  | .sys =>
    match m.operand? f.arg with
    | some (.sys s) => .ok s.code
    | _ => .error m.noForm
  | .part =>
    match m.operand? f.arg with
    | some (.accView _ view) => .ok view.code
    | _ => .error m.noForm
  | .imm sign =>
    match m.operand? f.arg with
    | some (.imm v) =>
      if sign.fits v f.width then .ok (lowBits f.width v)
      else .error (.outOfRange (Operand.imm v).text f.width)
    | _ => .error m.noForm
  | .index base => do
    let r ← orElse m.noForm m.mem?
    let i ← orElse m.noForm r.mode.index?
    fitField f.width ((i : Int) - base) (.mem r)
  | .modify base => do
    let r ← orElse m.noForm m.mem?
    match r.mode with
    | .post _ n | .pre n _ => fitField f.width ((n : Int) - base) (.mem r)
    | _ => throw m.noForm
  | .pre => do
    let r ← orElse m.noForm m.mem?
    match r.mode with
    | .pre .. | .preImm .. => return 1
    | _ => return 0
  | .step => do
    let r ← orElse m.noForm m.mem?
    match r.mode with
    | .postImm _ step | .preImm step _ =>
      if Sign.signed.fits step f.width then return lowBits f.width step
      else throw (.outOfRange r.text f.width)
    | _ => throw m.noForm
  | .mode =>
    if f.width = 0 then
      if m.mulMode = .ss then .ok 0 else .error (.outOfRange (Keyword.mul m.mulMode).text 0)
    else .ok m.mulMode.code
  | .conj => .ok (if m.instr.conjugate then 1 else 0)
  | .subOp table =>
    match table.findIdx? (· == m.opcode) with
    | some n => .ok n
    | none => .error (.notBundled m.opcode m.role.name)
  | .modeBit =>
    match m.operand? f.arg with
    | some (.key (.mode b)) => .ok b.code
    | _ => .error m.noForm
  | .termCond =>
    match m.operand? f.arg with
    | some (.cond c) => .ok c.code
    | _ => .error m.noForm
  | .opcode | .pad | .cond | .addr | .pcRel | .loopEnd => .ok 0

/-- The value of a field; none where it depends on final addresses. -/
def Selection.fieldValue (s : Selection) (f : Field) : Except ShapeError (Option Nat) :=
  if f.isReloc then .ok none
  else
    match f.kind with
    | .opcode => .ok (some s.fixed)
    | .pad => .ok (some 0)
    | .cond => .ok (some s.head.cond.code)
    | _ => do
      let m ← orElse (Shape.noForm s.head) (s.member? f.role)
      return some (← f.memberValue m)

/-- Every field has a value that fits it. -/
def Selection.validate (s : Selection) : Except ShapeError Unit :=
  s.format.layout.forM fun f => discard (s.fieldValue f)

/-- What no field width expresses: division works on an even pair, bit numbers stop at 11, and two
system registers cannot be written. -/
def Member.checkOperands (m : Member) : Except ShapeError Unit :=
  match m.opcode with
  | .divs | .divq =>
    match m.reg? 0 with
    | some r =>
      if r.index % 2 = 0 then .ok () else .error (.registerNotAllowed (m.tokenAt 0))
    | none => .ok ()
  | .setb | .clrb | .tglb => bitNumber 2
  | .tstb => bitNumber 1
  | _ =>
    match m.shape, m.operand? (.nth 0) with
    | .sysR, some (.sys s) | .sysImm, some (.sys s) =>
      if s.writable then .ok () else .error (.registerNotAllowed (m.tokenAt 0))
    | _, _ => .ok ()
where
  bitNumber (n : Nat) : Except ShapeError Unit :=
    match m.imm? n with
    | some b => if 0 ≤ b ∧ b < 12 then .ok () else .error (.outOfRange (m.tokenAt n) 4)
    | none => .ok ()

/-- The first register that two operations name as their destination; `seen` holds the destinations
so far. -/
def firstRepeat (seen : List Reg) : List Instruction → Option Reg
  | [] => none
  | i :: rest =>
    match i.opcode, i.operands with
    | .st, _ => firstRepeat seen rest
    | _, .reg r :: _ => if r ∈ seen then some r else firstRepeat (r :: seen) rest
    | _, _ => firstRepeat seen rest

/-- A bundle has at most two siblings, they share the word's condition, and no register is the
destination of two operations. -/
def checkStructure (i : Instruction) : Except StructuralError Unit :=
  match i.siblings with
  | [] => .ok ()
  | siblings =>
    if 2 < siblings.length then .error (.tooManySiblings siblings.length)
    else
      match (siblings.filterMap (·.condition)).find? (· != i.cond) with
      | some c => .error (.mixedCondition c.name)
      | none =>
        match firstRepeat [] i.members with
        | some r => .error (.duplicateDestination r.text)
        | none => .ok ()

def selectSingle (i : Instruction) : Except ShapeError Selection := do
  let (shape, mode) ← Shape.classify i
  let entry ← orElse (Shape.noForm i) (FormatEntry.find? i.opcode shape)
  if shape.needsMode && mode.isNone then throw (.missingMode i.opcode)
  if !shape.needsMode && mode.isSome then throw (Shape.noForm i)
  let member : Member := ⟨.op, i, shape, mode⟩
  member.checkOperands
  let s : Selection := ⟨entry.format, entry.fixed, i, [member]⟩
  if !s.format.hasCond && i.cond != .always then throw (.unconditional i.opcode)
  s.validate
  return s

/-- The part that an operation plays in a bundle. Memory operations step their index register
after the access, by a modify register. -/
def bundleRole (i : Instruction) (shape : Shape) : Except ShapeError Role :=
  match i.opcode, shape.memSlot? with
  | .ld, some n | .st, some n =>
    let post :=
      match i.operands[n]? with
      | some (.mem ⟨_, .post ..⟩) => true
      | _ => false
    match i.opcode, shape, post with
    | .ld, .rMemM, true => .ok .ld
    | .st, .memMR, true => .ok .st
    | _, _, _ =>
      if shape.isComplex then .error (.registerNotAllowed (Operand.textList i.operands))
      else
        .error (.addressingNotAllowed ((i.operands[n]?.map Operand.text).getD ""))
  | op, _ =>
    match shape with
    | .rrr => if op ∈ bundledAlu then .ok .alu else .error (.notBundled op shape.name)
    | .accRR => if op ∈ bundledMac then .ok .mac else .error (.notBundled op shape.name)
    | .rrImm => if op ∈ bundledShift then .ok .shf else .error (.notBundled op shape.name)
    | _ => .error (.notBundled op shape.name)

/-- Makes the load with this number, counted from zero, the second load. -/
def markLoad : Nat → List Member → List Member
  | _, [] => []
  | n, m :: rest =>
    if m.role = .ld then
      match n with
      | 0 => { m with role := .ld2 } :: rest
      | n + 1 => m :: markLoad n rest
    else m :: markLoad n rest

/-- Of two loads the one into the higher register is the second. -/
def orderLoads (members : List Member) : List Member :=
  match members.filter (·.role == .ld) with
  | [a, b] =>
    let key (m : Member) := ((m.dataReg?).map Reg.index).getD 0
    markLoad (if key a ≤ key b then 1 else 0) members
  | _ => members

def BundleShape.ofMembers? (members : List Member) : Option BundleShape :=
  let count (role : Role) := members.countP (·.role == role)
  match count .alu, count .mac, count .shf, count .ld + count .ld2, count .st with
  | 1, 0, 0, 1, 0 => some .aluLd
  | 1, 0, 0, 0, 1 => some .aluSt
  | 0, 1, 0, 1, 0 => some .macLd
  | 0, 1, 0, 0, 1 => some .macSt
  | 0, 1, 0, 2, 0 => some .macLdLd
  | 0, 0, 1, 1, 0 => some .shfLd
  | 0, 0, 1, 0, 1 => some .shfSt
  | 1, 1, 0, 0, 0 => some .aluMac
  | _, _, _, _, _ => none

def bundleMember (i : Instruction) : Except ShapeError Member := do
  let (shape, mode) ← Shape.classify i
  let role ← bundleRole i shape
  if role = .mac ∧ mode.isNone then throw (.missingMode i.opcode)
  if role ≠ .mac ∧ mode.isSome then throw (Shape.noForm i)
  return ⟨role, i, shape, mode⟩

def selectBundle (i : Instruction) : Except ShapeError Selection := do
  let members := orderLoads (← i.members.mapM bundleMember)
  let shape ← orElse (.notBundled i.opcode i.mnemonics) (BundleShape.ofMembers? members)
  let entry ← orElse (Shape.noForm i) (BundleEntry.find? shape)
  let s : Selection := ⟨entry.format, entry.fixed, i, members⟩
  s.validate
  return s

/-- The format of an instruction and the operations that feed its fields. -/
def select (i : Instruction) : Except ShapeError Selection :=
  if i.siblings.isEmpty then selectSingle i else selectBundle i

end QuadDsp
