import QuadDsp.Machine.AddressGenerator

/-! # Loads, stores and moves

Loads and stores step their index register even where the access itself is at fault; then only the
access is skipped. None of these operations changes a flag. -/

namespace QuadDsp

namespace Context

/-- The words of a complex access, as the pair they hold. -/
def readPair (cx : Context) (addr : Nat) : Except AddressError (Lanes ComplexPair) := do
  let high ← cx.mem.read addr
  let low ← cx.mem.read (addr + 1)
  return Lanes.zipWith
    (fun h l => ComplexPair.unpack (h * span dataBits + lowBits dataBits l)) high low

/-- What a load writes besides the index register. -/
def loaded (cx : Context) (r : Reg) (addr : Nat) : Except AddressError (List Write) := do
  if r.cls = .complex then
    let c ← cx.readPair addr
    return [.reg (2 * r.index) (c.map (·.re)), .reg (2 * r.index + 1) (c.map (·.im))]
  else return [.reg r.index (← cx.mem.read addr)]

/-- What a store writes besides the index register. -/
def stored (cx : Context) (r : Reg) (addr : Nat) : Except ExecError (List Write) := do
  if r.cls = .complex then
    let c := (← cx.core.pair r.index).map ComplexPair.pack
    return [.mem addr (c.map (· / span dataBits)), .mem (addr + 1) (c.map (wrap dataBits))]
  else return [.mem addr (← cx.core.reg r.index)]

/-- Makes an access; where it is at fault, the step of the index register is all that is done. -/
def withAccess (cx : Context) (m : Member) (writes : Reg → Nat → Except ExecError (List Write)) :
    Except ExecError Effects := do
  let ref ← m.need m.mem?
  let r ← m.need m.dataReg?
  let a ← cx.access ref.mode
  match cx.accessFault? a.addr (r.cls == .complex) with
  | some e => return { writes := a.writes, faults := [.address e] }
  | none => return .ofWrites (a.writes ++ (← writes r a.addr))

/-- LD from memory, or of an immediate into a register. -/
def load (cx : Context) (m : Member) : Except ExecError Effects :=
  match m.shape with
  | .rImm => do return .ofWrites [.reg (← m.regIndex 0) (Lanes.fill (← m.immediate 1))]
  | .dagImm => do return .ofWrites [.address (← m.register 0) (← m.immediate 1)]
  | .sysImm =>
    match m.instr.operands with
    | .sys r :: _ => do return .ofWrites [.sys r (← m.immediate 1)]
    | _ => m.refuse
  | _ =>
    cx.withAccess m fun r addr =>
      match cx.loaded r addr with
      | .ok writes => .ok writes
      | .error e => .error (.address e)

def store (cx : Context) (m : Member) : Except ExecError Effects := cx.withAccess m cx.stored

/-- MOV. A value wider than a data register keeps its low bits on the way to and from one. -/
def move (cx : Context) (m : Member) : Except ExecError Effects :=
  let s := cx.core
  match m.shape, m.instr.operands with
  | .rr, .reg d :: .reg r :: _ => do return .ofWrites [.reg d.index (← s.reg r.index)]
  | .rAccPart, .reg d :: .accView acc view :: _ => do
    return .ofWrites [.reg d.index (← s.accView acc view)]
  | .accPartR, .accView acc view :: .reg r :: _ => do
    return .ofWrites [.accView acc view (← s.reg r.index)]
  | .rDag, .reg d :: .reg r :: _ => do
    return .ofWrites [.reg d.index (Lanes.fill (wrap dataBits (← s.address r)))]
  | .dagR, .reg d :: .reg r :: _ => do
    let v := (← s.reg r.index) .first
    return .ofWrites [.address d (if d.cls = .modify then v else lowBits dataBits v)]
  | .rSys, .reg d :: .sys r :: _ => .ok (.ofWrites [.reg d.index (s.sys r)])
  | .sysR, .sys d :: .reg r :: _ => do
    return .ofWrites [.sys d (lowBits dataBits ((← s.reg r.index) .first))]
  | _, _ => m.refuse

/-- MODIFY: steps an index register without an access. -/
def modify (cx : Context) (m : Member) : Except ExecError Effects := do
  let i ← m.register 0
  let delta ← Core.fetch cx.core.modify (← m.regIndex 1)
  return .ofWrites [.address i (← cx.core.stepIndex i.index delta)]

end Context

end QuadDsp
