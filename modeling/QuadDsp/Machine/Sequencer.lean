import QuadDsp.Machine.Context

/-! # Transfers of control

The operations of the sequencer only say what they ask for; the controller carries it out. Control
is shared by all lanes, and lane 0 decides whether a conditional transfer takes place. -/

namespace QuadDsp

/-- The mode of one bit. -/
def ModeBit.modes : ModeBit → Modes
  | .aluSat => { aluSat := true }
  | .macSat => { macSat := true }
  | .bitRev => { bitRev := true }

namespace Context

/-- A transfer that takes place if lane 0 is active. -/
def gated (cx : Context) (f : Flow) : Effects := { flow := if cx.mask .first then some f else none }

def target (cx : Context) (t : Target) : Except ExecError Nat :=
  match cx.program.targetAddr t with
  | .ok a => .ok a
  | .error e => .error (.structural e)

/-- JUMP, CALL and RTS. -/
def branch (cx : Context) (m : Member) : Except ExecError Effects :=
  let transfer (t : Nat) : Effects := cx.gated (if m.opcode = .call then .call t else .jump t)
  match m.opcode, m.shape with
  | .rts, .bare => .ok (cx.gated .ret)
  | _, .target =>
    match m.instr.operands with
    | .target t :: _ => do return transfer (← cx.target t)
    | _ => m.refuse
  | _, .index => do return transfer (← Core.fetch cx.core.index (← m.regIndex 0))
  | _, _ => m.refuse

/-- DO: a loop up to its last word. -/
def loop (cx : Context) (m : Member) : Except ExecError Effects :=
  match m.instr.operands with
  | .target t :: .cond c :: _ => do return cx.gated (.loop (← cx.target t) c)
  | _ => m.refuse

/-- PUSH STS and POP STS. -/
def status (cx : Context) (m : Member) : Except ExecError Effects :=
  match m.opcode with
  | .push => .ok (cx.gated .pushStatus)
  | .pop => .ok (cx.gated .popStatus)
  | _ => m.refuse

/-- ENA and DIS. -/
def mode (m : Member) : Except ExecError Effects :=
  match m.instr.operands with
  | .key (.mode b) :: _ => .ok (.ofWrites [.modes b.modes (m.opcode == .ena)])
  | _ => m.refuse

end Context

end QuadDsp
