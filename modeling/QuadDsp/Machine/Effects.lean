import QuadDsp.Machine.Core
import QuadDsp.Machine.Memory

/-! # Effects

A word runs in two phases: its operations look at the state and describe what they change as
`Effects`, and `commit` then applies the changes through the word's lane mask. The operations of a
bundle therefore never see each other's results. What all lanes share changes only if lane 0 is in
the mask, and a write through an empty mask changes nothing (`apply_fill_false`). -/

namespace QuadDsp

/-- One change of the state. -/
inductive Write
  | reg (i : Nat) (v : Lanes Int)
  | acc (i : Nat) (v : Lanes Int)
  | accView (i : Nat) (view : AccView) (v : Lanes Int)
  | address (r : Reg) (v : Int)
  | sys (r : SysReg) (v : Int)
  | mem (addr : Nat) (v : Lanes Int)
  | flags (bank : Bank) (group : Flags) (v : Lanes Flags)
  | modes (chosen : Modes) (on : Bool)
deriving DecidableEq, Repr

/-- A transfer of control, or another change of the sequencer's own state. -/
inductive Flow
  | jump (target : Nat)
  | call (target : Nat)
  | ret
  | loop (last : Nat) (term : Condition)
  | pushStatus
  | popStatus
  | reset
deriving DecidableEq, Repr

structure Effects where
  mask : Mask := Mask.all
  writes : List Write := []
  flow : Option Flow := none
  /-- accesses that are skipped; the rest of the word stands -/
  faults : List ExecError := []
deriving DecidableEq, Repr

namespace Write

def isMem : Write → Bool
  | mem .. => true
  | _ => false

end Write

namespace Effects

/-- Writes and nothing else. -/
def ofWrites (writes : List Write) : Effects := { writes := writes }

/-- The effects of a further operation of the same word. -/
def and (fx other : Effects) : Effects :=
  { fx with
    writes := fx.writes ++ other.writes
    flow := other.flow <|> fx.flow
    faults := fx.faults ++ other.faults }

def writesMemory (fx : Effects) : Bool := fx.writes.any Write.isMem

end Effects

namespace Core

def updateFlags (s : Core) (mask : Mask) (bank : Bank) (group : Flags) (v : Lanes Flags) : Core :=
  let updated := Lanes.zipWith (fun b new => b.modify bank (Flags.update group new)) s.flags v
  { s with flags := Lanes.merge mask s.flags updated }

/-- Applies a write to everything but memory. -/
def apply (s : Core) (mask : Mask) : Write → Core
  | .reg i v => s.setReg i v mask
  | .acc i v => s.setAcc i v mask
  | .accView i view v => s.setAccView i view v mask
  | .address r v => if mask .first then s.setAddress r v else s
  | .sys r v => if mask .first then s.setSys r v else s
  | .modes chosen on => if mask .first then { s with modes := s.modes.switch chosen on } else s
  | .flags bank group v => s.updateFlags mask bank group v
  | .mem .. => s

/-- A write through an empty mask changes nothing. -/
theorem apply_fill_false (s : Core) (w : Write) : s.apply (Lanes.fill false) w = s := by
  have keep (old new : Lanes Int) : Lanes.merge (Lanes.fill false) old new = old :=
    Lanes.merge_fill_false old new
  cases w with
  | reg i v => simp only [apply, setReg, alter_eq_self _ _ fun _ => keep _ _]
  | acc i v => simp only [apply, setAcc, alter_eq_self _ _ fun _ => keep _ _]
  | accView i view v => simp only [apply, setAccView, alter_eq_self _ _ fun _ => keep _ _]
  | flags bank group v => simp only [apply, updateFlags, Lanes.merge_fill_false]
  | address | sys | modes | mem => rfl

end Core

namespace Memory

/-- Applies a write to memory. -/
def apply (m : Memory) (mask : Mask) : Write → Memory
  | .mem addr v => m.store addr v mask
  | _ => m

@[simp] theorem size_apply (m : Memory) (mask : Mask) (w : Write) :
    (m.apply mask w).size = m.size := by
  cases w <;> simp [apply]

/-- The fault of a write to memory. -/
def writeFault? (m : Memory) : Write → Option ExecError
  | .mem addr _ => (m.fault? addr).map .address
  | _ => none

end Memory

/-- Applies effects in order. Memory keeps its size, so the faults are known beforehand. -/
def commit (s : Core) (m : Memory) (fx : Effects) : Core × Memory × List ExecError :=
  let faults := fx.writes.filterMap m.writeFault?
  (fx.writes.foldl (·.apply fx.mask ·) s, fx.writes.foldl (·.apply fx.mask ·) m, faults)

theorem size_commit (s : Core) (m : Memory) (fx : Effects) : (commit s m fx).2.1.size = m.size := by
  unfold commit
  generalize fx.writes = ws
  induction ws generalizing m with
  | nil => rfl
  | cons w rest ih => exact (ih (m.apply fx.mask w)).trans (m.size_apply fx.mask w)

end QuadDsp
