import QuadDsp.Proofs.Machine.Mirror

/-! # Loads of immediates

The fields for the immediates of loads take numbers of either sign, and what is read back is signed.
A data register has no more bits than its field and a system register has as many, so the load writes
the same (`Core.apply_loadWrite`). An address register has one bit more than its field, and the
numbers from 16384 on are read back as others (`Core.address_ne_of_wide`). -/

namespace QuadDsp

theorem wrap_of_wrap {width bits : Nat} (h : width ≤ bits) (v : Int) :
    wrap width (wrap bits v) = wrap width v :=
  Int.bmod_bmod_of_dvd (Nat.pow_dvd_pow 2 h)

theorem lowBits_of_wrap {width bits : Nat} (h : width ≤ bits) (v : Int) :
    lowBits width (wrap bits v) = lowBits width v := by
  rw [← lowBits_wrap width (wrap bits v), wrap_of_wrap h, lowBits_wrap]

namespace Member

/-- What a load of an immediate writes. -/
def loadWrite? (m : Member) (v : Int) : Option Write :=
  match m.shape with
  | .rImm => (m.reg? 0).map fun r => .reg r.index (Lanes.fill v)
  | .dagImm => (m.reg? 0).map fun r => .address r v
  | .sysImm =>
    match m.instr.operands with
    | .sys r :: _ => some (.sys r v)
    | _ => none
  | _ => none

/-- The shapes of the loads of immediates, with the widths of their fields. -/
def loadWidths : List (Shape × Nat) := [(.rImm, 12), (.dagImm, 15), (.sysImm, 16)]

theorem execute_load {m : Member} (hop : m.opcode = .ld) {width : Nat} (hshape : (m.shape, width) ∈ loadWidths)
    (cx : Context) :
    (m.execute cx).toOption =
      (m.imm? 1).bind fun v => (m.loadWrite? (wrap 32 v)).map fun w => .ofWrites [w] := by
  have hload : (m.execute cx).toOption = (cx.load m).toOption := by
    rw [Member.execute, hop]
    rfl
  rw [hload]
  simp only [loadWidths, List.mem_cons, Prod.mk.injEq, List.not_mem_nil, or_false] at hshape
  rcases hshape with ⟨hs, -⟩ | ⟨hs, -⟩ | ⟨hs, -⟩
  · simp only [Context.load, loadWrite?, hs, toOption_bind, regIndex, register, immediate, toOption_need,
      toOption_pure]
    cases m.reg? 0 <;> cases m.imm? 1 <;> rfl
  · simp only [Context.load, loadWrite?, hs, toOption_bind, register, immediate, toOption_need, toOption_pure]
    cases m.reg? 0 <;> cases m.imm? 1 <;> rfl
  · simp only [Context.load, loadWrite?, hs]
    rcases m.instr.operands with _ | ⟨o, rest⟩
    · cases m.imm? 1 <;> rfl
    · cases o with
      | sys r =>
        simp only [toOption_bind, immediate, toOption_need, toOption_pure]
        cases m.imm? 1 <;> rfl
      | _ => cases m.imm? 1 <;> rfl

theorem Mirrors.loadWrite? {p : Program} {wide : Option Nat} {m m' : Member} (h : m.Mirrors p wide m')
    (hop : m.opcode = .ld) (v : Int) : m'.loadWrite? v = m.loadWrite? v := by
  unfold Member.loadWrite?
  rw [h.shape, h.reg?, h.operands (by rw [hop]; rfl)]
  rcases m.instr.operands with _ | ⟨o, rest⟩
  · rfl
  · cases o <;> rfl

end Member

/-- Written to a register of no more bits than the field, what is read back is the same. -/
theorem Core.apply_loadWrite {m : Member} {width : Nat} (hshape : (m.shape, width) ∈ Member.loadWidths)
    {v : Int} {w w' : Write} (hw : m.loadWrite? (wrap 32 v) = some w)
    (hw' : m.loadWrite? (wrap 32 (wrap width v)) = some w') (s : Core) (mask : Mask)
    (hdag : m.shape = .dagImm → wrap width v = v ∨ mask .first = false) : s.apply mask w' = s.apply mask w := by
  simp only [Member.loadWidths, List.mem_cons, Prod.mk.injEq, List.not_mem_nil, or_false] at hshape
  rcases hshape with ⟨hs, rfl⟩ | ⟨hs, rfl⟩ | ⟨hs, rfl⟩
  · simp only [Member.loadWrite?, hs, Option.map_eq_some_iff] at hw hw'
    obtain ⟨r, hr, rfl⟩ := hw
    obtain ⟨r', hr', rfl⟩ := hw'
    cases hr.symm.trans hr'
    have hfill (x : Int) : (Lanes.fill x).map (wrap dataBits) = Lanes.fill (wrap dataBits x) := rfl
    simp only [apply, setReg, hfill]
    rw [wrap_of_wrap (by decide), wrap_of_wrap (by decide), wrap_of_wrap (by decide)]
  · simp only [Member.loadWrite?, hs, Option.map_eq_some_iff] at hw hw'
    obtain ⟨r, hr, rfl⟩ := hw
    obtain ⟨r', hr', rfl⟩ := hw'
    cases hr.symm.trans hr'
    rcases hdag hs with hv | hm
    · rw [hv]
    · simp only [apply, hm, Bool.false_eq_true, if_false]
  · simp only [Member.loadWrite?, hs] at hw hw'
    split at hw
    · next r _ hops =>
      rw [hops] at hw'
      cases hw
      cases hw'
      have hlow : lowBits 16 (wrap 32 (wrap 16 v)) = lowBits 16 (wrap 32 v) := by
        rw [lowBits_of_wrap (by decide), lowBits_of_wrap (by decide), lowBits_of_wrap (by decide)]
      cases r <;> simp only [apply, setSys, hlow]
    · cases hw

/-- The write of an immediate leaves memory alone. -/
theorem Memory.apply_loadWrite {m : Member} {v : Int} {w : Write} (hw : m.loadWrite? v = some w)
    (mem : Memory) (mask : Mask) : mem.apply mask w = mem := by
  unfold Member.loadWrite? at hw
  split at hw
  · obtain ⟨r, -, rfl⟩ := Option.map_eq_some_iff.1 hw
    rfl
  · obtain ⟨r, -, rfl⟩ := Option.map_eq_some_iff.1 hw
    rfl
  · split at hw
    · cases hw
      rfl
    · cases hw
  · cases hw

theorem Core.address_setAddress (s : Core) {r : Reg} (hr : r.cls.isAddress = true) (hin : r.index < 8) (v : Int) :
    (s.setAddress r v).address r = .ok (if r.cls = .modify then wrap 16 v else lowBits 16 v) := by
  obtain ⟨cls, i⟩ := r
  dsimp only at hin
  cases cls <;> first
    | exact absurd hr Bool.false_ne_true
    | simp [setAddress, address, fetch, hin, Except.map]

/-- An address register holds another number than the one in the program, where that has 15 bits. -/
theorem Core.address_ne_of_wide (s : Core) {r : Reg} (hr : r.cls.isAddress = true) (hin : r.index < 8) {v : Int}
    (hlow : 16384 ≤ v) (hhigh : v < 32768) :
    (s.setAddress r (wrap 32 (wrap 15 v))).address r ≠ (s.setAddress r (wrap 32 v)).address r := by
  have hread : wrap 15 v = v - 32768 := by
    unfold wrap
    rw [show span 15 = 32768 from rfl, Int.bmod_def]
    omega
  rw [address_setAddress s hr hin, address_setAddress s hr hin, hread]
  intro h
  have h := Except.ok.inj h
  split at h
  · rw [wrap_of_wrap (by decide), wrap_of_wrap (by decide)] at h
    unfold wrap at h
    rw [show span 16 = 65536 from rfl, Int.bmod_def, Int.bmod_def] at h
    omega
  · rw [lowBits_of_wrap (by decide), lowBits_of_wrap (by decide)] at h
    unfold lowBits at h
    rw [show span 16 = 65536 from rfl] at h
    omega

end QuadDsp
