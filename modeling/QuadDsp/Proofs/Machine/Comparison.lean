import QuadDsp.Proofs.Machine.CarryChain
import QuadDsp.Proofs.Machine.ComplexResults
import QuadDsp.Proofs.Machine.Widths

/-! # Signed comparisons

CMP, SUB and DEC set the flags of a difference, and the conditions LT, LE, EQ, NE, GE and GT read from them how its two
numbers compare. Behind CMP they tell it in every mode (`Simulator.Reachable.compares`). SUB and DEC take the sign flag
from the number that they store: where that one is clamped, LT and GE tell the opposite, and this is the only exception
(`Simulator.Reachable.tellsLess_step_iff`). -/

namespace QuadDsp

/-! ### The flags of a difference -/

/-- The sign flag, corrected for a result that does not fit. -/
def Flags.less (f : Flags) : Bool := f.negative != f.overflow

namespace Alu

/-- The input of DEC is the first number of its difference, so their sign flags for the input agree. -/
theorem unary_dec (a : Int) (saturate : Bool) : unary .dec a saturate = sub a 1 saturate := by
  simp only [unary, sub, addSub]

variable {a b : Int} (ha : Fits dataBits a) (hb : Fits dataBits b)

include ha hb

/-- A difference that does not fit wraps to one of the other sign, and is clamped to one of its own sign. -/
theorem less_sub_iff (saturate : Bool) :
    (sub a b saturate).2.less = true ↔ if saturate = true ∧ ¬Fits dataBits (a - b) then b < a else a < b := by
  have h := settles_sub a b saturate
  have hless : (sub a b saturate).2.less = true ↔ (settled saturate (a - b) < 0 ↔ Fits dataBits (a - b)) := by
    show (_ != _) = true ↔ _
    rw [sub, h.negative, h.overflow]
    by_cases hneg : settled saturate (a - b) < 0 <;> by_cases hfits : Fits dataBits (a - b) <;> simp [hneg, hfits]
  rw [hless]
  have h12 : (span (dataBits - 1) : Int) = 2048 := rfl
  by_cases hfits : Fits dataBits (a - b)
  · rw [settled_of_fits hfits, if_neg (fun hclamped => hclamped.2 hfits), iff_true_right hfits]
    omega
  · rw [iff_false_right hfits]
    unfold Fits at ha hb hfits
    cases saturate with
    | true =>
      rw [if_pos ⟨rfl, hfits⟩]
      simp only [settled, clamp, if_true]
      omega
    | false =>
      rw [if_neg (by simp)]
      have hspan : span dataBits = 4096 := rfl
      simp only [settled, wrap, hspan, Int.bmod_def, Bool.false_eq_true, if_false]
      omega

theorem zero_sub_iff : (sub a b false).2.zero = true ↔ a = b := by
  have hspan : span dataBits = 4096 := rfl
  rw [fits_data_iff] at ha hb
  rw [sub, (settles_sub a b false).zero, beq_iff_eq]
  simp only [settled, wrap, hspan, Int.bmod_def, Bool.false_eq_true, if_false]
  omega

end Alu

/-! ### Conditions -/

/-- The signed comparison that a condition stands for. -/
def Condition.relation? : Condition → Option (Int → Int → Prop)
  | .lt => some (· < ·)
  | .le => some (· ≤ ·)
  | .eq => some (· = ·)
  | .ne => some (· ≠ ·)
  | .ge => some (· ≥ ·)
  | .gt => some (· > ·)
  | _ => none

namespace Core

variable {s : Core} {l : Lane} {a b : Int}

/-- LT and GE tell in a lane whether a number is less than another one. -/
structure TellsLess (s : Core) (l : Lane) (a b : Int) : Prop where
  lt : s.holds .lt l = true ↔ a < b
  ge : s.holds .ge l = true ↔ a ≥ b

theorem tellsLess_iff : s.TellsLess l a b ↔ ((s.flags l).real.less = true ↔ a < b) := by
  have hge : s.holds .ge l = !s.holds .lt l := rfl
  refine ⟨TellsLess.lt, fun h => ⟨h, ?_⟩⟩
  rw [hge, Bool.not_eq_true', ← Bool.not_eq_true]
  exact (not_congr h).trans Int.not_lt

theorem holds_iff_of_relation (hless : (s.flags l).real.less = true ↔ a < b)
    (hzero : (s.flags l).real.zero = true ↔ a = b)
    {c : Condition} {r : Int → Int → Prop} (hr : c.relation? = some r) : s.holds c l = true ↔ r a b := by
  have hlt : s.holds .lt l = (s.flags l).real.less := rfl
  have hle : s.holds .le l = ((s.flags l).real.less || (s.flags l).real.zero) := rfl
  have hgt : s.holds .gt l = !((s.flags l).real.less || (s.flags l).real.zero) := rfl
  have hge : s.holds .ge l = !(s.flags l).real.less := rfl
  have heq : s.holds .eq l = (s.flags l).real.zero := rfl
  have hne : s.holds .ne l = !(s.flags l).real.zero := rfl
  cases c <;> cases hr
  · rw [heq, hzero]
  · rw [hne, Bool.not_eq_true', ← Bool.not_eq_true, hzero]
  · rw [hgt, Bool.not_eq_true', ← Bool.not_eq_true, Bool.or_eq_true, hless, hzero]
    omega
  · rw [hle, Bool.or_eq_true, hless, hzero]
    omega
  · rw [hlt, hless]
  · rw [hge, Bool.not_eq_true', ← Bool.not_eq_true, hless]
    omega

end Core

/-! ### Operations that take a difference -/

namespace Opcode

/-- The operations that set the flags of a difference. -/
def differences : List Opcode := [.cmp, .sub, .dec]

/-- Their operands, for the difference of register `x` and operand `y`; DEC does not name its `y`, which is one. -/
def differenceOperands (op : Opcode) (rd x : Nat) (y : Operand) : List Operand :=
  match op with
  | .cmp => [.reg ⟨.general, x⟩, y]
  | .dec => [.reg ⟨.general, rd⟩, .reg ⟨.general, x⟩]
  | _ => [.reg ⟨.general, rd⟩, .reg ⟨.general, x⟩, y]

end Opcode

/-- CMP keeps the flags of a difference only. -/
def Effects.difference (op : Opcode) (rd : Nat) (v : Lanes Flagged) : Effects :=
  if op = .cmp then .flagsOnly .arith v else .result rd .arith v

namespace Effects

variable {op : Opcode} {rd : Nat} {v : Lanes Flagged}

theorem hits_difference {l : Lane} {n : Nat} (hn : n < 5) : (difference op rd v).Hits (.flag l .real n) := by
  refine ⟨.flags .real .arith (v.map Prod.snd), ?_, rfl, by interval_cases n <;> rfl⟩
  unfold difference
  split <;> simp [flagsOnly, result, ofWrites]

theorem behind_difference {s : Core} {mask : Mask} (mem : Memory) {l : Lane} (hl : mask l = true) (n : Nat) :
    (Cell.flag l .real n).behind s mem mask (difference op rd v).writes =
      (Flags.update .arith (v l).2 (s.flags l).real).toList[n]? := by
  unfold difference
  split
  · have hfront : ∀ w ∈ ([] : List Write), w.KeepsFlags := fun w hw => absurd hw List.not_mem_nil
    exact (Cell.behind_flag_last hfront mem .real .arith (v.map Prod.snd) hl n).trans (by rw [Lanes.map_apply]; rfl)
  · exact Cell.behind_flag_result _ _ _ _ _ _ hl n

end Effects

/-- An operation that sets the flags of the difference of a data register and another one or a number. -/
structure Member.TakesDifference (m : Member) (op : Opcode) (rd x : Nat) (y : Operand) : Prop where
  opcode : m.opcode = op
  listed : op ∈ Opcode.differences
  operands : ∀ n, m.operand? (.nth n) = (op.differenceOperands rd x y)[n]?
  one : op = .dec → y = .imm 1

namespace Member.TakesDifference

variable {m : Member} {op : Opcode} {rd x : Nat} {y : Operand} (h : m.TakesDifference op rd x y)

include h

theorem combines (hop : op = .sub) : m.Combines .sub rd x y := by
  subst hop
  exact ⟨h.opcode, h.operands 0, h.operands 1, h.operands 2⟩

theorem shape_of_cmp (hop : op = .cmp) (hm : m.Fit) : m.shape = .rr ∨ m.shape = .rImm := by
  have htakes := hm.takes (u := .compare) (by rw [h.opcode, hop]; rfl)
  simpa [ExecUnit.takes] using htakes

theorem shape_of_dec (hop : op = .dec) (hm : m.Fit) : m.shape = .rr := by
  have htakes := hm.takes (u := .unary) (by rw [h.opcode, hop]; rfl)
  have hshape : m.shape = .rr ∨ m.shape = .crCr := by simpa [ExecUnit.takes] using htakes
  refine hshape.resolve_right fun hcomplex => ?_
  have hrd : m.operand? (.nth 0) = some (.reg ⟨.general, rd⟩) := by rw [h.operands, hop]; rfl
  obtain ⟨hcls, -⟩ := hm.classified.cls_of_operand hrd (by rw [hcomplex]; rfl) rfl
  cases hcls

/-- The flags are those of the difference, which only CMP never saturates. -/
theorem execute (hm : m.Fit) (cx : Context) {a : Lanes Int} (ha : cx.core.reg x = .ok a) :
    ∃ b : Lanes Int, (∀ l v, cx.core.Gives y l v → Fits dataBits v → b l = v) ∧
      m.execute cx = .ok (.difference op rd (.ofFn fun l =>
        Alu.sub (a l) (b l) (op != .cmp && cx.core.modes.aluSat))) := by
  have hlisted := h.listed
  simp only [Opcode.differences, List.mem_cons, List.not_mem_nil, or_false] at hlisted
  rcases hlisted with rfl | rfl | rfl
  · have hshape := h.shape_of_cmp rfl hm
    have hslot : m.shape.slots[1]? = some (if m.shape == .rImm then .imm else .general) := by
      rcases hshape with hshape | hshape <;> rw [hshape] <;> rfl
    obtain ⟨b, hinput, hb⟩ := hm.classified.exists_input hslot (h.operands 1) cx
    refine ⟨b, hb, ?_⟩
    rw [execute_eq_run (u := .compare) (by rw [h.opcode]; rfl), ExecUnit.run, Context.compare, Context.reg,
      regIndex_of_operand (h.operands 0)]
    simp only [bind, Except.bind, ha]
    rcases hshape with hshape | hshape <;> rw [hshape] at hinput ⊢ <;> simp only [hinput] <;> rfl
  · exact (h.combines rfl).execute rfl hm cx ha
  · have hy := h.one rfl
    subst hy
    refine ⟨Lanes.fill 1, fun l v hv _ => (Lanes.fill_apply 1 l).trans hv, ?_⟩
    have hlanes : a.map (Alu.unary .dec · cx.core.modes.aluSat) =
        .ofFn fun l => Alu.sub (a l) (Lanes.fill 1 l) cx.core.modes.aluSat := by
      refine Lanes.ext fun l => ?_
      rw [Lanes.map_apply, Lanes.ofFn_apply, Lanes.fill_apply, Alu.unary_dec]
    have hunary : m.execute cx = cx.unary m := by
      rw [execute_eq_run (u := .unary) (by rw [h.opcode]; rfl), ExecUnit.run, h.shape_of_dec rfl hm]
    rw [hunary, Context.unary, regIndex_of_operand (h.operands 0), Context.reg, regIndex_of_operand (h.operands 1),
      h.opcode]
    simp only [bind, Except.bind, ha, hlanes]
    rfl

end Member.TakesDifference

/-! ### The numbers -/

theorem Member.Classified.slot_of_imm {m : Member} (hm : m.Classified) {n : Nat} {slot : Slot}
    (hslot : m.shape.slots[n]? = some slot) {c : Int} (hc : m.operand? (.nth n) = some (.imm c)) : slot = .imm := by
  obtain ⟨o, ho, haccepts, -⟩ := hm.nth?_of_slot hslot
  cases ho.symm.trans hc
  cases slot <;> first | rfl | cases haccepts

theorem FormatEntry.imm_of_difference : ∀ e ∈ formatEntries, e.opcode ∈ Opcode.differences →
    ∀ n < 3, e.shape.slots[n]? = some .imm → Layout.imm n 9 .signed ∈ e.format.layout := by
  decide +kernel

theorem Opcode.asks_of_difference : ∀ op ∈ differences, op.asks = false := by decide

theorem Opcode.not_mem_bundledShift_of_difference : ∀ op ∈ differences, op ∉ bundledShift := by decide

/-- The field for the number of a difference is signed and has nine bits. -/
theorem Instruction.Issues.fits_imm {i : Instruction} {m : Member} (h : i.Issues m)
    (hop : m.opcode ∈ Opcode.differences) {n : Nat} (hn : n < 3) (hslot : m.shape.slots[n]? = some .imm) {c : Int}
    (hc : m.operand? (.nth n) = some (.imm c)) : Fits 9 c := by
  obtain ⟨sel, hsel, hm⟩ := h.selected
  obtain ⟨t, -, hfills⟩ := select_fills hsel
  rcases select_members hsel with ⟨m', e, he, hmembers, -, hop', hshape, hformat⟩ | ⟨hall, -⟩
  · rw [hmembers, List.mem_singleton] at hm
    subst hm
    have hfield : Layout.imm n 9 .signed ∈ t.format.layout := by
      rw [← hfills.format, hformat]
      exact FormatEntry.imm_of_difference e he (hop' ▸ hop) n hn (hshape ▸ hslot)
    exact of_decide_eq_true (hfills.imm_fits hmembers hfield hc)
  · -- only the shift of a bundle has a number
    obtain ⟨hbundled, hcoded⟩ := hall m hm
    rw [hbundled.takes.shape] at hslot
    cases hrole : m.role with
    | op => exact absurd hrole hbundled.role
    | shf => exact absurd (hcoded.shf hrole) (Opcode.not_mem_bundledShift_of_difference _ hop)
    | _ => rw [hrole] at hslot; interval_cases n <;> cases hslot

theorem Core.InWidth.fits_of_gives {s : Core} (h : s.InWidth) {r : Reg} {l : Lane} {v : Int}
    (hv : s.Gives (.reg r) l v) :
    Fits dataBits v := by
  obtain ⟨u, hu, rfl⟩ := hv
  unfold Core.reg Core.fetch at hu
  split at hu
  · cases hu
    exact h.regs _ (Vector.getElem_mem _) l
  · cases hu

/-- The second number of a difference is that of a register, or has nine bits. -/
theorem Member.TakesDifference.fits {m : Member} {op : Opcode} {rd x : Nat} {y : Operand}
    (h : m.TakesDifference op rd x y) {i : Instruction} (hi : i.Issues m) {s : Core} (hs : s.InWidth)
    {l : Lane} {b : Int} (hb : s.Gives y l b) : Fits dataBits b := by
  have hfit := hi.fit
  have hop : m.opcode ∈ Opcode.differences := h.opcode ▸ h.listed
  have hlisted := h.listed
  simp only [Opcode.differences, List.mem_cons, List.not_mem_nil, or_false] at hlisted
  cases y with
  | reg r => exact hs.fits_of_gives hb
  | imm c =>
    obtain rfl : c = b := hb
    have hnine : Fits 9 c := by
      rcases hlisted with rfl | rfl | rfl
      · rcases h.shape_of_cmp rfl hfit with hshape | hshape
        · have hslot : m.shape.slots[1]? = some .general := by rw [hshape]; rfl
          cases hfit.classified.slot_of_imm hslot (h.operands 1)
        · exact hi.fits_imm hop (by decide) (by rw [hshape]; rfl) (h.operands 1)
      · rcases (h.combines rfl).shape rfl hfit with hshape | hshape
        · have hslot : m.shape.slots[2]? = some .general := by rw [hshape]; rfl
          cases hfit.classified.slot_of_imm hslot (h.operands 2)
        · exact hi.fits_imm hop (by decide) (by rw [hshape]; rfl) (h.operands 2)
      · cases h.one rfl
        decide
    have h9 : (span (9 - 1) : Int) = 256 := rfl
    rw [fits_data_iff]
    unfold Fits at hnine
    omega
  | _ => exact hb.elim

/-! ### Steps -/

namespace Simulator

/-- The same simulator in other modes. -/
def inModes (sim : Simulator) (modes : Modes) : Simulator := { sim with core := { sim.core with modes := modes } }

/-- The next word has an operation that takes the difference of two numbers in a lane, perhaps together with others, and
its condition holds there. -/
def TakesDifference (sim : Simulator) (op : Opcode) (l : Lane) (a b : Int) : Prop :=
  ∃ idx i m rd x y, sim.current? = some (idx, i) ∧ sim.core.holds i.cond l = true ∧ i.Issues m ∧
    m.TakesDifference op rd x y ∧ sim.core.Gives (.reg ⟨.general, x⟩) l a ∧ sim.core.Gives y l b

variable {sim : Simulator} {op : Opcode} {l : Lane} {a b : Int}

theorem TakesDifference.fits (h : sim.TakesDifference op l a b) (hs : sim.core.InWidth) :
    Fits dataBits a ∧ Fits dataBits b := by
  obtain ⟨idx, i, m, rd, x, y, -, -, hi, hm, ha, hb⟩ := h
  exact ⟨hs.fits_of_gives ha, hm.fits hi hs hb⟩

/-- The flags behind a difference are those that the ALU gives it. -/
theorem TakesDifference.step (h : sim.TakesDifference op l a b) (hs : sim.core.InWidth) :
    let f := (Alu.sub a b (op != .cmp && sim.core.modes.aluSat)).2
    (sim.step.core.flags l).real.less = f.less ∧ (sim.step.core.flags l).real.zero = f.zero := by
  have hfits := (h.fits hs).2
  obtain ⟨idx, i, m, rd, x, y, hcurrent, hcond, hi, hm, ⟨u, hu, rfl⟩, hb⟩ := h
  have hasks : m.opcode.asks = false := by rw [hm.opcode]; exact Opcode.asks_of_difference op hm.listed
  obtain ⟨w, hw, hfx⟩ := hm.execute hi.fit ⟨sim.core, sim.mem, sim.program, sim.core.mask i.cond⟩ hu
  intro f
  have hl := (sim.core.mask_apply i.cond l).trans hcond
  have hflag (n : Nat) (hn : n < 5) :
      (sim.step.core.flags l).real.toList[n]? = (Flags.update .arith f (sim.core.flags l).real).toList[n]? := by
    have hread := read_step_of_hits hcurrent hi hasks hfx (c := .flag l .real n) (Effects.hits_difference hn)
    rwa [Effects.behind_difference _ hl, Lanes.ofFn_apply, hw l b hb hfits] at hread
  have hzero : (sim.step.core.flags l).real.zero = f.zero := Option.some.inj (hflag 0 (by decide))
  have hnegative : (sim.step.core.flags l).real.negative = f.negative := Option.some.inj (hflag 1 (by decide))
  have hoverflow : (sim.step.core.flags l).real.overflow = f.overflow := Option.some.inj (hflag 2 (by decide))
  exact ⟨by rw [Flags.less, hnegative, hoverflow]; rfl, hzero⟩

variable {p : Program} {config : Config}

theorem Reachable.inWidth_inModes (h : Reachable p config sim) (modes : Modes) : (sim.inModes modes).core.InWidth := by
  obtain ⟨⟨hregs, hindex, hmodify, hlength, hbase⟩, -⟩ := h.inWidth_of
  exact ⟨hregs, hindex, hmodify, hlength, hbase⟩

/-- In every mode, a word behind CMP that is executed, as every accepted word is unless it lacks a name, is active where
the numbers compare as its condition says, if the words in between only load, store and move. -/
theorem Reachable.compares (h : Reachable p config sim) (modes : Modes)
    (hcmp : (sim.inModes modes).TakesDifference .cmp l a b) {t : Nat}
    (hbetween : ∀ k < t, (Simulator.step^[k] (sim.inModes modes).step).Transfers) {j : Instruction} {sel : Selection}
    (hstructure : checkStructure j = .ok ()) (hselect : select j = .ok sel)
    {r : Int → Int → Prop} (hr : j.cond.relation? = some r) :
    let behind := Simulator.step^[t] (sim.inModes modes).step
    (∃ fx, execute behind.core behind.mem behind.program j = .ok fx ∧ (fx.mask l = true ↔ r a b)) ∨
      ∃ m ∈ sel.members, ∃ name,
        execute behind.core behind.mem behind.program j = .error (.structural (.unknownSymbol name)) ∧
          m.Lacks behind.program name := by
  have hs := h.inWidth_inModes modes
  obtain ⟨ha, hb⟩ := hcmp.fits hs
  obtain ⟨hless, hzero⟩ := hcmp.step hs
  -- the words in between have kept the flags of the difference
  obtain ⟨hflags, -⟩ := status_iterate t.zero_le fun k _ hk => hbetween k hk
  rw [Function.iterate_zero_apply] at hflags
  intro behind
  have hholds : behind.core.holds j.cond l = true ↔ r a b := by
    refine Core.holds_iff_of_relation ?_ ?_ hr
    · rw [hflags, hless]
      exact (Alu.less_sub_iff ha hb false).trans (by simp)
    · rw [hflags, hzero]
      exact Alu.zero_sub_iff ha hb
  refine (execute_of_select behind.core behind.mem behind.program hstructure hselect).imp_left fun ⟨fx, hfx, _⟩ => ?_
  exact ⟨fx, hfx, by rwa [mask_of_execute hfx, Core.mask_apply]⟩

/-- The smallest number is compared with one, and one is subtracted from it if it is less. -/
def farApart : Program :=
  ([{ line := 1, opcode := .ld, operands := [.reg ⟨.general, 1⟩, .imm (-2048)] },
    { line := 2, opcode := .ld, operands := [.reg ⟨.general, 2⟩, .imm 1] },
    { line := 3, opcode := .cmp, operands := [.reg ⟨.general, 1⟩, .reg ⟨.general, 2⟩] },
    { line := 4, opcode := .ld, operands := [.reg ⟨.general, 3⟩, .imm 7] },
    { line := 5, opcode := .sub, operands := [.reg ⟨.general, 0⟩, .reg ⟨.general, 1⟩, .reg ⟨.general, 2⟩],
      condition := some .lt }].foldl Builder.push (Builder.origin 0)).program

theorem takesDifference_cmp_farApart :
    ((step^[2] (load farApart {})).inModes { aluSat := true }).TakesDifference .cmp 0 (-2048) 1 :=
  ⟨2, _, _, 0, 1, .reg ⟨.general, 2⟩, rfl, rfl, ⟨rfl, _, rfl, List.mem_singleton_self _⟩,
    ⟨rfl, by decide, fun _ => rfl, nofun⟩, ⟨_, rfl, rfl⟩, ⟨_, rfl, rfl⟩⟩

theorem Reachable.compares_farApart :
    let sim := (Simulator.step^[2] (Simulator.load farApart {})).inModes { aluSat := true }
    let behind := Simulator.step^[1] sim.step
    sim.TakesDifference .cmp 0 (-2048) 1 ∧
      ∃ j fx, behind.current? = some (4, j) ∧ j.cond = .lt ∧
        execute behind.core behind.mem behind.program j = .ok fx ∧ fx.mask 0 = true := by
  intro sim behind
  obtain ⟨j, sel, fx, hcurrent, hcond, hstructure, hselect, hfx⟩ : ∃ j sel fx, behind.current? = some (4, j) ∧
      j.cond = .lt ∧ checkStructure j = .ok () ∧ select j = .ok sel ∧
      execute behind.core behind.mem behind.program j = .ok fx := ⟨_, _, _, rfl, rfl, rfl, rfl, rfl⟩
  have hbetween : ∀ k < 1, (Simulator.step^[k] sim.step).Transfers := by
    intro k hk
    obtain rfl : k = 0 := by omega
    refine ⟨fun idx i hcurrent => ?_, fun w hw => ?_⟩
    · cases hcurrent
      intro k hk
      cases List.mem_singleton.1 hk
      decide
    · cases List.mem_singleton.1 hw
      exact id
  rcases Reachable.compares (Reachable.load.iterate 2) _ takesDifference_cmp_farApart hbetween hstructure hselect
    (r := (· < ·)) (by rw [hcond]; rfl) with ⟨fx', hfx', hless⟩ | ⟨m, -, name, herror, -⟩
  · cases hfx.symm.trans hfx'
    exact ⟨takesDifference_cmp_farApart, j, fx, hcurrent, hcond, hfx, hless.2 (by decide)⟩
  · cases hfx.symm.trans herror

/-- Behind CMP, SUB and DEC the conditions LT and GE tell whether the first number is less than the second one, but not
where the result does not fit and is clamped: there they tell whether the second one is less. -/
theorem Reachable.tellsLess_step_iff (h : Reachable p config sim) (modes : Modes)
    (hdifference : (sim.inModes modes).TakesDifference op l a b) :
    let behind := (sim.inModes modes).step.core
    let clamped := op ≠ .cmp ∧ modes.aluSat = true ∧ ¬Fits dataBits (a - b)
    (behind.TellsLess l a b ↔ ¬clamped) ∧ (clamped → behind.TellsLess l b a) := by
  have hs := h.inWidth_inModes modes
  obtain ⟨ha, hb⟩ := hdifference.fits hs
  obtain ⟨hless, -⟩ := hdifference.step hs
  have htells : ((sim.inModes modes).step.core.flags l).real.less = true ↔
      if (op != .cmp && modes.aluSat) = true ∧ ¬Fits dataBits (a - b) then b < a else a < b := by
    rw [hless]
    exact Alu.less_sub_iff ha hb _
  intro behind clamped
  have hiff : (op != .cmp && modes.aluSat) = true ∧ ¬Fits dataBits (a - b) ↔ clamped := by
    rw [Bool.and_eq_true, bne_iff_ne, and_assoc]
  by_cases hclamped : clamped
  · have htells : (behind.flags l).real.less = true ↔ b < a := htells.trans (by rw [if_pos (hiff.2 hclamped)])
    -- a difference that does not fit is not zero
    have hne : a ≠ b := by
      rintro rfl
      exact hclamped.2.2 (by rw [Int.sub_self]; decide)
    refine ⟨iff_of_false (fun hless => ?_) (not_not_intro hclamped), fun _ => Core.tellsLess_iff.2 htells⟩
    have hboth := htells.symm.trans (Core.tellsLess_iff.1 hless)
    omega
  · have htells : (behind.flags l).real.less = true ↔ a < b :=
      htells.trans (by rw [if_neg (mt hiff.1 hclamped)])
    exact ⟨iff_of_true (Core.tellsLess_iff.2 htells) hclamped, fun hc => absurd hc hclamped⟩

theorem Reachable.tellsLess_step_iff_farApart :
    let sim := (Simulator.step^[4] (Simulator.load farApart {})).inModes { aluSat := true }
    sim.TakesDifference .sub 0 (-2048) 1 ∧ ¬sim.step.core.TellsLess 0 (-2048) 1 ∧
      sim.step.core.TellsLess 0 1 (-2048) := by
  have hsub : ((Simulator.step^[4] (Simulator.load farApart {})).inModes { aluSat := true }).TakesDifference
      .sub 0 (-2048) 1 :=
    ⟨4, _, _, 0, 1, .reg ⟨.general, 2⟩, rfl, rfl, ⟨rfl, _, rfl, List.mem_singleton_self _⟩,
      ⟨rfl, by decide, fun _ => rfl, nofun⟩, ⟨_, rfl, rfl⟩, ⟨_, rfl, rfl⟩⟩
  obtain ⟨hiff, hclamped⟩ := Reachable.tellsLess_step_iff (Reachable.load.iterate 4) _ hsub
  have hfar : Opcode.sub ≠ .cmp ∧ true = true ∧ ¬Fits dataBits (-2048 - 1) := by decide
  exact ⟨hsub, fun htells => hiff.1 htells hfar, hclamped hfar⟩

end Simulator

end QuadDsp
