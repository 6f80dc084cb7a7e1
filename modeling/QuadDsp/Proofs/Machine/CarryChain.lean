import Mathlib.Tactic.IntervalCases
import QuadDsp.Proofs.Machine.Issued
import QuadDsp.Proofs.Machine.Limbs

/-! # Carry chains

Numbers of any length are added and subtracted limb by limb: an addition of the lowest limbs, then additions with carry
of the others, with loads, stores and moves in between (`Simulator.Chain`). Each word does in each lane what
`Alu.addSub` does with the carry that the words before it have left (`Simulator.Chain.linked`), so the registers hold
the limbs of the whole result, and the flags behind the last word are those of the whole numbers
(`Simulator.Chain.exists_limbs`). -/

namespace QuadDsp

/-- The operation that begins a chain, or that carries it on. -/
def Opcode.chained (first subtract : Bool) : Opcode :=
  match first, subtract with
  | true, false => .add
  | false, false => .adc
  | true, true => .sub
  | false, true => .sbc

/-- An operation on data registers, the second of which can be a number instead. -/
structure Member.Combines (m : Member) (op : Opcode) (rd x : Nat) (y : Operand) : Prop where
  opcode : m.opcode = op
  rd : m.operand? (.nth 0) = some (.reg ⟨.general, rd⟩)
  x : m.operand? (.nth 1) = some (.reg ⟨.general, x⟩)
  y : m.operand? (.nth 2) = some y

namespace Cell

variable (s : Core) (mem : Memory) (mask : Mask) (rd : Nat) (group : Flags) (v : Lanes Flagged)

theorem behind_reg_result : (Cell.reg rd).behind s mem mask (Effects.result rd group v).writes =
    (s.reg rd).map fun old => Lanes.merge mask old ((v.map Prod.fst).map (wrap dataBits)) := by
  show ((s.apply mask (.reg rd (v.map Prod.fst))).apply mask (.flags .real group (v.map Prod.snd))).reg rd = _
  rw [reg_apply, reg_apply]
  exact if_pos rfl

theorem behind_flag_result {l : Lane} (hl : mask l = true) (n : Nat) :
    (Cell.flag l .real n).behind s mem mask (Effects.result rd group v).writes =
      (Flags.update group (v l).2 (s.flags l).real).toList[n]? := by
  have hfront : ∀ w ∈ [Write.reg rd (v.map Prod.fst)], w.KeepsFlags := by simp [Write.KeepsFlags]
  exact (behind_flag_last hfront mem .real group (v.map Prod.snd) hl n).trans (by rw [Lanes.map_apply]; rfl)

end Cell

namespace Member

variable {m : Member} {op : Opcode} {rd x : Nat} {y : Operand}

theorem Combines.shape (h : m.Combines op rd x y) (hop : op.unit? = some .binary) (hm : m.Fit) :
    m.shape = .rrr ∨ m.shape = .rrImm := by
  have htakes := hm.takes (u := .binary) (by rw [h.opcode, hop])
  simp only [ExecUnit.takes, decide_eq_true_eq, Bool.decide_or, Bool.or_eq_true, List.mem_cons, List.not_mem_nil,
    or_false] at htakes
  rcases htakes with htakes | ⟨hcomplex, -⟩
  · exact htakes
  · obtain ⟨hcls, -⟩ := hm.classified.cls_of_operand h.rd (by rw [hcomplex]; rfl) rfl
    cases hcls

theorem Combines.lt (h : m.Combines op rd x y) (hop : op.unit? = some .binary) (hm : m.Fit) : rd < 32 :=
  (hm.classified.cls_of_operand h.rd (m.shape.slots_of_ternary (h.shape hop hm)).1 rfl).2

/-- What the operation does in each lane. -/
theorem Combines.execute (h : m.Combines op rd x y) (hop : op.unit? = some .binary) (hm : m.Fit) (cx : Context)
    {a : Lanes Int} (ha : cx.core.reg x = .ok a) :
    ∃ b : Lanes Int, (∀ l v, cx.core.Gives y l v → Fits dataBits v → b l = v) ∧
      m.execute cx = .ok (.result rd .arith (.ofFn fun l =>
        Alu.binary op (a l) (b l) (cx.core.flags l).real.carry cx.core.modes.aluSat)) := by
  have hshape := h.shape hop hm
  have hslot : m.shape.slots[2]? = some (if m.shape == .rrImm then .imm else .general) := by
    rcases hshape with hshape | hshape <;> rw [hshape] <;> rfl
  obtain ⟨b, hinput, hb⟩ := hm.classified.exists_input hslot h.y cx
  have hbinary : m.execute cx = cx.binary m := by
    rw [execute_eq_run (u := .binary) (by rw [h.opcode, hop]), ExecUnit.run, ExecUnit.run.arithmetic]
    rcases hshape with hshape | hshape <;> rw [hshape]
  refine ⟨b, hb, ?_⟩
  rw [hbinary, Context.binary, regIndex_of_operand h.rd, hinput, Context.reg, regIndex_of_operand h.x, h.opcode]
  simp only [bind, Except.bind, ha]
  rfl

end Member

/-! ### One word of a chain -/

theorem Opcode.unit?_chained (first subtract : Bool) : (chained first subtract).unit? = some .binary := by
  cases first <;> cases subtract <;> rfl

theorem Opcode.asks_chained (first subtract : Bool) : (chained first subtract).asks = false := by
  cases first <;> cases subtract <;> rfl

/-- The first word of a chain takes no carry. -/
theorem Alu.binary_chained (first subtract : Bool) (a b : Int) (carry saturate : Bool) :
    binary (.chained first subtract) a b carry saturate =
      addSub a b (if first then subtract else carry) subtract saturate := by
  cases first <;> cases subtract <;> rfl

namespace Simulator

/-- The next word has an operation on limbs, perhaps together with others, and its condition holds in a lane. -/
def Links (sim : Simulator) (l : Lane) (op : Opcode) (rd x : Nat) (y : Operand) : Prop :=
  ∃ idx i m, sim.current? = some (idx, i) ∧ sim.core.holds i.cond l = true ∧ i.Issues m ∧ m.Combines op rd x y

variable {sim : Simulator} {first subtract : Bool} {rd x : Nat} {y : Operand} {l : Lane} {a b : Int}

/-- What a word of a chain leaves in a lane, where sums are not saturated. -/
theorem Links.step (h : sim.Links l (.chained first subtract) rd x y) (hsat : sim.core.modes.aluSat = false)
    (ha : sim.core.Gives (.reg ⟨.general, x⟩) l a) (hb : sim.core.Gives y l b) (hfits : Fits dataBits b) :
    let z := Alu.addSub a b (if first then subtract else (sim.core.flags l).real.carry) subtract false
    sim.step.core.Gives (.reg ⟨.general, rd⟩) l z.1 ∧ (sim.step.core.flags l).real.carry = z.2.carry ∧
      (sim.step.core.flags l).real.overflow = z.2.overflow ∧ sim.step.core.modes = sim.core.modes := by
  intro z
  obtain ⟨idx, i, m, hcurrent, hcond, hi, hm⟩ := h
  have hop := Opcode.unit?_chained first subtract
  have hasks : m.opcode.asks = false := by rw [hm.opcode, Opcode.asks_chained]
  have hfit := hi.fit
  obtain ⟨u, hu, rfl⟩ := ha
  obtain ⟨w, hw, hfx⟩ := hm.execute hop hfit ⟨sim.core, sim.mem, sim.program, sim.core.mask i.cond⟩ hu
  have hl := (sim.core.mask_apply i.cond l).trans hcond
  have hz : (Lanes.ofFn fun l => Alu.binary (.chained first subtract) (u l) (w l) (sim.core.flags l).real.carry
      sim.core.modes.aluSat) l = z := by
    rw [Lanes.ofFn_apply, hw l b hb hfits, hsat, Alu.binary_chained]
  have hflag (n : Nat) (hn : n < 5) :
      (sim.step.core.flags l).real.toList[n]? = (Flags.update .arith z.2 (sim.core.flags l).real).toList[n]? := by
    have hread := read_step_of_hits hcurrent hi hasks hfx (c := .flag l .real n)
      ⟨_, List.mem_cons_of_mem _ (List.mem_singleton_self _), rfl, by interval_cases n <;> rfl⟩
    rwa [Cell.behind_flag_result _ _ _ _ _ _ hl, hz] at hread
  refine ⟨?_, ?_, ?_, ?_⟩
  · obtain ⟨old, hold⟩ : ∃ old, sim.core.reg rd = .ok old := Core.fetch_of_lt _ (hm.lt hop hfit)
    have hreg := read_step_of_hits hcurrent hi hasks hfx (c := .reg rd) ⟨_, List.mem_cons_self, rfl⟩
    rw [Cell.behind_reg_result, hold] at hreg
    refine ⟨_, hreg, ?_⟩
    rw [Lanes.merge_apply, if_pos hl, Lanes.map_apply, Lanes.map_apply, hz]
    exact (Alu.addSub_eq ..).symm ▸ wrap_wrap _ _
  · exact Option.some.inj (hflag 3 (by decide))
  · exact Option.some.inj (hflag 2 (by decide))
  · exact modes_step_of_issues hcurrent hi hasks hfx (by simp [Effects.result, Effects.ofWrites, Write.place])

/-! ### Chains -/

/-- At a step of a run, an operand stands for a value in a lane that it has been given at this step or an earlier one,
and no word in between writes its register. -/
def Supplies (sim : Simulator) (o : Operand) (l : Lane) (v : Int) (t : Nat) : Prop :=
  ∃ since ≤ t, (step^[since] sim).core.Gives o l v ∧
    ∀ r, o = .reg r → ∀ k, since ≤ k → k < t → ¬(step^[k] sim).WritesReg r.index

theorem Supplies.gives {o : Operand} {v : Int} {t : Nat} (h : sim.Supplies o l v t) :
    (step^[t] sim).core.Gives o l v := by
  obtain ⟨since, hle, hgives, hkept⟩ := h
  cases o with
  | reg r =>
    obtain ⟨u, hu, hv⟩ := hgives
    exact ⟨u, (reg_iterate hle (hkept r rfl)).trans hu, hv⟩
  | imm n => exact hgives
  | _ => exact hgives.elim

/-- Sums, or differences, of `k` limbs in a lane, at these steps of a run: each word hands its carry on to the next one,
and the words in between only load, store and move. -/
structure Chain (sim : Simulator) (l : Lane) (subtract : Bool) (k : Nat) (time rd x : Nat → Nat) (y : Nat → Operand) :
    Prop where
  ordered : ∀ j, j + 1 < k → time j < time (j + 1)
  links : ∀ j < k, (step^[time j] sim).Links l (.chained (j == 0) subtract) (rd j) (x j) (y j)
  between : ∀ j, j + 1 < k → ∀ n, time j < n → n < time (j + 1) → (step^[n] sim).Transfers

/-- In a lane, the words of a chain take the limbs of two numbers. -/
structure TakesLimbs (sim : Simulator) (l : Lane) (k : Nat) (time x : Nat → Nat) (y : Nat → Operand) (a b : Nat → Int) :
    Prop where
  fits : ∀ j < k, Fits dataBits (a j) ∧ Fits dataBits (b j)
  left : ∀ j < k, sim.Supplies (.reg ⟨.general, x j⟩) l (a j) (time j)
  right : ∀ j < k, sim.Supplies (y j) l (b j) (time j)

/-- Behind a word of a chain its register holds its limb of the result, and its carry is in the flag. -/
structure Linked (sim : Simulator) (l : Lane) (rd : Nat) (z : Flagged) : Prop where
  gives : sim.core.Gives (.reg ⟨.general, rd⟩) l z.1
  carry : (sim.core.flags l).real.carry = z.2.carry
  overflow : (sim.core.flags l).real.overflow = z.2.overflow
  wraps : sim.core.modes.aluSat = false

variable {k : Nat} {time rds xs : Nat → Nat} {ys : Nat → Operand} {as bs : Nat → Int}

theorem Links.linked (h : sim.Links l (.chained first subtract) rd x y) (hsat : sim.core.modes.aluSat = false)
    (ha : sim.core.Gives (.reg ⟨.general, x⟩) l a) (hb : sim.core.Gives y l b) (hfits : Fits dataBits b) {carry : Bool}
    (hcarry : (if first then subtract else (sim.core.flags l).real.carry) = carry) :
    sim.step.Linked l rd (Alu.addSub a b carry subtract false) := by
  subst hcarry
  obtain ⟨hgives, hcarry, hoverflow, hmodes⟩ := h.step hsat ha hb hfits
  exact ⟨hgives, hcarry, hoverflow, by rw [hmodes, hsat]⟩

/-- Every word of a chain does its part of the whole sum or difference. -/
theorem Chain.linked (h : sim.Chain l subtract k time rds xs ys) (hlimbs : sim.TakesLimbs l k time xs ys as bs)
    (hsat : (step^[time 0] sim).core.modes.aluSat = false) {j : Nat} (hj : j < k) :
    (step^[time j + 1] sim).Linked l (rds j) (Alu.ripple subtract as bs j) := by
  have hleft := (hlimbs.left j hj).gives
  have hright := (hlimbs.right j hj).gives
  rw [Function.iterate_succ_apply']
  induction j with
  | zero => exact (h.links 0 hj).linked hsat hleft hright (hlimbs.fits 0 hj).2 rfl
  | succ j ih =>
    -- the words since the one before have kept its carry
    have hbefore := ih (by omega) (hlimbs.left j (by omega)).gives (hlimbs.right j (by omega)).gives
    rw [← Function.iterate_succ_apply' step (time j) sim] at hbefore
    obtain ⟨hflags, hmodes⟩ := status_iterate (h.ordered j hj) fun n hn hlt => h.between j hj n hn hlt
    refine (h.links (j + 1) hj).linked ?_ hleft hright (hlimbs.fits (j + 1) hj).2 ?_
    · rw [hmodes]
      exact hbefore.wraps
    · rw [hflags]
      exact hbefore.carry

/-- A carry chain is exact: in a lane with the limbs of two numbers, behind each word its register holds a limb of the
result until another word writes it, the limbs together are the sum or the difference as far as they go, and the flags
behind the last word are those of the whole numbers. -/
theorem Chain.exists_limbs (h : sim.Chain l subtract (k + 1) time rds xs ys)
    (hlimbs : sim.TakesLimbs l (k + 1) time xs ys as bs) (hsat : (step^[time 0] sim).core.modes.aluSat = false) :
    ∃ r : Nat → Int,
      (∀ j ≤ k, Fits dataBits (r j) ∧
        ∀ n, time j < n → (∀ t, time j < t → t < n → ¬(step^[t] sim).WritesReg (rds j)) →
          (step^[n] sim).core.Gives (.reg ⟨.general, rds j⟩) l (r j)) ∧
      let f := ((step^[time k + 1] sim).core.flags l).real
      (subtract = false → Limbs.IsSum as bs r (k + 1) f.carry f.overflow) ∧
        (subtract = true → Limbs.IsDifference as bs r (k + 1) f.carry f.overflow) := by
  refine ⟨fun j => (Alu.ripple subtract as bs j).1,
    fun j hj => ⟨Alu.fits_ripple subtract as bs j, fun n hn hkept => ?_⟩, ?_⟩
  · obtain ⟨u, hu, hv⟩ := (h.linked hlimbs hsat (Nat.lt_succ_of_le hj)).gives
    exact ⟨u, (reg_iterate hn fun t ht hlt => hkept t ht hlt).trans hu, hv⟩
  · obtain ⟨ha, hb⟩ := hlimbs.fits k k.lt_succ_self
    have hlast := h.linked hlimbs hsat k.lt_succ_self
    dsimp only
    rw [hlast.carry, hlast.overflow]
    refine ⟨fun hsum => ?_, fun hdifference => ?_⟩
    · subst hsum
      exact Alu.isSum_ripple ha hb
    · subst hdifference
      exact Alu.isDifference_ripple ha hb

/-- The sum of two numbers of two limbs, with a load in between. -/
def longSumWords : Program :=
  ([{ line := 1, opcode := .add, operands := [.reg ⟨.general, 4⟩, .reg ⟨.general, 0⟩, .reg ⟨.general, 2⟩] },
    { line := 2, opcode := .ld, operands := [.reg ⟨.general, 6⟩, .imm 5] },
    { line := 3, opcode := .adc, operands := [.reg ⟨.general, 5⟩, .reg ⟨.general, 1⟩, .reg ⟨.general, 3⟩] }].foldl
      Builder.push (Builder.origin 0)).program

/-- The largest number of two limbs, and one, in front of the words that add them. -/
def longSum : Simulator :=
  let sim := load longSumWords {}
  { sim with
    core := ((sim.core.setReg 0 (Lanes.fill (-1)) Mask.all).setReg 1 (Lanes.fill 2047) Mask.all).setReg 2
      (Lanes.fill 1) Mask.all }

theorem chain_longSum : longSum.Chain 0 false 2 (2 * ·) (4 + ·) id (fun j => .reg ⟨.general, 2 + j⟩) := by
  refine ⟨fun j _ => by omega, fun j hj => ?_, fun j hj n hn hlt => ?_⟩
  · interval_cases j
    · refine ⟨0, _, _, rfl, rfl, ⟨rfl, _, rfl, List.mem_singleton_self _⟩, rfl, rfl, rfl, rfl⟩
    · refine ⟨2, _, _, rfl, rfl, ⟨rfl, _, rfl, List.mem_singleton_self _⟩, rfl, rfl, rfl, rfl⟩
  · obtain rfl : j = 0 := by omega
    obtain rfl : n = 1 := by omega
    refine ⟨fun idx i hcurrent => ?_, ?_⟩
    · cases hcurrent
      intro k hk
      cases List.mem_singleton.1 hk
      decide
    · intro w hw
      cases List.mem_singleton.1 hw
      exact id

theorem takesLimbs_longSum : longSum.TakesLimbs 0 2 (2 * ·) id (fun j => .reg ⟨.general, 2 + j⟩)
    (fun j => if j = 0 then -1 else 2047) (fun j => if j = 0 then 1 else 0) := by
  have hsupplied {o : Operand} {v : Int} {t : Nat} (hgives : (step^[t] longSum).core.Gives o 0 v) :
      longSum.Supplies o 0 v t :=
    ⟨t, le_rfl, hgives, fun _ _ n hle hlt => absurd hle (Nat.not_le_of_lt hlt)⟩
  refine ⟨fun j hj => ?_, fun j hj => hsupplied ?_, fun j hj => hsupplied ?_⟩
  · interval_cases j <;> decide
  · interval_cases j <;> exact ⟨_, rfl, rfl⟩
  · interval_cases j <;> exact ⟨_, rfl, rfl⟩

theorem Chain.exists_limbs_longSum : longSum.Chain 0 false 2 (2 * ·) (4 + ·) id (fun j => .reg ⟨.general, 2 + j⟩) ∧
    ∃ r : Nat → Int, (step^[3] longSum).core.Gives (.reg ⟨.general, 4⟩) 0 (r 0) ∧
      (step^[3] longSum).core.Gives (.reg ⟨.general, 5⟩) 0 (r 1) ∧ Limbs.value r 2 = 8388608 ∧
      ((step^[3] longSum).core.flags 0).real.carry = false ∧
      ((step^[3] longSum).core.flags 0).real.overflow = true := by
  obtain ⟨r, hr, hsum, -⟩ := Chain.exists_limbs chain_longSum takesLimbs_longSum rfl
  obtain ⟨hvalue, hcarry, hoverflow⟩ := hsum rfl
  refine ⟨chain_longSum, r, (hr 0 (by decide)).2 3 (by decide) ?_, (hr 1 (by decide)).2 3 (by decide) ?_, ?_, ?_, ?_⟩
  · rintro t ht hlt ⟨w, hw, hhits⟩
    interval_cases t
    · cases List.mem_singleton.1 hw
      cases hhits
    · rcases List.mem_cons.1 hw with rfl | hw
      · cases hhits
      · cases List.mem_singleton.1 hw
        exact hhits
  · intro t ht hlt
    omega
  · exact hvalue.trans (by decide)
  · rw [← Bool.not_eq_true]
    exact fun h => absurd (hcarry.1 h) (by decide)
  · exact hoverflow.2 (by decide)

end Simulator

end QuadDsp
