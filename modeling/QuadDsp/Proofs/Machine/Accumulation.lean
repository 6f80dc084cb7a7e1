import Mathlib.Tactic.IntervalCases
import QuadDsp.Proofs.Machine.Issued
import QuadDsp.Proofs.Machine.Products

/-! # Accumulation

Words in a row that multiply data registers into one accumulator, alone or in bundles (`Simulator.Accumulates`). Each
leaves the accumulator, the overflow flag and its sticky companion as `Multiplier.step` says
(`Simulator.Multiplies.step`), for no other operation of a bundle sets these flags
(`Instruction.Issues.not_hits_product`). What a row leaves is in `Simulator.Accumulates.exists_values`. -/

namespace QuadDsp

/-- MPY, MAC or MAS of two data registers. -/
structure Member.Multiplies (m : Member) (op : Opcode) (mode : MulMode) (acc x y : Nat) : Prop where
  opcode : m.opcode = op
  mode : m.mulMode = mode
  acc : m.operand? (.nth 0) = some (.reg ⟨.acc, acc⟩)
  x : m.operand? (.nth 1) = some (.reg ⟨.general, x⟩)
  y : m.operand? (.nth 2) = some (.reg ⟨.general, y⟩)

/-- The effects of a product. -/
def Effects.product (acc : Nat) (v : Lanes Flagged) : Effects :=
  .ofWrites [.acc acc (v.map Prod.fst), .flags .real .multiplier (v.map Prod.snd)]

/-- The flags that a product sets: MV, MN and MVS. -/
def Flags.IsProduct (n : Nat) : Prop := n = 6 ∨ n = 7 ∨ n = 11

namespace Cell

variable (s : Core) (mem : Memory) (mask : Mask) (acc : Nat) (v : Lanes Flagged)

theorem behind_acc_product : (Cell.acc acc).behind s mem mask (Effects.product acc v).writes =
    (s.acc acc).map fun old => Lanes.merge mask old (v.map Prod.fst) := by
  show ((s.apply mask (.acc acc (v.map Prod.fst))).apply mask (.flags .real .multiplier (v.map Prod.snd))).acc acc = _
  rw [acc_apply, acc_apply]
  exact if_pos rfl

theorem behind_flag_product {l : Lane} (hl : mask l = true) (n : Nat) :
    (Cell.flag l .real n).behind s mem mask (Effects.product acc v).writes =
      (Flags.update .multiplier (v l).2 (s.flags l).real).toList[n]? := by
  have hfront : ∀ w ∈ [Write.acc acc (v.map Prod.fst)], w.KeepsFlags := by simp [Write.KeepsFlags]
  exact (behind_flag_last hfront mem .real .multiplier (v.map Prod.snd) hl n).trans (by rw [Lanes.map_apply]; rfl)

end Cell

namespace Member.Multiplies

variable {m : Member} {op : Opcode} {mode : MulMode} {acc x y : Nat} (h : m.Multiplies op mode acc x y)
  (hop : op ∈ bundledMac) (hm : m.Fit)

include h hop hm

theorem shape : m.shape = .accRR := by
  have htakes := hm.takes (u := .multiply) (by rw [h.opcode, unit?_of_bundledMac op hop])
  simp only [ExecUnit.takes, decide_eq_true_eq, List.mem_cons, List.not_mem_nil, or_false] at htakes
  rcases htakes with htakes | hcomplex
  · exact htakes
  · obtain ⟨hcls, -⟩ := hm.classified.cls_of_operand h.x (by rw [hcomplex]; rfl) rfl
    cases hcls

theorem execute (cx : Context) {a b old : Lanes Int} (ha : cx.core.reg x = .ok a) (hb : cx.core.reg y = .ok b)
    (hold : cx.core.acc acc = .ok old) : m.execute cx = .ok (.product acc (.ofFn fun l =>
      Multiplier.step op mode cx.core.modes.macSat (old l) (Multiplier.product mode (a l) (b l)))) := by
  rw [execute_eq_run (u := .multiply) (by rw [h.opcode, unit?_of_bundledMac op hop]), ExecUnit.run, Context.multiply,
    regIndex_of_operand h.acc, regIndex_of_operand h.x, regIndex_of_operand h.y, h.shape hop hm]
  simp only [bind, Except.bind, Context.multiplyReal, ha, hb, hold, h.opcode, h.mode]
  rfl

end Member.Multiplies

theorem Member.Bundled.role_of_accRR {m : Member} (h : m.Bundled) (hshape : m.shape = .accRR) : m.role = .mac := by
  have hpart := hshape.symm.trans h.takes.shape
  cases hrole : m.role <;> rw [hrole] at hpart <;> first | rfl | exact absurd hpart (by decide)

/-- Beside a product, no operation of a bundle sets the flags of products. -/
theorem Instruction.Issues.not_hits_product {i : Instruction} {m m' : Member} (h : i.Issues m)
    (hshape : m.shape = .accRR) (h' : i.Issues m') (hne : m' ≠ m) {cx : Context} {fx : Effects}
    (hfx : m'.execute cx = .ok fx) {l : Lane} {n : Nat} (hn : Flags.IsProduct n) : ¬fx.Hits (.flag l .real n) := by
  obtain ⟨sel', hs', hm'⟩ := h'.selected
  rcases h.alone_or_bundled with ⟨sel, hs, hmembers, -⟩ | ⟨sel, hs, hbundle, hm, hbundled, -⟩ <;>
    cases hs.symm.trans hs'
  · rw [hmembers, List.mem_singleton] at hm'
    exact absurd hm' hne
  · obtain ⟨t, ht, hfills⟩ := select_fills hs
    have hbeside := hfills.beside ht h.structured hm hm' hne.symm
    have hrole := hbundled.role_of_accRR hshape
    obtain ⟨hbundled', hcoded'⟩ := selectBundle_members (selectBundle_of_select hs hbundle) m' hm'
    rintro ⟨w, hw, hhits⟩
    obtain ⟨group, v, rfl, htouched⟩ := Write.eq_of_hits_flag hhits
    have hleaves := Member.leaves_of_execute hbundled' hcoded' hfx
    rcases hleaves.touches _ hw with ⟨hrole', rfl⟩ | ⟨hrole', rfl⟩ | ⟨hrole', rfl⟩
    · -- a sum sets the flags of sums, and does not overflow as a product does
      have hmul := (Member.latches_of_alu hbundled' hcoded' hrole' hfx hw l).1
      rcases hn with rfl | rfl | rfl <;> simp [Flags.touched, Flags.toList, Flags.arith, hmul] at htouched
    · exact hbeside.role (hrole.trans hrole'.symm)
    · exact absurd (hbeside.shf' hrole') (by rw [hrole]; decide)

/-! ### One product -/

/-- In a lane an accumulator holds a value. -/
def Core.Holds (s : Core) (acc : Nat) (l : Lane) (v : Int) : Prop := ∃ u, s.acc acc = .ok u ∧ u l = v

namespace Simulator

/-- The next word multiplies two data registers into an accumulator, perhaps together with other operations; in a lane
its condition holds, and the registers hold these factors. -/
def Multiplies (sim : Simulator) (acc : Nat) (l : Lane) (op : Opcode) (mode : MulMode) (a b : Int) : Prop :=
  ∃ idx i m x y, sim.current? = some (idx, i) ∧ sim.core.holds i.cond l = true ∧ i.Issues m ∧
    m.Multiplies op mode acc x y ∧ sim.core.Gives (.reg ⟨.general, x⟩) l a ∧ sim.core.Gives (.reg ⟨.general, y⟩) l b

variable {sim : Simulator} {acc : Nat} {l : Lane} {op : Opcode} {mode : MulMode} {a b old : Int}

/-- What a product leaves in a lane. -/
theorem Multiplies.step (h : sim.Multiplies acc l op mode a b) (hop : op ∈ bundledMac)
    (hold : sim.core.Holds acc l old) :
    let z := Multiplier.step op mode sim.core.modes.macSat old (Multiplier.product mode a b)
    let before := (sim.core.flags l).real
    let behind := (sim.step.core.flags l).real
    sim.step.core.Holds acc l z.1 ∧ behind.mulOverflow = z.2.mulOverflow ∧ behind.mulNegative = z.2.mulNegative ∧
      behind.stickyMul = (before.stickyMul || z.2.mulOverflow) ∧ sim.step.core.modes = sim.core.modes := by
  intro z before behind
  obtain ⟨idx, i, m, x, y, hcurrent, hcond, hi, hm, ⟨u, hu, rfl⟩, ⟨w, hw, rfl⟩⟩ := h
  obtain ⟨olds, holds, rfl⟩ := hold
  have hfit := hi.fit
  have hasks : m.opcode.asks = false := by
    rw [hm.opcode]
    exact Opcode.asks_of_bundled op (by simp [hop])
  have hfx := hm.execute hop hfit ⟨sim.core, sim.mem, sim.program, sim.core.mask i.cond⟩ hu hw holds
  have hl := (sim.core.mask_apply i.cond l).trans hcond
  have hz : (Lanes.ofFn fun l => Multiplier.step op mode sim.core.modes.macSat (olds l)
      (Multiplier.product mode (u l) (w l))) l = z := Lanes.ofFn_apply _ l
  have hflag {n : Nat} (hn : Flags.IsProduct n) :
      behind.toList[n]? = (Flags.update .multiplier z.2 before).toList[n]? := by
    have hread := (read_step hcurrent (hi.asks hasks) (.flag l .real n)).trans
      (hi.after_of_others hfx fun m' fx' h' hne hfx' => hi.not_hits_product (hm.shape hop hfit) h' hne hfx' hn)
    rwa [Cell.behind_flag_product _ _ _ _ _ hl, hz] at hread
  refine ⟨?_, ?_, ?_, ?_, ?_⟩
  · have hread := read_step_of_hits hcurrent hi hasks hfx (c := .acc acc) ⟨_, List.mem_cons_self, rfl⟩
    rw [Cell.behind_acc_product, holds] at hread
    refine ⟨_, hread, ?_⟩
    rw [Lanes.merge_apply, if_pos hl, Lanes.map_apply, hz]
  · exact Option.some.inj (hflag (.inl rfl))
  · exact Option.some.inj (hflag (.inr (.inl rfl)))
  · exact Option.some.inj (hflag (.inr (.inr rfl)))
  · exact modes_step_of_issues hcurrent hi hasks hfx (by simp [Effects.product, Effects.ofWrites, Write.place])

/-! ### Rows of products -/

/-- The next `n` words have these operations on one accumulator, with these factors in a lane. -/
structure Accumulates (sim : Simulator) (acc : Nat) (l : Lane) (n : Nat) (terms : Nat → Multiplier.Term) : Prop where
  words : ∀ k < n, (step^[k] sim).Multiplies acc l (terms k).op (terms k).mode (terms k).x (terms k).y
  ops : ∀ k < n, (terms k).op ∈ [Opcode.mpy, .mac, .mas]
  fits : ∀ k < n, Fits dataBits (terms k).x ∧ Fits dataBits (terms k).y

/-- The flags of a lane behind the first `k` words. -/
def flagsAt (sim : Simulator) (l : Lane) (k : Nat) : Flags := ((step^[k] sim).core.flags l).real

/-- Behind each of `n` words a lane of an accumulator holds these values, wrapped to 32 bits: modulo 2^32 they are the
sum of the signed products from the latest MPY on, where no product is rounded. -/
structure Wraps (sim : Simulator) (l : Lane) (n : Nat) (terms : Nat → Multiplier.Term) (value : Nat → Int) : Prop where
  next : ∀ k < n, value (k + 1) = wrap 32 ((terms k).result (value k))
  total : (∀ k < n, (terms k).mode ≠ .rnd) → ∀ k < n, value (k + 1) =
    wrap 32 (Multiplier.total (value 0) (fun k => (terms k).op) (fun k => (terms k).product) (k + 1))
  overflow : ∀ k < n, (sim.flagsAt l (k + 1)).mulOverflow = true ↔ ¬Fits 24 (value (k + 1))
  sticky : (sim.flagsAt l n).stickyMul = true ↔
    (sim.flagsAt l 0).stickyMul = true ∨ ∃ k < n, ¬Fits 24 (value (k + 1))

/-- Behind each of `n` words a lane of an accumulator holds these values, clamped to 24 bits. -/
structure Saturates (sim : Simulator) (l : Lane) (n : Nat) (terms : Nat → Multiplier.Term) (value : Nat → Int) :
    Prop where
  fits : ∀ k < n, Fits 24 (value (k + 1))
  next : ∀ k < n, value (k + 1) = clamp 24 ((terms k).result (value k))
  overflow : ∀ k < n, (sim.flagsAt l (k + 1)).mulOverflow = true ↔ ¬Fits 24 ((terms k).result (value k))

variable {n : Nat} {terms : Nat → Multiplier.Term} {start : Int}

/-- What a row of products leaves in a lane, as the multiplier computes it. -/
theorem Accumulates.holds (h : sim.Accumulates acc l n terms) (hstart : sim.core.Holds acc l start) {k : Nat}
    (hk : k ≤ n) : (step^[k] sim).core.Holds acc l (Multiplier.run sim.core.modes.macSat start terms k) ∧
      (step^[k] sim).core.modes = sim.core.modes := by
  induction k with
  | zero => exact ⟨hstart, rfl⟩
  | succ k ih =>
    obtain ⟨hholds, hmodes⟩ := ih (by omega)
    obtain ⟨hnext, -, -, -, hkept⟩ := (h.words k hk).step (h.ops k hk) hholds
    rw [Function.iterate_succ_apply']
    rw [hmodes] at hnext hkept
    exact ⟨hnext, hkept⟩

theorem Accumulates.flags (h : sim.Accumulates acc l n terms) (hstart : sim.core.Holds acc l start) {k : Nat}
    (hk : k < n) :
    let z := (terms k).step sim.core.modes.macSat (Multiplier.run sim.core.modes.macSat start terms k)
    (sim.flagsAt l (k + 1)).mulOverflow = z.2.mulOverflow ∧
      (sim.flagsAt l (k + 1)).stickyMul = ((sim.flagsAt l k).stickyMul || z.2.mulOverflow) := by
  obtain ⟨hholds, hmodes⟩ := h.holds hstart (Nat.le_of_lt hk)
  obtain ⟨-, hoverflow, -, hsticky, -⟩ := (h.words k hk).step (h.ops k hk) hholds
  rw [hmodes] at hoverflow hsticky
  unfold flagsAt
  rw [Function.iterate_succ_apply']
  exact ⟨hoverflow, hsticky⟩

/-- The sticky flag is set where it was, or where a word has overflowed. -/
theorem Accumulates.sticky (h : sim.Accumulates acc l n terms) (hstart : sim.core.Holds acc l start) {k : Nat}
    (hk : k ≤ n) : (sim.flagsAt l k).stickyMul = true ↔
      (sim.flagsAt l 0).stickyMul = true ∨ ∃ j < k, (sim.flagsAt l (j + 1)).mulOverflow = true := by
  induction k with
  | zero => simp
  | succ k ih =>
    obtain ⟨hoverflow, hsticky⟩ := h.flags hstart hk
    rw [hsticky, ← hoverflow, Bool.or_eq_true, ih (by omega), Nat.exists_lt_succ_right, or_assoc]

/-- Real multiplication and accumulation are exact: without saturation the values of the accumulator are the exact
results, wrapped, and with it those results, clamped. -/
theorem Accumulates.exists_values (h : sim.Accumulates acc l n terms) (hstart : sim.core.Holds acc l start) :
    ∃ value : Nat → Int, value 0 = start ∧ (∀ k ≤ n, (step^[k] sim).core.Holds acc l (value k)) ∧
      (sim.core.modes.macSat = false → sim.Wraps l n terms value) ∧
      (sim.core.modes.macSat = true → Fits 24 start → sim.Saturates l n terms value) := by
  refine ⟨Multiplier.run sim.core.modes.macSat start terms, rfl, fun k hk => (h.holds hstart hk).1,
    fun hwraps => ?_, fun hsaturates hfits => ?_⟩
  · have hflags {k : Nat} (hk : k < n) := (h.flags hstart hk).1
    have hsticky := h.sticky hstart le_rfl
    rw [hwraps] at hflags ⊢
    have hstep (k : Nat) := (terms k).step_wrap (Multiplier.run false start terms k)
    have hoverflow (k : Nat) (hk : k < n) : (sim.flagsAt l (k + 1)).mulOverflow = true ↔
        ¬Fits 24 (Multiplier.run false start terms (k + 1)) := by
      rw [hflags hk]
      exact (hstep k).2
    refine ⟨fun k _ => (hstep k).1, fun hmodes k hk => ?_, hoverflow, ?_⟩
    · exact Multiplier.eq_wrap_total (fun j _ => (hstep j).1) (fun j hj => h.ops j (by omega))
        fun j hj => hmodes j (by omega)
    · rw [hsticky]
      exact or_congr_right (exists_congr fun k => and_congr_right fun hk => hoverflow k hk)
  · have hflags {k : Nat} (hk : k < n) := (h.flags hstart hk).1
    rw [hsaturates] at hflags ⊢
    have hstep {k : Nat} (hk : k < n) (hold : Fits 24 (Multiplier.run true start terms k)) :=
      Multiplier.Term.step_saturate (h.ops k hk) (h.fits k hk) hold
    have hrange (k : Nat) (hk : k ≤ n) : Fits 24 (Multiplier.run true start terms k) := by
      induction k with
      | zero => exact hfits
      | succ k ih =>
        rw [Multiplier.run, (hstep hk (ih (by omega))).1]
        exact fits_clamp 24 _
    refine ⟨fun k hk => hrange (k + 1) hk, fun k hk => (hstep hk (hrange k (by omega))).1, fun k hk => ?_⟩
    rw [hflags hk]
    exact (hstep hk (hrange k (by omega))).2

/-- An unsigned product, and a signed one taken from it while a register is loaded. -/
def productWords : Program :=
  ([{ line := 1
      opcode := .mpy
      operands := [.reg ⟨.acc, 0⟩, .reg ⟨.general, 0⟩, .reg ⟨.general, 1⟩, .key (.mul .uu)] },
    { line := 2
      opcode := .mas
      operands := [.reg ⟨.acc, 0⟩, .reg ⟨.general, 0⟩, .reg ⟨.general, 1⟩, .key (.mul .ss)]
      siblings := [{ line := 2, opcode := .ld, operands := [.reg ⟨.general, 4⟩, .mem ⟨.data, .post 0 0⟩] }] }].foldl
    Builder.push (Builder.origin 0)).program

/-- The same twelve bits in two registers, in front of the words that multiply them. -/
def ownProducts : Simulator :=
  let sim := load productWords {}
  { sim with core := (sim.core.setReg 0 (Lanes.fill (-1)) Mask.all).setReg 1 (Lanes.fill (-1)) Mask.all }

def ownTerms (k : Nat) : Multiplier.Term := if k = 0 then ⟨.mpy, .uu, -1, -1⟩ else ⟨.mas, .ss, -1, -1⟩

theorem accumulates_ownProducts : ownProducts.Accumulates 0 0 2 ownTerms := by
  refine ⟨fun k hk => ?_, fun k hk => ?_, fun k hk => ?_⟩
  · interval_cases k
    · exact ⟨0, _, _, 0, 1, rfl, rfl, ⟨rfl, _, rfl, List.mem_singleton_self _⟩, ⟨rfl, rfl, rfl, rfl, rfl⟩,
        ⟨_, rfl, rfl⟩, ⟨_, rfl, rfl⟩⟩
    · exact ⟨1, _, _, 0, 1, rfl, rfl, ⟨rfl, _, rfl, List.mem_cons_self⟩, ⟨rfl, rfl, rfl, rfl, rfl⟩, ⟨_, rfl, rfl⟩,
        ⟨_, rfl, rfl⟩⟩
  · interval_cases k <;> decide
  · interval_cases k <;> decide

theorem Accumulates.exists_values_ownProducts : ownProducts.Accumulates 0 0 2 ownTerms ∧
    ownProducts.core.Holds 0 0 0 ∧ (step^[2] ownProducts).core.Holds 0 0 16769024 ∧
      (ownProducts.flagsAt 0 2).stickyMul = true := by
  have hstart : ownProducts.core.Holds 0 0 0 := ⟨_, rfl, rfl⟩
  obtain ⟨value, hzero, hholds, hwraps, -⟩ := Accumulates.exists_values accumulates_ownProducts hstart
  obtain ⟨-, htotal, -, hsticky⟩ := hwraps rfl
  have hplain : ∀ k < 2, (ownTerms k).mode ≠ .rnd := by decide
  have hfirst := htotal hplain 0 (by decide)
  have hsecond := htotal hplain 1 (by decide)
  rw [hzero] at hfirst hsecond
  refine ⟨accumulates_ownProducts, hstart, ?_, hsticky.2 (.inr ⟨0, by decide, ?_⟩)⟩
  · have hvalue : value 2 = 16769024 := hsecond.trans (by decide)
    exact hvalue ▸ hholds 2 le_rfl
  · rw [hfirst]
    decide

end Simulator

end QuadDsp
