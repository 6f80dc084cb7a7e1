import QuadDsp.Proofs.Machine.Accumulation

/-! # Products of complex pairs

MPY, MAC and MAS of complex registers read the halves of both factors as signed numbers, in whatever mode; of the mode
only the rounding counts (`Simulator.MultipliesPairs.step`). What they leave is therefore what the mode asks for where
its product is the signed one, and without saturation nowhere else (`Simulator.MultipliesPairs.signed_product`). -/

namespace QuadDsp

namespace ComplexPair

/-- The halves are numbers of twelve bits. -/
structure InWidth (c : ComplexPair) : Prop where
  re : Fits dataBits c.re
  im : Fits dataBits c.im

/-- The product of two pairs whose halves are read as the mode says. -/
def product (mode : MulMode) (a b : ComplexPair) : ComplexPair :=
  ⟨Multiplier.exactProduct mode a.re b.re - Multiplier.exactProduct mode a.im b.im,
    Multiplier.exactProduct mode a.re b.im + Multiplier.exactProduct mode a.im b.re⟩

theorem product_ss (a b : ComplexPair) : product .ss a b = ⟨a.re * b.re - a.im * b.im, a.re * b.im + a.im * b.re⟩ := rfl

variable {a c : ComplexPair}

theorem InWidth.abs_conjIf_le (h : c.InWidth) (conj : Bool) :
    |(c.conjIf conj).re| ≤ 2048 ∧ |(c.conjIf conj).im| ≤ 2048 := by
  have hre := Multiplier.abs_le_of_fits h.re
  have him := Multiplier.abs_le_of_fits h.im
  unfold conjIf
  split
  · exact ⟨hre, (abs_neg c.im).trans_le him⟩
  · exact ⟨hre, him⟩

theorem abs_product_sub_lt (ha : a.InWidth) (hc : c.InWidth) (conj : Bool) (mode mode' : MulMode) :
    let p := a.product mode (c.conjIf conj)
    let q := a.product mode' (c.conjIf conj)
    |p.re - q.re| < 4294967296 ∧ |p.im - q.im| < 4294967296 := by
  obtain ⟨hre, him⟩ := hc.abs_conjIf_le conj
  have hbound (mode : MulMode) {x y : Int} (hx : |x| ≤ 2048) (hy : |y| ≤ 2048) :=
    abs_le.1 (Multiplier.abs_exactProduct_le mode hx hy)
  have hare := Multiplier.abs_le_of_fits ha.re
  have haim := Multiplier.abs_le_of_fits ha.im
  have h₁ := hbound mode hare hre
  have h₂ := hbound mode haim him
  have h₃ := hbound mode hare him
  have h₄ := hbound mode haim hre
  have h₅ := hbound mode' hare hre
  have h₆ := hbound mode' haim him
  have h₇ := hbound mode' hare him
  have h₈ := hbound mode' haim hre
  dsimp only [product]
  exact ⟨abs_lt.2 ⟨by omega, by omega⟩, abs_lt.2 ⟨by omega, by omega⟩⟩

end ComplexPair

/-- MPY, MAC or MAS of two complex registers, the second one conjugated or not. -/
structure Member.MultipliesPairs (m : Member) (op : Opcode) (mode : MulMode) (conj : Bool) (acc x y : Nat) : Prop where
  opcode : m.opcode = op
  mode : m.mulMode = mode
  conj : m.instr.conjugate = conj
  acc : m.operand? (.nth 0) = some (.reg ⟨.acc, acc⟩)
  x : m.operand? (.nth 1) = some (.reg ⟨.complex, x⟩)
  y : m.operand? (.nth 2) = some (.reg ⟨.complex, y⟩)

/-- The effects of a complex product. -/
def Effects.productPair (acc : Nat) (re im : Lanes Flagged) : Effects :=
  .halves (.acc acc (re.map Prod.fst)) (.acc (acc + 1) (im.map Prod.fst)) .multiplier fun
    | .real => re.map Prod.snd
    | .imag => im.map Prod.snd
    | .both => Lanes.zipWith Multiplier.both (re.map Prod.snd) (im.map Prod.snd)

namespace Cell

variable (s : Core) (mem : Memory) (mask : Mask) (acc : Nat) (re im : Lanes Flagged)

theorem behind_acc_productPair : (Cell.acc acc).behind s mem mask (Effects.productPair acc re im).writes =
    (s.acc acc).map fun old => Lanes.merge mask old (re.map Prod.fst) := by
  rw [Effects.productPair, behind_halves fun _ _ _ => id]
  show ((s.apply mask (.acc acc (re.map Prod.fst))).apply mask (.acc (acc + 1) (im.map Prod.fst))).acc acc = _
  rw [acc_apply, acc_apply]
  dsimp only
  rw [if_neg (Nat.succ_ne_self acc), if_pos rfl]

theorem behind_next_productPair : (Cell.acc (acc + 1)).behind s mem mask (Effects.productPair acc re im).writes =
    (s.acc (acc + 1)).map fun old => Lanes.merge mask old (im.map Prod.fst) := by
  rw [Effects.productPair, behind_halves fun _ _ _ => id]
  show ((s.apply mask (.acc acc (re.map Prod.fst))).apply mask (.acc (acc + 1) (im.map Prod.fst))).acc (acc + 1) = _
  rw [acc_apply, acc_apply]
  dsimp only
  rw [if_pos rfl, if_neg (Nat.succ_ne_self acc).symm]

end Cell

namespace Member.MultipliesPairs

variable {m : Member} {op : Opcode} {mode : MulMode} {conj : Bool} {acc x y : Nat}
  (h : m.MultipliesPairs op mode conj acc x y) (hop : op ∈ bundledMac) (hm : m.Fit)

include h hop hm

theorem shape : m.shape = .accCrCr := by
  have htakes := hm.takes (u := .multiply) (by rw [h.opcode, unit?_of_bundledMac op hop])
  simp only [ExecUnit.takes, decide_eq_true_eq, List.mem_cons, List.not_mem_nil, or_false] at htakes
  rcases htakes with hreal | htakes
  · obtain ⟨hcls, -⟩ := hm.classified.cls_of_operand h.x (by rw [hreal]; rfl) rfl
    cases hcls
  · exact htakes

theorem lt : acc + 1 < 8 := by
  have hshape := h.shape hop hm
  have hlt : acc < 8 := (hm.classified.cls_of_operand h.acc (by rw [hshape]; rfl) rfl).2
  have heven : acc % 2 = 0 := hm.pair hshape _ (reg?_of_operand h.acc)
  omega

theorem execute (cx : Context) {a c : Lanes ComplexPair} {oldRe oldIm : Lanes Int} (ha : cx.core.pair x = .ok a)
    (hc : cx.core.pair y = .ok c) (hre : cx.core.acc acc = .ok oldRe) (him : cx.core.acc (acc + 1) = .ok oldIm) :
    m.execute cx = .ok (.productPair acc
      (.ofFn fun l => Multiplier.step op mode cx.core.modes.macSat (oldRe l)
        ((a l).product .ss ((c l).conjIf conj)).re)
      (.ofFn fun l => Multiplier.step op mode cx.core.modes.macSat (oldIm l)
        ((a l).product .ss ((c l).conjIf conj)).im)) := by
  have hroom : ¬RegClass.acc.count ≤ acc + 1 := Nat.not_le_of_lt (h.lt hop hm)
  rw [execute_eq_run (u := .multiply) (by rw [h.opcode, unit?_of_bundledMac op hop]), ExecUnit.run, Context.multiply,
    regIndex_of_operand h.acc, regIndex_of_operand h.x, regIndex_of_operand h.y, h.shape hop hm]
  simp only [bind, Except.bind, Context.multiplyComplex, if_neg hroom, ha, hc, hre, him, h.opcode, h.mode, h.conj,
    Lanes.map_apply]
  rfl

end Member.MultipliesPairs

/-- In a lane a complex register holds a pair. -/
def Core.GivesPair (s : Core) (k : Nat) (l : Lane) (c : ComplexPair) : Prop := ∃ u, s.pair k = .ok u ∧ u l = c

/-- In a lane an accumulator and the one behind it hold what a step of the multiplier makes of their old values and the
halves of a product, and the banks of both halves have its flags. -/
structure Core.HoldsProduct (s : Core) (acc : Nat) (l : Lane) (step : Int → Int → Int × Flags) (oldRe oldIm : Int)
    (p : ComplexPair) : Prop where
  re : s.Holds acc l (step oldRe p.re).1
  im : s.Holds (acc + 1) l (step oldIm p.im).1
  reFlags : (s.flags l).real.mulOverflow = (step oldRe p.re).2.mulOverflow ∧
    (s.flags l).real.mulNegative = (step oldRe p.re).2.mulNegative
  imFlags : (s.flags l).imag.mulOverflow = (step oldIm p.im).2.mulOverflow ∧
    (s.flags l).imag.mulNegative = (step oldIm p.im).2.mulNegative

theorem Core.Holds.unique {s : Core} {acc : Nat} {l : Lane} {v w : Int} (h : s.Holds acc l v) (h' : s.Holds acc l w) :
    v = w :=
  Lanes.eq_of_read h h'

/-- In a lane, accumulators of two machines hold the same, and their flags of products are the same. -/
structure Core.SameProduct (s s' : Core) (acc acc' : Nat) (l : Lane) : Prop where
  value : ∃ v, s.Holds acc l v ∧ s'.Holds acc' l v
  overflow : (s.flags l).real.mulOverflow = (s'.flags l).real.mulOverflow
  negative : (s.flags l).real.mulNegative = (s'.flags l).real.mulNegative

namespace Simulator

/-- The next word multiplies two complex registers; in a lane its condition holds, and the registers hold these pairs,
the second one conjugated if the word asks for it. -/
def MultipliesPairs (sim : Simulator) (acc : Nat) (l : Lane) (op : Opcode) (mode : MulMode) (conj : Bool)
    (a c : ComplexPair) : Prop :=
  ∃ idx i m x y, sim.current? = some (idx, i) ∧ sim.core.holds i.cond l = true ∧ i.Issues m ∧
    m.MultipliesPairs op mode conj acc x y ∧ sim.core.GivesPair x l a ∧ sim.core.GivesPair y l c

variable {sim : Simulator} {acc : Nat} {l : Lane} {op : Opcode} {mode : MulMode} {conj : Bool} {a c : ComplexPair}
  {oldRe oldIm : Int}

/-- Whatever the mode, the halves are multiplied as signed numbers. -/
theorem MultipliesPairs.step (h : sim.MultipliesPairs acc l op mode conj a c) (hop : op ∈ bundledMac)
    (hre : sim.core.Holds acc l oldRe) (him : sim.core.Holds (acc + 1) l oldIm) :
    sim.step.core.HoldsProduct acc l (Multiplier.step op mode sim.core.modes.macSat) oldRe oldIm
      (a.product .ss (c.conjIf conj)) := by
  obtain ⟨idx, i, m, x, y, hcurrent, hcond, hi, hm, ⟨u, hu, rfl⟩, ⟨w, hw, rfl⟩⟩ := h
  obtain ⟨res, hres, rfl⟩ := hre
  obtain ⟨ims, hims, rfl⟩ := him
  have hfit := hi.fit
  have hasks : m.opcode.asks = false := by
    rw [hm.opcode]
    exact Opcode.asks_of_bundled op (by simp [hop])
  have hfx := hm.execute hop hfit ⟨sim.core, sim.mem, sim.program, sim.core.mask i.cond⟩ hu hw hres hims
  have hl := (sim.core.mask_apply i.cond l).trans hcond
  have hflag (bank : Bank) {n : Nat} (hn : n = 6 ∨ n = 7) :=
    flag_step_of_halves hcurrent hi hasks hfx trivial trivial hcond bank (n := n) (by rcases hn with rfl | rfl <;> rfl)
  refine ⟨?_, ?_, ?_, ?_⟩
  · have hread := read_step_of_hits hcurrent hi hasks hfx (c := .acc acc) ⟨_, List.mem_cons_self, rfl⟩
    rw [Cell.behind_acc_productPair, hres] at hread
    refine ⟨_, hread, ?_⟩
    rw [Lanes.merge_apply, if_pos hl, Lanes.map_apply, Lanes.ofFn_apply]
  · have hread := read_step_of_hits hcurrent hi hasks hfx (c := .acc (acc + 1))
      ⟨_, List.mem_cons_of_mem _ List.mem_cons_self, rfl⟩
    rw [Cell.behind_next_productPair, hims] at hread
    refine ⟨_, hread, ?_⟩
    rw [Lanes.merge_apply, if_pos hl, Lanes.map_apply, Lanes.ofFn_apply]
  · have hoverflow := Option.some.inj (hflag .real (.inl rfl))
    have hnegative := Option.some.inj (hflag .real (.inr rfl))
    simp only [Flags.update, Lanes.map_apply, Lanes.ofFn_apply] at hoverflow hnegative
    exact ⟨hoverflow, hnegative⟩
  · have hoverflow := Option.some.inj (hflag .imag (.inl rfl))
    have hnegative := Option.some.inj (hflag .imag (.inr rfl))
    simp only [Flags.update, Lanes.map_apply, Lanes.ofFn_apply] at hoverflow hnegative
    exact ⟨hoverflow, hnegative⟩

/-- Without saturation, a word that leaves what its mode asks for has a product that is the signed one. -/
theorem MultipliesPairs.product_eq_of_holds (h : sim.MultipliesPairs acc l op mode conj a c) (hop : op ∈ bundledMac)
    (ha : a.InWidth) (hc : c.InWidth) (hre : sim.core.Holds acc l oldRe) (him : sim.core.Holds (acc + 1) l oldIm)
    (hsat : sim.core.modes.macSat = false)
    (hholds : sim.step.core.HoldsProduct acc l (Multiplier.step op mode sim.core.modes.macSat) oldRe oldIm
      (a.product mode (c.conjIf conj))) :
    a.product mode (c.conjIf conj) = a.product .ss (c.conjIf conj) := by
  have hstep := h.step hop hre him
  by_cases hrnd : mode = .rnd
  · rw [hrnd]
    rfl
  · obtain ⟨hclose, hclose'⟩ := ComplexPair.abs_product_sub_lt ha hc conj mode .ss
    have hsame := hholds.re.unique hstep.re
    have hsame' := hholds.im.unique hstep.im
    rw [hsat] at hsame hsame'
    exact congrArg₂ ComplexPair.mk (Multiplier.step_wrap_inj hop hrnd hclose hsame)
      (Multiplier.step_wrap_inj hop hrnd hclose' hsame')

section Reals

variable {sim' : Simulator} {acc' : Nat} (h : sim.MultipliesPairs acc l op mode conj a c) (hop : op ∈ bundledMac)
  (hre : sim.core.Holds acc l oldRe) (him : sim.core.Holds (acc + 1) l oldIm) (ha : a.im = 0)
  (hreal : sim'.Multiplies acc' l op mode a.re c.re) (hold : sim'.core.Holds acc' l oldRe)
  (hmodes : sim'.core.modes.macSat = sim.core.modes.macSat)

include h hop hre him ha

/-- Where the first imaginary half is zero, the real accumulator has the signed product of the real halves. -/
theorem MultipliesPairs.step_of_real :
    let z := Multiplier.step op mode sim.core.modes.macSat oldRe (a.re * c.re)
    sim.step.core.Holds acc l z.1 ∧ (sim.step.core.flags l).real.mulOverflow = z.2.mulOverflow ∧
      (sim.step.core.flags l).real.mulNegative = z.2.mulNegative := by
  have hstep := h.step hop hre him
  have hconj : (c.conjIf conj).re = c.re := by
    unfold ComplexPair.conjIf
    split <;> rfl
  have hproduct : (a.product .ss (c.conjIf conj)).re = a.re * c.re := by
    rw [ComplexPair.product_ss, hconj, ha, Int.zero_mul, Int.sub_zero]
  exact hproduct ▸ ⟨hstep.re, hstep.reFlags⟩

include hreal hold hmodes

theorem MultipliesPairs.sameProduct (heq : Multiplier.exactProduct mode a.re c.re = a.re * c.re) :
    sim.step.core.SameProduct sim'.step.core acc acc' l := by
  obtain ⟨hleft, hoverflow, hnegative⟩ := h.step_of_real hop hre him ha
  obtain ⟨hright, hoverflow', hnegative', -⟩ := hreal.step hop hold
  rw [hmodes, Multiplier.product_eq, heq] at hright hoverflow' hnegative'
  exact ⟨⟨_, hleft, hright⟩, hoverflow.trans hoverflow'.symm, hnegative.trans hnegative'.symm⟩

theorem MultipliesPairs.exactProduct_eq_of_same (hare : Fits dataBits a.re) (hcre : Fits dataBits c.re)
    (hsat : sim.core.modes.macSat = false) (hsame : sim.step.core.SameProduct sim'.step.core acc acc' l) :
    Multiplier.exactProduct mode a.re c.re = a.re * c.re := by
  by_cases hrnd : mode = .rnd
  · rw [hrnd]
    rfl
  · obtain ⟨hleft, -⟩ := h.step_of_real hop hre him ha
    obtain ⟨hright, -⟩ := hreal.step hop hold
    rw [hmodes, Multiplier.product_eq] at hright
    obtain ⟨v, hv, hv'⟩ := hsame.value
    have heq := (hright.unique hv').trans (hv.unique hleft)
    rw [hsat] at heq
    exact Multiplier.step_wrap_inj hop hrnd (Multiplier.abs_exactProduct_sub_lt mode .ss
      (Multiplier.abs_le_of_fits hare) (Multiplier.abs_le_of_fits hcre)) heq

end Reals

/-- Complex products are signed in every mode. What the mode asks for is therefore left where the product in this mode
is the signed one, and without saturation nowhere else; and where both imaginary halves are zero, what the operation on
the real halves leaves is left under the same condition. -/
theorem MultipliesPairs.signed_product (h : sim.MultipliesPairs acc l op mode conj a c) (hop : op ∈ bundledMac)
    (ha : a.InWidth) (hc : c.InWidth) (hre : sim.core.Holds acc l oldRe) (him : sim.core.Holds (acc + 1) l oldIm) :
    let step := Multiplier.step op mode sim.core.modes.macSat
    let b := c.conjIf conj
    sim.step.core.HoldsProduct acc l step oldRe oldIm (a.product .ss b) ∧
      (a.product mode b = a.product .ss b → sim.step.core.HoldsProduct acc l step oldRe oldIm (a.product mode b)) ∧
      (sim.core.modes.macSat = false → sim.step.core.HoldsProduct acc l step oldRe oldIm (a.product mode b) →
        a.product mode b = a.product .ss b) ∧
      ∀ (sim' : Simulator) (acc' : Nat), a.im = 0 → c.im = 0 → sim'.Multiplies acc' l op mode a.re c.re →
        sim'.core.Holds acc' l oldRe → sim'.core.modes.macSat = sim.core.modes.macSat →
        (Multiplier.exactProduct mode a.re c.re = a.re * c.re →
          sim.step.core.SameProduct sim'.step.core acc acc' l) ∧
        (sim.core.modes.macSat = false → sim.step.core.SameProduct sim'.step.core acc acc' l →
          Multiplier.exactProduct mode a.re c.re = a.re * c.re) := by
  intro step b
  have hstep := h.step hop hre him
  refine ⟨hstep, fun heq => heq ▸ hstep, h.product_eq_of_holds hop ha hc hre him, ?_⟩
  intro sim' acc' hazero _ hreal hold hmodes
  exact ⟨h.sameProduct hop hre him hazero hreal hold hmodes,
    h.exactProduct_eq_of_same hop hre him hazero hreal hold hmodes ha.re hc.re⟩

/-- A machine in front of one word, with these numbers in `R0` and `R2`. -/
def beforeProduct (i : Instruction) (x y : Int) : Simulator :=
  let sim := load ((Builder.origin 0).push i).program {}
  { sim with core := (sim.core.setReg 0 (Lanes.fill x) Mask.all).setReg 2 (Lanes.fill y) Mask.all }

/-- The unsigned product of two complex registers. -/
def unsignedPairs : Simulator :=
  beforeProduct
    { line := 1
      opcode := .mpy
      operands := [.reg ⟨.acc, 0⟩, .reg ⟨.complex, 0⟩, .reg ⟨.complex, 1⟩, .key (.mul .uu)] } (-1) 1

/-- The unsigned product of their real halves. -/
def unsignedReals : Simulator :=
  beforeProduct
    { line := 1
      opcode := .mpy
      operands := [.reg ⟨.acc, 0⟩, .reg ⟨.general, 0⟩, .reg ⟨.general, 2⟩, .key (.mul .uu)] } (-1) 1

theorem MultipliesPairs.signed_product_unsignedPairs :
    unsignedPairs.MultipliesPairs 0 0 .mpy .uu false ⟨-1, 0⟩ ⟨1, 0⟩ ∧ unsignedPairs.step.core.Holds 0 0 (-1) ∧
      unsignedReals.Multiplies 0 0 .mpy .uu (-1) 1 ∧
      ¬unsignedPairs.step.core.SameProduct unsignedReals.step.core 0 0 0 := by
  have hpairs : unsignedPairs.MultipliesPairs 0 0 .mpy .uu false ⟨-1, 0⟩ ⟨1, 0⟩ :=
    ⟨0, _, _, 0, 1, rfl, rfl, ⟨rfl, _, rfl, List.mem_singleton_self _⟩, ⟨rfl, rfl, rfl, rfl, rfl, rfl⟩, ⟨_, rfl, rfl⟩,
      ⟨_, rfl, rfl⟩⟩
  have hreals : unsignedReals.Multiplies 0 0 .mpy .uu (-1) 1 :=
    ⟨0, _, _, 0, 2, rfl, rfl, ⟨rfl, _, rfl, List.mem_singleton_self _⟩, ⟨rfl, rfl, rfl, rfl, rfl⟩, ⟨_, rfl, rfl⟩,
      ⟨_, rfl, rfl⟩⟩
  have hzero {acc : Nat} (hacc : acc < 8) : unsignedPairs.core.Holds acc 0 0 := by
    interval_cases acc <;> exact ⟨_, rfl, rfl⟩
  obtain ⟨hsigned, -, -, hreal⟩ := MultipliesPairs.signed_product hpairs (by decide) ⟨by decide, by decide⟩
    ⟨by decide, by decide⟩ (hzero (by decide)) (hzero (by decide))
  refine ⟨hpairs, hsigned.re, hreals, fun hsame => ?_⟩
  have hproduct := (hreal unsignedReals 0 rfl rfl hreals ⟨_, rfl, rfl⟩ rfl).2 rfl hsame
  exact absurd hproduct (by decide)

end Simulator

end QuadDsp
