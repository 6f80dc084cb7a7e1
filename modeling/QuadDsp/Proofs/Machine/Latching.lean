import QuadDsp.Proofs.Machine.ComplexProduct
import QuadDsp.Proofs.Machine.ComplexResults

/-! # Overflows that are latched

Three flags tell of an overflow, and each of them is latched by a sticky flag of its own (`Overflow`). No operation has
a sticky flag in the group that it replaces, an operation that tells of an overflow has the flag for it in the group,
and none writes the flags of a bank twice (`Effects.Latches`, `Member.latches_of_execute`). So a write leaves a sticky
flag set where it was or where the write itself tells of the overflow (`Overflow.sticky_apply_iff`). -/

namespace QuadDsp

/-- The kinds of overflow: of a sum, of an accumulator, and of a shift. -/
inductive Overflow
  | sum | acc | shift
deriving DecidableEq

namespace Overflow

/-- The flag that tells of it: AV, MV or SV. -/
def flag : Overflow → Flags → Bool
  | sum, f => f.overflow
  | acc, f => f.mulOverflow
  | shift, f => f.shiftOverflow

/-- The flag that latches it: AVS, MVS or SVS. -/
def sticky : Overflow → Flags → Bool
  | sum, f => f.stickyOverflow
  | acc, f => f.stickyMul
  | shift, f => f.stickyShift

/-- The number of its flag. -/
def place : Overflow → Nat
  | sum => 2
  | acc => 6
  | shift => 8

variable (o : Overflow)

theorem getElem?_place (f : Flags) : f.toList[o.place]? = some (o.flag f) := by
  cases o <;> rfl

theorem flag_update {group : Flags} (h : o.flag group = true) (new old : Flags) :
    o.flag (Flags.update group new old) = o.flag new := by
  cases o <;> exact if_pos h

theorem sticky_update {group : Flags} (h : o.sticky group = false) (new old : Flags) :
    o.sticky (Flags.update group new old) = (o.sticky old || o.flag new) := by
  cases o <;> exact congrArg (· || _) (if_neg (by simpa [sticky] using h))

theorem touched_of_flag {group : Flags} (h : o.flag group = true) (new : Flags) :
    (Flags.touched group new).toList[o.place]? = some true := by
  cases o <;> exact congrArg some h

end Overflow

namespace Flags

/-- The flags tell only of overflows whose flags are in the group. -/
def Within (group f : Flags) : Prop := ∀ o : Overflow, o.flag f = true → o.flag group = true

/-- No sticky flag is in the group. -/
def Plain (group : Flags) : Prop := ∀ o : Overflow, o.sticky group = false

theorem plain_arith : Plain arith := fun o => by cases o <;> rfl

theorem plain_division : Plain division := fun o => by cases o <;> rfl

theorem plain_multiplier : Plain multiplier := fun o => by cases o <;> rfl

theorem plain_shifter : Plain shifter := fun o => by cases o <;> rfl

theorem within_arith {f : Flags} (hmul : f.mulOverflow = false) (hshift : f.shiftOverflow = false) :
    Within arith f := by
  intro o h
  cases o with
  | sum => rfl
  | acc => exact absurd (hmul.symm.trans h) Bool.false_ne_true
  | shift => exact absurd (hshift.symm.trans h) Bool.false_ne_true

theorem within_multiplier {f : Flags} (hsum : f.overflow = false) (hshift : f.shiftOverflow = false) :
    Within multiplier f := by
  intro o h
  cases o with
  | sum => exact absurd (hsum.symm.trans h) Bool.false_ne_true
  | acc => rfl
  | shift => exact absurd (hshift.symm.trans h) Bool.false_ne_true

theorem within_shifter {f : Flags} (hsum : f.overflow = false) (hmul : f.mulOverflow = false) : Within shifter f := by
  intro o h
  cases o with
  | sum => exact absurd (hsum.symm.trans h) Bool.false_ne_true
  | acc => exact absurd (hmul.symm.trans h) Bool.false_ne_true
  | shift => rfl

end Flags

/-! ### Writes -/

namespace Write

/-- The bank whose flags a write replaces. -/
def bank? : Write → Option Bank
  | .flags bank _ _ => some bank
  | _ => none

/-- The write leaves sticky flags to the latch, and tells only of overflows whose flags it sets. -/
def Latches : Write → Prop
  | .flags _ group v => group.Plain ∧ ∀ l : Lane, group.Within (v l)
  | _ => True

/-- The write sets the flag of an overflow in a bank of a lane. -/
def Tells (w : Write) (o : Overflow) (l : Lane) (bank : Bank) : Prop :=
  match w with
  | .flags bank' group v => bank' = bank ∧ o.flag group = true ∧ o.flag (v l) = true
  | _ => False

variable {w : Write}

theorem KeepsFlags.latches (h : w.KeepsFlags) : w.Latches := by
  cases w with
  | flags => exact h.elim
  | _ => trivial

theorem KeepsFlags.bank? (h : w.KeepsFlags) : w.bank? = none := by
  cases w with
  | flags => exact h.elim
  | _ => rfl

theorem eq_flags_of_tells {o : Overflow} {l : Lane} {bank : Bank} (h : w.Tells o l bank) :
    ∃ group v, w = .flags bank group v ∧ o.flag group = true ∧ o.flag (v l) = true := by
  cases w with
  | flags bank' group v =>
    obtain ⟨rfl, hgroup, hv⟩ := h
    exact ⟨group, v, rfl, hgroup, hv⟩
  | _ => exact h.elim

end Write

namespace Overflow

variable (o : Overflow) {s : Core} {mask : Mask} {l : Lane} {bank : Bank}

theorem sticky_apply_iff {w : Write} (h : w.Latches) :
    o.sticky (((s.apply mask w).flags l).get bank) = true ↔
      o.sticky ((s.flags l).get bank) = true ∨ mask l = true ∧ w.Tells o l bank := by
  rw [Cell.flags_apply]
  cases w with
  | flags bank' group v =>
    dsimp only [Write.Tells]
    split
    · next hboth =>
      obtain ⟨hmask, rfl⟩ := hboth
      rw [o.sticky_update (h.1 o), Bool.or_eq_true]
      exact or_congr_right ⟨fun hv => ⟨hmask, rfl, h.2 l o hv, hv⟩, fun hv => hv.2.2.2⟩
    · next hnot => exact (or_iff_left fun hv => hnot ⟨hv.1, hv.2.1⟩).symm
  | _ => exact (or_iff_left fun hv => hv.2).symm

/-- Writes leave a sticky flag set where it was or where one of them tells of the overflow. -/
theorem sticky_foldl_apply_iff {ws : List Write} (h : ∀ w ∈ ws, w.Latches) :
    o.sticky (((ws.foldl (·.apply mask ·) s).flags l).get bank) = true ↔
      o.sticky ((s.flags l).get bank) = true ∨ mask l = true ∧ ∃ w ∈ ws, w.Tells o l bank := by
  induction ws generalizing s with
  | nil => exact (or_iff_left fun hv => by simp at hv).symm
  | cons w ws ih =>
    rw [List.foldl_cons, ih fun w' hw' => h w' (List.mem_cons_of_mem w hw'),
      o.sticky_apply_iff (h w List.mem_cons_self), or_assoc, ← and_or_left, List.exists_mem_cons_iff]

end Overflow

/-! ### Operations -/

/-- What the writes of an operation do to flags. -/
structure Effects.Latches (fx : Effects) : Prop where
  writes : ∀ w ∈ fx.writes, w.Latches
  once : (fx.writes.filterMap Write.bank?).Nodup

/-- Where an operation sets the flag of an overflow, the flag stays as it is set. -/
theorem Effects.Latches.behind_flag {fx : Effects} (h : fx.Latches) (o : Overflow) {bank : Bank} {group : Flags}
    {v : Lanes Flags} (hw : .flags bank group v ∈ fx.writes) (hgroup : o.flag group = true) (s : Core) (mem : Memory)
    {mask : Mask} {l : Lane} (hl : mask l = true) :
    (Cell.flag l bank o.place).behind s mem mask fx.writes = some (o.flag (v l)) := by
  obtain ⟨front, back, hsplit⟩ := List.append_of_mem hw
  have hback : ∀ w ∈ back, ¬w.Hits (.flag l bank o.place) := by
    intro w hmem hhits
    obtain ⟨group', v', rfl, -⟩ := Write.eq_of_hits_flag hhits
    have honce := h.once
    rw [hsplit, List.filterMap_append] at honce
    have hbank : bank ∉ back.filterMap Write.bank? := (List.nodup_cons.1 honce.of_append_right).1
    exact hbank (List.mem_filterMap.2 ⟨_, hmem, rfl⟩)
  rw [Cell.behind, hsplit, List.foldl_append, List.foldl_append, List.foldl_cons, List.foldl_cons,
    Cell.read_foldl_of_not_hits hback, Cell.read, Cell.flags_apply]
  dsimp only
  rw [if_pos ⟨hl, rfl⟩, o.getElem?_place, o.flag_update hgroup]

namespace Effects

theorem filterMap_bank? {ws : List Write} (h : ∀ w ∈ ws, w.KeepsFlags) : ws.filterMap Write.bank? = [] :=
  List.filterMap_eq_nil_iff.2 fun w hw => (h w hw).bank?

theorem latches_of_keepsFlags {fx : Effects} (h : ∀ w ∈ fx.writes, w.KeepsFlags) : fx.Latches :=
  ⟨fun w hw => (h w hw).latches, filterMap_bank? h ▸ List.nodup_nil⟩

/-- Writes of other things and then one of flags. -/
theorem latches_last {front : List Write} (hfront : ∀ w ∈ front, w.KeepsFlags) (bank : Bank) {group : Flags}
    (hgroup : group.Plain) {v : Lanes Flags} (hv : ∀ l, group.Within (v l)) :
    (ofWrites (front ++ [.flags bank group v])).Latches := by
  refine ⟨fun w hw => ?_, ?_⟩
  · rcases List.mem_append.1 hw with hw | hw
    · exact (hfront w hw).latches
    · rw [List.mem_singleton.1 hw]
      exact ⟨hgroup, hv⟩
  · rw [ofWrites, List.filterMap_append, filterMap_bank? hfront]
    exact List.nodup_singleton bank

theorem latches_result (rd : Nat) {group : Flags} (hgroup : group.Plain) {v : Lanes Flagged}
    (hv : ∀ l, group.Within (v l).2) : (result rd group v).Latches := by
  have hfront : ∀ w ∈ [Write.reg rd (v.map Prod.fst)], w.KeepsFlags := by simp [Write.KeepsFlags]
  exact latches_last hfront .real hgroup fun l => by simpa using hv l

theorem latches_flagsOnly {group : Flags} (hgroup : group.Plain) {v : Lanes Flagged}
    (hv : ∀ l, group.Within (v l).2) : (flagsOnly group v).Latches :=
  latches_last (List.forall_mem_nil _) .real hgroup fun l => by simpa using hv l

theorem latches_halves {re im : Write} (hre : re.KeepsFlags) (him : im.KeepsFlags) {group : Flags}
    (hgroup : group.Plain) {v : Bank → Lanes Flags} (hv : ∀ bank l, group.Within (v bank l)) :
    (halves re im group v).Latches := by
  refine ⟨?_, ?_⟩
  · simp only [halves, ofWrites, List.forall_mem_cons]
    exact ⟨hre.latches, him.latches, ⟨hgroup, hv .real⟩, ⟨hgroup, hv .imag⟩, ⟨hgroup, hv .both⟩, List.forall_mem_nil _⟩
  · have hbanks : (halves re im group v).writes.filterMap Write.bank? = [.real, .imag, .both] := by
      simp only [halves, ofWrites, List.filterMap_cons, hre.bank?, him.bank?]
      rfl
    rw [hbanks]
    decide

end Effects

/-! ### Results -/

namespace Alu

theorem within_addSub (a b : Int) (carry subtract saturate : Bool) :
    Flags.arith.Within (addSub a b carry subtract saturate).2 :=
  Flags.within_arith rfl rfl

theorem within_logic (v : Int) : Flags.arith.Within (logic v).2 := Flags.within_arith rfl rfl

theorem within_binary (op : Opcode) (a b : Int) (carry saturate : Bool) :
    Flags.arith.Within (binary op a b carry saturate).2 :=
  Flags.within_arith (latches_binary op a b carry saturate).1 (latches_binary op a b carry saturate).2

theorem within_unary (op : Opcode) (x : Int) (saturate : Bool) : Flags.arith.Within (unary op x saturate).2 := by
  cases op with
  | abs =>
    simp only [unary]
    split <;> exact Flags.within_arith rfl rfl
  | _ => exact Flags.within_arith rfl rfl

theorem within_complexBinary (subtract : Bool) (x y : ComplexPair) (saturate : Bool) (bank : Bank) :
    Flags.arith.Within ((complexBinary subtract x y saturate).flags bank) := by
  cases bank <;> exact Flags.within_arith rfl rfl

theorem within_complexUnary (op : Opcode) (x : ComplexPair) (saturate : Bool) (bank : Bank) :
    Flags.arith.Within ((complexUnary op x saturate).flags bank) := by
  cases bank <;> cases op <;> exact Flags.within_arith rfl rfl

theorem within_convert (op : Opcode) (x : ComplexPair) (bank : Bank) :
    Flags.arith.Within ((convert op x).flags bank) := by
  cases bank <;> exact Flags.within_arith rfl rfl

end Alu

theorem Shifter.within_shift (op : Opcode) (a amount : Int) : Flags.shifter.Within (shift op a amount).2 :=
  Flags.within_shifter rfl rfl

namespace Multiplier

theorem within_step (op : Opcode) (mode : MulMode) (saturate : Bool) (old p : Int) :
    Flags.multiplier.Within (step op mode saturate old p).2 :=
  Flags.within_multiplier rfl rfl

theorem within_both (re im : Flags) : Flags.multiplier.Within (both re im) := Flags.within_multiplier rfl rfl

theorem within_whole (op : Opcode) (old : Int) (saturate : Bool) :
    Flags.multiplier.Within (whole op old saturate).2 := by
  cases op <;> exact Flags.within_multiplier rfl rfl

end Multiplier

/-! ### Handlers -/

/-- Whatever the effects are, they leave sticky flags to the latch. -/
def Latching (x : Except ExecError Effects) : Prop := ∀ fx, x = .ok fx → fx.Latches

namespace Latching

theorem bind {α : Type} {x : Except ExecError α} {f : α → Except ExecError Effects} (h : ∀ a, Latching (f a)) :
    Latching (x >>= f) := by
  intro fx hfx
  obtain ⟨a, -, hfx⟩ := bind_eq_ok_iff.1 hfx
  exact h a fx hfx

theorem ok {fx : Effects} (h : fx.Latches) : Latching (.ok fx) := by
  rintro _ ⟨⟩
  exact h

theorem refuse (m : Member) : Latching m.refuse := nofun

theorem of_keepsFlags {x : Except ExecError Effects} (h : ∀ fx, x = .ok fx → ∀ w ∈ fx.writes, w.KeepsFlags) :
    Latching x :=
  fun fx hfx => Effects.latches_of_keepsFlags (h fx hfx)

end Latching

namespace Context

variable (cx : Context) (m : Member)

theorem latching_binary : Latching (cx.binary m) := by
  refine .bind fun rd => .bind fun a => .bind fun b => .ok (Effects.latches_result rd Flags.plain_arith fun l => ?_)
  rw [Lanes.ofFn_apply]
  exact Alu.within_binary _ _ _ _ _

theorem latching_unary : Latching (cx.unary m) := by
  refine .bind fun rd => .bind fun x => .ok (Effects.latches_result rd Flags.plain_arith fun l => ?_)
  rw [Lanes.map_apply]
  exact Alu.within_unary _ _ _

theorem latching_clearReg : Latching (clearReg m) := by
  refine .bind fun rd => .ok (Effects.latches_result rd Flags.plain_arith fun l => ?_)
  rw [Lanes.fill_apply]
  exact Alu.within_logic 0

theorem latching_compare : Latching (cx.compare m) := by
  have hok (a b : Lanes Int) :
      Latching (.ok (.flagsOnly .arith (Lanes.zipWith (fun a b => Alu.sub a b false) a b))) := by
    refine .ok (Effects.latches_flagsOnly Flags.plain_arith fun l => ?_)
    rw [Lanes.zipWith_apply]
    exact Alu.within_addSub _ _ _ _ _
  refine .bind fun a => ?_
  split
  · exact .bind fun b => hok a b
  · exact .bind fun b => hok a b
  · exact .refuse m

theorem latching_testBit : Latching (cx.testBit m) := by
  refine .bind fun a => .bind fun n => .ok (Effects.latches_flagsOnly Flags.plain_arith fun l => ?_)
  rw [Lanes.map_apply]
  exact Alu.within_logic _

theorem latching_divide : Latching (cx.divide m) := by
  refine .bind fun rd => .bind fun div => .bind fun rem => .bind fun quo => .ok ?_
  generalize (Lanes.ofFn _ : Lanes (Int × Int × Bool)) = steps
  have hfront : ∀ w ∈ [Write.reg rd (steps.map (·.1)), .reg (rd + 1) (steps.map (·.2.1))], w.KeepsFlags := by
    simp [Write.KeepsFlags]
  refine Effects.latches_last hfront .real Flags.plain_division fun l => ?_
  rw [Lanes.map_apply]
  intro o h
  cases o <;> cases h

theorem latching_shift : Latching (cx.shift m) := by
  have hok (rd : Nat) (a n : Lanes Int) :
      Latching (.ok (.result rd .shifter (Lanes.zipWith (Shifter.shift m.opcode) a n))) := by
    refine .ok (Effects.latches_result rd Flags.plain_shifter fun l => ?_)
    rw [Lanes.zipWith_apply]
    exact Shifter.within_shift _ _ _
  refine .bind fun rd => .bind fun a => ?_
  split
  · exact .bind fun n => hok rd a n
  · exact .bind fun n => hok rd a n
  · exact .refuse m

theorem latches_complex (rd : Nat) {v : Lanes ComplexResult}
    (hv : ∀ l bank, Flags.arith.Within ((v l).flags bank)) : (ComplexResult.effects rd v).Latches := by
  rw [ComplexResult.effects_eq_halves]
  refine Effects.latches_halves ?_ ?_ Flags.plain_arith fun bank l => ?_
  · trivial
  · trivial
  · rw [Lanes.map_apply]
    exact hv l bank

theorem latching_complexBinary : Latching (cx.complexBinary m) := by
  have hok (rd : Nat) (a b : Lanes ComplexPair) (subtract : Bool) : Latching (.ok (ComplexResult.effects rd <|
      .ofFn fun l => Alu.complexBinary subtract (a l) (b l) cx.core.modes.aluSat)) := by
    refine .ok (latches_complex rd fun l bank => ?_)
    rw [Lanes.ofFn_apply]
    exact Alu.within_complexBinary _ _ _ _ _
  refine .bind fun rd => .bind fun a => .bind fun b => ?_
  split
  · exact hok rd a _ false
  · exact hok rd a _ true
  · exact .refuse m

theorem latching_complexMap {f : ComplexPair → ComplexResult} (hf : ∀ x bank, Flags.arith.Within ((f x).flags bank)) :
    Latching (cx.complexMap m f) := by
  unfold complexMap
  split
  · refine .bind fun rd => .bind fun x => .ok (latches_complex rd fun l bank => ?_)
    rw [Lanes.map_apply]
    exact hf _ bank
  · exact .refuse m

theorem latching_complexUnary : Latching (cx.complexUnary m) :=
  cx.latching_complexMap m fun x => Alu.within_complexUnary _ x _

theorem latching_convert : Latching (cx.convert m) :=
  cx.latching_complexMap m fun x => Alu.within_convert _ x

theorem latches_acc (acc : Nat) {v : Lanes Flagged} (hv : ∀ l, Flags.multiplier.Within (v l).2) :
    (Effects.ofWrites [.acc acc (v.map Prod.fst), .flags .real .multiplier (v.map Prod.snd)]).Latches := by
  have hfront : ∀ w ∈ [Write.acc acc (v.map Prod.fst)], w.KeepsFlags := by simp [Write.KeepsFlags]
  exact Effects.latches_last hfront .real Flags.plain_multiplier fun l => by simpa using hv l

theorem latches_productPair (acc : Nat) {re im : Lanes Flagged} (hre : ∀ l, Flags.multiplier.Within (re l).2)
    (him : ∀ l, Flags.multiplier.Within (im l).2) : (Effects.productPair acc re im).Latches := by
  refine Effects.latches_halves ?_ ?_ Flags.plain_multiplier fun bank l => ?_
  · trivial
  · trivial
  · cases bank with
    | real => simpa using hre l
    | imag => simpa using him l
    | both =>
      rw [Lanes.zipWith_apply]
      exact Multiplier.within_both _ _

theorem latching_multiply : Latching (cx.multiply m) := by
  refine .bind fun acc => .bind fun x => .bind fun y => ?_
  split
  · refine .bind fun a => .bind fun b => .bind fun old => .ok (latches_acc acc fun l => ?_)
    rw [Lanes.ofFn_apply]
    exact Multiplier.within_step _ _ _ _ _
  · unfold multiplyComplex
    split
    · exact .refuse m
    · refine .bind fun a => .bind fun b => .bind fun oldRe => .bind fun oldIm => .ok ?_
      refine latches_productPair acc (fun l => ?_) fun l => ?_ <;>
      · rw [Lanes.ofFn_apply]
        exact Multiplier.within_step _ _ _ _ _
  · exact .refuse m

theorem latching_accumulator : Latching (cx.accumulator m) := by
  refine .bind fun acc => .bind fun old => .ok (latches_acc acc fun l => ?_)
  rw [Lanes.map_apply]
  exact Multiplier.within_whole _ _ _

theorem latching_mode : Latching (mode m) := by
  unfold mode
  split
  · exact .ok (Effects.latches_of_keepsFlags (by simp [Effects.ofWrites, Write.KeepsFlags]))
  · exact .refuse m

theorem latching_modify : Latching (cx.modify m) :=
  .bind fun _ => .bind fun _ => .bind fun _ => .bind fun _ =>
    .ok (Effects.latches_of_keepsFlags (by simp [Effects.ofWrites, Write.KeepsFlags]))

theorem latching_arithmetic : Latching (ExecUnit.run.arithmetic cx m) := by
  unfold ExecUnit.run.arithmetic
  split
  · exact cx.latching_complexBinary m
  · exact cx.latching_binary m
  · exact cx.latching_binary m
  · exact .refuse m

end Context

namespace ExecUnit

variable {u : ExecUnit} (cx : Context) (m : Member)

theorem latching_run (h : u.asks = false) : Latching (u.run cx m) := by
  cases u with
  | branch | loop | status | reset => cases h
  | binary => exact cx.latching_arithmetic m
  | unary =>
    simp only [run]
    split
    · exact cx.latching_complexUnary m
    · exact cx.latching_unary m
    · exact .refuse m
  | clear =>
    simp only [run]
    split
    · exact cx.latching_accumulator m
    · exact Context.latching_clearReg m
    · exact .refuse m
  | compare => exact cx.latching_compare m
  | divide => exact cx.latching_divide m
  | bits =>
    simp only [run]
    split
    · exact cx.latching_testBit m
    · exact cx.latching_arithmetic m
  | shift => exact cx.latching_shift m
  | multiply => exact cx.latching_multiply m
  | accumulator => exact cx.latching_accumulator m
  | conjugate => exact cx.latching_complexUnary m
  | convert => exact cx.latching_convert m
  | load => exact .of_keepsFlags fun _ => Context.keepsFlags_load
  | store => exact .of_keepsFlags fun _ => Context.keepsFlags_store
  | move => exact .of_keepsFlags fun _ => Context.keepsFlags_move
  | modify => exact cx.latching_modify m
  | mode => exact Context.latching_mode m
  | idle => exact .ok (Effects.latches_of_keepsFlags (List.forall_mem_nil _))

end ExecUnit

/-- Every operation leaves sticky flags to the latch. -/
theorem Member.latches_of_execute {m : Member} {cx : Context} {fx : Effects} (hm : m.Fit) (h : m.execute cx = .ok fx) :
    fx.Latches := by
  rcases Member.asks_of_execute hm h with ⟨f, -, rfl⟩ | ⟨hasks, -⟩
  · exact Effects.latches_of_keepsFlags (List.forall_mem_nil _)
  · obtain ⟨u, hunit, hrun⟩ := bind_eq_ok_iff.1 h
    have hunit : m.opcode.unit? = some u := eq_of_need hunit
    exact ExecUnit.latching_run cx m ((Opcode.asks_of_unit? hunit).symm.trans hasks) fx hrun

end QuadDsp
