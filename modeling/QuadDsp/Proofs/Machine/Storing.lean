import QuadDsp.Proofs.Machine.CircularBuffer
import QuadDsp.Proofs.Machine.Widths

/-! # Storing and loading

A register is stored part by part: a data register in one word of memory, a complex register in two, one for each of the
data registers that it stands for. A load of the same class takes the parts back. Packing a pair into 24 bits and taking
it apart again loses nothing, as the parts have the width of a word (`Context.behind_stored`, `Context.behind_loaded`).
No other operation of a word writes what an access is made to (`Simulator.Accesses.read_step`), so memory holds what is
stored until a word writes there, and whatever register is loaded from the same address receives it
(`Simulator.Reachable.load_of_store`). -/

namespace QuadDsp

/-! ### Parts -/

/-- How many words of memory a register takes up, and how many data registers it stands for. -/
def Reg.words (r : Reg) : Nat := if r.cls = .complex then 2 else 1

/-- One of the data registers that a register stands for. -/
def Reg.part (r : Reg) (k : Nat) : Nat := r.words * r.index + k

theorem Reg.words_of_complex {r : Reg} (h : r.cls = .complex) : r.words = 2 := if_pos h

theorem Reg.words_of_ne {r : Reg} (h : r.cls ≠ .complex) : r.words = 1 := if_neg h

/-- The words that a register takes up at an address are there; those of a pair begin at an even address. -/
def Memory.Takes (mem : Memory) (r : Reg) (addr : Nat) : Prop :=
  (r.cls = .complex → addr % 2 = 0) ∧ addr + r.words ≤ mem.size

theorem Context.accessFault?_eq_none_iff {cx : Context} {r : Reg} {addr : Nat} :
    cx.accessFault? addr (r.cls == .complex) = none ↔ cx.mem.Takes r addr := by
  unfold accessFault? Memory.fault? Memory.Takes
  by_cases hcls : r.cls = .complex
  · rw [Reg.words_of_complex hcls]
    simp only [hcls, beq_self_eq_true, Bool.true_and, beq_iff_eq, Bool.toNat_true, forall_const]
    split
    · next hodd => exact iff_of_false nofun (by omega)
    · split
      · exact iff_of_true rfl (by omega)
      · exact iff_of_false nofun (by omega)
  · rw [Reg.words_of_ne hcls]
    simp only [hcls, beq_eq_false_iff_ne.2 hcls, Bool.false_and, Bool.false_eq_true, if_false, Bool.toNat_false,
      false_implies, true_and]
    split
    · exact iff_of_true rfl (by omega)
    · exact iff_of_false nofun (by omega)

theorem Lanes.InWidth.map_wrap {v : Lanes Int} (h : v.InWidth) : v.map (wrap dataBits) = v :=
  Lanes.ext fun l => by rw [map_apply, (wrap_eq_self_iff (by decide) _).2 (h l)]

theorem Core.InWidth.reg {s : Core} (h : s.InWidth) {n : Nat} {v : Lanes Int} (hv : s.reg n = .ok v) : v.InWidth := by
  unfold Core.reg Core.fetch at hv
  split at hv
  · cases hv
    exact h.regs _ (Vector.getElem_mem _)
  · cases hv

theorem Memory.InWidth.read {mem : Memory} (h : mem.InWidth) {addr : Nat} {v : Lanes Int} (hv : mem.read addr = .ok v) :
    v.InWidth := by
  unfold Memory.read at hv
  split at hv
  · next hw =>
    cases hv
    exact h _ (Array.mem_of_getElem? hw)
  · cases hv

theorem Core.exists_of_pair {s : Core} {n : Nat} {c : Lanes ComplexPair} (h : s.pair n = .ok c) :
    ∃ re im, s.reg (2 * n) = .ok re ∧ s.reg (2 * n + 1) = .ok im ∧ c = Lanes.zipWith ComplexPair.mk re im := by
  obtain ⟨re, hre, h⟩ := bind_eq_ok_iff.1 h
  obtain ⟨im, him, h⟩ := bind_eq_ok_iff.1 h
  cases h
  exact ⟨re, im, hre, him, rfl⟩

theorem ComplexPair.unpack_words {high low : Int} (hhigh : Fits dataBits high) (hlow : Fits dataBits low) :
    unpack (high * span dataBits + lowBits dataBits low) = ⟨high, low⟩ := by
  have h12 : span dataBits = 4096 := rfl
  rw [fits_data_iff] at hhigh hlow
  simp only [unpack, wrap, lowBits, h12, Int.bmod_def, mk.injEq]
  constructor <;> omega

/-- Among many writes, one that alone hits a cell decides what it holds. -/
theorem Cell.behind_of_only {c : Cell} {w : Write} {front back : List Write} (hfront : ∀ w' ∈ front, ¬w'.Hits c)
    (hback : ∀ w' ∈ back, ¬w'.Hits c) (s : Core) (mem : Memory) (mask : Mask) :
    c.behind s mem mask (front ++ ([w] ++ back)) = c.read (s.apply mask w) (mem.apply mask w) :=
  read_foldl_of_others hfront hback

theorem Cell.behind_append {c : Cell} {front ws : List Write} (hfront : ∀ w ∈ front, ¬w.Hits c) (s : Core)
    (mem : Memory) (mask : Mask) : c.behind s mem mask (front ++ ws) = c.behind s mem mask ws := by
  have h : c.behind s mem mask (front ++ (ws ++ [])) = c.behind s mem mask ws :=
    read_foldl_of_others hfront (by simp)
  rwa [List.append_nil] at h

namespace Context

variable {cx : Context} {r : Reg} {addr k : Nat} {ws : List Write}

theorem eq_of_stored (h : cx.stored r addr = .ok ws) {w : Write} (hw : w ∈ ws) {addr' : Nat}
    (hc : w.Hits (.word addr')) :
    ∃ k < r.words, addr' = addr + k := by
  unfold stored at h
  split at h
  · next hcls =>
    obtain ⟨c, -, h⟩ := bind_eq_ok_iff.1 h
    cases h
    rw [Reg.words_of_complex hcls]
    rcases List.mem_pair.1 hw with rfl | rfl
    · exact ⟨0, by decide, hc.symm⟩
    · exact ⟨1, by decide, hc.symm⟩
  · next hcls =>
    obtain ⟨v, -, h⟩ := bind_eq_ok_iff.1 h
    cases h
    rw [Reg.words_of_ne hcls]
    rw [List.mem_singleton.1 hw] at hc
    exact ⟨0, by decide, hc.symm⟩

/-- What a store writes: each part of the register in a word of its own. -/
theorem exists_of_stored (hcore : cx.core.InWidth) (h : cx.stored r addr = .ok ws) (hk : k < r.words) :
    ∃ v u front back, cx.core.reg (r.part k) = .ok v ∧ u.map (wrap dataBits) = v ∧
      ws = front ++ ([.mem (addr + k) u] ++ back) ∧ ∀ w ∈ front ++ back, ¬w.Hits (.word (addr + k)) := by
  unfold stored at h
  split at h
  · next hcls =>
    obtain ⟨c, hc, h⟩ := bind_eq_ok_iff.1 h
    cases h
    obtain ⟨re, im, hre, him, rfl⟩ := Core.exists_of_pair hc
    have hunpack (l : Lane) := ComplexPair.unpack_pack ⟨re l, im l⟩ (hcore.reg hre l) (hcore.reg him l)
    simp only [ComplexPair.unpack, ComplexPair.mk.injEq] at hunpack
    rw [Reg.words_of_complex hcls] at hk
    interval_cases k
    · refine ⟨re, _, [], _, ?_, Lanes.ext fun l => ?_, rfl, ?_⟩
      · rwa [Reg.part, Reg.words_of_complex hcls]
      · simp only [Lanes.map_apply, Lanes.zipWith_apply]
        exact (hunpack l).1
      · simp [Write.Hits]
    · refine ⟨im, _, [_], [], ?_, Lanes.ext fun l => ?_, rfl, ?_⟩
      · rwa [Reg.part, Reg.words_of_complex hcls]
      · simp only [Lanes.map_apply, Lanes.zipWith_apply, wrap_wrap]
        exact (hunpack l).2
      · simp [Write.Hits]
  · next hcls =>
    obtain ⟨v, hv, h⟩ := bind_eq_ok_iff.1 h
    cases h
    rw [Reg.words_of_ne hcls] at hk
    obtain rfl : k = 0 := by omega
    refine ⟨v, v, [], [], ?_, (hcore.reg hv).map_wrap, rfl, by simp⟩
    rwa [Reg.part, Reg.words_of_ne hcls, Nat.one_mul]

/-- What a load writes: each word in a part of the register. -/
theorem exists_of_loaded (hmem : cx.mem.InWidth) (h : cx.loaded r addr = .ok ws) (hk : k < r.words) :
    ∃ v u front back, cx.mem.read (addr + k) = .ok v ∧ u.map (wrap dataBits) = v ∧
      ws = front ++ ([.reg (r.part k) u] ++ back) ∧ ∀ w ∈ front ++ back, ¬w.Hits (.reg (r.part k)) := by
  unfold loaded at h
  split at h
  · next hcls =>
    obtain ⟨c, hc, h⟩ := bind_eq_ok_iff.1 h
    cases h
    obtain ⟨high, hhigh, hc⟩ := bind_eq_ok_iff.1 hc
    obtain ⟨low, hlow, hc⟩ := bind_eq_ok_iff.1 hc
    cases hc
    have hunpack (l : Lane) := ComplexPair.unpack_words (hmem.read hhigh l) (hmem.read hlow l)
    have hpart : r.part k = 2 * r.index + k := by rw [Reg.part, Reg.words_of_complex hcls]
    rw [Reg.words_of_complex hcls] at hk
    rw [hpart]
    interval_cases k
    · refine ⟨high, _, [], _, hhigh, Lanes.ext fun l => ?_, rfl, ?_⟩
      · simp only [Lanes.map_apply, Lanes.zipWith_apply, hunpack]
        exact (wrap_eq_self_iff (by decide) _).2 (hmem.read hhigh l)
      · simp [Write.Hits]
    · refine ⟨low, _, [_], [], hlow, Lanes.ext fun l => ?_, rfl, ?_⟩
      · simp only [Lanes.map_apply, Lanes.zipWith_apply, hunpack]
        exact (wrap_eq_self_iff (by decide) _).2 (hmem.read hlow l)
      · simp [Write.Hits]
  · next hcls =>
    obtain ⟨v, hv, h⟩ := bind_eq_ok_iff.1 h
    cases h
    rw [Reg.words_of_ne hcls] at hk
    obtain rfl : k = 0 := by omega
    have hpart : r.part 0 = r.index := by rw [Reg.part, Reg.words_of_ne hcls, Nat.one_mul, Nat.add_zero]
    rw [hpart]
    exact ⟨v, v, [], [], hv, (hmem.read hv).map_wrap, rfl, by simp⟩

/-- Behind a store each word holds its part of the register, in the lanes of the mask. -/
theorem behind_stored (hcore : cx.core.InWidth) (h : cx.stored r addr = .ok ws) (hk : k < r.words) (mask : Mask) :
    ∃ v, cx.core.reg (r.part k) = .ok v ∧ (Cell.word (addr + k)).behind cx.core cx.mem mask ws =
      (cx.mem.read (addr + k)).map fun old => Lanes.merge mask old v := by
  obtain ⟨v, u, front, back, hv, hu, rfl, hothers⟩ := exists_of_stored hcore h hk
  rw [List.forall_mem_append] at hothers
  refine ⟨v, hv, (Cell.behind_of_only hothers.1 hothers.2 ..).trans ?_⟩
  refine (Cell.word_apply mask _ cx.mem (addr + k)).trans ?_
  dsimp only
  rw [if_pos rfl, hu]

/-- Behind a load each part of the register holds its word, in the lanes of the mask. -/
theorem behind_loaded (hmem : cx.mem.InWidth) (h : cx.loaded r addr = .ok ws) (hk : k < r.words) (mask : Mask) :
    ∃ v, cx.mem.read (addr + k) = .ok v ∧ (Cell.reg (r.part k)).behind cx.core cx.mem mask ws =
      (cx.core.reg (r.part k)).map fun old => Lanes.merge mask old v := by
  obtain ⟨v, u, front, back, hv, hu, rfl, hothers⟩ := exists_of_loaded hmem h hk
  rw [List.forall_mem_append] at hothers
  refine ⟨v, hv, (Cell.behind_of_only hothers.1 hothers.2 ..).trans ?_⟩
  refine (Cell.reg_apply cx.core mask _ (r.part k)).trans ?_
  dsimp only
  rw [if_pos rfl, hu]

end Context

/-! ### Accesses -/

/-- The cells that a load or store can change besides its index register: the words of memory for a store, the parts of
its register for a load. -/
inductive Member.Reaches (m : Member) (r : Reg) : Cell → Prop
  | word (addr : Nat) : m.opcode = .st → Reaches m r (.word addr)
  | part {k : Nat} : m.opcode = .ld → k < r.words → Reaches m r (.reg (r.part k))

namespace Member

variable {m m' : Member} {r : Reg} {c : Cell}

theorem Bundled.role_of_access (hm : m.Bundled) (hcoded : m.Coded) (hop : m.opcode = .ld ∨ m.opcode = .st) :
    m.opcode = .ld ∧ (m.role = .ld ∨ m.role = .ld2) ∨ m.opcode = .st ∧ m.role = .st := by
  cases hrole : m.role with
  | op => exact absurd hrole hm.role
  | alu => exact absurd (hcoded.alu hrole) (by rcases hop with hop | hop <;> (rw [hop]; decide))
  | mac => exact absurd (hcoded.mac hrole) (by rcases hop with hop | hop <;> (rw [hop]; decide))
  | shf => exact absurd (hcoded.shf hrole) (by rcases hop with hop | hop <;> (rw [hop]; decide))
  | ld => exact .inl ⟨opcode_of_ld hm (.inl hrole), .inl rfl⟩
  | ld2 => exact .inl ⟨opcode_of_ld hm (.inr hrole), .inr rfl⟩
  | st => exact .inr ⟨(hm.takes.opcode (by rw [hrole]; rfl)).trans (by rw [hrole]; rfl), rfl⟩

theorem Bundled.role_of_st (hm : m.Bundled) (hcoded : m.Coded) (hop : m.opcode = .st) : m.role = .st := by
  rcases hm.role_of_access hcoded (.inr hop) with ⟨hld, -⟩ | ⟨-, hrole⟩
  · cases hop.symm.trans hld
  · exact hrole

theorem Bundled.role_of_ld (hm : m.Bundled) (hcoded : m.Coded) (hop : m.opcode = .ld) :
    m.role = .ld ∨ m.role = .ld2 := by
  rcases hm.role_of_access hcoded (.inl hop) with ⟨-, hrole⟩ | ⟨hst, -⟩
  · exact hrole
  · cases hop.symm.trans hst

theorem Reaches.touches (h : m.Reaches r c) (hm : m.Bundled) (hcoded : m.Coded) (hr : m.dataReg? = some r) :
    ∃ p, c.place? = some p ∧ m.Touches p := by
  cases h with
  | word addr hop => exact ⟨.mem, rfl, hm.role_of_st hcoded hop⟩
  | @part k hop hk =>
    obtain ⟨hcls, hdest⟩ := destination?_of_ld hm (hm.role_of_ld hcoded hop) hr
    have hone : r.words = 1 := Reg.words_of_ne (by rw [hcls]; decide)
    obtain rfl : k = 0 := by omega
    refine ⟨.reg (r.part 0), rfl, hdest.trans ?_⟩
    rw [Reg.part, hone, Nat.one_mul, Nat.add_zero]

end Member

/-- An operation of a bundle does not write what an access beside it reaches. -/
theorem Instruction.Issues.not_hits_of_reaches {i : Instruction} {m m' : Member} {r : Reg} {c : Cell} (h : i.Issues m)
    (h' : i.Issues m') (hne : m' ≠ m) (hr : m.dataReg? = some r) (hc : m.Reaches r c) {cx : Context} {fx : Effects}
    (hfx : m'.execute cx = .ok fx) : ¬fx.Hits c := by
  rintro ⟨w, hw, hwc⟩
  obtain ⟨sel', hs', hm'⟩ := h'.selected
  rcases h.alone_or_bundled with ⟨sel, hs, hmembers, -⟩ | ⟨sel, hs, hbundle, hm, hbundled, hcoded⟩ <;>
    cases hs.symm.trans hs'
  · rw [hmembers, List.mem_singleton] at hm'
    exact hne hm'
  · obtain ⟨t, ht, hfills⟩ := select_fills hs
    obtain ⟨hbundled', hcoded'⟩ := selectBundle_members (selectBundle_of_select hs hbundle) m' hm'
    obtain ⟨p, hp, htouches⟩ := hc.touches hbundled hcoded hr
    have htouches' := (Member.leaves_of_execute hbundled' hcoded' hfx).touches w hw
    rw [Write.place_of_hits hwc hp] at htouches'
    have hapart := (hfills.beside ht h.structured hm hm' hne.symm).apart htouches htouches'
    cases hc <;> (cases hp; exact hapart rfl)

theorem Access.not_hits {a : Access} {c : Cell} (hc : ∀ n, c ≠ .index n) : ∀ w ∈ a.writes, ¬w.Hits c := by
  obtain ⟨addr, update⟩ := a
  cases update with
  | none => exact fun w hw => absurd hw List.not_mem_nil
  | some step =>
    intro w hw
    rw [List.mem_singleton.1 hw]
    cases c with
    | index n => exact absurd rfl (hc n)
    | _ => exact id

namespace Simulator

variable {sim : Simulator} {i : Instruction} {m : Member} {r : Reg} {a : Access}

/-- What the operations of a word see. -/
def context (sim : Simulator) (i : Instruction) : Context := ⟨sim.core, sim.mem, sim.program, sim.core.mask i.cond⟩

/-- The next word is `i`, and one of its operations takes the register `r` to or from memory. -/
structure Accesses (sim : Simulator) (i : Instruction) (m : Member) (r : Reg) (a : Access) : Prop where
  current : ∃ idx, sim.current? = some (idx, i)
  issues : i.Issues m
  opcode : m.opcode ∈ [Opcode.ld, .st]
  register : m.dataReg? = some r
  access : ∃ ref, m.mem? = some ref ∧ (sim.context i).access ref.mode = .ok a

namespace Accesses

variable (h : sim.Accesses i m r a)

include h

theorem part_lt {k : Nat} (hk : k < r.words) : r.part k < 32 := by
  obtain ⟨ref, href, -⟩ := h.access
  have hm := h.issues.fit
  obtain ⟨-, r', hr', hcls, hlt⟩ := hm.classified.of_isTransfer (hm.isTransfer_of_mem? h.opcode href)
  cases h.register.symm.trans hr'
  unfold Reg.part
  rcases hcls with hcls | hcls
  · have hlt : r.index < 32 := by rwa [hcls] at hlt
    rw [Reg.words_of_ne (by rw [hcls]; decide)] at hk ⊢
    omega
  · have hlt : r.index < 16 := by rwa [hcls] at hlt
    rw [Reg.words_of_complex hcls] at hk ⊢
    omega

theorem asks : m.opcode.asks = false := by
  rcases List.mem_pair.1 h.opcode with hop | hop <;> (rw [hop]; rfl)

theorem makes : m.Makes (sim.context i) a := by
  obtain ⟨ref, href, ha⟩ := h.access
  exact h.issues.fit.makes h.opcode href ha

/-- An access at fault steps its index register and does nothing else. -/
theorem execute_of_fault {e : AddressError}
    (he : (sim.context i).accessFault? a.addr (r.cls == .complex) = some e) :
    m.execute (sim.context i) = .ok { writes := a.writes, faults := [.address e] } := by
  obtain ⟨r', hr', hmakes⟩ := h.makes
  cases h.register.symm.trans hr'
  rwa [he] at hmakes

/-- An access to words that are there is made. -/
theorem execute_of_takes (htakes : sim.mem.Takes r a.addr) :
    ∃ ws, (m.opcode = .ld → (sim.context i).loaded r a.addr = .ok ws) ∧
      (m.opcode = .st → (sim.context i).stored r a.addr = .ok ws) ∧
      m.execute (sim.context i) = .ok (.ofWrites (a.writes ++ ws)) := by
  obtain ⟨r', hr', hmakes⟩ := h.makes
  cases h.register.symm.trans hr'
  rwa [Context.accessFault?_eq_none_iff.2 htakes] at hmakes

/-- What a step leaves in a cell that an access reaches, the access leaves there. -/
theorem read_step {c : Cell} (hc : m.Reaches r c) {fx : Effects} (hfx : m.execute (sim.context i) = .ok fx) :
    c.read sim.step.core sim.step.mem = c.behind sim.core sim.mem (sim.core.mask i.cond) fx.writes := by
  obtain ⟨idx, hcurrent⟩ := h.current
  exact (Simulator.read_step hcurrent (h.issues.asks h.asks) c).trans
    (h.issues.after_of_others hfx fun m' fx' h' hne hfx' => h.issues.not_hits_of_reaches h' hne h.register hc hfx')

/-- A store leaves each part of its register in a word of its own, in the lanes of its mask, and all other words
alone. -/
theorem stored (hop : m.opcode = .st) (htakes : sim.mem.Takes r a.addr) (hcore : sim.core.InWidth) :
    (∀ addr, addr < a.addr ∨ a.addr + r.words ≤ addr → sim.step.mem.read addr = sim.mem.read addr) ∧
      ∀ k < r.words, ∃ v old, sim.core.reg (r.part k) = .ok v ∧ sim.mem.read (a.addr + k) = .ok old ∧
        sim.step.mem.read (a.addr + k) = .ok (Lanes.merge (sim.core.mask i.cond) old v) := by
  obtain ⟨ws, -, hws, hfx⟩ := h.execute_of_takes htakes
  have hws := hws hop
  have hcontext : (sim.context i).core.InWidth := hcore
  have hread (addr : Nat) : sim.step.mem.read addr =
      (Cell.word addr).behind sim.core sim.mem (sim.core.mask i.cond) ws :=
    (h.read_step (.word addr hop) hfx).trans (Cell.behind_append (Access.not_hits fun _ => by simp) ..)
  refine ⟨fun addr haddr => ?_, fun k hk => ?_⟩
  · refine (hread addr).trans (Cell.read_foldl_of_not_hits fun w hw hwc => ?_)
    obtain ⟨k, hk, rfl⟩ := Context.eq_of_stored hws hw hwc
    omega
  · obtain ⟨v, hv, hbehind⟩ := Context.behind_stored hcontext hws hk (sim.core.mask i.cond)
    have hlt : a.addr + k < sim.mem.size := Nat.lt_of_lt_of_le (Nat.add_lt_add_left hk _) htakes.2
    obtain ⟨old, hold⟩ := Memory.read_of_lt hlt
    refine ⟨v, old, hv, hold, (hread _).trans (hbehind.trans ?_)⟩
    exact congrArg _ hold

/-- A load leaves each word in its part of the register, in the lanes of its mask. -/
theorem loaded (hop : m.opcode = .ld) (htakes : sim.mem.Takes r a.addr) (hmem : sim.mem.InWidth) {k : Nat}
    (hk : k < r.words) : ∃ v old, sim.mem.read (a.addr + k) = .ok v ∧ sim.core.reg (r.part k) = .ok old ∧
      sim.step.core.reg (r.part k) = .ok (Lanes.merge (sim.core.mask i.cond) old v) := by
  obtain ⟨ws, hws, -, hfx⟩ := h.execute_of_takes htakes
  have hread : sim.step.core.reg (r.part k) =
      (Cell.reg (r.part k)).behind sim.core sim.mem (sim.core.mask i.cond) ws :=
    (h.read_step (.part hop hk) hfx).trans (Cell.behind_append (Access.not_hits fun _ => by simp) ..)
  have hcontext : (sim.context i).mem.InWidth := hmem
  obtain ⟨v, hv, hbehind⟩ := Context.behind_loaded hcontext (hws hop) hk (sim.core.mask i.cond)
  obtain ⟨old, hold⟩ := Core.fetch_of_lt sim.core.regs (h.part_lt hk)
  refine ⟨v, old, hv, hold, hread.trans (hbehind.trans ?_)⟩
  exact congrArg _ hold

end Accesses

/-! ### Runs -/

theorem size_step (sim : Simulator) : sim.step.mem.size = sim.mem.size := by
  cases hcurrent : sim.current? with
  | none => rw [step_of_none hcurrent]
  | some current =>
    rw [step_of_current? hcurrent, mem_stepAt]
    exact size_commit ..

theorem size_iterate (sim : Simulator) (n : Nat) : (step^[n] sim).mem.size = sim.mem.size := by
  induction n with
  | zero => rfl
  | succ n ih => rw [Function.iterate_succ_apply', size_step, ih]

/-- Memory keeps what is stored. A store that is not at fault finds its words in memory, a pair at an even address, and
leaves all other words alone; in its words it leaves the parts of its register, in the lanes of its mask. As long as no
word writes there, a load of the same class from the same address leaves each part, as it is in memory, in the
corresponding part of its own register, in the lanes of its own mask. -/
theorem Reachable.load_of_store {p : Program} {config : Config} (hsim : Reachable p config sim)
    (h : sim.Accesses i m r a) (hop : m.opcode = .st)
    (hfault : (sim.context i).accessFault? a.addr (r.cls == .complex) = none) :
    sim.mem.Takes r a.addr ∧
      (∀ addr, addr < a.addr ∨ a.addr + r.words ≤ addr → sim.step.mem.read addr = sim.mem.read addr) ∧
      ∀ k < r.words, ∃ v old, sim.core.reg (r.part k) = .ok v ∧ sim.mem.read (a.addr + k) = .ok old ∧
        let kept := Lanes.merge (sim.core.mask i.cond) old v
        sim.step.mem.read (a.addr + k) = .ok kept ∧
          ∀ n j m' r' b, let behind := Simulator.step^[n + 1] sim
            (∀ t, 0 < t → t ≤ n → ¬(Simulator.step^[t] sim).WritesCell (.word (a.addr + k))) →
            behind.Accesses j m' r' b → m'.opcode = .ld → r'.cls = r.cls → b.addr = a.addr →
            ∃ before, behind.core.reg (r'.part k) = .ok before ∧
              behind.step.core.reg (r'.part k) = .ok (Lanes.merge (behind.core.mask j.cond) before kept) := by
  have htakes := Context.accessFault?_eq_none_iff.1 hfault
  obtain ⟨hkept, hstored⟩ := h.stored hop htakes hsim.inWidth_of.1
  refine ⟨htakes, hkept, fun k hk => ?_⟩
  obtain ⟨v, old, hv, hold, hread⟩ := hstored k hk
  refine ⟨v, old, hv, hold, hread, fun n j m' r' b hfree hld hop' hcls haddr => ?_⟩
  have hwords : r'.words = r.words := by rw [Reg.words, hcls, Reg.words]
  -- nothing is written to the word up to the load, and memory keeps its size
  have hstay : (Simulator.step^[n + 1] sim).mem.read (a.addr + k) = sim.step.mem.read (a.addr + k) :=
    read_iterate (c := .word (a.addr + k)) rfl (Nat.succ_le_succ n.zero_le)
      fun t hlow hhigh => hfree t hlow (Nat.le_of_lt_succ hhigh)
  have htakes' : (Simulator.step^[n + 1] sim).mem.Takes r' b.addr := by
    rw [Memory.Takes, hcls, haddr, hwords, size_iterate]
    exact htakes
  obtain ⟨v', before, hv', hbefore, hloaded⟩ :=
    hld.loaded hop' htakes' (hsim.iterate (n + 1)).inWidth_of.2 (hwords ▸ hk)
  rw [haddr, hstay, hread] at hv'
  cases hv'
  exact ⟨before, hbefore, hloaded⟩

/-- A pair is stored at an address, and loaded into another register through an index register. -/
def storingWords : Program :=
  ([{ line := 1, opcode := .ld, operands := [.reg ⟨.general, 2⟩, .imm (-5)] },
    { line := 2, opcode := .ld, operands := [.reg ⟨.general, 3⟩, .imm 7] },
    { line := 3, opcode := .st, operands := [.mem ⟨.data, .direct 2⟩, .reg ⟨.complex, 1⟩] },
    { line := 4, opcode := .ld, operands := [.reg ⟨.complex, 4⟩, .mem ⟨.data, .preImm 2 0⟩] }].foldl
      Builder.push (Builder.origin 0)).program

/-- In front of the store. -/
def storing : Simulator := step^[2] (load storingWords { dataWords := 8 })

theorem Reachable.load_of_store_storing : Reachable storingWords { dataWords := 8 } storing ∧
    ∃ i m r a, storing.Accesses i m r a ∧ m.opcode = .st ∧
      (storing.context i).accessFault? a.addr (r.cls == .complex) = none ∧
      storing.step.core.reg 9 = .ok (Lanes.fill 0) ∧ storing.step.step.core.reg 9 = .ok (Lanes.fill 7) := by
  have hsim : Reachable storingWords { dataWords := 8 } storing := Reachable.load.step.step
  obtain ⟨i, m, a, h, hop, hfault, hcond, ha⟩ : ∃ i m a, storing.Accesses i m ⟨.complex, 1⟩ a ∧ m.opcode = .st ∧
      (storing.context i).accessFault? a.addr true = none ∧ i.cond = .always ∧ a.addr = 2 :=
    ⟨_, _, _, ⟨⟨2, rfl⟩, ⟨rfl, _, rfl, List.mem_singleton_self _⟩, by decide, rfl, _, rfl, rfl⟩, rfl, rfl, rfl, rfl⟩
  obtain ⟨j, m', b, h', hop', hcond', hb⟩ : ∃ j m' b, storing.step.Accesses j m' ⟨.complex, 4⟩ b ∧ m'.opcode = .ld ∧
      j.cond = .always ∧ b.addr = 2 :=
    ⟨_, _, _, ⟨⟨3, rfl⟩, ⟨rfl, _, rfl, List.mem_singleton_self _⟩, by decide, rfl, _, rfl, rfl⟩, rfl, rfl, rfl⟩
  obtain ⟨-, -, hparts⟩ := Reachable.load_of_store hsim h hop hfault
  obtain ⟨v, old, hv, -, -, hload⟩ := hparts 1 (by decide)
  obtain ⟨before, -, hloaded⟩ := hload 0 j m' _ b (by omega) h' hop' rfl (hb.trans ha.symm)
  have hv' : storing.core.reg (Reg.part ⟨.complex, 1⟩ 1) = .ok (Lanes.fill 7) := rfl
  cases hv.symm.trans hv'
  rw [hcond, hcond', Core.mask_always, Core.mask_always, Mask.all, Lanes.merge_fill_true,
    Lanes.merge_fill_true] at hloaded
  exact ⟨hsim, i, m, _, a, h, hop, hfault, rfl, hloaded⟩

end Simulator

end QuadDsp
