import QuadDsp.Proofs.Machine.Reachable

/-! # Widths of registers and memory

Every register and every word of memory holds a value of its width, in each reachable state
(`Simulator.Reachable.widths`): whatever a word writes, it is the write that cuts the value down. The modes have no
width to keep, for they are told apart one by one; a number that is written to them loses all other bits
(`Core.modes_setSys`). -/

namespace QuadDsp

/-- Each lane holds a value of a data register. -/
def Lanes.InWidth (v : Lanes Int) : Prop := ∀ l : Lane, Fits dataBits (v l)

theorem Lanes.InWidth.merge {mask : Mask} {old v : Lanes Int} (h : old.InWidth) :
    (merge mask old (v.map (wrap dataBits))).InWidth := by
  intro l
  rw [merge_apply, map_apply]
  split
  · exact fits_wrap (by decide) _
  · exact h l

/-- The registers hold values of their widths. -/
structure Core.InWidth (s : Core) : Prop where
  regs : ∀ v ∈ s.regs, v.InWidth
  index : ∀ n ∈ s.index, n < span 16
  modify : ∀ v ∈ s.modify, Fits 16 v
  length : ∀ n ∈ s.length, n < span 16
  base : ∀ n ∈ s.base, n < span 16

def Memory.InWidth (m : Memory) : Prop := ∀ v ∈ m.words, v.InWidth

/-- Of a number that is written to the modes the lowest three bits are kept, those of the modes there are. -/
theorem Core.modes_setSys (s : Core) (v : Int) : (s.setSys .mode v).modes.bits = lowBits 3 v := by
  have h3 : (span 3 : Int) = 8 := rfl
  have h16 : (span 16 : Int) = 65536 := rfl
  rw [setSys, Modes.bits_ofBits, lowBits, lowBits, h3, h16]
  omega

section Files

variable {α : Type} {n : Nat} {file : Vector α n} {i : Nat} {P : α → Prop}

theorem Core.forall_mem_alter {f : α → α} (h : ∀ a ∈ file, P a) (hf : ∀ a ∈ file, P (f a)) :
    ∀ a ∈ alter file i f, P a := by
  unfold alter
  split
  · intro a ha
    obtain ⟨j, hj, rfl⟩ := Vector.mem_iff_getElem.1 ha
    rw [Vector.getElem_set]
    split
    · exact hf _ (Vector.getElem_mem _)
    · exact h _ (Vector.getElem_mem _)
  · exact h

theorem Core.forall_mem_setIfInBounds {b : α} (h : ∀ a ∈ file, P a) (hb : P b) :
    ∀ a ∈ file.setIfInBounds i b, P a := by
  intro a ha
  obtain ⟨j, hj, rfl⟩ := Vector.mem_iff_getElem.1 ha
  rw [Vector.getElem_setIfInBounds]
  split
  · exact hb
  · exact h _ (Vector.getElem_mem _)

theorem forall_mem_replicate {b : α} (hb : P b) : ∀ a ∈ Vector.replicate n b, P a := by
  intro a ha
  rw [Vector.eq_of_mem_replicate ha]
  exact hb

end Files

namespace Core.InWidth

variable {s : Core}

theorem of_files {s' : Core} (h : s.InWidth) (hfiles : s'.files = s.files) : s'.InWidth := by
  simp only [files, Prod.mk.injEq] at hfiles
  obtain ⟨hregs, -, hindex, hmodify, hlength, hbase⟩ := hfiles
  exact ⟨hregs ▸ h.regs, hindex ▸ h.index, hmodify ▸ h.modify, hlength ▸ h.length, hbase ▸ h.base⟩

theorem initial (depth : Nat) : (Core.initial depth).InWidth := by
  have hreg : (Lanes.fill (0 : Int)).InWidth := by
    intro l
    rw [Lanes.fill_apply]
    decide
  exact ⟨forall_mem_replicate hreg, forall_mem_replicate (by decide), forall_mem_replicate (by decide),
    forall_mem_replicate (by decide), forall_mem_replicate (by decide)⟩

theorem setAddress (h : s.InWidth) (r : Reg) (v : Int) : (s.setAddress r v).InWidth := by
  have hlow := lowBits_lt 16 v
  have hwrap : Fits 16 (wrap 16 v) := fits_wrap (by decide) v
  obtain ⟨cls, i⟩ := r
  cases cls with
  | index => exact { h with index := forall_mem_setIfInBounds h.index hlow }
  | modify => exact { h with modify := forall_mem_setIfInBounds h.modify hwrap }
  | length => exact { h with length := forall_mem_setIfInBounds h.length hlow }
  | base => exact { h with base := forall_mem_setIfInBounds h.base hlow }
  | general => exact h
  | complex => exact h
  | acc => exact h

theorem files_apply_sys (mask : Mask) (r : SysReg) (v : Int) :
    (s.apply mask (.sys r v)).files = s.files := by
  show (if mask .first then s.setSys r v else s).files = s.files
  split
  · cases r <;> rfl
  · rfl

theorem files_apply_modes (mask : Mask) (chosen : Modes) (on : Bool) :
    (s.apply mask (.modes chosen on)).files = s.files := by
  show (if mask .first then { s with modes := s.modes.switch chosen on } else s).files = s.files
  split <;> rfl

/-- Every write keeps the widths. -/
theorem apply (h : s.InWidth) (mask : Mask) (w : Write) : (s.apply mask w).InWidth := by
  cases w with
  | reg i v => exact { h with regs := forall_mem_alter h.regs fun old hold => (h.regs old hold).merge }
  | address r v =>
    show (if mask .first then s.setAddress r v else s).InWidth
    split
    · exact h.setAddress r v
    · exact h
  | sys r v => exact h.of_files (files_apply_sys mask r v)
  | modes chosen on => exact h.of_files (files_apply_modes mask chosen on)
  | acc i v | accView i p v => exact ⟨h.regs, h.index, h.modify, h.length, h.base⟩
  | flags f | mem addr v => exact ⟨h.regs, h.index, h.modify, h.length, h.base⟩

end Core.InWidth

namespace Memory.InWidth

variable {m : Memory}

theorem empty (size : Nat) : (Memory.empty size).InWidth := by
  intro v hv l
  rw [Array.eq_of_mem_replicate hv, Lanes.fill_apply]
  decide

theorem store (h : m.InWidth) (addr : Nat) (v : Lanes Int) (mask : Mask) : (m.store addr v mask).InWidth := by
  intro w hw
  obtain ⟨j, hj, rfl⟩ := Array.mem_iff_getElem.1 hw
  have hlt : j < m.words.size := by simpa [Memory.store] using hj
  have hold : m.words[j].InWidth := h _ (Array.getElem_mem hlt)
  simp only [Memory.store, Array.getElem_modify]
  split
  · exact hold.merge
  · exact hold

theorem apply (h : m.InWidth) (mask : Mask) (w : Write) : (m.apply mask w).InWidth := by
  cases w with
  | mem addr v => exact h.store addr v mask
  | _ => exact h

/-- Whatever a text says, what is loaded from it has the width of a word. -/
theorem loadLines (h : m.InWidth) (addr n count : Nat) (lines : List (List Char)) :
    (m.loadLines addr n count lines).1.InWidth := by
  induction lines generalizing m addr n count with
  | nil => exact h
  | cons line rest ih =>
    rw [Memory.loadLines]
    split
    · exact ih h addr (n + 1) count
    · split
      · exact h
      · split
        · exact h
        · exact ih (h.store addr _ _) (addr + 1) (n + 1) (count + 1)

end Memory.InWidth

theorem Core.InWidth.foldl_apply {s : Core} (h : s.InWidth) (mask : Mask) (ws : List Write) :
    (ws.foldl (·.apply mask ·) s).InWidth := by
  induction ws generalizing s with
  | nil => exact h
  | cons w rest ih => exact ih (h.apply mask w)

theorem Memory.InWidth.foldl_apply {m : Memory} (h : m.InWidth) (mask : Mask) (ws : List Write) :
    (ws.foldl (·.apply mask ·) m).InWidth := by
  induction ws generalizing m with
  | nil => exact h
  | cons w rest ih => exact ih (h.apply mask w)

namespace Simulator

/-- Registers and memory hold values of their widths. -/
def InWidth (sim : Simulator) : Prop := sim.core.InWidth ∧ sim.mem.InWidth

theorem InWidth.step {sim : Simulator} (h : sim.InWidth) : sim.step.InWidth := by
  unfold Simulator.step
  split
  · next idx i _ =>
    constructor
    · rw [core_stepAt]
      exact (h.1.foldl_apply _ _).of_files (Controller.files_advance ..)
    · rw [mem_stepAt]
      exact h.2.foldl_apply _ _
  · exact h

theorem Reachable.inWidth_of {p : Program} {config : Config} {sim : Simulator}
    (h : Reachable p config sim) : sim.InWidth := by
  induction h with
  | load => exact ⟨Core.InWidth.initial _, Memory.InWidth.empty _⟩
  | step _ ih => exact ih.step
  | loadText base text _ ih => exact ⟨ih.1, ih.2.loadLines base 1 0 _⟩

/-- The architectural widths: a signed number of twelve bits in each lane of a data register or memory
word, an unsigned one of sixteen in an index, length or base register, a signed one in a modify register,
and no mode bit but the three there are. -/
structure Widths (sim : Simulator) : Prop where
  regs : ∀ v ∈ sim.core.regs, ∀ l : Lane, -2048 ≤ v l ∧ v l ≤ 2047
  mem : ∀ v ∈ sim.mem.words, ∀ l : Lane, -2048 ≤ v l ∧ v l ≤ 2047
  index : ∀ n ∈ sim.core.index, n ≤ 65535
  length : ∀ n ∈ sim.core.length, n ≤ 65535
  base : ∀ n ∈ sim.core.base, n ≤ 65535
  modify : ∀ v ∈ sim.core.modify, -32768 ≤ v ∧ v ≤ 32767
  modes : sim.core.modes.bits ≤ 7

theorem Reachable.widths {p : Program} {config : Config} {sim : Simulator} (h : Reachable p config sim) :
    sim.Widths := by
  obtain ⟨hcore, hmem⟩ := h.inWidth_of
  have h11 : (span (dataBits - 1) : Int) = 2048 := rfl
  have h15 : (span (16 - 1) : Int) = 32768 := rfl
  have h16 : span 16 = 65536 := rfl
  have hword {v : Lanes Int} (hv : v.InWidth) (l : Lane) : -2048 ≤ v l ∧ v l ≤ 2047 := by
    have := hv l
    unfold Fits at this
    omega
  have haddress {n : Nat} (hn : n < span 16) : n ≤ 65535 := by omega
  refine ⟨fun v hv => hword (hcore.regs v hv), fun v hv => hword (hmem v hv),
    fun n hn => haddress (hcore.index n hn), fun n hn => haddress (hcore.length n hn),
    fun n hn => haddress (hcore.base n hn), fun v hv => ?_, ?_⟩
  · have := hcore.modify v hv
    unfold Fits at this
    omega
  · cases sim.core.modes with
    | mk aluSat macSat bitRev => cases aluSat <;> cases macSat <;> cases bitRev <;> decide

/-- Sets a modify register to a negative number. -/
def wideStep : Program :=
  { instrs := [{ line := 1, opcode := .ld, operands := [.reg ⟨.modify, 0⟩, .imm (-16384)] }] }

/-- The program has run, and a text with a number of thirteen bits is loaded behind it. -/
theorem Reachable.widths_wideStep :
    let sim := (Simulator.load wideStep {}).step
    let loaded := { sim with mem := (sim.mem.load 0 "4097").1 }
    Reachable wideStep {} loaded ∧ loaded.Widths := by
  have hload : Reachable wideStep {} (Simulator.load wideStep {}) := .load
  have h := hload.step.loadText 0 "4097"
  exact ⟨h, h.widths⟩

end Simulator

end QuadDsp
