/-! # Fixed widths

Values of a fixed number of bits, as integers. `lowBits` reads the low bits of a value as an
unsigned number and `wrap` as a signed one in two's complement; `clamp` goes to the nearest signed
value in range instead. `wrap_eq_self_iff` says that wrapping changes exactly the values that do not
fit. -/

namespace QuadDsp

/-- Width of a data register and of a word of data memory. -/
abbrev dataBits : Nat := 12

/-- Width of an address. -/
abbrev addrBits : Nat := 32

/-- How many values `bits` bits can hold, a power of two. -/
@[inline] def span (bits : Nat) : Nat := Nat.pow 2 bits

/-- The width of fields side by side. -/
def totalWidth : List Nat → Nat
  | [] => 0
  | w :: rest => w + totalWidth rest

/-- Representable as a signed number of `bits` bits. -/
def Fits (bits : Nat) (v : Int) : Prop := -span (bits - 1) ≤ v ∧ v < span (bits - 1)

@[inline] instance (bits : Nat) (v : Int) : Decidable (Fits bits v) :=
  inferInstanceAs (Decidable (_ ∧ _))

/-- The low `bits` bits, unsigned. -/
@[inline] def lowBits (bits : Nat) (v : Int) : Nat := (v % span bits).toNat

/-- The low `bits` bits, signed. -/
@[inline] def wrap (bits : Nat) (v : Int) : Int := Int.bmod v (span bits)

/-- The nearest signed number of `bits` bits. -/
@[inline] def clamp (bits : Nat) (v : Int) : Int :=
  max (-span (bits - 1)) (min v (span (bits - 1) - 1))

/-- The address `n` words behind another one; behind the last address comes the first one again. -/
def addrBehind (addr n : Nat) : Nat := (addr + n) % span addrBits

theorem addrBehind_of_lt {addr n : Nat} (h : addr + n < span addrBits) : addrBehind addr n = addr + n :=
  Nat.mod_eq_of_lt h

theorem addrBehind_lt (addr n : Nat) : addrBehind addr n < span addrBits := Nat.mod_lt _ (Nat.two_pow_pos addrBits)

theorem addrBehind_one_of_last {addr : Nat} (h : addr + 1 = span addrBits) : addrBehind addr 1 = 0 := by
  rw [addrBehind, h, Nat.mod_self]

/-- In front of every address but the first one stands the one that it is behind. -/
theorem addrBehind_one_sub_one {addr : Nat} (h : addr < span addrBits) (hne : addrBehind addr 1 ≠ 0) :
    addrBehind addr 1 - 1 = addr := by
  rcases Nat.lt_or_eq_of_le (Nat.succ_le_of_lt h) with hlt | hlast
  · rw [addrBehind_of_lt hlt, Nat.add_sub_cancel]
  · exact absurd (addrBehind_one_of_last hlast) hne

theorem fits_data_iff (v : Int) : Fits dataBits v ↔ -2048 ≤ v ∧ v < 2048 := Iff.rfl

theorem span_pos (bits : Nat) : 0 < span bits := Nat.two_pow_pos bits

theorem span_succ (bits : Nat) : span (bits + 1) = 2 * span bits := Nat.mul_comm _ _

theorem span_add (m n : Nat) : span (m + n) = span m * span n := Nat.pow_add 2 m n

theorem span_eq {bits : Nat} (h : 0 < bits) : span bits = 2 * span (bits - 1) := by
  obtain ⟨n, rfl⟩ : ∃ n, bits = n + 1 := ⟨bits - 1, by omega⟩
  exact span_succ n

theorem lowBits_lt (bits : Nat) (v : Int) : lowBits bits v < span bits := by
  have h : (0 : Int) < span bits := Int.natCast_pos.2 (span_pos bits)
  have := Int.emod_lt_of_pos v h
  have := Int.emod_nonneg v (Int.ne_of_gt h)
  unfold lowBits
  omega

theorem fits_wrap {bits : Nat} (h : 0 < bits) (v : Int) : Fits bits (wrap bits v) := by
  have hs := span_eq h
  have hlow := Int.le_bmod (x := v) (span_pos bits)
  have hhigh := Int.bmod_lt (x := v) (span_pos bits)
  unfold Fits wrap
  omega

theorem fits_of_natAbs_lt {bits : Nat} {v : Int} (h : v.natAbs < span (bits - 1)) : Fits bits v := by
  unfold Fits
  omega

theorem wrap_eq_self_iff {bits : Nat} (h : 0 < bits) (v : Int) :
    wrap bits v = v ↔ Fits bits v := by
  constructor
  · intro hv
    exact hv ▸ fits_wrap h v
  · intro ⟨hlow, hhigh⟩
    have hs := span_eq h
    apply Int.bmod_eq_of_le <;> omega

theorem fits_clamp (bits : Nat) (v : Int) : Fits bits (clamp bits v) := by
  have := span_pos (bits - 1)
  unfold Fits clamp
  omega

theorem clamp_eq_self_iff (bits : Nat) (v : Int) : clamp bits v = v ↔ Fits bits v := by
  have := span_pos (bits - 1)
  unfold Fits clamp
  omega

end QuadDsp
