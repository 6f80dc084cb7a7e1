import Mathlib.Algebra.BigOperators.Group.Finset.Basic
import Mathlib.Tactic.Linarith
import QuadDsp.Machine.Multiplier
import QuadDsp.Proofs.Machine.NonRestoring

/-! # Sums of products

Which of two factors is read as a signed number is up to the mode (`Multiplier.exactProduct`), and an operation of the
multiplier gives an exact result (`Multiplier.exactResult`) that is wrapped to 32 bits, or clamped to 24. For values in
range a clamped result is the exact one, clamped once: nothing is lost in wrapping it first
(`Multiplier.Term.step_saturate`). A row of operations sums the signed products since the latest MPY
(`Multiplier.total_succ`). -/

namespace QuadDsp

namespace MulMode

/-- Whether the first factor is a signed number. -/
def firstSigned : MulMode → Bool
  | ss | su | rnd => true
  | us | uu => false

/-- Whether the second factor is a signed number. -/
def secondSigned : MulMode → Bool
  | ss | us | rnd => true
  | su | uu => false

end MulMode

namespace Multiplier

/-- Twelve bits as a signed number, or as an unsigned one. -/
def reading (signed : Bool) (v : Int) : Int := if signed then v else v % 4096

/-- The product of two factors that are read as the mode says. -/
def exactProduct (mode : MulMode) (x y : Int) : Int := reading mode.firstSigned x * reading mode.secondSigned y

/-- What MPY, MAC and MAS make of an old value and a product, before it is wrapped or clamped. RND adds half a unit of
the upper bits and clears the lower twelve. -/
def exactResult (op : Opcode) (mode : MulMode) (old p : Int) : Int :=
  let v := accumulate op old p
  if mode = .rnd then v + 0x800 - (v + 0x800) % 0x1000 else v

variable {mode : MulMode} {op : Opcode} {old p x y : Int}

theorem product_eq (mode : MulMode) (x y : Int) : product mode x y = exactProduct mode x y := by
  cases mode <;> simp [product, exactProduct, reading, MulMode.firstSigned, MulMode.secondSigned, Alu.lowBits_data]

theorem step_eq (op : Opcode) (mode : MulMode) (saturate : Bool) (old p : Int) :
    step op mode saturate old p = settle (exactResult op mode old p) saturate := by
  have hround (v : Int) : round v = v + 0x800 - (v + 0x800) % 0x1000 := by
    rw [round]
    omega
  simp only [step, exactResult, hround]

theorem abs_le_of_fits {v : Int} (h : Fits dataBits v) : |v| ≤ 2048 := by
  obtain ⟨hlow, hhigh⟩ := (fits_data_iff v).1 h
  exact abs_le.2 ⟨hlow, hhigh.le⟩

theorem abs_reading_le (signed : Bool) {v : Int} (h : |v| ≤ 2048) : |reading signed v| ≤ 4095 := by
  obtain ⟨hlow, hhigh⟩ := abs_le.1 h
  unfold reading
  split
  · exact h.trans (by decide)
  · exact abs_le.2 ⟨by omega, by omega⟩

theorem abs_exactProduct_le (mode : MulMode) (hx : |x| ≤ 2048) (hy : |y| ≤ 2048) :
    |exactProduct mode x y| ≤ 4095 * 4095 := by
  rw [exactProduct, abs_mul]
  exact mul_le_mul (abs_reading_le _ hx) (abs_reading_le _ hy) (abs_nonneg _) (by decide)

theorem abs_exactProduct_sub_lt (mode mode' : MulMode) (hx : |x| ≤ 2048) (hy : |y| ≤ 2048) :
    |exactProduct mode x y - exactProduct mode' x y| < 4294967296 := by
  have h := abs_le.1 (abs_exactProduct_le mode hx hy)
  have h' := abs_le.1 (abs_exactProduct_le mode' hx hy)
  exact abs_lt.2 ⟨by omega, by omega⟩

theorem fits_exactResult (hop : op ∈ [Opcode.mpy, .mac, .mas]) (mode : MulMode) (hold : Fits accBits old)
    (hp : |p| ≤ 4095 * 4095) : Fits 32 (exactResult op mode old p) := by
  obtain ⟨hlow, hhigh⟩ := abs_le.1 hp
  have h24 : (span (accBits - 1) : Int) = 8388608 := rfl
  have h32 : (span (32 - 1) : Int) = 2147483648 := rfl
  have hv : -33554432 < accumulate op old p ∧ accumulate op old p < 33554432 := by
    unfold Fits at hold
    simp only [List.mem_cons, List.not_mem_nil, or_false] at hop
    rcases hop with rfl | rfl | rfl <;> simp only [accumulate] <;> omega
  unfold Fits exactResult
  dsimp only
  split <;> omega

/-- Without saturation and rounding, different products leave different values. -/
theorem step_wrap_inj (hop : op ∈ [Opcode.mpy, .mac, .mas]) (hmode : mode ≠ .rnd) {q : Int} (hpq : |p - q| < 4294967296)
    (h : (step op mode false old p).1 = (step op mode false old q).1) : p = q := by
  have hexact (p : Int) : (step op mode false old p).1 = wrap 32 (accumulate op old p) := by
    rw [step_eq, exactResult]
    simp [settle, hmode]
  rw [hexact, hexact] at h
  have hlow : accumulate op old p % 4294967296 = accumulate op old q % 4294967296 := by
    have hbits := congrArg (lowBits 32) h
    rw [lowBits_wrap, lowBits_wrap] at hbits
    have hspan : (span 32 : Int) = 4294967296 := rfl
    unfold lowBits at hbits
    rw [hspan] at hbits
    omega
  obtain ⟨hleft, hright⟩ := abs_lt.1 hpq
  simp only [List.mem_cons, List.not_mem_nil, or_false] at hop
  rcases hop with rfl | rfl | rfl <;> simp only [accumulate] at hlow <;> omega

/-! ### Rows of operations -/

/-- A product as an operation adds it. -/
def signed (op : Opcode) (p : Int) : Int := if op = .mas then -p else p

/-- No operation behind the `k`-th one, among the first `n`, begins anew. -/
def Carries (ops : Nat → Opcode) (n k : Nat) : Prop := ∀ j < n, k < j → ops j ≠ .mpy

instance (ops : Nat → Opcode) (n : Nat) : DecidablePred (Carries ops n) :=
  fun _ => inferInstanceAs (Decidable (∀ _, _))

/-- The sum of the signed products of the first `n` operations, from the latest MPY on; where there is none, the value
at the start counts too. -/
def total (start : Int) (ops : Nat → Opcode) (ps : Nat → Int) (n : Nat) : Int :=
  (if ∀ j < n, ops j ≠ .mpy then start else 0) +
    ∑ k ∈ (Finset.range n).filter (Carries ops n), signed (ops k) (ps k)

variable {start : Int} {ops : Nat → Opcode} {ps : Nat → Int} {n : Nat}

theorem carries_self (ops : Nat → Opcode) (n : Nat) : Carries ops (n + 1) n :=
  fun _ hj hlt => absurd hlt (Nat.not_lt_of_le (Nat.le_of_lt_succ hj))

theorem total_succ_of_mpy (h : ops n = .mpy) : total start ops ps (n + 1) = ps n := by
  have hlast : (Finset.range (n + 1)).filter (Carries ops (n + 1)) = {n} := by
    ext k
    rw [Finset.mem_filter, Finset.mem_range, Finset.mem_singleton]
    constructor
    · rintro ⟨hk, hcarries⟩
      by_contra hne
      exact hcarries n n.lt_succ_self (by omega) h
    · rintro rfl
      exact ⟨k.lt_succ_self, carries_self ops k⟩
  rw [total, if_neg fun hnone => hnone n n.lt_succ_self h, hlast, Finset.sum_singleton, signed, h]
  simp

theorem total_succ_of_ne (h : ops n ≠ .mpy) :
    total start ops ps (n + 1) = total start ops ps n + signed (ops n) (ps n) := by
  have hlater {P : Nat → Prop} (hn : P n) : (∀ j < n + 1, P j) ↔ ∀ j < n, P j := by
    rw [Nat.forall_lt_succ_right]
    exact and_iff_left hn
  have hfilter : (Finset.range (n + 1)).filter (Carries ops (n + 1)) =
      insert n ((Finset.range n).filter (Carries ops n)) := by
    rw [Finset.range_add_one, Finset.filter_insert, if_pos (carries_self ops n)]
    exact congrArg (insert n) (Finset.filter_congr fun k _ => hlater fun _ => h)
  rw [total, total, hfilter, Finset.sum_insert (by simp), if_congr (hlater h) rfl rfl]
  ring

theorem total_succ (hop : ops n ∈ [Opcode.mpy, .mac, .mas]) :
    total start ops ps (n + 1) = accumulate (ops n) (total start ops ps n) (ps n) := by
  simp only [List.mem_cons, List.not_mem_nil, or_false] at hop
  rcases hop with h | h | h
  · rw [total_succ_of_mpy h, h]
    rfl
  · rw [total_succ_of_ne (by rw [h]; decide), h]
    rfl
  · rw [total_succ_of_ne (by rw [h]; decide), h]
    rfl

theorem wrap_accumulate (op : Opcode) (old p : Int) :
    wrap 32 (accumulate op (wrap 32 old) p) = wrap 32 (accumulate op old p) := by
  cases op <;> simp [accumulate, wrap]

/-- Wrapped after every operation, a row leaves its sum, wrapped once. -/
theorem eq_wrap_total {value : Nat → Int} {modes : Nat → MulMode}
    (hstep : ∀ k ≤ n, value (k + 1) = wrap 32 (exactResult (ops k) (modes k) (value k) (ps k)))
    (hops : ∀ k ≤ n, ops k ∈ [Opcode.mpy, .mac, .mas]) (hmodes : ∀ k ≤ n, modes k ≠ .rnd) :
    value (n + 1) = wrap 32 (total (value 0) ops ps (n + 1)) := by
  have hplain {k : Nat} (hk : k ≤ n) : value (k + 1) = wrap 32 (accumulate (ops k) (value k) (ps k)) := by
    rw [hstep k hk, exactResult]
    exact congrArg (wrap 32) (if_neg (hmodes k hk))
  induction n with
  | zero =>
    rw [hplain le_rfl, total_succ (hops 0 le_rfl)]
    simp [total]
  | succ n ih =>
    have hbefore := ih (fun k hk => hstep k (by omega)) (fun k hk => hops k (by omega))
      (fun k hk => hmodes k (by omega))
      fun hk => hplain (by omega)
    rw [hplain le_rfl, hbefore, wrap_accumulate, total_succ (hops (n + 1) le_rfl)]

/-- An operation of the multiplier with its factors. -/
structure Term where
  op : Opcode
  mode : MulMode
  x : Int
  y : Int

namespace Term

def product (t : Term) : Int := exactProduct t.mode t.x t.y

/-- The exact result, in front of wrapping or clamping. -/
def result (t : Term) (old : Int) : Int := exactResult t.op t.mode old t.product

def step (t : Term) (saturate : Bool) (old : Int) : Flagged :=
  Multiplier.step t.op t.mode saturate old (Multiplier.product t.mode t.x t.y)

theorem step_wrap (t : Term) (old : Int) : (t.step false old).1 = wrap 32 (t.result old) ∧
    ((t.step false old).2.mulOverflow = true ↔ ¬Fits accBits (t.step false old).1) := by
  rw [step, step_eq, product_eq]
  simp [settle, result, product]

/-- With saturation the exact result is clamped: from a value in range it does not wrap. -/
theorem step_saturate {t : Term} (hop : t.op ∈ [Opcode.mpy, .mac, .mas])
    (hfits : Fits dataBits t.x ∧ Fits dataBits t.y) {old : Int} (hold : Fits accBits old) :
    (t.step true old).1 = clamp accBits (t.result old) ∧
      ((t.step true old).2.mulOverflow = true ↔ ¬Fits accBits (t.result old)) := by
  have hproduct := abs_exactProduct_le t.mode (abs_le_of_fits hfits.1) (abs_le_of_fits hfits.2)
  have hwrap := (wrap_eq_self_iff (by decide) _).2 (fits_exactResult hop t.mode hold hproduct)
  rw [step, step_eq, product_eq]
  simp only [settle, hwrap, result, product, Bool.and_true]
  by_cases hresult : Fits accBits (exactResult t.op t.mode old (exactProduct t.mode t.x t.y))
  · simp [hresult, (clamp_eq_self_iff accBits _).2 hresult]
  · simp [hresult]

end Term

/-- The values of an accumulator behind each of a row of operations. -/
def run (saturate : Bool) (start : Int) (terms : Nat → Term) : Nat → Int
  | 0 => start
  | k + 1 => ((terms k).step saturate (run saturate start terms k)).1

end Multiplier

end QuadDsp
