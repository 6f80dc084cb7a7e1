import QuadDsp.Width

/-! # Complex pairs

A complex number of the core has one data word for each half. Packed, the halves stand side by side
in 24 bits, the real half on top. -/

namespace QuadDsp

structure ComplexPair where
  re : Int
  im : Int
deriving DecidableEq, Repr, Inhabited

namespace ComplexPair

def pack (c : ComplexPair) : Int :=
  wrap (2 * dataBits) (lowBits dataBits c.re * span dataBits + lowBits dataBits c.im : Nat)

def unpack (v : Int) : ComplexPair := ⟨wrap dataBits (v / span dataBits), wrap dataBits v⟩

theorem unpack_pack (c : ComplexPair) (hre : Fits dataBits c.re) (him : Fits dataBits c.im) :
    unpack (pack c) = c := by
  obtain ⟨re, im⟩ := c
  have h11 : span (dataBits - 1) = 2048 := rfl
  have h12 : span dataBits = 4096 := rfl
  have h24 : span (2 * dataBits) = 16777216 := rfl
  simp only [Fits, h11] at hre him
  simp only [unpack, pack, wrap, lowBits, h12, h24, Int.bmod_def, mk.injEq]
  constructor <;> omega

/-- The conjugate, if asked for. -/
def conjIf (on : Bool) (c : ComplexPair) : ComplexPair := if on then ⟨c.re, -c.im⟩ else c

end ComplexPair

end QuadDsp
