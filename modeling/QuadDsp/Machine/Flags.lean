/-! # Flags and modes

The status of a lane: thirteen flags, once for real results, once for the imaginary half and once
for the two halves of a complex result together. An operation replaces the flags of its own group
and leaves the others; three flags are sticky, and an update never clears them (`update_sticky`). -/

namespace QuadDsp

/-- A set of flags. -/
structure Flags where
  /-- AZ: the result is zero -/
  zero : Bool := false
  /-- AN: the result is negative -/
  negative : Bool := false
  /-- AV: the exact result does not fit -/
  overflow : Bool := false
  /-- AC: carry out of an addition, no borrow in a subtraction -/
  carry : Bool := false
  /-- AS: the first input is negative -/
  inputSign : Bool := false
  /-- AQ: the latest division step -/
  quotient : Bool := false
  /-- MV: an accumulator value does not fit 24 bits -/
  mulOverflow : Bool := false
  /-- MN: an accumulator value is negative -/
  mulNegative : Bool := false
  /-- SV: a shift lost significant bits -/
  shiftOverflow : Bool := false
  /-- SZ: a shift result is zero -/
  shiftZero : Bool := false
  /-- AVS: AV was set -/
  stickyOverflow : Bool := false
  /-- MVS: MV was set -/
  stickyMul : Bool := false
  /-- SVS: SV was set -/
  stickyShift : Bool := false
deriving DecidableEq, Repr, Inhabited

namespace Flags

/-- The flags in the order of their bits, lowest first. -/
def toList (f : Flags) : List Bool :=
  [f.zero, f.negative, f.overflow, f.carry, f.inputSign, f.quotient, f.mulOverflow, f.mulNegative,
    f.shiftOverflow, f.shiftZero, f.stickyOverflow, f.stickyMul, f.stickyShift]

def bits (f : Flags) : Nat := f.toList.foldr (fun b n => b.toNat + 2 * n) 0

/-- Bits past the thirteenth are dropped. -/
def ofBits (n : Nat) : Flags :=
  ⟨n.testBit 0, n.testBit 1, n.testBit 2, n.testBit 3, n.testBit 4, n.testBit 5, n.testBit 6,
    n.testBit 7, n.testBit 8, n.testBit 9, n.testBit 10, n.testBit 11, n.testBit 12⟩

/-- The flags of an arithmetic or logic result. -/
def arith : Flags :=
  { zero := true, negative := true, overflow := true, carry := true, inputSign := true }

/-- The flag of a division step. -/
def division : Flags := { quotient := true }

/-- The flags of an accumulator result. -/
def multiplier : Flags := { mulOverflow := true, mulNegative := true }

/-- The flags of a shift. -/
def shifter : Flags := { shiftOverflow := true, shiftZero := true, zero := true }

/-- Replaces the flags of a group, then latches the sticky ones. -/
def update (group new old : Flags) : Flags where
  zero := if group.zero then new.zero else old.zero
  negative := if group.negative then new.negative else old.negative
  overflow := if group.overflow then new.overflow else old.overflow
  carry := if group.carry then new.carry else old.carry
  inputSign := if group.inputSign then new.inputSign else old.inputSign
  quotient := if group.quotient then new.quotient else old.quotient
  mulOverflow := if group.mulOverflow then new.mulOverflow else old.mulOverflow
  mulNegative := if group.mulNegative then new.mulNegative else old.mulNegative
  shiftOverflow := if group.shiftOverflow then new.shiftOverflow else old.shiftOverflow
  shiftZero := if group.shiftZero then new.shiftZero else old.shiftZero
  stickyOverflow :=
    (if group.stickyOverflow then new.stickyOverflow else old.stickyOverflow) || new.overflow
  stickyMul := (if group.stickyMul then new.stickyMul else old.stickyMul) || new.mulOverflow
  stickyShift :=
    (if group.stickyShift then new.stickyShift else old.stickyShift) || new.shiftOverflow

/-- The flags of a result, zero and sign only. -/
def ofResult (v : Int) : Flags := { zero := v == 0, negative := v < 0 }

theorem update_sticky (group new old : Flags) (h : group.stickyOverflow = false) :
    (update group new old).stickyOverflow = (old.stickyOverflow || new.overflow) := by
  simp [update, h]

end Flags

/-- The flags of one lane. -/
structure FlagBank where
  real : Flags := {}
  imag : Flags := {}
  /-- of a complex result as a whole -/
  both : Flags := {}
deriving DecidableEq, Repr, Inhabited

/-- One of the three sets of flags in a lane. -/
inductive Bank
  | real | imag | both
deriving DecidableEq, Repr

namespace FlagBank

def get (b : FlagBank) : Bank → Flags
  | .real => b.real
  | .imag => b.imag
  | .both => b.both

def modify (b : FlagBank) (bank : Bank) (f : Flags → Flags) : FlagBank :=
  match bank with
  | .real => { b with real := f b.real }
  | .imag => { b with imag := f b.imag }
  | .both => { b with both := f b.both }

end FlagBank

/-- The modes of the core, or a choice among them. -/
structure Modes where
  aluSat : Bool := false
  macSat : Bool := false
  bitRev : Bool := false
deriving DecidableEq, Repr, Inhabited

namespace Modes

def bits (m : Modes) : Nat := m.aluSat.toNat + 2 * m.macSat.toNat + 4 * m.bitRev.toNat

/-- Bits past the third are dropped. -/
def ofBits (n : Nat) : Modes := ⟨n.testBit 0, n.testBit 1, n.testBit 2⟩

/-- Switches the chosen modes on or off. -/
def switch (m chosen : Modes) (on : Bool) : Modes where
  aluSat := if chosen.aluSat then on else m.aluSat
  macSat := if chosen.macSat then on else m.macSat
  bitRev := if chosen.bitRev then on else m.bitRev

theorem ofBits_bits (m : Modes) : ofBits m.bits = m := by
  cases m with | mk a b c => cases a <;> cases b <;> cases c <;> rfl

theorem bits_ofBits (n : Nat) : (ofBits n).bits = n % 8 := by
  simp only [ofBits, bits, Nat.toNat_testBit]
  omega

end Modes

end QuadDsp
