/-! # Machine configuration -/

namespace QuadDsp

structure Config where
  /-- a taken branch redirects after one more instruction -/
  delaySlots : Bool := false
  /-- size of data memory in words -/
  dataWords : Nat := 0x10000
  /-- depth of every stack of the sequencer -/
  stackDepth : Nat := 8
  /-- cap on the steps of one unattended run -/
  maxSteps : Nat := 1000000
deriving DecidableEq, Repr

end QuadDsp
