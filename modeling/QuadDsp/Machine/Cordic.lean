import QuadDsp.Machine.ComplexPair

/-! # Conversion between rectangular and polar form

Twelve shift-and-add steps turn a vector by ever smaller angles. Angles count 4096 to the full turn,
and the steps lengthen the vector by a constant, which `gain` takes out again. Shifts round down. -/

namespace QuadDsp

namespace Cordic

/-- The angle whose tangent is `2 ^ -i`, for each step. -/
def angles : List Int := [512, 302, 160, 81, 41, 20, 10, 5, 3, 1, 1, 0]

/-- What a length is multiplied by, times 4096. -/
def gain : Int := 2487

def halfTurn : Int := 2048

/-- A vector and an angle. -/
structure State where
  x : Int
  y : Int
  z : Int
deriving DecidableEq, Repr

/-- Turns the vector to the right by the angle of step `i`, and adds it to the angle. -/
def State.turn (s : State) (i : Nat) (angle : Int) : State :=
  ⟨s.x + s.y / span i, s.y - s.x / span i, s.z + angle⟩

/-- Turns the vector to the left by the angle of step `i`, and takes it from the angle. -/
def State.turnBack (s : State) (i : Nat) (angle : Int) : State :=
  ⟨s.x - s.y / span i, s.y + s.x / span i, s.z - angle⟩

/-- Steps from step `i` on; the test decides which way a vector turns. -/
def rotate (right : State → Bool) : Nat → List Int → State → State
  | _, [], s => s
  | i, angle :: rest, s =>
    rotate right (i + 1) rest (if right s then s.turn i angle else s.turnBack i angle)

/-- The length and angle of a vector, and whether the length was clamped. Vectors on the left turn
half way round first. -/
def polar (c : ComplexPair) : ComplexPair × Bool :=
  let start : State := if c.re < 0 then ⟨-c.re, -c.im, halfTurn⟩ else ⟨c.re, c.im, 0⟩
  let s := rotate (fun s => 0 ≤ s.y) 0 angles start
  let length := s.x * gain / span 12
  (⟨clamp dataBits length, wrap dataBits s.z⟩, !decide (Fits dataBits length))

/-- The vector of a length and angle, and whether a half was clamped. Angles past a quarter turn
start from the opposite vector. -/
def rect (c : ComplexPair) : ComplexPair × Bool :=
  let x := c.re * gain / span 12
  let start : State :=
    if halfTurn / 2 < c.im then ⟨-x, 0, c.im - halfTurn⟩
    else if c.im < -(halfTurn / 2) then ⟨-x, 0, c.im + halfTurn⟩
    else ⟨x, 0, c.im⟩
  let s := rotate (fun s => s.z < 0) 0 angles start
  (⟨clamp dataBits s.x, clamp dataBits s.y⟩,
    !decide (Fits dataBits s.x) || !decide (Fits dataBits s.y))

example : polar ⟨1000, 0⟩ = (⟨1001, 0⟩, false) := by decide

example : polar ⟨0, -1000⟩ = (⟨1001, -1024⟩, false) := by decide

example : rect ⟨1000, 1024⟩ = (⟨-3, 1001⟩, false) := by decide

end Cordic

end QuadDsp
