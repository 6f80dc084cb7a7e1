/-! # Lanes

The core has four data paths that execute the same word. A value of every lane is a `Lanes`; a lane
mask, which says where a word takes effect, is a `Lanes Bool`. Operations are given by what they do
in each lane, and `Lanes.ext` compares two of them lane by lane. -/

namespace QuadDsp

abbrev Lane := Fin 4

/-- The lane that decides for what all lanes share. -/
abbrev Lane.first : Lane := 0

/-- One value for each lane. -/
structure Lanes (α : Type) where
  v0 : α
  v1 : α
  v2 : α
  v3 : α
deriving DecidableEq, Repr, Inhabited

namespace Lanes

def get (v : Lanes α) : Lane → α
  | 0 => v.v0
  | 1 => v.v1
  | 2 => v.v2
  | 3 => v.v3

instance : CoeFun (Lanes α) fun _ => Lane → α := ⟨get⟩

@[inline] def ofFn (f : Lane → α) : Lanes α := ⟨f 0, f 1, f 2, f 3⟩

@[simp] theorem ofFn_apply (f : Lane → α) (l : Lane) : ofFn f l = f l :=
  match l with
  | 0 | 1 | 2 | 3 => rfl

theorem ext {v w : Lanes α} (h : ∀ l : Lane, v l = w l) : v = w := by
  cases v; cases w
  exact congr (congr (congr (congrArg mk (h 0)) (h 1)) (h 2)) (h 3)

@[inline] def map (f : α → β) (v : Lanes α) : Lanes β := ofFn fun l => f (v l)

@[inline] def zipWith (f : α → β → γ) (v : Lanes α) (w : Lanes β) : Lanes γ :=
  ofFn fun l => f (v l) (w l)

/-- The same value in every lane. -/
def fill (a : α) : Lanes α := ⟨a, a, a, a⟩

def set (v : Lanes α) (l : Lane) (a : α) : Lanes α := ofFn fun k => if k = l then a else v k

/-- Takes the new value in the lanes of the mask and keeps the old one in the others. -/
def merge (mask : Lanes Bool) (old new : Lanes α) : Lanes α :=
  ofFn fun l => if mask l then new l else old l

def toList (v : Lanes α) : List α := [v.v0, v.v1, v.v2, v.v3]

@[simp] theorem map_apply (f : α → β) (v : Lanes α) (l : Lane) : map f v l = f (v l) :=
  ofFn_apply _ l

@[simp] theorem zipWith_apply (f : α → β → γ) (v : Lanes α) (w : Lanes β) (l : Lane) :
    zipWith f v w l = f (v l) (w l) := ofFn_apply _ l

@[simp] theorem fill_apply (a : α) (l : Lane) : fill a l = a :=
  match l with
  | 0 | 1 | 2 | 3 => rfl

@[simp] theorem set_apply (v : Lanes α) (l k : Lane) (a : α) :
    v.set l a k = if k = l then a else v k := ofFn_apply _ k

@[simp] theorem merge_apply (mask : Lanes Bool) (old new : Lanes α) (l : Lane) :
    merge mask old new l = if mask l then new l else old l := ofFn_apply _ l

theorem merge_fill_true (old new : Lanes α) : merge (fill true) old new = new :=
  ext fun l => by simp

theorem merge_fill_false (old new : Lanes α) : merge (fill false) old new = old :=
  ext fun l => by simp

end Lanes

/-- The lanes in which a word takes effect. -/
abbrev Mask := Lanes Bool

namespace Mask

def all : Mask := Lanes.fill true

/-- Bit `n` stands for lane `n`; higher bits are dropped. -/
def ofBits (bits : Nat) : Mask := Lanes.ofFn fun l => bits.testBit l

def bits (m : Mask) : Nat :=
  m.v0.toNat + 2 * m.v1.toNat + 4 * m.v2.toNat + 8 * m.v3.toNat

def lanes (m : Mask) : List Lane := [0, 1, 2, 3].filter fun l => m l

def isAll (m : Mask) : Bool := m.toList.all id

def isAny (m : Mask) : Bool := m.toList.any id

theorem bits_ofBits (n : Nat) (h : n < 16) : bits (ofBits n) = n := by
  have key : ∀ n : Fin 16, bits (ofBits n.val) = n.val := by decide
  exact key ⟨n, h⟩

end Mask

end QuadDsp
