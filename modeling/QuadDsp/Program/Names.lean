/-! # Name tables

A table from names to values, kept in the order of the names: by code points, which is also the
order of their UTF-8 bytes. -/

namespace QuadDsp

structure NameTable (α : Type) where
  entries : List (String × α) := []
deriving Repr, DecidableEq

namespace NameTable

def lookup (name : String) : List (String × α) → Option α
  | [] => none
  | (n, a) :: rest => if n = name then some a else lookup name rest

def find? (t : NameTable α) (name : String) : Option α := lookup name t.entries

def insertSorted (name : String) (a : α) : List (String × α) → List (String × α)
  | [] => [(name, a)]
  | (n, b) :: rest =>
    if name = n then (name, a) :: rest
    else if name < n then (name, a) :: (n, b) :: rest
    else (n, b) :: insertSorted name a rest

/-- Adds an entry; an entry of the same name is replaced. -/
def insert (t : NameTable α) (name : String) (a : α) : NameTable α :=
  ⟨insertSorted name a t.entries⟩

/-- Changes the value under a name, if there is one. -/
def modify (t : NameTable α) (name : String) (f : α → α) : NameTable α :=
  ⟨t.entries.map fun (n, a) => if n = name then (n, f a) else (n, a)⟩

def ofList (entries : List (String × α)) : NameTable α :=
  entries.foldl (fun t (n, a) => t.insert n a) {}

theorem lookup_insertSorted (name key : String) (a : α) (l : List (String × α)) :
    lookup key (insertSorted name a l) = if name = key then some a else lookup key l := by
  induction l with
  | nil => rfl
  | cons e rest ih =>
    obtain ⟨n, b⟩ := e
    rw [insertSorted]
    split
    · next h => subst h; simp only [lookup]; split <;> rfl
    · split
      · rfl
      · next h _ =>
        simp only [lookup, ih]
        split
        · next hk => rw [if_neg (hk ▸ h)]
        · rfl

theorem find?_insert (t : NameTable α) (name key : String) (a : α) :
    (t.insert name a).find? key = if name = key then some a else t.find? key :=
  lookup_insertSorted name key a t.entries

end NameTable

end QuadDsp
