import QuadDsp.Fault
import QuadDsp.Machine.ComplexPair
import QuadDsp.Machine.Lanes
import QuadDsp.Text.Blank

/-! # Data memory

One 12-bit word for each lane at every address. A store goes through a lane mask and keeps the low
bits of its values. `dump` writes a range of memory as text, a line of four decimal numbers for each
address, and `load` reads such a text back; there a single number stands for all four lanes, and
blank lines and lines that start with `#` are passed over. -/

namespace QuadDsp

structure Memory where
  words : Array (Lanes Int)

/-- What is wrong with a line of an initialisation text. -/
inductive InitCause
  | numeral (fault : Text.NumeralFault)
  | valueCount
  | address (e : AddressError)
deriving DecidableEq, Repr

/-- A line of an initialisation text that cannot be loaded. -/
structure InitError where
  line : Nat
  cause : InitCause
deriving DecidableEq, Repr

namespace InitError

/-- Where the fault is, and what it is unless it has a cause of its own. -/
def place (e : InitError) : String :=
  "init line " ++ Text.decimal e.line ++
    match e.cause with
    | .valueCount => ": expected 1 or 4 values"
    | _ => ""

def cause? (e : InitError) : Option String :=
  match e.cause with
  | .numeral fault => some fault.message
  | .address e => some e.message
  | .valueCount => none

end InitError

namespace Memory

def empty (size : Nat) : Memory := ⟨Array.replicate size (Lanes.fill 0)⟩

def size (m : Memory) : Nat := m.words.size

def read (m : Memory) (addr : Nat) : Except AddressError (Lanes Int) :=
  match m.words[addr]? with
  | some v => .ok v
  | none => .error (.outOfRange addr)

/-- Stores in the lanes of the mask; an address outside memory stores nothing. -/
def store (m : Memory) (addr : Nat) (v : Lanes Int) (mask : Mask) : Memory :=
  ⟨m.words.modify addr fun old => Lanes.merge mask old (v.map (wrap dataBits))⟩

/-- The fault of an access to an address. -/
def fault? (m : Memory) (addr : Nat) : Option AddressError :=
  if addr < m.size then none else some (.outOfRange addr)

@[simp] theorem size_store (m : Memory) (addr : Nat) (v : Lanes Int) (mask : Mask) :
    (m.store addr v mask).size = m.size := by simp [store, size]

theorem read_store (m : Memory) (addr other : Nat) (v : Lanes Int) (mask : Mask)
    (h : addr ≠ other) : (m.store addr v mask).read other = m.read other := by
  simp [store, read, Array.getElem?_modify, h]

theorem read_store_self (m : Memory) (addr : Nat) (v old : Lanes Int) (mask : Mask)
    (h : m.read addr = .ok old) :
    (m.store addr v mask).read addr = .ok (Lanes.merge mask old (v.map (wrap dataBits))) := by
  unfold read at h ⊢
  split at h
  · next hw => cases h; simp [store, Array.getElem?_modify, hw]
  · cases h

/-- The line of one address. -/
def dumpLine (v : Lanes Int) : String := Text.join " " (v.toList.map Text.decimalInt) ++ "\n"

/-- At most `count` lines from an address on; the text ends where memory ends. -/
def dump (m : Memory) (start count : Nat) : String :=
  String.join ((m.words.extract start (start + count)).toList.map dumpLine)

/-- The values on a line: one for all lanes, or one for each. -/
def lineValues (line : List Char) : Except InitCause (Lanes Int) :=
  match (Text.words line).mapM (Text.readInt 10 32) with
  | .error fault => .error (.numeral fault)
  | .ok [v] => .ok (Lanes.fill v)
  | .ok [a, b, c, d] => .ok ⟨a, b, c, d⟩
  | .ok _ => .error .valueCount

/-- Nothing is loaded from a blank line or a comment. -/
def isSilent : List Char → Bool
  | [] => true
  | c :: _ => c == '#'

/-- Loads lines from an address on and counts the words; `n` is the number of the first line. The
lines before a faulty one stay loaded. -/
def loadLines (m : Memory) (addr n : Nat) (count : Nat) :
    List (List Char) → Memory × Except InitError Nat
  | [] => (m, .ok count)
  | line :: rest =>
    let line := Text.trim line
    if isSilent line then m.loadLines addr (n + 1) count rest
    else
      match lineValues line with
      | .error cause => (m, .error ⟨n, cause⟩)
      | .ok v =>
        match m.fault? addr with
        | some e => (m, .error ⟨n, .address e⟩)
        | none => (m.store addr v Mask.all).loadLines (addr + 1) (n + 1) (count + 1) rest

/-- Loads a text from an address on and counts the words. -/
def load (m : Memory) (base : Nat) (text : String) : Memory × Except InitError Nat :=
  m.loadLines base 1 0 (Text.lines text.toList)

end Memory

end QuadDsp
