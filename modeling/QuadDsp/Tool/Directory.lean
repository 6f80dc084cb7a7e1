import QuadDsp.Tool.Files

/-! # A directory of files

The file system of a tool that runs in a directory with some files in it and no directory below. A
path is followed name by name; of what lies outside nothing is known, so nothing can be read there.
A file that can be read can also be written (`newFault?_of_read`). -/

namespace QuadDsp

structure Directory where
  entries : List (String × ByteArray)

namespace Directory

/-- The bytes that a name can have. -/
def longestName : Nat := 255

/-- The bytes that a path can have. -/
def longestPath : Nat := 4095

/-- Where a path leads. -/
inductive Location
  | directory
  /-- a name in the directory itself (`here`) or outside -/
  | entry (here : Bool) (name : String)
deriving DecidableEq, Repr

def find? (d : Directory) (here : Bool) (name : String) : Option ByteArray :=
  if here then d.entries.lookup name else none

/-- Follows names from the directory itself (`here`) or from outside. -/
def follow (d : Directory) (here : Bool) : List String → Except FileFault Location
  | [] => .ok .directory
  | "." :: rest => d.follow here rest
  | ".." :: rest => d.follow false rest
  | [name] => .ok (.entry here name)
  | name :: _ :: _ =>
    if longestName < name.utf8ByteSize then .error .nameTooLong
    else if (d.find? here name).isSome then .error .notDirectory
    else .error .missing

def locate (d : Directory) (path : String) : Except FileFault Location :=
  if path = "" then .error .missing
  else if longestPath < path.utf8ByteSize then .error .nameTooLong
  else d.follow (!Path.startsWithSlash path) (Path.names path)

def read (d : Directory) (path : String) : Except FileFault ByteArray :=
  match d.locate path with
  | .error e => .error e
  | .ok .directory => .error .isDirectory
  | .ok (.entry here name) =>
    if longestName < name.utf8ByteSize then .error .nameTooLong
    else
      match d.find? here name with
      | none => .error .missing
      | some bytes => if Path.endsWithSlash path then .error .notDirectory else .ok bytes

/-- Why a file cannot be written. -/
def newFault? (d : Directory) (path : String) : Option FileFault :=
  match d.locate path with
  | .error e => some e
  | .ok .directory => some .isDirectory
  | .ok (.entry _ name) =>
    if Path.endsWithSlash path then some .isDirectory
    else if longestName < name.utf8ByteSize then some .nameTooLong
    else none

theorem newFault?_of_read {d : Directory} {path : String} {bytes : ByteArray}
    (h : d.read path = .ok bytes) : d.newFault? path = none := by
  unfold read at h
  unfold newFault?
  split at h <;> try contradiction
  next here name hl =>
    split at h <;> try contradiction
    next hn =>
      split at h <;> try contradiction
      split at h <;> try contradiction
      next hs => simp [hs, hn]

/-- The name of the entry that a path leads to. -/
def entryName? (d : Directory) (path : String) : Option String :=
  match d.locate path with
  | .ok (.entry true name) => some name
  | _ => none

def files (d : Directory) : Files := { read := d.read, newFault? := d.newFault? }

/-- The files that are not there yet among those written. -/
def added (d : Directory) (written : List (String × ByteArray)) : List (String × ByteArray) :=
  written.filterMap fun (path, bytes) =>
    match d.entryName? path with
    | some name => if (d.find? true name).isNone then some (name, bytes) else none
    | none => none

end Directory

end QuadDsp
