import QuadDsp.Text.Blank

/-! # Paths

Names with `/` between them, and the extension behind the last dot of a file name. A dot in front of
a file name starts no extension. Slashes, and single dots behind them, do not count at the end of a
path when its file name is looked for. -/

namespace QuadDsp

namespace Path

/-- The names between the slashes. -/
def names (path : String) : List String :=
  ((Text.cut (· == '/') path.toList).map String.ofList).filter (· != "")

def startsWithSlash (path : String) : Bool := path.toList.head? == some '/'

/-- Such a path stands for a directory. -/
def endsWithSlash (path : String) : Bool := path.toList.getLast? == some '/'

/-- Splits at the last character that satisfies `p`, which is dropped. -/
def splitLast (p : Char → Bool) (s : List Char) : Option (List Char × List Char) :=
  (Text.splitFirst p s.reverse).map fun (behind, front) => (front.reverse, behind.reverse)

/-- Drops what does not count, from a path read backwards. -/
def dropIdle : List Char → List Char
  | '/' :: rest => dropIdle rest
  | '.' :: '/' :: rest => dropIdle rest
  | s => s

/-- The directory in front of a file name, up to its slash, and the file name. -/
def splitDir (path : List Char) : List Char × List Char :=
  let path := (dropIdle path.reverse).reverse
  match splitLast (· == '/') path with
  | some (dir, name) => (dir ++ ['/'], name)
  | none => ([], path)

/-- No file can have one of these names. -/
def isReserved (name : List Char) : Bool := name == [] || name == ['.'] || name == ['.', '.']

/-- Stem and extension of a file name. -/
def splitName (name : List Char) : List Char × Option (List Char) :=
  if isReserved name then (name, none)
  else
    match splitLast (· == '.') name with
    | some ([], _) => (name, none)
    | some (stem, ext) => (stem, some ext)
    | none => (name, none)

def extension? (path : List Char) : Option (List Char) := (splitName (splitDir path).2).2

/-- Puts an extension behind the stem of a file name; the empty one leaves the stem alone, and a
path without a file name stays as it is. -/
def setExtension (path ext : List Char) : List Char :=
  let (dir, name) := splitDir path
  if isReserved name then path
  else dir ++ (splitName name).1 ++ (if ext = [] then [] else '.' :: ext)

/-- Puts an extension in the place of the present one. The present one is cut off first, and two
dots that are left over stand for the directory above, which takes no extension. -/
def withExtension (path ext : String) : String :=
  let old := (extension? path.toList).getD []
  String.ofList (setExtension (path.toList.take (path.toList.length - old.length)) ext.toList)

example : withExtension "a.b.asm" "bin" = "a.b.bin" := by decide +kernel

example : withExtension "./o.x/." "bin" = "./o.bin" := by decide +kernel

example : withExtension ".." "bin" = ".." := by decide +kernel

end Path

end QuadDsp
