import QuadDsp.Word.Encode

/-! # Listings and assembled programs

Assembling emits one word for each instruction that is no directive, in program order. An
instruction that cannot be encoded gives the error word and a diagnostic, and assembly goes on. The
listing has one line for each word; `ListingLine.text` writes it and `ListingLine.read` reads it
back. -/

namespace QuadDsp

namespace Reloc

def text (r : Reloc) : String :=
  "R\x7b" ++ Text.decimalInt r.value ++ "," ++ Text.decimal r.bitPos ++ "," ++
    Text.decimal r.width ++ "\x7d"

end Reloc

/-- What a word does with data memory. -/
inductive MemAccess
  | neither | read | write
deriving DecidableEq, Repr

namespace MemAccess

def all : List MemAccess := [neither, read, write]

def text : MemAccess → String
  | neither => "---" | read => "DMR" | write => "DMW"

end MemAccess

def Instruction.memAccess (i : Instruction) : MemAccess :=
  if i.writesMemory then .write else if i.readsMemory then .read else .neither

structure ListingLine where
  line : Nat
  addr : Nat
  mnemonic : String
  /-- tag of the format, or `ERROR` -/
  tag : String
  access : MemAccess
  word : Nat
  relocs : List Reloc
deriving DecidableEq, Repr

/-- Why a text is no listing line. -/
inductive ListingError
  | missing (column : String)
  | badNumeral (column : String) (fault : Text.NumeralFault)
  | badAccess (text : String)
  | badReloc (text : String)
deriving DecidableEq, Repr

def ListingError.message : ListingError → String
  | missing column => "listing line lacks " ++ column
  | badNumeral column fault => column ++ ": " ++ fault.message
  | badAccess text => "bad memory reference kind `" ++ text ++ "`"
  | badReloc text => "bad relocation `" ++ text ++ "`"

def Reloc.read (s : List Char) : Except ListingError Reloc :=
  let bad : ListingError := .badReloc (String.ofList s)
  match ['R', '\x7b'].isPrefixOf? s with
  | none => .error bad
  | some rest =>
    match ['\x7d'].isSuffixOf? rest with
    | none => .error bad
    | some inner =>
      match Text.cut (· == ',') inner with
      | [v, pos, width] =>
        match Text.readInt 10 64 v, Text.readNat 10 32 pos, Text.readNat 10 8 width with
        | .ok v, .ok pos, .ok width => .ok ⟨v, pos, width⟩
        | _, _, _ => .error bad
      | _ => .error bad

def MemAccess.ofText (s : List Char) : Except ListingError MemAccess :=
  match MemAccess.all.find? (·.text.toList == s) with
  | some k => .ok k
  | none => .error (.badAccess (String.ofList s))

theorem MemAccess.ofText_text (k : MemAccess) : MemAccess.ofText k.text.toList = .ok k := by
  cases k <;> rfl

namespace ListingLine

def isError (l : ListingLine) : Bool := l.tag == "ERROR"

def text (l : ListingLine) : String :=
  Text.padLeft 5 (Text.decimal l.line) ++ " " ++ Text.hexUpper 4 l.addr ++ " " ++
    Text.padRight 12 l.mnemonic ++ " " ++ Text.padRight 12 l.tag ++ " " ++ l.access.text ++ " " ++
    Text.hexUpper 8 l.word ++ String.join (l.relocs.map fun r => " " ++ r.text)

/-- The next column, or a fault that names it. -/
def column (name : String) : List (List Char) → Except ListingError (List Char × List (List Char))
  | [] => .error (.missing name)
  | w :: rest => .ok (w, rest)

def numeral (name : String) : Except Text.NumeralFault Nat → Except ListingError Nat
  | .ok n => .ok n
  | .error e => .error (.badNumeral name e)

/-- Reads the columns from left to right; the first fault is reported. -/
def read (s : List Char) : Except ListingError ListingLine := do
  let (line, rest) ← column "line" (Text.words s)
  let line ← numeral "line" (Text.readNat 10 32 line)
  let (addr, rest) ← column "address" rest
  let addr ← numeral "address" (Text.readNat 16 32 addr)
  let (mnemonic, rest) ← column "mnemonic" rest
  let (tag, rest) ← column "tag" rest
  let (access, rest) ← column "memref" rest
  let access ← MemAccess.ofText access
  let (word, rest) ← column "word" rest
  let word ← numeral "word" (Text.readNat 16 32 word)
  let relocs ← rest.mapM Reloc.read
  return ⟨line, addr, String.ofList mnemonic, String.ofList tag, access, word, relocs⟩

end ListingLine

/-- The listing line of an instruction, and a diagnostic if it cannot be encoded. -/
def Instruction.assemble (p : Program) (i : Instruction) : ListingLine × Option Diagnostic :=
  match i.encode p with
  | .ok e =>
    let tag := (i.format.map FormatId.tag).getD ""
    (⟨i.line, i.programAddr, i.mnemonics, tag, i.memAccess, e.word, e.relocs⟩, none)
  | .error e =>
    (⟨i.line, i.programAddr, i.mnemonics, "ERROR", i.memAccess, errorWord, []⟩,
      some (i.encodeDiagnostic e))

structure Assembly where
  listing : List ListingLine := []
  diagnostics : List Diagnostic := []

namespace Assembly

def words (a : Assembly) : List Nat := a.listing.map (·.word)

/-- Number of instructions that could not be encoded. -/
def errors (a : Assembly) : Nat := a.diagnostics.length

def listingText (a : Assembly) : String := String.join (a.listing.map fun l => l.text ++ "\n")

/-- One line of eight hexadecimal digits for each word. -/
def imageText (a : Assembly) : String :=
  String.join (a.words.map fun w => Text.hexUpper 8 w ++ "\n")

end Assembly

/-- Assembles a resolved program. -/
def Program.assemble (p : Program) : Assembly :=
  let lines := p.words.map (·.assemble p)
  ⟨lines.map Prod.fst, lines.filterMap Prod.snd⟩

theorem Program.length_words_assemble (p : Program) : p.assemble.words.length = p.words.length := by
  simp [Program.assemble, Assembly.words]

end QuadDsp
