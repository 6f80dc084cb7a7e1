import QuadDsp.Tool.Files
import QuadDsp.Tool.Options
import QuadDsp.Word.Decode
import QuadDsp.Word.Image

/-! # The disassembler on the command line

Shows each word of a binary image with its address and the source line that it decodes to. -/

namespace QuadDsp

namespace DisassembleTool

structure Options where
  image : String
  base : Nat
  count : Option Nat
  out : Option String

def specs : List OptionSpec :=
  [⟨"base", some 'b', true⟩, ⟨"count", some 'c', true⟩, ⟨"out", some 'o', true⟩]

/-- An address, in hexadecimal after `0x`. -/
def readBase? (text : String) : Option Nat :=
  match Text.trim text.toList with
  | '0' :: 'x' :: ds => (Text.readNat 16 32 ds).toOption
  | '0' :: 'X' :: ds => (Text.readNat 16 32 ds).toOption
  | ds => (Text.readNat 10 32 ds).toOption

def Options.read? (args : List String) : Option Options := do
  let a ← Arguments.read? specs args
  return {
    image := ← a.single?
    base := ← readBase? ((a.value? "base").getD "0")
    count := ← a.number? "count" 32
    out := a.value? "out" }

/-- The files that the tool reads. -/
def Options.inputs (o : Options) : List String := [o.image]

def line (addr word : Nat) : String :=
  let text :=
    match decodeWord? word addr with
    | some d => d.text
    | none => ".word 0x" ++ Text.hexUpper 8 word
  Text.hexUpper 4 addr ++ ": " ++ Text.hexUpper 8 word ++ "  " ++ text ++ "\n"

/-- The lines of words from an address on. -/
def lines (addr : Nat) : List Nat → List String
  | [] => []
  | word :: rest => line addr word :: lines (addr + 1) rest

/-- The words of an image file. -/
def readImage (fs : Files) (path : String) : Except Failure (List Nat) := do
  let bytes ← fs.readBytes path
  match wordsOfBytes? bytes.toList with
  | none => throw ⟨imageLengthMessage (Text.decimal bytes.size), none⟩
  | some [] => throw ⟨path ++ " holds no words", none⟩
  | some words => return words

/-- Addresses end in front of the last 32-bit one. -/
def run (fs : Files) (o : Options) : Outcome :=
  match readImage fs o.image with
  | .error e => .ofFailure e
  | .ok words =>
    let count := min (o.count.getD words.length) (span 32 - 1 - o.base)
    let text := String.join (lines o.base (words.take count))
    match o.out with
    | none => { out := text }
    | some path =>
      match fs.checkNew path with
      | .error e => .ofFailure e
      | .ok () => { written := [(path, text.toUTF8)] }

end DisassembleTool

end QuadDsp
