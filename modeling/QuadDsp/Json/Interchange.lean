import QuadDsp.Json.Reader
import QuadDsp.Machine.Config
import QuadDsp.Program.Basic

/-! # The interchange form of programs

Programs and configurations as JSON. A choice without data is a string, a choice with data an object
with one field, and a record an object whose unknown fields are ignored; a record may also stand as
an array of its fields in order. Reading gives nothing where a field is missing, repeated or of the
wrong kind, or a number is out of range. Every part has a writer `toJson` and a reader `ofJson?`.

Programs are handed over in files and in messages. Only a file may write the registers of an
addressing mode without their names, so the readers of whatever holds one take the `Medium`. -/

namespace QuadDsp

/-- What a program is handed over in. -/
inductive Medium
  | file | message
deriving DecidableEq, Repr

namespace Interchange

/-! ### Pieces -/

/-- A choice without data. -/
def choice? (all : List α) (name : α → String) : Json → Option α
  | .str s => all.find? (name · == s)
  | .obj [(s, .null)] => all.find? (name · == s)
  | _ => none

/-- An integer from `low` up to `high`. -/
def intIn? (low high : Int) : Json → Option Int
  | .int i => if low ≤ i ∧ i ≤ high then some i else none
  | _ => none

/-- An unsigned integer of `bits` bits. -/
def nat? (bits : Nat) (j : Json) : Option Nat := (intIn? 0 (span bits - 1) j).map Int.toNat

/-- A signed integer of `bits` bits. -/
def int? (bits : Nat) (j : Json) : Option Int := intIn? (-span (bits - 1)) (span (bits - 1) - 1) j

def bool? : Json → Option Bool
  | .bool b => some b
  | _ => none

def str? : Json → Option String
  | .str s => some s
  | _ => none

/-- A value or `null`. -/
def orNull? (read : Json → Option α) : Json → Option (Option α)
  | .null => some none
  | j => (read j).map some

def list? (read : Json → Option α) : Json → Option (List α)
  | .arr items => items.mapM read
  | _ => none

def named? (read : Json → Option α) : Json → Option (NameTable α)
  | .obj fields => do
    return .ofList (← fields.mapM fun (name, j) => do return (name, ← read j))
  | _ => none

/-- The values of the named fields of a record, in the order of the names. -/
def fields? (names : List String) : Json → Option (List (Option Json))
  | .obj fields =>
    if names.any fun n => 1 < fields.countP (·.1 == n) then none
    else some (names.map fun n => fields.lookup n)
  | .arr items =>
    if names.length < items.length then none
    else some (items.map some ++ List.replicate (names.length - items.length) none)
  | _ => none

/-- The fields of a choice, which only a file may leave without names. -/
def choiceFields? (medium : Medium) (names : List String) (j : Json) :
    Option (List (Option Json)) :=
  match medium, j with
  | .message, .arr _ => none
  | _, j => fields? names j

/-- A field that may be missing. -/
def optional? (default : α) (read : Json → Option α) : Option Json → Option α
  | none => some default
  | some j => read j

def ofOption (write : α → Json) : Option α → Json
  | none => .null
  | some a => write a

def ofNamed (write : α → Json) (t : NameTable α) : Json :=
  .obj (t.entries.map fun (name, a) => (name, write a))

def ofNat (n : Nat) : Json := .int n

end Interchange

open Interchange

/-! ### Operations and operands -/

/-- Directives are written without their dot. -/
def Opcode.jsonName (op : Opcode) : String :=
  String.ofList (op.mnemonic.toList.dropWhile (· == '.'))

def Opcode.toJson (op : Opcode) : Json := .str op.jsonName

def Opcode.ofJson? : Json → Option Opcode := choice? Opcode.all Opcode.jsonName

def Condition.jsonName : Condition → String
  | eq => "Eq" | ne => "Ne" | gt => "Gt" | le => "Le" | lt => "Lt" | ge => "Ge" | av => "Av"
  | notAv => "NotAv" | ac => "Ac" | notAc => "NotAc" | neg => "Neg" | pos => "Pos" | mv => "Mv"
  | notMv => "NotMv" | sv => "Sv" | notSv => "NotSv" | ce => "Ce" | notCe => "NotCe" | aq => "Aq"
  | notAq => "NotAq" | forever => "Forever" | always => "True"

def Condition.toJson (c : Condition) : Json := .str c.jsonName

def Condition.ofJson? : Json → Option Condition := choice? Condition.all Condition.jsonName

namespace RegClass

def all : List RegClass := [general, complex, acc, index, modify, length, base]

def jsonName : RegClass → String
  | general => "R" | complex => "Cr" | acc => "Acc" | index => "I" | modify => "M"
  | length => "L" | base => "B"

end RegClass

def Reg.toJson (r : Reg) : Json :=
  .obj [("class", .str r.cls.jsonName), ("index", ofNat r.index)]

def Reg.ofJson? (j : Json) : Option Reg :=
  match fields? ["class", "index"] j with
  | some [some cls, some index] => do
    return ⟨← choice? RegClass.all RegClass.jsonName cls, ← nat? 8 index⟩
  | _ => none

def SysReg.jsonName : SysReg → String
  | counter => "Cntr" | mode => "Mstat" | status => "Astat" | laneId => "Id"

def MulMode.jsonName : MulMode → String
  | ss => "Ss" | su => "Su" | us => "Us" | uu => "Uu" | rnd => "Rnd"

def ModeBit.jsonName : ModeBit → String
  | aluSat => "AluSat" | macSat => "MacSat" | bitRev => "BitRev"

def Space.jsonName : Space → String
  | data => "Dm" | program => "Pm"

namespace Keyword

def toJson : Keyword → Json
  | sts => .str "Sts"
  | mul m => .obj [("Mul", .str m.jsonName)]
  | mode b => .obj [("Mode", .str b.jsonName)]

def ofJson? : Json → Option Keyword
  | .str "Sts" => some sts
  | .obj [("Sts", .null)] => some sts
  | .obj [("Mul", j)] => (choice? MulMode.all MulMode.jsonName j).map mul
  | .obj [("Mode", j)] => (choice? ModeBit.all ModeBit.jsonName j).map mode
  | _ => none

end Keyword

namespace AddrMode

def toJson : AddrMode → Json
  | direct a => .obj [("Direct", ofNat a)]
  | symbol name => .obj [("Symbol", .str name)]
  | post i m => .obj [("Post", .obj [("i", ofNat i), ("m", ofNat m)])]
  | pre m i => .obj [("Pre", .obj [("i", ofNat i), ("m", ofNat m)])]
  | postImm i step => .obj [("PostImm", .obj [("i", ofNat i), ("step", .int step)])]
  | preImm step i => .obj [("PreImm", .obj [("i", ofNat i), ("step", .int step)])]

/-- An index register and a modify register. -/
def registers? (medium : Medium) (j : Json) : Option (Nat × Nat) :=
  match choiceFields? medium ["i", "m"] j with
  | some [some i, some m] => do return (← nat? 8 i, ← nat? 8 m)
  | _ => none

/-- An index register and an immediate step. -/
def stepped? (medium : Medium) (j : Json) : Option (Nat × Int) :=
  match choiceFields? medium ["i", "step"] j with
  | some [some i, some step] => do return (← nat? 8 i, ← int? 32 step)
  | _ => none

def ofJson? (medium : Medium) : Json → Option AddrMode
  | .obj [("Direct", j)] => (nat? 32 j).map direct
  | .obj [("Symbol", j)] => (str? j).map symbol
  | .obj [("Post", j)] => (registers? medium j).map fun (i, m) => post i m
  | .obj [("Pre", j)] => (registers? medium j).map fun (i, m) => pre m i
  | .obj [("PostImm", j)] => (stepped? medium j).map fun (i, step) => postImm i step
  | .obj [("PreImm", j)] => (stepped? medium j).map fun (i, step) => preImm step i
  | _ => none

end AddrMode

def MemRef.toJson (r : MemRef) : Json :=
  .obj [("space", .str r.space.jsonName), ("mode", r.mode.toJson)]

def MemRef.ofJson? (medium : Medium) (j : Json) : Option MemRef :=
  match fields? ["space", "mode"] j with
  | some [some space, some mode] => do
    let space ← choice? [Space.data, .program] Space.jsonName space
    return ⟨space, ← AddrMode.ofJson? medium mode⟩
  | _ => none

namespace Target

def toJson : Target → Json
  | label name => .obj [("Label", .str name)]
  | abs a => .obj [("Abs", ofNat a)]

def ofJson? : Json → Option Target
  | .obj [("Label", j)] => (str? j).map label
  | .obj [("Abs", j)] => (nat? 32 j).map abs
  | _ => none

end Target

namespace Operand

def toJson : Operand → Json
  | reg r => .obj [("Reg", r.toJson)]
  | accView acc view => .obj [("AccPart", .arr [ofNat acc, .str view.letter])]
  | sys s => .obj [("Sys", .str s.jsonName)]
  | imm v => .obj [("Imm", .int v)]
  | mem r => .obj [("Mem", r.toJson)]
  | target t => .obj [("Target", t.toJson)]
  | cond c => .obj [("Cond", c.toJson)]
  | key k => .obj [("Key", k.toJson)]

def ofJson? (medium : Medium) : Json → Option Operand
  | .obj [("Reg", j)] => (Reg.ofJson? j).map reg
  | .obj [("AccPart", .arr [acc, view])] => do
    return accView (← nat? 8 acc) (← choice? [AccView.high, .mid, .low] AccView.letter view)
  | .obj [("Sys", j)] => (choice? SysReg.all SysReg.jsonName j).map sys
  | .obj [("Imm", j)] => (int? 64 j).map imm
  | .obj [("Mem", j)] => (MemRef.ofJson? medium j).map mem
  | .obj [("Target", j)] => (Target.ofJson? j).map target
  | .obj [("Cond", j)] => (Condition.ofJson? j).map cond
  | .obj [("Key", j)] => (Keyword.ofJson? j).map key
  | _ => none

end Operand

/-! ### Instructions and programs -/

def FormatId.ofJson? : Json → Option FormatId := choice? FormatId.all FormatId.name

namespace Instruction

/-- All fields of an instruction; `siblings` is left out if there are none. -/
def record (i : Instruction) (siblings : List Json) : Json :=
  .obj ([("line", ofNat i.line), ("opcode", i.opcode.toJson),
    ("program_addr", ofNat i.programAddr), ("data_addr", ofNat i.dataAddr),
    ("format", ofOption (fun f => .str f.name) i.format),
    ("operands", .arr (i.operands.map Operand.toJson)),
    ("condition", ofOption Condition.toJson i.condition), ("conjugate", .bool i.conjugate),
    ("is_delay_slot", .bool i.inDelaySlot), ("latency", ofNat i.latency),
    ("latency_added", ofNat i.stall)] ++
    (if siblings.isEmpty then [] else [("bundle", Json.arr siblings)]) ++
    [("section", ofOption Json.str i.sectionName)])

mutual

def toJson : Instruction → Json
  | ⟨line, opcode, programAddr, dataAddr, format, operands, condition, conjugate, inDelaySlot,
      latency, stall, siblings, sectionName⟩ =>
    record ⟨line, opcode, programAddr, dataAddr, format, operands, condition, conjugate,
      inDelaySlot, latency, stall, [], sectionName⟩ (listToJson siblings)

def listToJson : List Instruction → List Json
  | [] => []
  | i :: rest => i.toJson :: listToJson rest

end

def fieldNames : List String :=
  ["line", "opcode", "program_addr", "data_addr", "format", "operands", "condition", "conjugate",
    "is_delay_slot", "latency", "latency_added", "bundle", "section"]

/-- Reads an instruction whose siblings nest to at most `depth` levels. -/
def ofJsonWithin? (medium : Medium) : Nat → Json → Option Instruction
  | 0, _ => none
  | depth + 1, j =>
    match fields? fieldNames j with
    | some [some line, some opcode, programAddr, dataAddr, format, operands, condition, conjugate,
        inDelaySlot, latency, stall, siblings, sectionName] => do
      return {
        line := ← nat? 32 line
        opcode := ← Opcode.ofJson? opcode
        address := .ofNat (← optional? 0 (nat? 32) programAddr)
        dataAddr := ← optional? 0 (nat? 32) dataAddr
        format := ← optional? none (orNull? FormatId.ofJson?) format
        operands := ← optional? [] (list? (Operand.ofJson? medium)) operands
        condition := ← optional? none (orNull? Condition.ofJson?) condition
        conjugate := ← optional? false bool? conjugate
        inDelaySlot := ← optional? false bool? inDelaySlot
        latency := ← optional? 0 (nat? 32) latency
        stall := ← optional? 0 (nat? 32) stall
        siblings := ← optional? [] (list? (ofJsonWithin? medium depth)) siblings
        sectionName := ← optional? none (orNull? str?) sectionName }
    | _ => none

/-- Reads an instruction. Siblings nest no deeper than JSON text can. -/
def ofJson? (medium : Medium) (j : Json) : Option Instruction :=
  ofJsonWithin? medium (Json.Reading.nestingLimit + 1) j

end Instruction

def SymbolKind.jsonName : SymbolKind → String
  | code => "Code" | data => "Data" | const => "Const"

def SectionKind.jsonName : SectionKind → String
  | code => "Code" | data => "Data"

namespace ProgramSymbol

def toJson (s : ProgramSymbol) : Json :=
  .obj [("addr", ofNat s.addr), ("kind", .str s.kind.jsonName), ("external", .bool s.isExternal),
    ("global", .bool s.isGlobal)]

def ofJson? (j : Json) : Option ProgramSymbol :=
  match fields? ["addr", "kind", "external", "global"] j with
  | some [some addr, some kind, isExternal, isGlobal] => do
    return {
      addr := ← nat? 32 addr
      kind := ← choice? [SymbolKind.code, .data, .const] SymbolKind.jsonName kind
      isExternal := ← optional? false bool? isExternal
      isGlobal := ← optional? false bool? isGlobal }
  | _ => none

end ProgramSymbol

namespace ProgramSection

def toJson (s : ProgramSection) : Json :=
  .obj [("kind", .str s.kind.jsonName), ("base", ofNat s.base)]

def ofJson? (j : Json) : Option ProgramSection :=
  match fields? ["kind", "base"] j with
  | some [some kind, some base] => do
    return ⟨← choice? [SectionKind.code, .data] SectionKind.jsonName kind, ← nat? 32 base⟩
  | _ => none

end ProgramSection

namespace Program

/-- A name table stands inside a record of its own. -/
def tableToJson (write : α → Json) (t : NameTable α) : Json := .obj [("map", ofNamed write t)]

def tableOfJson? (read : Json → Option α) (j : Json) : Option (NameTable α) :=
  match fields? ["map"] j with
  | some [some entries] => named? read entries
  | _ => none

def toJson (p : Program) : Json :=
  .obj [("records", .arr (Instruction.listToJson p.instrs)),
    ("symbols", tableToJson ProgramSymbol.toJson p.symbols),
    ("sections", tableToJson ProgramSection.toJson p.sections)]

def ofJson? (medium : Medium) (j : Json) : Option Program :=
  match fields? ["records", "symbols", "sections"] j with
  | some [some records, symbols, sections] => do
    return {
      instrs := ← list? (Instruction.ofJson? medium) records
      symbols := ← optional? {} (tableOfJson? ProgramSymbol.ofJson?) symbols
      sections := ← optional? {} (tableOfJson? ProgramSection.ofJson?) sections }
  | _ => none

end Program

namespace Config

def toJson (c : Config) : Json :=
  .obj [("delay_slots", .bool c.delaySlots), ("data_words", ofNat c.dataWords),
    ("stack_depth", ofNat c.stackDepth), ("max_steps", ofNat c.maxSteps)]

def ofJson? (j : Json) : Option Config :=
  match fields? ["delay_slots", "data_words", "stack_depth", "max_steps"] j with
  | some [delaySlots, dataWords, stackDepth, maxSteps] => do
    return {
      delaySlots := ← optional? false bool? delaySlots
      dataWords := ← optional? 0x10000 (nat? 64) dataWords
      stackDepth := ← optional? 8 (nat? 64) stackDepth
      maxSteps := ← optional? 1000000 (nat? 64) maxSteps }
  | _ => none

end Config

end QuadDsp
