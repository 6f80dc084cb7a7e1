/-! # Format names

The forty-three word formats. The last eight hold a bundle of operations in one word. -/

namespace QuadDsp

inductive FormatId
  | alu3r | alu2r | alu1r | aluCmp | aluRri | aluRi | shfR | shfI
  | ldiR | ldiDag | ldiSys | memDir | memCDir | memRm | memRi | memCm | memCi
  | macRr | macCc | cpx3 | cpx2 | movRa | movAr | movRd | movDr | movRs | movSr
  | accOp | modify | brRel | brInd | loop | ret | mode | sys
  | bAluLd | bAluSt | bMacLd | bMacSt | bMacLdLd | bShfLd | bShfSt | bAluMac
deriving DecidableEq, Repr, Inhabited

namespace FormatId

def all : List FormatId :=
  [alu3r, alu2r, alu1r, aluCmp, aluRri, aluRi, shfR, shfI, ldiR, ldiDag, ldiSys, memDir, memCDir,
    memRm, memRi, memCm, memCi, macRr, macCc, cpx3, cpx2, movRa, movAr, movRd, movDr, movRs, movSr,
    accOp, modify, brRel, brInd, loop, ret, mode, sys, bAluLd, bAluSt, bMacLd, bMacSt, bMacLdLd,
    bShfLd, bShfSt, bAluMac]

theorem mem_all (f : FormatId) : f ∈ all := by cases f <;> decide

/-- The name in a program's interchange form. -/
def name : FormatId → String
  | alu3r => "Alu3r" | alu2r => "Alu2r" | alu1r => "Alu1r" | aluCmp => "AluCmp"
  | aluRri => "AluRri" | aluRi => "AluRi" | shfR => "ShfR" | shfI => "ShfI" | ldiR => "LdiR"
  | ldiDag => "LdiDag" | ldiSys => "LdiSys" | memDir => "MemDir" | memCDir => "MemCDir"
  | memRm => "MemRm" | memRi => "MemRi" | memCm => "MemCm" | memCi => "MemCi"
  | macRr => "MacRr" | macCc => "MacCc" | cpx3 => "Cpx3" | cpx2 => "Cpx2" | movRa => "MovRa"
  | movAr => "MovAr" | movRd => "MovRd" | movDr => "MovDr" | movRs => "MovRs" | movSr => "MovSr"
  | accOp => "AccOp" | modify => "Modify" | brRel => "BrRel" | brInd => "BrInd" | loop => "Do"
  | ret => "Ret" | mode => "Mode" | sys => "Sys" | bAluLd => "BAluLd" | bAluSt => "BAluSt"
  | bMacLd => "BMacLd" | bMacSt => "BMacSt" | bMacLdLd => "BMacLdLd" | bShfLd => "BShfLd"
  | bShfSt => "BShfSt" | bAluMac => "BAluMac"

def ofName? (s : String) : Option FormatId := all.find? (·.name == s)

/-- The name in listings. -/
def tag : FormatId → String
  | alu3r => "ALU3R" | alu2r => "ALU2R" | alu1r => "ALU1R" | aluCmp => "ALUCMP"
  | aluRri => "ALURRI" | aluRi => "ALURI" | shfR => "SHFR" | shfI => "SHFI" | ldiR => "LDIR"
  | ldiDag => "LDIDAG" | ldiSys => "LDISYS" | memDir => "MEMDIR" | memCDir => "MEMCDIR"
  | memRm => "MEMRM" | memRi => "MEMRI" | memCm => "MEMCM" | memCi => "MEMCI"
  | macRr => "MACRR" | macCc => "MACCC" | cpx3 => "CPX3" | cpx2 => "CPX2" | movRa => "MOVRA"
  | movAr => "MOVAR" | movRd => "MOVRD" | movDr => "MOVDR" | movRs => "MOVRS" | movSr => "MOVSR"
  | accOp => "ACCOP" | modify => "MODIFY" | brRel => "BRREL" | brInd => "BRIND" | loop => "DO"
  | ret => "RET" | mode => "MODE" | sys => "SYS" | bAluLd => "B.ALU+LD" | bAluSt => "B.ALU+ST"
  | bMacLd => "B.MAC+LD" | bMacSt => "B.MAC+ST" | bMacLdLd => "B.MAC+LD+LD"
  | bShfLd => "B.SHF+LD" | bShfSt => "B.SHF+ST" | bAluMac => "B.ALU+MAC"

def isBundle : FormatId → Bool
  | bAluLd | bAluSt | bMacLd | bMacSt | bMacLdLd | bShfLd | bShfSt | bAluMac => true
  | _ => false

end FormatId

end QuadDsp
