import QuadDsp.Format.Layout

/-! # The instruction table

Which format an operation takes for each shape of its operands, and the fixed bits that the word
then starts with. -/

namespace QuadDsp

structure FormatEntry where
  opcode : Opcode
  shape : Shape
  format : FormatId
  /-- value of the leading field -/
  fixed : Nat
deriving DecidableEq, Repr

structure BundleEntry where
  shape : BundleShape
  format : FormatId
  /-- value of the leading field -/
  fixed : Nat
deriving DecidableEq, Repr

/-- The words with one operation, by ascending leading bits within each group. -/
def formatEntries : List FormatEntry :=
  [⟨.add, .rrr, .alu3r, 0x000⟩, ⟨.adc, .rrr, .alu3r, 0x001⟩, ⟨.sub, .rrr, .alu3r, 0x002⟩,
    ⟨.sbc, .rrr, .alu3r, 0x003⟩, ⟨.and, .rrr, .alu3r, 0x004⟩, ⟨.or, .rrr, .alu3r, 0x005⟩,
    ⟨.xor, .rrr, .alu3r, 0x006⟩, ⟨.min, .rrr, .alu3r, 0x007⟩, ⟨.max, .rrr, .alu3r, 0x008⟩,
    ⟨.not, .rr, .alu2r, 0x010⟩, ⟨.neg, .rr, .alu2r, 0x011⟩, ⟨.abs, .rr, .alu2r, 0x012⟩,
    ⟨.pass, .rr, .alu2r, 0x013⟩, ⟨.inc, .rr, .alu2r, 0x014⟩, ⟨.dec, .rr, .alu2r, 0x015⟩,
    ⟨.exp, .rr, .alu2r, 0x016⟩, ⟨.divs, .rr, .alu2r, 0x017⟩, ⟨.divq, .rr, .alu2r, 0x018⟩,
    ⟨.mov, .rr, .alu2r, 0x019⟩, ⟨.clr, .r, .alu1r, 0x020⟩, ⟨.cmp, .rr, .aluCmp, 0x028⟩,
    -- 0001 and four bits
    ⟨.add, .rrImm, .aluRri, 0x10⟩, ⟨.sub, .rrImm, .aluRri, 0x11⟩, ⟨.and, .rrImm, .aluRri, 0x12⟩,
    ⟨.or, .rrImm, .aluRri, 0x13⟩, ⟨.xor, .rrImm, .aluRri, 0x14⟩, ⟨.setb, .rrImm, .aluRri, 0x15⟩,
    ⟨.clrb, .rrImm, .aluRri, 0x16⟩, ⟨.tglb, .rrImm, .aluRri, 0x17⟩, ⟨.cmp, .rImm, .aluRi, 0x18⟩,
    ⟨.tstb, .rImm, .aluRi, 0x19⟩,
    -- 0010, load or store, complex or not, kind of step
    ⟨.ld, .rMemM, .memRm, 0x10⟩, ⟨.ld, .rMemI, .memRi, 0x11⟩, ⟨.ld, .crMemM, .memCm, 0x12⟩,
    ⟨.ld, .crMemI, .memCi, 0x13⟩, ⟨.st, .memMR, .memRm, 0x14⟩, ⟨.st, .memIR, .memRi, 0x15⟩,
    ⟨.st, .memMCr, .memCm, 0x16⟩, ⟨.st, .memICr, .memCi, 0x17⟩,
    -- 0011 and two bits
    ⟨.ld, .rMemAbs, .memDir, 0x0C⟩, ⟨.st, .memAbsR, .memDir, 0x0D⟩,
    ⟨.ld, .crMemAbs, .memCDir, 0x0E⟩, ⟨.st, .memAbsCr, .memCDir, 0x0F⟩,
    -- 0100 and three bits
    ⟨.ld, .rImm, .ldiR, 0x20⟩, ⟨.ld, .dagImm, .ldiDag, 0x21⟩, ⟨.ld, .sysImm, .ldiSys, 0x22⟩,
    -- 01001, shift, kind of amount
    ⟨.lsl, .rrr, .shfR, 0x48⟩, ⟨.lsl, .rrImm, .shfI, 0x49⟩, ⟨.lsr, .rrr, .shfR, 0x4A⟩,
    ⟨.lsr, .rrImm, .shfI, 0x4B⟩, ⟨.asr, .rrr, .shfR, 0x4C⟩, ⟨.asr, .rrImm, .shfI, 0x4D⟩,
    ⟨.rol, .rrr, .shfR, 0x4E⟩, ⟨.rol, .rrImm, .shfI, 0x4F⟩,
    -- 0101 and two bits
    ⟨.mpy, .accRR, .macRr, 0x14⟩, ⟨.mac, .accRR, .macRr, 0x15⟩, ⟨.mas, .accRR, .macRr, 0x16⟩,
    -- 01100 and two bits
    ⟨.mpy, .accCrCr, .macCc, 0x30⟩, ⟨.mac, .accCrCr, .macCc, 0x31⟩,
    ⟨.mas, .accCrCr, .macCc, 0x32⟩,
    -- 01101 and seven bits
    ⟨.add, .crCrCr, .cpx3, 0x680⟩, ⟨.sub, .crCrCr, .cpx3, 0x681⟩, ⟨.pass, .crCr, .cpx2, 0x690⟩,
    ⟨.neg, .crCr, .cpx2, 0x691⟩, ⟨.conj, .crCr, .cpx2, 0x692⟩, ⟨.polar, .crCr, .cpx2, 0x693⟩,
    ⟨.rect, .crCr, .cpx2, 0x694⟩,
    -- 01110 and three bits
    ⟨.mov, .rAccPart, .movRa, 0x70⟩, ⟨.mov, .accPartR, .movAr, 0x71⟩, ⟨.mov, .rDag, .movRd, 0x72⟩,
    ⟨.mov, .dagR, .movDr, 0x73⟩, ⟨.mov, .rSys, .movRs, 0x74⟩, ⟨.mov, .sysR, .movSr, 0x75⟩,
    ⟨.clr, .acc, .accOp, 0x3B0⟩, ⟨.sat, .acc, .accOp, 0x3B1⟩, ⟨.rnd, .acc, .accOp, 0x3B2⟩,
    ⟨.modify, .im, .modify, 0x77⟩,
    -- 011110 and two bits, 0111110 and one
    ⟨.jump, .target, .brRel, 0x78⟩, ⟨.call, .target, .brRel, 0x79⟩, ⟨.jump, .index, .brInd, 0x7A⟩,
    ⟨.call, .index, .brInd, 0x7B⟩, ⟨.loop, .targetCond, .loop, 0x7C⟩, ⟨.rts, .bare, .ret, 0x7D⟩,
    -- 0111111 and five bits
    ⟨.ena, .modeBit, .mode, 0x7E0⟩, ⟨.dis, .modeBit, .mode, 0x7E1⟩, ⟨.nop, .bare, .sys, 0x7E2⟩,
    ⟨.idle, .bare, .sys, 0x7E3⟩, ⟨.reset, .bare, .sys, 0x7E4⟩, ⟨.push, .sts, .sys, 0x7E5⟩,
    ⟨.pop, .sts, .sys, 0x7E6⟩]

/-- The words that hold a bundle. -/
def bundleEntries : List BundleEntry :=
  [⟨.aluLd, .bAluLd, 0x8⟩, ⟨.aluSt, .bAluSt, 0x9⟩, ⟨.macLd, .bMacLd, 0xA⟩, ⟨.macSt, .bMacSt, 0xB⟩,
    ⟨.macLdLd, .bMacLdLd, 0xC⟩, ⟨.shfLd, .bShfLd, 0xD⟩, ⟨.shfSt, .bShfSt, 0xE⟩,
    ⟨.aluMac, .bAluMac, 0xF⟩]

def FormatEntry.find? (op : Opcode) (shape : Shape) : Option FormatEntry :=
  formatEntries.find? fun e => e.opcode == op && e.shape == shape

def BundleEntry.find? (shape : BundleShape) : Option BundleEntry :=
  bundleEntries.find? (·.shape == shape)

/-- The word starts with the fixed bits of the format. -/
def FormatId.leads (f : FormatId) (fixed word : Nat) : Bool :=
  0 < f.fixedWidth && word >>> (wordBits - f.fixedWidth) == fixed

/-- The first table entry whose fixed bits lead the word. -/
def matchWord? (word : Nat) : Option (FormatId × Nat) :=
  let singles := formatEntries.map fun e => (e.format, e.fixed)
  let bundles := bundleEntries.map fun b => (b.format, b.fixed)
  (singles ++ bundles).find? fun (f, fixed) => f.leads fixed word

end QuadDsp
