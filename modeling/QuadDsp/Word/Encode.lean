import QuadDsp.Format.Selection
import QuadDsp.Program.Basic

/-! # Encoding words

An instruction that has its format becomes a 32-bit word: the values of its fields side by side,
most significant first. A field that depends on final addresses is computed from the program's
symbols and kept as a relocation beside the word. `pack_lt` says that packed fields fill exactly
their widths, hence `Instruction.encode_lt`: every encoded word has 32 bits. -/

namespace QuadDsp

/-- The word in place of an instruction that cannot be encoded. -/
def errorWord : Nat := 0xFFFFFFFF

/-- A field whose value depends on where the program stands. -/
structure Reloc where
  value : Int
  /-- place of the field's lowest bit in the word -/
  bitPos : Nat
  width : Nat
deriving DecidableEq, Repr

structure EncodedWord where
  word : Nat
  relocs : List Reloc
deriving DecidableEq, Repr

/-- Fields, given as value and width, side by side; values keep their low bits. -/
def packOnto (acc : Nat) : List (Nat × Nat) → Nat
  | [] => acc
  | (v, w) :: rest => packOnto (acc * span w + v % span w) rest

def pack (fields : List (Nat × Nat)) : Nat := packOnto 0 fields

theorem packOnto_lt (acc n : Nat) (fields : List (Nat × Nat)) (h : acc < span n) :
    packOnto acc fields < span (n + totalWidth (fields.map Prod.snd)) := by
  induction fields generalizing acc n with
  | nil => simpa [packOnto, totalWidth] using h
  | cons f rest ih =>
    obtain ⟨v, w⟩ := f
    have hv : v % span w < span w := Nat.mod_lt _ (span_pos w)
    have step : acc * span w + v % span w < span (n + w) := by
      rw [span_add]
      calc acc * span w + v % span w < acc * span w + span w := Nat.add_lt_add_left hv _
        _ = (acc + 1) * span w := by rw [Nat.add_mul, Nat.one_mul]
        _ ≤ span n * span w := Nat.mul_le_mul_right _ h
    simpa [packOnto, totalWidth, Nat.add_assoc] using ih _ _ step

theorem pack_lt (fields : List (Nat × Nat)) :
    pack fields < span (totalWidth (fields.map Prod.snd)) := by
  simpa [pack] using packOnto_lt 0 0 fields (span_pos 0)

namespace Selection

/-- The value of a field that depends on addresses; it must be within the reach of the field. -/
def relocValue (s : Selection) (p : Program) (f : Field) : Except EncodeError Int := do
  let addr := s.head.programAddr
  let unresolved : EncodeError := .unresolved s.head.opcode
  let some m := s.member? f.role | throw unresolved
  let inReach (target : Nat) (value low high : Int) : Except EncodeError Int :=
    if low ≤ value ∧ value < high then .ok value
    else .error (.targetOutOfRange target addr f.width)
  match f.kind, m.operand? f.arg, m.mem? with
  | .addr, _, some r =>
    match p.dataAddr? r.mode with
    | .error e => throw (.structural e)
    | .ok none => throw unresolved
    | .ok (some a) => inReach a a 0 (span f.width)
  | .pcRel, some (.target t), _ =>
    match p.targetAddr t with
    | .error e => throw (.structural e)
    | .ok a => inReach a (a - addr) (-(span f.width / 2)) (span f.width / 2)
  | .loopEnd, some (.target t), _ =>
    match p.targetAddr t with
    | .error e => throw (.structural e)
    | .ok a => inReach a (a - (addr + 1)) 0 (span f.width)
  | _, _, _ => throw unresolved

/-- The value of a field, and its relocation if it depends on addresses; `pos` counts the bits up to
the end of the field. -/
def encodeField (s : Selection) (p : Program) (pos : Nat) (f : Field) :
    Except EncodeError (Nat × Option Reloc) :=
  match s.fieldValue f with
  | .error e => .error (.shape e)
  | .ok (some v) => .ok (v, none)
  | .ok none =>
    (s.relocValue p f).map fun value =>
      (lowBits f.width value, some ⟨value, wordBits - pos, f.width⟩)

/-- Values and widths of the fields of a layout, with the relocations among them; `pos` counts the
bits in front. -/
def encodeFields (s : Selection) (p : Program) :
    Nat → List Field → Except EncodeError (List (Nat × Nat) × List Reloc)
  | _, [] => .ok ([], [])
  | pos, f :: rest =>
    match s.encodeField p (pos + f.width) f with
    | .error e => .error e
    | .ok (v, reloc) =>
      match s.encodeFields p (pos + f.width) rest with
      | .error e => .error e
      | .ok (values, relocs) => .ok ((v, f.width) :: values, reloc.toList ++ relocs)

end Selection

/-- The word of an instruction whose format is resolved. -/
def Instruction.encode (p : Program) (i : Instruction) : Except EncodeError EncodedWord :=
  match checkStructure i with
  | .error e => .error (.structural e)
  | .ok () =>
    match select i with
    | .error e => .error (.shape e)
    | .ok s =>
      if i.format ≠ some s.format then .error (.unresolved i.opcode)
      else (s.encodeFields p 0 s.format.layout).map fun (values, relocs) => ⟨pack values, relocs⟩

theorem Selection.map_snd_encodeFields {s : Selection} {p : Program} {pos : Nat}
    {fields : List Field} {values : List (Nat × Nat)} {relocs : List Reloc}
    (h : s.encodeFields p pos fields = .ok (values, relocs)) :
    values.map Prod.snd = fields.map Field.width := by
  induction fields generalizing pos values relocs with
  | nil => cases h; rfl
  | cons f rest ih =>
    rw [Selection.encodeFields] at h
    split at h
    · cases h
    split at h
    · cases h
    next hr =>
      cases h
      simp [ih hr]

/-- What encodes is well-formed and has the format that it is given, and its word is the fields side by side. -/
theorem Instruction.exists_of_encode {p : Program} {i : Instruction} {e : EncodedWord} (h : i.encode p = .ok e) :
    checkStructure i = .ok () ∧ ∃ s values, select i = .ok s ∧ i.format = some s.format ∧
      s.encodeFields p 0 s.format.layout = .ok (values, e.relocs) ∧ e.word = pack values := by
  unfold Instruction.encode at h
  split at h
  · cases h
  next hstructure =>
  split at h
  · cases h
  next s hs =>
  split at h
  · cases h
  next hformat =>
  cases hf : s.encodeFields p 0 s.format.layout with
  | error err => rw [hf] at h; cases h
  | ok r =>
    rw [hf] at h
    cases h
    exact ⟨hstructure, s, r.1, hs, Decidable.not_not.1 hformat, hf, rfl⟩

theorem Instruction.encode_lt {p : Program} {i : Instruction} {e : EncodedWord}
    (h : i.encode p = .ok e) : e.word < span wordBits := by
  obtain ⟨-, s, values, -, -, hfields, hword⟩ := exists_of_encode h
  have hw := pack_lt values
  rw [Selection.map_snd_encodeFields hfields, ← FormatId.width, FormatId.width_layout] at hw
  rwa [hword]

end QuadDsp
