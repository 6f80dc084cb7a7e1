import QuadDsp.Format.Selection

/-! # Word forms

The table entries for single operations and for bundles in one shape: a `WordForm` has a format, the
fixed bits in front and the operations of the word with the parts they play. No two forms can lead
the same word (`WordForm.eq_of_leads`), so the first entry that leads a word is the only one. -/

namespace QuadDsp

/-- One operation of a word form. The opcode of a coded part stands in the word, and `opcode` is what
its draft starts with. -/
structure FormPart where
  role : Role
  opcode : Opcode
  shape : Shape
deriving DecidableEq, Repr

structure WordForm where
  format : FormatId
  /-- value of the leading field -/
  fixed : Nat
  parts : List FormPart
deriving DecidableEq, Repr

namespace Role

/-- A field of the word names the operation. -/
def isCoded : Role → Bool
  | alu | mac | shf => true
  | _ => false

/-- The part of a bundle that a role stands for. -/
def part (role : Role) : FormPart :=
  let opcode :=
    match role with
    | .ld | .ld2 => .ld
    | .st => .st
    | _ => .nop
  ⟨role, opcode, role.shape⟩

end Role

def FormatEntry.form (e : FormatEntry) : WordForm := ⟨e.format, e.fixed, [⟨.op, e.opcode, e.shape⟩]⟩

def BundleEntry.form (b : BundleEntry) : WordForm := ⟨b.format, b.fixed, b.shape.roles.map Role.part⟩

/-- Every form of a word, in the order in which the tables are searched. -/
def wordForms : List WordForm :=
  formatEntries.map FormatEntry.form ++ bundleEntries.map BundleEntry.form

namespace WordForm

/-- The word starts with the fixed bits of the form. -/
def leads (t : WordForm) (word : Nat) : Bool := t.format.leads t.fixed word

/-- The fixed bits of two forms agree as far as the shorter ones go. -/
def Meets (s t : WordForm) : Prop :=
  s.fixed >>> (s.format.fixedWidth - t.format.fixedWidth) =
    t.fixed >>> (t.format.fixedWidth - s.format.fixedWidth)

instance (s t : WordForm) : Decidable (s.Meets t) := inferInstanceAs (Decidable (_ = _))

theorem eq_of_meets : ∀ s ∈ wordForms, ∀ t ∈ wordForms, s.Meets t → s = t := by decide +kernel

theorem fixedWidth_pos : ∀ t ∈ wordForms, 0 < t.format.fixedWidth := by decide +kernel

theorem fixed_lt : ∀ t ∈ wordForms, t.fixed < span t.format.fixedWidth := by decide +kernel

theorem nodup_roles : ∀ t ∈ wordForms, (t.parts.map FormPart.role).Nodup := by decide +kernel

theorem parts_ne_nil : ∀ t ∈ wordForms, t.parts ≠ [] := by decide +kernel

end WordForm

theorem FormatId.fixedWidth_le (f : FormatId) : f.fixedWidth ≤ wordBits := by cases f <;> decide

theorem WordForm.leads_iff {t : WordForm} (ht : t ∈ wordForms) (word : Nat) :
    t.leads word = true ↔ word >>> (wordBits - t.format.fixedWidth) = t.fixed := by
  simp [leads, FormatId.leads, fixedWidth_pos t ht]

/-- Forms that lead the same word are the same. -/
theorem WordForm.eq_of_leads {s t : WordForm} {word : Nat} (hs : s ∈ wordForms) (ht : t ∈ wordForms)
    (hsw : s.leads word = true) (htw : t.leads word = true) : s = t := by
  rw [leads_iff hs] at hsw
  rw [leads_iff ht] at htw
  have hsle := s.format.fixedWidth_le
  have htle := t.format.fixedWidth_le
  refine eq_of_meets s hs t ht ?_
  rw [Meets, ← hsw, ← htw, ← Nat.shiftRight_add, ← Nat.shiftRight_add]
  congr 1
  omega

theorem WordForm.find?_leads {t : WordForm} {word : Nat} (ht : t ∈ wordForms)
    (htw : t.leads word = true) : wordForms.find? (·.leads word) = some t := by
  cases hf : wordForms.find? (·.leads word) with
  | none => exact absurd htw (List.find?_eq_none.1 hf t ht)
  | some s =>
    have hs := List.mem_of_find?_eq_some hf
    have hsw := List.find?_some hf
    rw [eq_of_leads hs ht hsw htw]

theorem FormatEntry.form_mem {e : FormatEntry} (h : e ∈ formatEntries) : e.form ∈ wordForms :=
  List.mem_append_left _ (List.mem_map_of_mem h)

theorem BundleEntry.form_mem {b : BundleEntry} (h : b ∈ bundleEntries) : b.form ∈ wordForms :=
  List.mem_append_right _ (List.mem_map_of_mem h)

theorem FormatEntry.find?_of_mem : ∀ e ∈ formatEntries, find? e.opcode e.shape = some e := by
  decide +kernel

theorem FormatEntry.of_find? {op : Opcode} {shape : Shape} {e : FormatEntry}
    (h : find? op shape = some e) : e ∈ formatEntries ∧ e.opcode = op ∧ e.shape = shape := by
  have hp := List.find?_some h
  simp only [Bool.and_eq_true, beq_iff_eq] at hp
  exact ⟨List.mem_of_find?_eq_some h, hp⟩

theorem BundleEntry.find?_of_mem : ∀ b ∈ bundleEntries, find? b.shape = some b := by decide +kernel

theorem BundleEntry.of_find? {shape : BundleShape} {b : BundleEntry} (h : find? shape = some b) :
    b ∈ bundleEntries ∧ b.shape = shape := by
  have hp := List.find?_some (p := fun b : BundleEntry => b.shape == shape) h
  exact ⟨List.mem_of_find?_eq_some h, eq_of_beq hp⟩

end QuadDsp
