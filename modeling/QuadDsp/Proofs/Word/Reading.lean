import QuadDsp.Proofs.Results
import QuadDsp.Proofs.Word.Content
import QuadDsp.Proofs.Word.Packing

/-! # Reading a word operation by operation

The decoder walks the fields of a word once, from left to right, and changes the draft that each field
belongs to. Since the drafts play different parts, the outcome is that of reading the fields of each
draft on its own (`readFields?_eq_some_iff`, `decodeAs?_eq_some_iff`). -/

namespace QuadDsp

/-- The condition among the values of a word's fields, or else `c`. -/
def conditionOf? : List (Field × Nat) → Condition → Option Condition
  | [], c => some c
  | (f, v) :: rest, c =>
    if f.kind = .cond then (Condition.ofCode? v).bind (conditionOf? rest) else conditionOf? rest c

/-- What the fields of one operation tell about it. -/
def ownContents? (addr : Nat) (role : Role) (s : Shape) : List (Field × Nat) → Option (List Content)
  | [] => some []
  | (f, v) :: rest =>
    if f.isOwn ∧ f.role = role then do
      let c ← f.content? s addr v
      let cs ← ownContents? addr role s rest
      return c :: cs
    else ownContents? addr role s rest

namespace Draft

/-- The draft, with a place for each operand, turns into `d'` when the fields of its operation are
read. -/
def ReadsTo (addr : Nat) (values : List (Field × Nat)) (d d' : Draft) : Prop :=
  d.operands.length = d.shape.slots.length ∧
    ∃ cs, ownContents? addr d.role d.shape values = some cs ∧ d' = cs.foldl put d

theorem readsTo_nil {addr : Nat} {d d' : Draft} :
    ReadsTo addr [] d d' ↔ d.operands.length = d.shape.slots.length ∧ d' = d := by
  simp [ReadsTo, ownContents?]

theorem readsTo_cons_of_not {addr v : Nat} {f : Field} {rest : List (Field × Nat)} {d d' : Draft}
    (h : ¬(f.isOwn = true ∧ f.role = d.role)) :
    ReadsTo addr ((f, v) :: rest) d d' ↔ ReadsTo addr rest d d' := by
  rw [ReadsTo, ReadsTo, ownContents?, if_neg h]

theorem readsTo_cons {addr v : Nat} {f : Field} {rest : List (Field × Nat)} {d d' : Draft}
    (hlen : d.operands.length = d.shape.slots.length) (hf : f.isOwn = true) (hrole : f.role = d.role) :
    ReadsTo addr ((f, v) :: rest) d d' ↔
      ∃ d₁, d.read? f addr v = some d₁ ∧ ReadsTo addr rest d₁ d' := by
  rw [ReadsTo, ownContents?, if_pos ⟨hf, hrole⟩, read?_eq hlen hf]
  constructor
  · rintro ⟨-, cs, hcs, rfl⟩
    obtain ⟨c, hc, h⟩ := Option.bind_eq_some_iff.1 hcs
    obtain ⟨cs, hrest, ⟨⟩⟩ := Option.bind_eq_some_iff.1 h
    exact ⟨d.put c, by rw [hc, Option.map_some], by simp [hlen], cs, by simpa using hrest, rfl⟩
  · rintro ⟨d₁, hd, -, cs, hcs, rfl⟩
    obtain ⟨c, hc, rfl⟩ := Option.map_eq_some_iff.1 hd
    rw [put_role, put_shape] at hcs
    refine ⟨hlen, c :: cs, ?_, rfl⟩
    rw [hc]
    simp [hcs]

/-- What becomes of a draft when the one with a role is changed. -/
def Updated (role : Role) (g : Draft → Option Draft) (d d' : Draft) : Prop :=
  if d.role = role then g d = some d' else d' = d

theorem forall₂_updated_iff_of_notMem {role : Role} {g : Draft → Option Draft} {ds ds' : List Draft}
    (h : role ∉ ds.map Draft.role) : List.Forall₂ (Updated role g) ds ds' ↔ ds' = ds := by
  induction ds generalizing ds' with
  | nil => simp
  | cons d rest ih =>
    rw [List.map_cons, List.mem_cons, not_or] at h
    have hne : d.role ≠ role := fun hd => h.1 hd.symm
    simp only [List.forall₂_cons_left_iff, Updated, if_neg hne]
    constructor
    · rintro ⟨_, l, rfl, hl, rfl⟩
      rw [(ih h.2).1 hl]
    · rintro rfl
      exact ⟨d, rest, rfl, (ih h.2).2 rfl, rfl⟩

/-- Changing the draft of a role that only one draft plays. -/
theorem update?_eq_some_iff {role : Role} {g : Draft → Option Draft} {ds ds' : List Draft}
    (hnd : (ds.map Draft.role).Nodup) (hmem : role ∈ ds.map Draft.role) :
    update? role g ds = some ds' ↔ List.Forall₂ (Updated role g) ds ds' := by
  induction ds generalizing ds' with
  | nil => cases hmem
  | cons d rest ih =>
    rw [List.map_cons, List.nodup_cons] at hnd
    rw [update?, List.forall₂_cons_left_iff]
    by_cases hd : d.role = role
    · have hrest {l : List Draft} : List.Forall₂ (Updated role g) rest l ↔ l = rest :=
        forall₂_updated_iff_of_notMem (hd ▸ hnd.1)
      simp only [if_pos hd, Updated, Option.map_eq_some_iff]
      constructor
      · rintro ⟨d', hg, rfl⟩
        exact ⟨d', rest, hg, hrest.2 rfl, rfl⟩
      · rintro ⟨d', l, hg, hl, rfl⟩
        exact ⟨d', hg, by rw [hrest.1 hl]⟩
    · have hmem' : role ∈ rest.map Draft.role :=
        (List.mem_cons.1 hmem).resolve_left fun h => hd h.symm
      simp only [if_neg hd, Updated, Option.map_eq_some_iff]
      constructor
      · rintro ⟨l, hl, rfl⟩
        exact ⟨d, l, rfl, (ih hnd.2 hmem').1 hl, rfl⟩
      · rintro ⟨_, l, rfl, hl, rfl⟩
        exact ⟨l, (ih hnd.2 hmem').2 hl, rfl⟩

/-- Reading a field keeps what drafts are told apart by, and the places of their operands. -/
theorem Updated.keeps {f : Field} {addr v : Nat} {d d' : Draft}
    (h : Updated f.role (·.read? f addr v) d d') (hf : f.isOwn = true)
    (hlen : d.operands.length = d.shape.slots.length) :
    d'.role = d.role ∧ d'.operands.length = d'.shape.slots.length := by
  unfold Updated at h
  dsimp only at h
  split at h
  · rw [read?_eq hlen hf, Option.map_eq_some_iff] at h
    obtain ⟨c, -, rfl⟩ := h
    exact ⟨d.put_role c, by rw [length_put, put_shape, hlen]⟩
  · rw [h]
    exact ⟨rfl, hlen⟩

section Walk

variable {f : Field} {addr v : Nat} {values : List (Field × Nat)} {ds ds' ds₁ : List Draft}

/-- A field of an operation is read by the one draft that plays its role. -/
theorem forall₂_readsTo_cons (hnd : (ds.map Draft.role).Nodup) (hmem : f.role ∈ ds.map Draft.role)
    (hlen : ∀ d ∈ ds, d.operands.length = d.shape.slots.length) (hf : f.isOwn = true) :
    List.Forall₂ (ReadsTo addr ((f, v) :: values)) ds ds' ↔
      ∃ ds₁, update? f.role (·.read? f addr v) ds = some ds₁ ∧ List.Forall₂ (ReadsTo addr values) ds₁ ds' := by
  simp only [update?_eq_some_iff hnd hmem]
  rw [exists_forall₂_forall₂_iff]
  refine forall₂_congr_of_mem fun d hd d' => ?_
  by_cases hrole : d.role = f.role
  · simp only [Updated, if_pos hrole, readsTo_cons (hlen d hd) hf hrole.symm]
  · have hne : ¬(f.isOwn = true ∧ f.role = d.role) := fun h => hrole h.2.symm
    simp only [Updated, if_neg hrole, readsTo_cons_of_not hne, exists_eq_left]

theorem update?_keeps (hnd : (ds.map Draft.role).Nodup) (hmem : f.role ∈ ds.map Draft.role)
    (hlen : ∀ d ∈ ds, d.operands.length = d.shape.slots.length) (hf : f.isOwn = true)
    (h : update? f.role (·.read? f addr v) ds = some ds₁) :
    ds₁.map Draft.role = ds.map Draft.role ∧ ∀ d ∈ ds₁, d.operands.length = d.shape.slots.length := by
  have hkeep : List.Forall₂ (fun d d₁ : Draft => d₁.role = d.role ∧
      d₁.operands.length = d₁.shape.slots.length) ds ds₁ :=
    ((forall₂_congr_of_mem fun d hd d₁ => (and_iff_right (hlen d hd)).symm).1
      ((update?_eq_some_iff hnd hmem).1 h)).imp fun d d₁ h => h.2.keeps hf h.1
  refine ⟨(map_eq_map_of_forall₂ (fun _ _ h => h.1.symm) hkeep).symm, fun d₁ hd₁ => ?_⟩
  obtain ⟨d, -, h⟩ := exists_left_of_forall₂ hkeep hd₁
  exact h.2

end Walk

end Draft

section Walk

variable {word addr offset : Nat} {f : Field} {rest fields : List Field} {c c' : Condition}
  {ds ds' : List Draft}

theorem readFields?_cons_own (hf : f.isOwn = true) :
    readFields? word addr offset (f :: rest) (c, ds) =
      (Draft.update? f.role (·.read? f addr (wordField word offset f.width)) ds).bind fun ds =>
        readFields? word addr (offset + f.width) rest (c, ds) := by
  obtain ⟨kind, role, arg, width⟩ := f
  cases kind with
  | opcode | pad | cond => cases hf
  | _ => exact Option.bind_map ..

theorem readFields?_cons_cond (hf : f.kind = .cond) :
    readFields? word addr offset (f :: rest) (c, ds) =
      (Condition.ofCode? (wordField word offset f.width)).bind fun c =>
        readFields? word addr (offset + f.width) rest (c, ds) := by
  obtain ⟨kind, role, arg, width⟩ := f
  cases hf
  exact Option.bind_map ..

theorem readFields?_cons_skip (hf : f.isOwn = false) (hcond : f.kind ≠ .cond) :
    readFields? word addr offset (f :: rest) (c, ds) =
      readFields? word addr (offset + f.width) rest (c, ds) := by
  obtain ⟨kind, role, arg, width⟩ := f
  cases kind with
  | opcode | pad => rfl
  | cond => exact absurd rfl hcond
  | _ => cases hf

/-- The walk over the fields of a word, operation by operation. -/
theorem readFields?_eq_some_iff (hnd : (ds.map Draft.role).Nodup)
    (hlen : ∀ d ∈ ds, d.operands.length = d.shape.slots.length)
    (hroles : ∀ f ∈ fields, f.isOwn = true → f.role ∈ ds.map Draft.role) :
    readFields? word addr offset fields (c, ds) = some (c', ds') ↔
      conditionOf? (wordReadings word offset fields) c = some c' ∧
        List.Forall₂ (Draft.ReadsTo addr (wordReadings word offset fields)) ds ds' := by
  induction fields generalizing offset c ds with
  | nil =>
    have hnil : List.Forall₂ (Draft.ReadsTo addr []) ds ds' ↔ ds = ds' := by
      rw [forall₂_congr_of_mem (S := Eq) fun d hd d' => by
        rw [Draft.readsTo_nil, and_iff_right (hlen d hd), eq_comm], List.forall₂_eq_eq_eq]
    rw [readFields?, wordReadings, conditionOf?, hnil]
    simp
  | cons f rest ih =>
    have hrest : ∀ f ∈ rest, f.isOwn = true → f.role ∈ ds.map Draft.role :=
      fun g hg => hroles g (List.mem_cons_of_mem _ hg)
    rw [wordReadings, conditionOf?]
    set v := wordField word offset f.width
    set values := wordReadings word (offset + f.width) rest
    by_cases hf : f.isOwn = true
    · -- a field of an operation: the draft of its role reads it, and the rest is read behind that
      have hcond : f.kind ≠ .cond := fun h => by simp [Field.isOwn, h] at hf
      have hmem : f.role ∈ ds.map Draft.role := hroles f List.mem_cons_self hf
      have hnext {ds₁ : List Draft} (h : Draft.update? f.role (·.read? f addr v) ds = some ds₁) :
          readFields? word addr (offset + f.width) rest (c, ds₁) = some (c', ds') ↔
            conditionOf? values c = some c' ∧ List.Forall₂ (Draft.ReadsTo addr values) ds₁ ds' := by
        obtain ⟨hrole, hlen₁⟩ := Draft.update?_keeps hnd hmem hlen hf h
        exact ih (hrole ▸ hnd) hlen₁ (hrole ▸ hrest)
      rw [readFields?_cons_own hf, if_neg hcond, Draft.forall₂_readsTo_cons hnd hmem hlen hf,
        Option.bind_eq_some_iff]
      constructor
      · rintro ⟨ds₁, hds₁, h⟩
        obtain ⟨hc, hds'⟩ := (hnext hds₁).1 h
        exact ⟨hc, ds₁, hds₁, hds'⟩
      · rintro ⟨hc, ds₁, hds₁, hds'⟩
        exact ⟨ds₁, hds₁, (hnext hds₁).2 ⟨hc, hds'⟩⟩
    · -- the condition, and fields that say nothing: no draft reads them
      have hskip : Draft.ReadsTo addr ((f, v) :: values) = Draft.ReadsTo addr values := by
        funext d d'
        exact propext (Draft.readsTo_cons_of_not fun h => hf h.1)
      rw [hskip]
      by_cases hcond : f.kind = .cond
      · rw [readFields?_cons_cond hcond, if_pos hcond, Option.bind_eq_some_iff,
          Option.bind_eq_some_iff]
        simp only [ih hnd hlen hrest]
        simp only [← and_assoc, exists_and_right]
        rfl
      · rw [readFields?_cons_skip (Bool.eq_false_iff.2 hf) hcond, if_neg hcond]
        exact ih hnd hlen hrest

end Walk

/-- The instruction in place of a part, as the fields of a word with condition `c` tell it. -/
def FormPart.Reads (addr : Nat) (values : List (Field × Nat)) (c : Condition) (part : FormPart)
    (i : Instruction) : Prop :=
  ∃ d, (Draft.start part.role part.opcode part.shape).ReadsTo addr values d ∧ d.finish? c = some i

/-- A word with its operations, the first one as head. -/
def Decoded.ofMembers (format : FormatId) (addr : Nat) (head : Instruction)
    (siblings : List Instruction) : Decoded :=
  ⟨format, { head with siblings := siblings, address := .ofNat addr, format := some format }⟩

namespace WordForm

/-- The drafts that a word of the form is read into. -/
def drafts (t : WordForm) : List Draft := t.parts.map fun part => .start part.role part.opcode part.shape

theorem role_mem_of_isOwn : ∀ t ∈ wordForms, ∀ f ∈ t.format.layout, f.isOwn = true →
    f.role ∈ t.parts.map FormPart.role := by
  decide +kernel

theorem map_role_drafts (t : WordForm) : t.drafts.map Draft.role = t.parts.map FormPart.role := by
  simp [drafts, Draft.start, Function.comp_def]

/-- Reading a word of the form, operation by operation. -/
theorem decodeAs?_eq_some_iff {t : WordForm} (ht : t ∈ wordForms) {word addr : Nat} {d : Decoded} :
    decodeAs? t.format word addr t.drafts = some d ↔
      ∃ c head siblings, conditionOf? (wordReadings word 0 t.format.layout) .always = some c ∧
        List.Forall₂ (FormPart.Reads addr (wordReadings word 0 t.format.layout) c) t.parts
          (head :: siblings) ∧
        d = .ofMembers t.format addr head siblings := by
  have hnd : (t.drafts.map Draft.role).Nodup := t.map_role_drafts ▸ nodup_roles t ht
  have hlen : ∀ d ∈ t.drafts, d.operands.length = d.shape.slots.length := by
    intro d hd
    obtain ⟨part, -, rfl⟩ := List.mem_map.1 hd
    exact List.length_replicate
  have hroles : ∀ f ∈ t.format.layout, f.isOwn = true → f.role ∈ t.drafts.map Draft.role :=
    t.map_role_drafts ▸ role_mem_of_isOwn t ht
  have hread (c : Condition) (instrs : List Instruction) :
      (∃ ds, readFields? word addr 0 t.format.layout (.always, t.drafts) = some (c, ds) ∧
          ds.mapM (·.finish? c) = some instrs) ↔
        conditionOf? (wordReadings word 0 t.format.layout) .always = some c ∧
          List.Forall₂ (FormPart.Reads addr (wordReadings word 0 t.format.layout) c) t.parts instrs := by
    simp only [readFields?_eq_some_iff hnd hlen hroles, mapM_eq_some_iff, and_assoc, exists_and_left,
      exists_forall₂_forall₂_iff]
    rw [drafts, List.forall₂_map_left_iff]
    rfl
  unfold decodeAs?
  constructor
  · intro h
    obtain ⟨⟨c, ds⟩, hds, h⟩ := Option.bind_eq_some_iff.1 h
    obtain ⟨instrs, hinstrs, h⟩ := Option.bind_eq_some_iff.1 h
    obtain ⟨hc, hparts⟩ := (hread c instrs).1 ⟨ds, hds, hinstrs⟩
    cases instrs with
    | nil => cases h
    | cons head siblings =>
      cases h
      exact ⟨c, head, siblings, hc, hparts, rfl⟩
  · rintro ⟨c, head, siblings, hc, hparts, rfl⟩
    obtain ⟨ds, hds, hinstrs⟩ := (hread c (head :: siblings)).2 ⟨hc, hparts⟩
    refine Option.bind_eq_some_iff.2 ⟨(c, ds), hds, ?_⟩
    exact Option.bind_eq_some_iff.2 ⟨head :: siblings, hinstrs, rfl⟩

end WordForm

theorem Role.draft_eq (role : Role) :
    role.draft = .start role.part.role role.part.opcode role.part.shape := by
  cases role <;> rfl

/-- The decoder finds the form that leads the word, and reads the word by it. -/
theorem decodeWord?_eq (word addr : Nat) :
    decodeWord? word addr =
      if word = errorWord then none
      else (wordForms.find? (·.leads word)).bind fun t => decodeAs? t.format word addr t.drafts := by
  unfold decodeWord?
  split
  · rfl
  · rw [wordForms, List.find?_append, List.find?_map, List.find?_map]
    have hbundle (b : BundleEntry) : b.form.drafts = b.shape.roles.map Role.draft := by
      simp [WordForm.drafts, BundleEntry.form, Role.draft_eq]
    cases hs : formatEntries.find? fun e => e.format.leads e.fixed word with
    | some e =>
      have hs' : formatEntries.find? ((WordForm.leads · word) ∘ FormatEntry.form) = some e := hs
      rw [hs']
      rfl
    | none =>
      have hs' : formatEntries.find? ((WordForm.leads · word) ∘ FormatEntry.form) = none := hs
      rw [hs']
      cases hb : bundleEntries.find? fun b => b.format.leads b.fixed word with
      | some b =>
        have hb' : bundleEntries.find? ((WordForm.leads · word) ∘ BundleEntry.form) = some b := hb
        rw [hb']
        exact congrArg (decodeAs? b.format word addr) (hbundle b).symm
      | none =>
        have hb' : bundleEntries.find? ((WordForm.leads · word) ∘ BundleEntry.form) = none := hb
        rw [hb']
        rfl

/-- When a word decodes, and to what. -/
theorem decodeWord?_eq_some_iff {word addr : Nat} {d : Decoded} :
    decodeWord? word addr = some d ↔ word ≠ errorWord ∧ ∃ t ∈ wordForms, t.leads word = true ∧
      ∃ c head siblings, conditionOf? (wordReadings word 0 t.format.layout) .always = some c ∧
        List.Forall₂ (FormPart.Reads addr (wordReadings word 0 t.format.layout) c) t.parts
          (head :: siblings) ∧
        d = .ofMembers t.format addr head siblings := by
  rw [decodeWord?_eq]
  split
  · next h => simp [h]
  · next h =>
    rw [Option.bind_eq_some_iff]
    constructor
    · rintro ⟨t, hfind, hd⟩
      have ht := List.mem_of_find?_eq_some hfind
      have hlead := List.find?_some (p := (WordForm.leads · word)) hfind
      exact ⟨h, t, ht, hlead, (t.decodeAs?_eq_some_iff ht).1 hd⟩
    · rintro ⟨-, t, ht, hlead, hd⟩
      exact ⟨t, WordForm.find?_leads ht hlead, (t.decodeAs?_eq_some_iff ht).2 hd⟩

end QuadDsp
