import QuadDsp.Proofs.Word.Reading
import QuadDsp.Proofs.Word.Telling

/-! # Finished drafts

The fields of one operation tell each aspect of it once, and all that its shape needs
(`FormPart.nodup_aspects`, `FormPart.covers`). So a draft whose fields are read finishes as an
instruction exactly of that shape: the draft of a part shows every operation that tells what is read
(`FormPart.shows_read`), and a draft that shows an operation finishes as it (`Draft.Shows.finish?_eq`). -/

namespace QuadDsp

/-- What the draft must say about an operand in the slot at place `n`, the order of step and access
aside. -/
def Slot.aspects (n : Nat) : Slot → List Aspect
  | accView => [.acc, .view]
  | memAbs => [.addr]
  | memModify => [.index, .modify]
  | memImm => [.index, .step]
  | sts => []
  | _ => [.operand n]

namespace Shape

/-- What the draft must say about an operation of the shape. -/
def aspects (s : Shape) : List Aspect :=
  (s.slots.zipIdx.flatMap fun (slot, n) => slot.aspects n) ++ if s.needsMode then [.mode] else []

theorem mem_aspects {s : Shape} {n : Nat} {slot : Slot} {a : Aspect} (hslot : s.slots[n]? = some slot)
    (ha : a ∈ slot.aspects n) : a ∈ s.aspects := by
  refine List.mem_append_left _ (List.mem_flatMap.2 ⟨(slot, n), ?_, ha⟩)
  exact List.mem_zipIdx_iff_getElem?.2 hslot

theorem lt_of_operand_mem_aspects {s : Shape} {n : Nat} (h : .operand n ∈ s.aspects) :
    n < s.slots.length := by
  rcases List.mem_append.1 h with h | h
  · obtain ⟨⟨slot, k⟩, hk, ha⟩ := List.mem_flatMap.1 h
    have hn : n = k := by cases slot <;> simp [Slot.aspects] at ha <;> exact ha
    rw [hn]
    exact (List.getElem?_eq_some_iff.1 (List.mem_zipIdx_iff_getElem?.1 hk)).1
  · split at h <;> simp at h

theorem slot_of_memSlot? {s : Shape} {n : Nat} (h : s.memSlot? = some n) :
    ∃ slot, s.slots[n]? = some slot ∧ slot.isMem = true := by
  obtain ⟨hlt, hmem, -⟩ := List.findIdx?_eq_some_iff_getElem.1 h
  exact ⟨_, List.getElem?_eq_getElem hlt, hmem⟩

theorem memSlot?_of_isMem (s : Shape) {n : Nat} {slot : Slot} (hslot : s.slots[n]? = some slot)
    (hmem : slot.isMem = true) : s.memSlot? = some n := by
  have hall : ∀ s ∈ all, ∀ n ∈ List.range s.slots.length, ∀ slot ∈ s.slots[n]?, slot.isMem = true →
      s.memSlot? = some n := by decide +kernel
  exact hall s (mem_all s) n (List.mem_range.2 (List.getElem?_eq_some_iff.1 hslot).1) slot hslot hmem

end Shape

/-- The aspect that a field of an operation is about. -/
def Field.aspect (f : Field) (s : Shape) : Aspect :=
  match f.kind with
  | .reg _ => if s.slotAt? f.arg = some .accView then .acc else .operand ((s.argSlot? f.arg).getD 0)
  | .accPair | .dag | .sys | .imm _ | .pcRel | .loopEnd | .modeBit | .termCond =>
    .operand ((s.argSlot? f.arg).getD 0)
  | .part => .view
  | .addr => .addr
  | .index _ => .index
  | .modify _ => .modify
  | .pre => .pre
  | .step => .step
  | .mode => .mode
  | .conj => .conj
  | .subOp _ | .opcode | .pad | .cond => .opcode

theorem Shape.aspect_of_operandAt? {s : Shape} {arg : Arg} {o : Operand} {c : Content}
    (h : s.operandAt? arg o = some c) : c.aspect = .operand ((s.argSlot? arg).getD 0) := by
  obtain ⟨n, hn, rfl⟩ := exists_of_operandAt? h
  rw [hn]
  rfl

theorem Field.aspect_of_content? {f : Field} {s : Shape} {addr v : Nat} {c : Content}
    (h : f.content? s addr v = some c) : c.aspect = f.aspect s := by
  have hbind {α : Type} {x : Option α} {g : α → Operand}
      (h : (x.bind fun a => s.operandAt? f.arg (g a)) = some c) :
      c.aspect = .operand ((s.argSlot? f.arg).getD 0) := by
    obtain ⟨a, -, h⟩ := Option.bind_eq_some_iff.1 h
    exact Shape.aspect_of_operandAt? h
  have hmap {α : Type} {x : Option α} {g : α → Content} {a : Aspect} (hg : ∀ y, (g y).aspect = a)
      (h : x.map g = some c) : c.aspect = a := by
    obtain ⟨y, -, rfl⟩ := Option.map_eq_some_iff.1 h
    exact hg y
  obtain ⟨kind, role, arg, width⟩ := f
  cases kind with
  | opcode | pad | cond => cases h
  | reg base =>
    obtain ⟨n, hn, h⟩ := Option.bind_eq_some_iff.1 h
    obtain ⟨slot, hslot, h⟩ := Option.bind_eq_some_iff.1 h
    have hslotAt : s.slotAt? arg = some slot := Option.bind_eq_some_iff.2 ⟨n, hn, hslot⟩
    simp only [Field.aspect, hslotAt]
    split
    · next hview =>
      cases hview
      cases h
      rfl
    · next hview =>
      dsimp only at hn
      rw [hn]
      cases slot <;> first | exact absurd rfl hview | cases h | skip
      all_goals
        dsimp only [Slot.regContent?, Slot.regClass?] at h
        simp only [Option.bind_eq_bind, Option.bind_some] at h
        split at h
        · cases h; rfl
        · cases h
  | accPair | loopEnd => exact Shape.aspect_of_operandAt? h
  | imm sign => cases sign <;> exact Shape.aspect_of_operandAt? h
  | dag | sys | pcRel | modeBit | termCond => exact hbind h
  | addr | index | modify | pre | step | conj => cases h; rfl
  | part | mode | subOp => exact hmap (fun _ => rfl) h

/-- What is told about an operation is told by its fields, one content each. -/
theorem map_aspect_ownContents? {addr : Nat} {role : Role} {s : Shape} {values : List (Field × Nat)}
    {cs : List Content} (h : ownContents? addr role s values = some cs) :
    cs.map Content.aspect =
      ((values.map Prod.fst).filter fun f => f.isOwn ∧ f.role = role).map (·.aspect s) := by
  induction values generalizing cs with
  | nil => cases h; rfl
  | cons x rest ih =>
    obtain ⟨f, v⟩ := x
    rw [ownContents?] at h
    split at h
    · next hf =>
      obtain ⟨c, hc, h⟩ := Option.bind_eq_some_iff.1 h
      obtain ⟨cs, hcs, ⟨⟩⟩ := Option.bind_eq_some_iff.1 h
      simp [hf, ih hcs, Field.aspect_of_content? hc]
    · next hf =>
      rw [ih h, List.map_cons, List.filter_cons_of_neg (by simpa using hf)]

theorem mem_ownContents? {addr : Nat} {role : Role} {s : Shape} {values : List (Field × Nat)}
    {cs : List Content} (h : ownContents? addr role s values = some cs) {c : Content} :
    c ∈ cs ↔ ∃ x ∈ values, (x.1.isOwn = true ∧ x.1.role = role) ∧ x.1.content? s addr x.2 = some c := by
  induction values generalizing cs with
  | nil => cases h; simp
  | cons x rest ih =>
    obtain ⟨f, v⟩ := x
    rw [ownContents?] at h
    split at h
    · next hf =>
      obtain ⟨c', hc', h⟩ := Option.bind_eq_some_iff.1 h
      obtain ⟨cs, hcs, ⟨⟩⟩ := Option.bind_eq_some_iff.1 h
      rw [List.mem_cons, ih hcs, List.exists_mem_cons_iff]
      refine or_congr_left ⟨?_, ?_⟩
      · rintro rfl
        exact ⟨hf, hc'⟩
      · rintro ⟨-, hc⟩
        exact Option.some.inj (hc.symm.trans hc')
    · next hf =>
      rw [ih h, List.exists_mem_cons_iff]
      simp [hf]

theorem exists_ownContents? {addr : Nat} {role : Role} {s : Shape} {values : List (Field × Nat)}
    (h : ∀ x ∈ values, x.1.isOwn = true → x.1.role = role → ∃ c, x.1.content? s addr x.2 = some c) :
    ∃ cs, ownContents? addr role s values = some cs := by
  induction values with
  | nil => exact ⟨[], rfl⟩
  | cons x rest ih =>
    obtain ⟨f, v⟩ := x
    obtain ⟨cs, hcs⟩ := ih fun x hx => h x (List.mem_cons_of_mem _ hx)
    rw [ownContents?]
    split
    · next hf =>
      obtain ⟨c, hc⟩ := h _ List.mem_cons_self hf.1 hf.2
      dsimp only at hc
      rw [hc, hcs]
      exact ⟨_, rfl⟩
    · exact ⟨cs, hcs⟩

/-- A field of the format says whether the operation conjugates. -/
def FormatId.hasConj (f : FormatId) : Bool := f.layout.any (·.kind == .conj)

namespace FormPart

/-- The fields of the part. -/
def fields (part : FormPart) (f : FormatId) : List Field :=
  f.layout.filter fun fd => fd.isOwn ∧ fd.role = part.role

/-- The aspects that the fields of the part are about. -/
def aspects (part : FormPart) (f : FormatId) : List Aspect := (part.fields f).map (·.aspect part.shape)

/-- No two fields of an operation are about the same aspect. -/
theorem nodup_aspects : ∀ t ∈ wordForms, ∀ part ∈ t.parts, (part.aspects t.format).Nodup := by
  decide +kernel

/-- The fields of an operation are about all that its shape needs. -/
theorem covers : ∀ t ∈ wordForms, ∀ part ∈ t.parts, ∀ a ∈ part.shape.aspects,
    a ∈ part.aspects t.format := by
  decide +kernel

/-- And about nothing else but its opcode, and whether it conjugates or steps first. -/
theorem mem_aspects : ∀ t ∈ wordForms, ∀ part ∈ t.parts, ∀ a ∈ part.aspects t.format,
    a ∈ part.shape.aspects ∨ a ∈ [.opcode, .conj, .pre] := by
  decide +kernel

theorem opcode_mem_aspects : ∀ t ∈ wordForms, ∀ part ∈ t.parts,
    .opcode ∈ part.aspects t.format ↔ part.role.isCoded = true := by
  decide +kernel

theorem pre_mem_aspects : ∀ t ∈ wordForms, ∀ part ∈ t.parts,
    .pre ∈ part.aspects t.format ↔
      .index ∈ part.shape.aspects ∧ part.role.isTransfer = false := by
  decide +kernel

theorem conj_mem_aspects : ∀ t ∈ wordForms, ∀ part ∈ t.parts,
    .conj ∈ part.aspects t.format ↔ t.format.hasConj = true := by
  decide +kernel

end FormPart

/-- The draft says what the operation does. -/
structure Draft.Shows (d : Draft) (m : Member) : Prop where
  shape : d.shape = m.shape
  length : d.operands.length = d.shape.slots.length
  opcode : d.opcode = m.opcode
  tells : ∀ a ∈ m.shape.aspects, ∃ c, c.aspect = a ∧ d.Has c ∧ m.Tells c
  pre : ∀ r, m.mem? = some r → r.mode.isPre = d.pre

theorem Operand.Usable.space_eq {r : MemRef} (h : (Operand.mem r).Usable) : r.space = .data := by
  obtain ⟨space, mode⟩ := r
  cases space with
  | data => rfl
  | program => exact absurd rfl (h.2 mode)

namespace Draft.Shows

variable {d : Draft} {m : Member}

theorem mem?_of_slot {n : Nat} {slot : Slot} {r : MemRef} (hslot : m.shape.slots[n]? = some slot)
    (hmem : slot.isMem = true) (ho : m.nth? n = some (.mem r)) : m.mem? = some r := by
  have harg : m.operand? .mem = some (.mem r) := by
    rw [Member.operand?, m.shape.memSlot?_of_isMem hslot hmem, Option.bind_some, ho]
  rw [Member.mem?, harg]

theorem accView_eq (h : d.Shows m) {n a : Nat} {view : AccView}
    (hslot : m.shape.slots[n]? = some .accView) (ho : m.nth? n = some (.accView a view)) :
    d.acc = some a ∧ d.view = some view := by
  have hsame {n' a' : Nat} {view' : AccView} (hslot' : m.shape.slots[n']? = some .accView)
      (ho' : m.nth? n' = some (.accView a' view')) : a' = a ∧ view' = view := by
    rw [m.shape.idxOf_of_accView hslot', ← m.shape.idxOf_of_accView hslot, ho] at ho'
    cases ho'
    exact ⟨rfl, rfl⟩
  constructor
  · obtain ⟨c, hc, hhas, ht⟩ := h.tells .acc (Shape.mem_aspects hslot List.mem_cons_self)
    cases c <;> cases hc
    obtain ⟨n', view', hslot', ho'⟩ := ht
    rwa [(hsame hslot' ho').1] at hhas
  · obtain ⟨c, hc, hhas, ht⟩ := h.tells .view
      (Shape.mem_aspects hslot (List.mem_cons_of_mem _ List.mem_cons_self))
    cases c <;> cases hc
    obtain ⟨n', a', hslot', ho'⟩ := ht
    rwa [(hsame hslot' ho').2] at hhas

theorem addr_eq (h : d.Shows m) {r : MemRef} (hr : m.mem? = some r) (ha : .addr ∈ m.shape.aspects) :
    ∃ a, d.addr = some a ∧ r.mode = .direct a := by
  obtain ⟨c, hc, hhas, ht⟩ := h.tells .addr ha
  cases c <;> cases hc
  obtain ⟨r', hr', hmode⟩ := ht
  cases hr.symm.trans hr'
  exact ⟨_, hhas, hmode⟩

theorem index_eq (h : d.Shows m) {r : MemRef} (hr : m.mem? = some r)
    (ha : .index ∈ m.shape.aspects) : d.index = r.mode.index? := by
  obtain ⟨c, hc, hhas, ht⟩ := h.tells .index ha
  cases c <;> cases hc
  obtain ⟨r', hr', hmode⟩ := ht
  cases hr.symm.trans hr'
  exact hhas.trans hmode.symm

theorem modify_eq (h : d.Shows m) {r : MemRef} (hr : m.mem? = some r)
    (ha : .modify ∈ m.shape.aspects) : d.modify = r.mode.modify? := by
  obtain ⟨c, hc, hhas, ht⟩ := h.tells .modify ha
  cases c <;> cases hc
  obtain ⟨r', hr', hmode⟩ := ht
  cases hr.symm.trans hr'
  exact hhas.trans hmode.symm

theorem step_eq (h : d.Shows m) {r : MemRef} (hr : m.mem? = some r) (ha : .step ∈ m.shape.aspects) :
    d.step = r.mode.step? := by
  obtain ⟨c, hc, hhas, ht⟩ := h.tells .step ha
  cases c <;> cases hc
  obtain ⟨r', hr', hmode⟩ := ht
  cases hr.symm.trans hr'
  exact hhas.trans hmode.symm

theorem operand_eq (h : d.Shows m) {n : Nat} {o : Operand} (ho : m.nth? n = some o)
    (ha : .operand n ∈ m.shape.aspects) : d.operands[n]? = some (some o) := by
  obtain ⟨c, hc, hhas, ht⟩ := h.tells (.operand n) ha
  cases c <;> cases hc
  cases ho.symm.trans ht
  exact hhas

/-- Each slot of the draft gives the operand of the operation. -/
theorem operand?_eq (h : d.Shows m) {n : Nat} {slot : Slot} {read : Option Operand} {o : Operand}
    (hslot : m.shape.slots[n]? = some slot) (hread : d.operands[n]? = some read)
    (ho : m.nth? n = some o) (haccepts : slot.accepts o = true) (husable : o.Usable) :
    d.operand? slot read = some o := by
  have haspect {a : Aspect} (ha : a ∈ slot.aspects n) : a ∈ m.shape.aspects :=
    Shape.mem_aspects hslot ha
  cases slot with
  | accView =>
    obtain ⟨a, view, rfl⟩ := Slot.accView_of_accepts haccepts
    obtain ⟨hacc, hview⟩ := h.accView_eq hslot ho
    simp [operand?, hacc, hview]
  | sts =>
    rcases o with r | ⟨a, w⟩ | s | w | r | t | c | k <;> try cases haccepts
    cases k <;> first | rfl | cases haccepts
  | memAbs =>
    obtain ⟨r, rfl⟩ := Slot.mem_of_accepts rfl haccepts
    obtain ⟨a, hd, hmode⟩ := h.addr_eq (mem?_of_slot hslot rfl ho) (haspect List.mem_cons_self)
    have hr : r = ⟨.data, .direct a⟩ := by rw [← hmode, ← husable.space_eq]
    simp [operand?, addrMode?, hd, hr]
  | memModify =>
    obtain ⟨⟨space, mode⟩, rfl⟩ := Slot.mem_of_accepts rfl haccepts
    obtain rfl : space = .data := husable.space_eq
    have hr := mem?_of_slot hslot rfl ho
    have hindex := h.index_eq hr (haspect List.mem_cons_self)
    have hmodify := h.modify_eq hr (haspect (List.mem_cons_of_mem _ List.mem_cons_self))
    have hpre := h.pre _ hr
    cases mode with
    | post i n | pre n i =>
      simp only [AddrMode.isPre] at hpre
      simp [operand?, addrMode?, hindex, hmodify, ← hpre, AddrMode.index?, AddrMode.modify?]
    | _ => cases haccepts
  | memImm =>
    obtain ⟨⟨space, mode⟩, rfl⟩ := Slot.mem_of_accepts rfl haccepts
    obtain rfl : space = .data := husable.space_eq
    have hr := mem?_of_slot hslot rfl ho
    have hindex := h.index_eq hr (haspect List.mem_cons_self)
    have hstep := h.step_eq hr (haspect (List.mem_cons_of_mem _ List.mem_cons_self))
    have hpre := h.pre _ hr
    cases mode with
    | postImm i v | preImm v i =>
      simp only [AddrMode.isPre] at hpre
      simp [operand?, addrMode?, hindex, hstep, ← hpre, AddrMode.index?, AddrMode.step?]
    | _ => cases haccepts
  | _ =>
    have hd := h.operand_eq ho (haspect List.mem_cons_self)
    cases hread.symm.trans hd
    rfl

theorem mode_eq (h : d.Shows m) (hneeds : m.shape.needsMode = true) : d.mode = some m.mulMode := by
  obtain ⟨c, hc, hhas, ht⟩ := h.tells .mode (List.mem_append_right _ (by simp [hneeds]))
  cases c <;> cases hc
  exact hhas.trans (congrArg some ht.symm)

/-- A draft that shows an operation finishes as it. -/
theorem finish?_eq (h : d.Shows m) (hm : m.Classified) (c : Condition) :
    d.finish? c = some
      { line := 0, opcode := m.opcode, operands := m.instr.plain ++ m.instr.modes
        condition := some c, conjugate := d.conjugate } := by
  obtain ⟨hfits, hmodes, husable⟩ := Shape.classify_eq_ok_iff.1 hm.classify
  rw [Shape.fits_iff] at hfits
  have hoperands : (d.shape.slots.zip d.operands).mapM (fun place => d.operand? place.1 place.2) =
      some m.instr.plain := by
    have hlen : m.shape.slots.length = m.instr.plain.length := hfits.length_eq
    have hplaces : d.operands.length = m.shape.slots.length := h.shape ▸ h.length
    rw [h.shape, mapM_eq_some_iff, List.forall₂_iff_get]
    refine ⟨by rw [List.length_zip]; omega, fun n hn hn' => ?_⟩
    rw [List.length_zip] at hn
    simp only [List.get_eq_getElem, List.getElem_zip]
    have hnth : m.nth? n = some m.instr.plain[n] := List.getElem?_eq_getElem hn'
    exact h.operand?_eq (List.getElem?_eq_getElem (by omega)) (List.getElem?_eq_getElem (by omega)) hnth
      (hfits.get (by omega) hn') (husable _ (List.mem_of_mem_filter (List.getElem_mem hn')))
  have hmode : (if d.shape.needsMode then [Operand.key (.mul (d.mode.getD .ss))] else []) =
      m.instr.modes := by
    have hsome := hm.mode
    rw [h.shape, hmodes]
    cases hneeds : m.shape.needsMode with
    | false =>
      have hnone : m.mode = none := Option.isNone_iff_eq_none.1 (by simp_all)
      rw [hnone]
      rfl
    | true =>
      obtain ⟨k, hk⟩ := Option.isSome_iff_exists.1 (hsome.trans hneeds)
      rw [h.mode_eq hneeds, Member.mulMode, hk]
      rfl
  rw [← hmode, ← h.opcode]
  exact Option.bind_eq_some_iff.2 ⟨m.instr.plain, hoperands, rfl⟩

end Draft.Shows

theorem Member.isPre_eq_false {m : Member} (hm : m.Classified) (ha : .index ∉ m.shape.aspects)
    {r : MemRef} (hr : m.mem? = some r) : r.mode.isPre = false := by
  have harg : m.operand? .mem = some (.mem r) := by
    unfold mem? at hr
    split at hr
    · next h => cases hr; exact h
    · cases hr
  obtain ⟨n, hn, ho⟩ := Option.bind_eq_some_iff.1 harg
  obtain ⟨slot, hslot, hmem⟩ := Shape.slot_of_memSlot? hn
  obtain ⟨o, ho', haccepts, -⟩ := hm.nth?_of_slot hslot
  cases ho.symm.trans ho'
  have hindex (h : .index ∈ slot.aspects n) : False := ha (Shape.mem_aspects hslot h)
  obtain ⟨space, mode⟩ := r
  cases slot with
  | memAbs => cases mode <;> first | rfl | cases haccepts
  | memModify | memImm => exact (hindex List.mem_cons_self).elim
  | _ => cases hmem

namespace FormPart

variable {part : FormPart} {t : WordForm} {addr : Nat} {values : List (Field × Nat)}
  {cs : List Content} {m : Member}

/-- The draft of the part, once its fields are read. -/
def read (part : FormPart) (cs : List Content) : Draft :=
  cs.foldl Draft.put (.start part.role part.opcode part.shape)

theorem role_read : (part.read cs).role = part.role := Draft.foldl_put_role ..

theorem shape_read : (part.read cs).shape = part.shape := Draft.foldl_put_shape ..

theorem length_operands_read : (part.read cs).operands.length = (part.read cs).shape.slots.length := by
  rw [shape_read]
  exact (Draft.length_foldl_put ..).trans List.length_replicate

theorem map_aspect_eq (hvalues : values.map Prod.fst = t.format.layout)
    (hcs : ownContents? addr part.role part.shape values = some cs) :
    cs.map Content.aspect = part.aspects t.format := by
  rw [map_aspect_ownContents? hcs, hvalues]
  rfl

/-- A draft has all that its fields tell. -/
theorem has_read (ht : t ∈ wordForms) (hpart : part ∈ t.parts)
    (haspects : cs.map Content.aspect = part.aspects t.format) : ∀ c ∈ cs, (part.read cs).Has c := by
  refine Draft.has_foldl_put (haspects ▸ nodup_aspects t ht part hpart) fun n o hc => ?_
  have ha : .operand n ∈ part.aspects t.format := haspects ▸ List.mem_map_of_mem hc
  have hshape : .operand n ∈ part.shape.aspects :=
    (mem_aspects t ht part hpart _ ha).resolve_right (by simp)
  rw [Draft.start, List.length_replicate]
  exact Shape.lt_of_operand_mem_aspects hshape

theorem has_read_of_notMem (haspects : cs.map Content.aspect = part.aspects t.format) {c : Content}
    (hc : c.aspect ∉ part.aspects t.format)
    (h : (Draft.start part.role part.opcode part.shape).Has c) : (part.read cs).Has c :=
  Draft.has_foldl_put_of_notMem (haspects ▸ hc) h

/-- If an operation that can play the part tells all that is read, the draft shows it. -/
theorem shows_read (ht : t ∈ wordForms) (hpart : part ∈ t.parts)
    (haspects : cs.map Content.aspect = part.aspects t.format) (htells : ∀ c ∈ cs, m.Tells c)
    (htakes : part.Takes m) (hm : m.Classified)
    (hpost : m.role.isTransfer = true → ∀ r, m.mem? = some r → r.mode.isPre = false) :
    (part.read cs).Shows m := by
  have hhas := has_read ht hpart haspects
  have hmem {a : Aspect} (ha : a ∈ part.aspects t.format) :
      ∃ c, c.aspect = a ∧ (part.read cs).Has c ∧ m.Tells c := by
    obtain ⟨c, hc, hca⟩ := List.mem_map.1 (haspects ▸ ha)
    exact ⟨c, hca, hhas c hc, htells c hc⟩
  refine ⟨shape_read.trans htakes.shape.symm, length_operands_read, ?_, fun a ha => ?_, fun r hr => ?_⟩
  · by_cases hcoded : part.role.isCoded = true
    · obtain ⟨c, hc, hd, htell⟩ := hmem ((opcode_mem_aspects t ht part hpart).2 hcoded)
      cases c <;> cases hc
      exact hd.trans htell.symm
    · have hopcode : (part.read cs).Has (.opcode part.opcode) :=
        has_read_of_notMem haspects (fun h => hcoded ((opcode_mem_aspects t ht part hpart).1 h)) rfl
      exact hopcode.trans (htakes.opcode (Bool.eq_false_iff.2 hcoded)).symm
  · exact hmem (covers t ht part hpart a (htakes.shape ▸ ha))
  · by_cases ha : .pre ∈ part.aspects t.format
    · obtain ⟨c, hc, hd, htell⟩ := hmem ha
      cases c <;> cases hc
      obtain ⟨r', hr', hpre⟩ := htell
      cases hr.symm.trans hr'
      exact hpre.trans hd.symm
    · have hdraft : (part.read cs).Has (.pre false) := has_read_of_notMem haspects ha rfl
      have hpre : r.mode.isPre = false := by
        by_cases htransfer : part.role.isTransfer = true
        · exact hpost (htakes.role ▸ htransfer) r hr
        · refine Member.isPre_eq_false hm (fun hindex => ha ?_) hr
          rw [pre_mem_aspects t ht part hpart]
          exact ⟨htakes.shape ▸ hindex, Bool.eq_false_iff.2 htransfer⟩
      exact hpre.trans hdraft.symm

/-- Where no field says so, the operation does not conjugate. -/
theorem conjugate_read (ht : t ∈ wordForms) (hpart : part ∈ t.parts)
    (haspects : cs.map Content.aspect = part.aspects t.format) (htells : ∀ c ∈ cs, m.Tells c) :
    (part.read cs).conjugate = (t.format.hasConj && m.instr.conjugate) := by
  cases hconj : t.format.hasConj with
  | true =>
    have ha := (conj_mem_aspects t ht part hpart).2 hconj
    obtain ⟨c, hc, hca⟩ := List.mem_map.1 (haspects ▸ ha)
    have hd := has_read ht hpart haspects c hc
    have htell := htells c hc
    cases c <;> cases hca
    exact hd.trans htell.symm
  | false =>
    have ha : .conj ∉ part.aspects t.format := fun h => by
      rw [conj_mem_aspects t ht part hpart, hconj] at h
      cases h
    have hdraft : (part.read cs).Has (.conj false) := has_read_of_notMem haspects ha rfl
    exact hdraft

end FormPart

end QuadDsp
