import QuadDsp.Proofs.Word.Finishing

/-! # Operations off a word

What the fields of a word tell can stand in an operation (`Field.sound_of_content?`), so the draft of a
part, once its fields are read, finishes as an operation of the shape of the part, and that operation
tells whatever the draft has (`FormPart.Reads.exists_plays`). This is the way back from a word to the
operations that the encoder takes it from. -/

namespace QuadDsp

/-- The operand of the slot stands in one field. -/
def Slot.isRead : Slot → Bool
  | accView | memAbs | memModify | memImm | sts => false
  | _ => true

/-- What the content says can stand in an operation of the shape. -/
def Content.Sound (s : Shape) : Content → Prop
  | .operand n o =>
    ∃ slot, s.slots[n]? = some slot ∧ slot.isRead = true ∧ slot.accepts o = true ∧ o.Usable
  | .acc a => a < RegClass.acc.count
  | .index i => i < RegClass.index.count
  | .modify n => n < RegClass.modify.count
  | _ => True

theorem Shape.sound_of_operandAt? {s : Shape} {arg : Arg} {slot : Slot} {o : Operand} {c : Content}
    (hslot : s.slotAt? arg = some slot) (hread : slot.isRead = true) (haccepts : slot.accepts o = true)
    (husable : o.Usable) (h : s.operandAt? arg o = some c) : c.Sound s := by
  obtain ⟨n, hn, rfl⟩ := exists_of_operandAt? h
  obtain ⟨n', hn', hs⟩ := Option.bind_eq_some_iff.1 hslot
  cases hn.symm.trans hn'
  exact ⟨slot, hs, hread, haccepts, husable⟩

theorem Slot.accepts_of_regClass? {slot : Slot} {cls : RegClass} (h : slot.regClass? = some cls)
    (n : Nat) : slot.accepts (.reg ⟨cls, n⟩) = true ∧ slot.isRead = true := by
  cases slot <;> cases h <;> exact ⟨rfl, rfl⟩

theorem Operand.usable_reg {r : Reg} (h : r.index < r.cls.count) : (Operand.reg r).Usable :=
  ⟨decide_eq_true h, fun _ h => by cases h⟩

theorem RegClass.isAddress_of_ofAddressCode? {k : Nat} {cls : RegClass}
    (h : ofAddressCode? k = some cls) : cls.isAddress = true ∧ cls.count = 8 := by
  unfold ofAddressCode? at h
  split at h <;> cases h <;> exact ⟨rfl, rfl⟩

theorem Shape.exists_slot_of_mem_aspects {s : Shape} {a : Aspect} (h : a ∈ s.aspects) (ha : a ≠ .mode) :
    ∃ (n : Nat) (slot : Slot), s.slots[n]? = some slot ∧ a ∈ slot.aspects n := by
  rcases List.mem_append.1 h with h | h
  · obtain ⟨⟨slot, n⟩, hn, hslot⟩ := List.mem_flatMap.1 h
    exact ⟨n, slot, List.mem_zipIdx_iff_getElem?.1 hn, hslot⟩
  · split at h
    · exact absurd (List.mem_singleton.1 h) ha
    · cases h

theorem Slot.isMem_of_mem_aspects {slot : Slot} {n : Nat} {a : Aspect} (ha : a ∈ [Aspect.index, .modify, .step, .addr])
    (h : a ∈ slot.aspects n) : slot.isMem = true := by
  simp only [List.mem_cons, List.not_mem_nil, or_false] at ha
  rcases ha with rfl | rfl | rfl | rfl <;> cases slot <;> first | rfl | simp [aspects] at h

theorem Slot.eq_accView_of_mem_aspects {slot : Slot} {n : Nat} {a : Aspect} (ha : a = .acc ∨ a = .view)
    (h : a ∈ slot.aspects n) : slot = .accView := by
  rcases ha with rfl | rfl <;> cases slot <;> first | rfl | simp [aspects] at h

theorem Shape.needsMode_of_mode_mem {s : Shape} (h : .mode ∈ s.aspects) : s.needsMode = true := by
  have hall : ∀ s ∈ all, .mode ∈ s.aspects → s.needsMode = true := by decide +kernel
  exact hall s (mem_all s) h

namespace Field

variable {f : Field} {s : Shape} {addr v : Nat} {c : Content}

theorem sound_of_reg {base : Nat} (hk : f.kind = .reg base) (hf : f.wellPlaced s = true)
    (hv : v < span f.width) (h : f.content? s addr v = some c) : c.Sound s := by
  have hcontent : f.content? s addr v =
      (s.argSlot? f.arg).bind fun n => s.slots[n]?.bind (Slot.regContent? n (v + base)) := by
    simp [content?, hk]
  rw [hcontent] at h
  obtain ⟨n, hn, h⟩ := Option.bind_eq_some_iff.1 h
  obtain ⟨slot, hslot, h⟩ := Option.bind_eq_some_iff.1 h
  have hslotAt : s.slotAt? f.arg = some slot := Option.bind_eq_some_iff.2 ⟨n, hn, hslot⟩
  rw [wellPlaced, hk] at hf
  dsimp only at hf
  rw [hslotAt] at hf
  by_cases hview : slot = .accView
  · subst hview
    have hbound : span f.width + base ≤ RegClass.acc.count := of_decide_eq_true hf
    cases h
    exact (by omega : v + base < RegClass.acc.count)
  · obtain ⟨cls, hcls⟩ : ∃ cls, slot.regClass? = some cls := by
      cases slot <;> first | exact absurd rfl hview | exact Option.isSome_iff_exists.1 hf
    rw [Slot.regContent?_of_regClass? hcls] at h
    split at h
    · next hlt =>
      cases h
      obtain ⟨haccepts, hread⟩ := Slot.accepts_of_regClass? hcls (v + base)
      exact ⟨slot, hslot, hread, haccepts, Operand.usable_reg hlt⟩
    · cases h

/-- What a field tells can stand in an operation. -/
theorem sound_of_content? (hf : f.wellPlaced s = true) (hv : v < span f.width)
    (h : f.content? s addr v = some c) : c.Sound s := by
  have hbind {α : Type} {x : Option α} {g : α → Operand} {slot : Slot}
      (hslot : s.slotAt? f.arg = some slot) (hread : slot.isRead = true)
      (hg : ∀ a, x = some a → slot.accepts (g a) = true ∧ (g a).Usable)
      (h : (x.bind fun a => s.operandAt? f.arg (g a)) = some c) : c.Sound s := by
    obtain ⟨a, ha, h⟩ := Option.bind_eq_some_iff.1 h
    exact Shape.sound_of_operandAt? hslot hread (hg a ha).1 (hg a ha).2 h
  have hmap {α : Type} {x : Option α} {g : α → Content} (hg : ∀ a, (g a).Sound s)
      (h : x.map g = some c) : c.Sound s := by
    obtain ⟨a, -, rfl⟩ := Option.map_eq_some_iff.1 h
    exact hg a
  obtain ⟨kind, role, arg, width⟩ := f
  cases kind with
  | opcode | pad | cond => cases h
  | reg base => exact sound_of_reg rfl hf hv h
  | accPair =>
    obtain ⟨hslot, hbound⟩ : s.slotAt? arg = some .acc ∧ span width * 2 ≤ RegClass.acc.count := by
      simpa [wellPlaced] using hf
    have hlt : v * 2 < RegClass.acc.count := by
      dsimp only at hv
      omega
    exact Shape.sound_of_operandAt? hslot rfl rfl (Operand.usable_reg hlt) h
  | dag =>
    obtain ⟨hslot, hwidth⟩ : s.slotAt? arg = some .address ∧ width = 5 := by
      simpa [wellPlaced] using hf
    refine hbind hslot rfl (fun cls hcls => ?_) h
    obtain ⟨haddress, hcount⟩ := RegClass.isAddress_of_ofAddressCode? hcls
    have hlt : v % 8 < cls.count := by
      rw [hcount]
      exact Nat.mod_lt v (by decide)
    exact ⟨haddress, Operand.usable_reg hlt⟩
  | sys =>
    obtain ⟨hslot, -⟩ : s.slotAt? arg = some .sys ∧ 2 ≤ width := by simpa [wellPlaced] using hf
    exact hbind hslot rfl (fun _ _ => ⟨rfl, rfl, fun _ h => by cases h⟩) h
  | imm sign =>
    obtain ⟨hslot, -⟩ : s.slotAt? arg = some .imm ∧ 0 < width := by simpa [wellPlaced] using hf
    cases sign <;> exact Shape.sound_of_operandAt? hslot rfl rfl ⟨rfl, fun _ h => by cases h⟩ h
  | pcRel =>
    obtain ⟨hslot, -⟩ : s.slotAt? arg = some .target ∧ 0 < width := by simpa [wellPlaced] using hf
    exact hbind hslot rfl (fun _ _ => ⟨rfl, rfl, fun _ h => by cases h⟩) h
  | loopEnd =>
    obtain ⟨hslot, -⟩ : s.slotAt? arg = some .target ∧ 0 < width := by simpa [wellPlaced] using hf
    exact Shape.sound_of_operandAt? hslot rfl rfl ⟨rfl, fun _ h => by cases h⟩ h
  | modeBit =>
    obtain ⟨hslot, -⟩ : s.slotAt? arg = some .modeBit ∧ 2 ≤ width := by simpa [wellPlaced] using hf
    exact hbind hslot rfl (fun _ _ => ⟨rfl, rfl, fun _ h => by cases h⟩) h
  | termCond =>
    obtain ⟨hslot, -⟩ : s.slotAt? arg = some .cond ∧ 5 ≤ width := by simpa [wellPlaced] using hf
    exact hbind hslot rfl (fun _ _ => ⟨rfl, rfl, fun _ h => by cases h⟩) h
  | index base =>
    have hbound : span width + base ≤ RegClass.index.count := by
      simp [wellPlaced] at hf
      exact hf.2
    cases h
    dsimp only at hv
    exact (by omega : v + base < RegClass.index.count)
  | modify base =>
    have hbound : span width + base ≤ RegClass.modify.count := by
      simp [wellPlaced] at hf
      exact hf.2
    cases h
    dsimp only at hv
    exact (by omega : v + base < RegClass.modify.count)
  | addr | pre | step | conj => cases h; trivial
  | part => exact hmap (g := .view) (fun _ => trivial) h
  | mode => exact hmap (g := .mode) (fun _ => trivial) h
  | subOp => exact hmap (g := .opcode) (fun _ => trivial) h

end Field

theorem content?_of_ownContents? {addr : Nat} {role : Role} {s : Shape} {values : List (Field × Nat)}
    {cs : List Content} (h : ownContents? addr role s values = some cs) {x : Field × Nat}
    (hx : x ∈ values) (hown : x.1.isOwn = true) (hrole : x.1.role = role) :
    ∃ c, x.1.content? s addr x.2 = some c := by
  induction values generalizing cs with
  | nil => cases hx
  | cons y rest ih =>
    rw [ownContents?] at h
    split at h
    · obtain ⟨c, hc, h⟩ := Option.bind_eq_some_iff.1 h
      obtain ⟨cs, hcs, -⟩ := Option.bind_eq_some_iff.1 h
      rcases List.mem_cons.1 hx with rfl | hx
      · exact ⟨c, hc⟩
      · exact ih hcs hx
    · next hno =>
      rcases List.mem_cons.1 hx with rfl | hx
      · exact absurd ⟨hown, hrole⟩ hno
      · exact ih h hx

/-- The operation as the draft says it, given the instruction that it finishes as. -/
def Draft.member (d : Draft) (i : Instruction) : Member :=
  ⟨d.role, i, d.shape, if d.shape.needsMode then some (d.mode.getD .ss) else none⟩

/-- What the draft has for its slots are the operands of the operation. -/
def Draft.Supplies (d : Draft) (m : Member) : Prop :=
  ∀ (n : Nat) (slot : Slot) (read : Option Operand), d.shape.slots[n]? = some slot → d.operands[n]? = some read →
    d.operand? slot read = m.nth? n

/-- The draft says all that its shape needs, and what can stand there. -/
structure Draft.Ready (d : Draft) : Prop where
  length : d.operands.length = d.shape.slots.length
  has : ∀ a ∈ d.shape.aspects, ∃ c : Content, c.aspect = a ∧ d.Has c ∧ c.Sound d.shape

namespace Draft.Ready

variable {d : Draft} {n : Nat} {slot : Slot} {read : Option Operand}

theorem acc_eq (h : d.Ready) (ha : .acc ∈ d.shape.aspects) :
    ∃ a < RegClass.acc.count, d.acc = some a := by
  obtain ⟨c, hc, hd, hlt⟩ := h.has .acc ha
  cases c <;> cases hc
  exact ⟨_, hlt, hd⟩

theorem view_eq (h : d.Ready) (ha : .view ∈ d.shape.aspects) : ∃ v, d.view = some v := by
  obtain ⟨c, hc, hd, -⟩ := h.has .view ha
  cases c <;> cases hc
  exact ⟨_, hd⟩

theorem addr_eq (h : d.Ready) (ha : .addr ∈ d.shape.aspects) : ∃ a, d.addr = some a := by
  obtain ⟨c, hc, hd, -⟩ := h.has .addr ha
  cases c <;> cases hc
  exact ⟨_, hd⟩

theorem index_eq (h : d.Ready) (ha : .index ∈ d.shape.aspects) :
    ∃ i < RegClass.index.count, d.index = some i := by
  obtain ⟨c, hc, hd, hlt⟩ := h.has .index ha
  cases c <;> cases hc
  exact ⟨_, hlt, hd⟩

theorem modify_eq (h : d.Ready) (ha : .modify ∈ d.shape.aspects) :
    ∃ n < RegClass.modify.count, d.modify = some n := by
  obtain ⟨c, hc, hd, hlt⟩ := h.has .modify ha
  cases c <;> cases hc
  exact ⟨_, hlt, hd⟩

theorem step_eq (h : d.Ready) (ha : .step ∈ d.shape.aspects) : ∃ v, d.step = some v := by
  obtain ⟨c, hc, hd, -⟩ := h.has .step ha
  cases c <;> cases hc
  exact ⟨_, hd⟩

theorem operand_eq (h : d.Ready) (ha : .operand n ∈ d.shape.aspects) :
    ∃ o slot, d.operands[n]? = some (some o) ∧ d.shape.slots[n]? = some slot ∧
      slot.isRead = true ∧ slot.accepts o = true ∧ o.Usable := by
  obtain ⟨c, hc, hd, hsound⟩ := h.has (.operand n) ha
  cases c <;> cases hc
  obtain ⟨slot, hslot, hread, haccepts, husable⟩ := hsound
  exact ⟨_, slot, hd, hslot, hread, haccepts, husable⟩

/-- A ready draft has an operand for each slot. -/
theorem exists_operand? (h : d.Ready) (hslot : d.shape.slots[n]? = some slot)
    (hread : d.operands[n]? = some read) :
    ∃ o, d.operand? slot read = some o ∧ slot.accepts o = true ∧ o.Usable := by
  have haspect {a : Aspect} (ha : a ∈ slot.aspects n) : a ∈ d.shape.aspects :=
    Shape.mem_aspects hslot ha
  cases slot with
  | accView =>
    obtain ⟨a, hlt, hacc⟩ := h.acc_eq (haspect List.mem_cons_self)
    obtain ⟨view, hview⟩ := h.view_eq (haspect (List.mem_cons_of_mem _ List.mem_cons_self))
    refine ⟨.accView a view, ?_, rfl, decide_eq_true hlt, fun _ h => by cases h⟩
    rw [operand?, hacc, hview]
    rfl
  | sts => exact ⟨.key .sts, rfl, rfl, rfl, fun _ h => by cases h⟩
  | memAbs =>
    obtain ⟨a, haddr⟩ := h.addr_eq (haspect List.mem_cons_self)
    refine ⟨.mem ⟨.data, .direct a⟩, ?_, rfl, rfl, fun _ h => by cases h⟩
    rw [operand?, addrMode?, haddr]
    rfl
  | memModify =>
    obtain ⟨i, hi, hindex⟩ := h.index_eq (haspect List.mem_cons_self)
    obtain ⟨m, hm, hmodify⟩ := h.modify_eq (haspect (List.mem_cons_of_mem _ List.mem_cons_self))
    have hinFile : (decide (i < RegClass.index.count) && decide (m < RegClass.modify.count)) = true := by
      simp [hi, hm]
    cases hpre : d.pre with
    | true =>
      refine ⟨.mem ⟨.data, .pre m i⟩, ?_, rfl, hinFile, fun _ h => by cases h⟩
      simp [operand?, addrMode?, hpre, hindex, hmodify]
    | false =>
      refine ⟨.mem ⟨.data, .post i m⟩, ?_, rfl, hinFile, fun _ h => by cases h⟩
      simp [operand?, addrMode?, hpre, hindex, hmodify]
  | memImm =>
    obtain ⟨i, hi, hindex⟩ := h.index_eq (haspect List.mem_cons_self)
    obtain ⟨v, hstep⟩ := h.step_eq (haspect (List.mem_cons_of_mem _ List.mem_cons_self))
    cases hpre : d.pre with
    | true =>
      refine ⟨.mem ⟨.data, .preImm v i⟩, ?_, rfl, decide_eq_true hi, fun _ h => by cases h⟩
      simp [operand?, addrMode?, hpre, hindex, hstep]
    | false =>
      refine ⟨.mem ⟨.data, .postImm i v⟩, ?_, rfl, decide_eq_true hi, fun _ h => by cases h⟩
      simp [operand?, addrMode?, hpre, hindex, hstep]
  | _ =>
    obtain ⟨o, slot', hd, hslot', -, haccepts, husable⟩ := h.operand_eq (haspect List.mem_cons_self)
    cases hslot.symm.trans hslot'
    cases hread.symm.trans hd
    exact ⟨o, rfl, haccepts, husable⟩

/-- What a ready draft finishes with stands in its slots, which accept it. -/
theorem operands_of_finish (h : d.Ready) {os : List Operand}
    (hos : (d.shape.slots.zip d.operands).mapM (fun x => d.operand? x.1 x.2) = some os) :
    List.Forall₂ (fun slot o => Slot.accepts slot o = true ∧ o.Usable) d.shape.slots os ∧
      ∀ (n : Nat) (slot : Slot) (read : Option Operand), d.shape.slots[n]? = some slot →
        d.operands[n]? = some read → d.operand? slot read = os[n]? := by
  rw [mapM_eq_some_iff, List.forall₂_iff_get] at hos
  obtain ⟨hlen, hos⟩ := hos
  rw [List.length_zip, h.length, Nat.min_self] at hlen
  have hget {n : Nat} {slot : Slot} {read : Option Operand} (hslot : d.shape.slots[n]? = some slot)
      (hread : d.operands[n]? = some read) :
      ∃ o, os[n]? = some o ∧ d.operand? slot read = some o ∧ slot.accepts o = true ∧ o.Usable := by
    obtain ⟨o, ho, haccepts, husable⟩ := h.exists_operand? hslot hread
    obtain ⟨hn, rfl⟩ := List.getElem?_eq_some_iff.1 hslot
    obtain ⟨hn', rfl⟩ := List.getElem?_eq_some_iff.1 hread
    have hon := hos n (by rw [List.length_zip]; omega) (by omega)
    simp only [List.get_eq_getElem, List.getElem_zip, ho] at hon
    exact ⟨o, by rw [List.getElem?_eq_getElem (by omega), hon], ho, haccepts, husable⟩
  refine ⟨List.forall₂_iff_get.2 ⟨hlen, fun n hn hn' => ?_⟩, fun n slot read hslot hread => ?_⟩
  · obtain ⟨o, ho, -, haccepted⟩ := hget (List.getElem?_eq_getElem hn)
      (List.getElem?_eq_getElem (h.length.symm ▸ hn : n < d.operands.length))
    cases (List.getElem?_eq_getElem hn').symm.trans ho
    exact haccepted
  · obtain ⟨o, ho, hd, -⟩ := hget hslot hread
    rw [hd, ho]

/-- What a ready draft finishes as is an operation of its shape. -/
theorem classified_member (h : d.Ready) {i j : Instruction} {c : Condition}
    (hfinish : d.finish? c = some j) (hi : i.operands = j.operands) :
    (d.member i).Classified ∧ d.Supplies (d.member i) := by
  obtain ⟨os, hos, hj⟩ := Option.bind_eq_some_iff.1 hfinish
  cases hj
  obtain ⟨haccepted, hsupplies⟩ := h.operands_of_finish hos
  obtain ⟨hplain, hmodes⟩ : i.plain = os ∧ i.modes = (d.member i).mode.toList.map fun k => .key (.mul k) := by
    refine Instruction.plain_and_modes_eq (hi.trans ?_) (fun o ho => ?_) fun o ho => ?_
    · dsimp only [member]
      cases d.shape.needsMode <;> rfl
    · obtain ⟨slot, -, haccepts, -⟩ := exists_left_of_forall₂ haccepted ho
      exact Slot.not_isMulMode_of_accepts haccepts
    · obtain ⟨k, -, rfl⟩ := List.mem_map.1 ho
      rfl
  have husable : ∀ o ∈ i.plain, o.Usable := by
    intro o ho
    obtain ⟨slot, -, -, husable⟩ := exists_left_of_forall₂ haccepted (hplain ▸ ho)
    exact husable
  have hfits : d.shape.fits i.plain = true := by
    rw [hplain, Shape.fits_iff]
    exact haccepted.imp fun slot o h => h.1
  refine ⟨⟨Shape.classify_eq_ok_iff.2 ⟨hfits, hmodes, Instruction.usable_of_plain husable⟩, ?_⟩,
    fun n slot read hslot hread => ?_⟩
  · dsimp only [member]
    cases d.shape.needsMode <;> rfl
  · have hnth : (d.member i).nth? n = os[n]? := by rw [← hplain]; rfl
    rw [hnth]
    exact hsupplies n slot read hslot hread

/-- The reference of a memory slot is the address that the draft has. -/
theorem exists_mem? (h : d.Ready) {i : Instruction} (hnth : d.Supplies (d.member i))
    (hslot : d.shape.slots[n]? = some slot) (hmem : slot.isMem = true) :
    ∃ mode, d.addrMode? slot = some mode ∧ (d.member i).mem? = some ⟨.data, mode⟩ := by
  have hn : n < d.operands.length := h.length ▸ (List.getElem?_eq_some_iff.1 hslot).1
  have hread := List.getElem?_eq_getElem hn
  obtain ⟨o, ho, -⟩ := h.exists_operand? hslot hread
  have hoperand : d.operand? slot d.operands[n] = (d.addrMode? slot).map fun mode => .mem ⟨.data, mode⟩ := by
    cases slot with
    | memAbs | memModify | memImm =>
      dsimp only [operand?]
      generalize d.addrMode? _ = mode
      cases mode <;> rfl
    | _ => cases hmem
  obtain ⟨mode, hmode, rfl⟩ := Option.map_eq_some_iff.1 (hoperand.symm.trans ho)
  refine ⟨mode, hmode, ?_⟩
  exact Draft.Shows.mem?_of_slot (m := d.member i) hslot hmem ((hnth n slot _ hslot hread).symm.trans ho)

/-- The address that a draft has, by the slot that asks for it. -/
theorem addrMode?_cases {mode : AddrMode} (h : d.addrMode? slot = some mode) :
    (slot = .memAbs ∧ ∃ a, d.addr = some a ∧ mode = .direct a) ∨
      (slot = .memModify ∧ ∃ i n, d.index = some i ∧ d.modify = some n ∧
        mode = if d.pre then .pre n i else .post i n) ∨
      (slot = .memImm ∧ ∃ i v, d.index = some i ∧ d.step = some v ∧
        mode = if d.pre then .preImm v i else .postImm i v) := by
  cases slot with
  | memAbs =>
    obtain ⟨a, ha, rfl⟩ := Option.map_eq_some_iff.1 h
    exact .inl ⟨rfl, a, ha, rfl⟩
  | memModify =>
    refine .inr (.inl ⟨rfl, ?_⟩)
    cases hpre : d.pre <;> simp [addrMode?, hpre, Option.bind_eq_some_iff] at h
    · obtain ⟨i, hi, n, hn, rfl⟩ := h
      exact ⟨i, n, hi, hn, rfl⟩
    · obtain ⟨n, hn, i, hi, rfl⟩ := h
      exact ⟨i, n, hi, hn, rfl⟩
  | memImm =>
    refine .inr (.inr ⟨rfl, ?_⟩)
    cases hpre : d.pre <;> simp [addrMode?, hpre, Option.bind_eq_some_iff] at h
    · obtain ⟨i, hi, v, hv, rfl⟩ := h
      exact ⟨i, v, hi, hv, rfl⟩
    · obtain ⟨v, hv, i, hi, rfl⟩ := h
      exact ⟨i, v, hi, hv, rfl⟩
  | _ => cases h

theorem index?_of_addrMode? {mode : AddrMode} (h : d.addrMode? slot = some mode) (ha : .index ∈ slot.aspects n) :
    mode.index? = d.index := by
  rcases addrMode?_cases h with ⟨rfl, -⟩ | ⟨-, i, m, hi, -, rfl⟩ | ⟨-, i, v, hi, -, rfl⟩
  · simp [Slot.aspects] at ha
  · cases d.pre <;> exact hi.symm
  · cases d.pre <;> exact hi.symm

theorem modify?_of_addrMode? {mode : AddrMode} (h : d.addrMode? slot = some mode) (ha : .modify ∈ slot.aspects n) :
    mode.modify? = d.modify := by
  rcases addrMode?_cases h with ⟨rfl, -⟩ | ⟨-, i, m, -, hm, rfl⟩ | ⟨rfl, -⟩
  · simp [Slot.aspects] at ha
  · cases d.pre <;> exact hm.symm
  · simp [Slot.aspects] at ha

theorem step?_of_addrMode? {mode : AddrMode} (h : d.addrMode? slot = some mode) (ha : .step ∈ slot.aspects n) :
    mode.step? = d.step := by
  rcases addrMode?_cases h with ⟨rfl, -⟩ | ⟨rfl, -⟩ | ⟨-, i, v, -, hv, rfl⟩
  · simp [Slot.aspects] at ha
  · simp [Slot.aspects] at ha
  · cases d.pre <;> exact hv.symm

theorem eq_direct_of_addrMode? {mode : AddrMode} (h : d.addrMode? slot = some mode) (ha : .addr ∈ slot.aspects n)
    {a : Nat} (haddr : d.addr = some a) : mode = .direct a := by
  rcases addrMode?_cases h with ⟨-, b, hb, rfl⟩ | ⟨rfl, -⟩ | ⟨rfl, -⟩
  · cases haddr.symm.trans hb
    rfl
  · simp [Slot.aspects] at ha
  · simp [Slot.aspects] at ha

/-- What a ready draft has, the operation tells. -/
theorem tells_of_has (h : d.Ready) {i : Instruction} (hnth : d.Supplies (d.member i))
    {c : Content} (hd : d.Has c) (ha : c.aspect ∈ d.shape.aspects) : (d.member i).Tells c := by
  by_cases hmode : c.aspect = .mode
  · -- the mode is the only aspect that stands in no slot
    cases c <;> cases hmode
    have hneeds := Shape.needsMode_of_mode_mem ha
    have hk : d.mode = some _ := hd
    simp [Member.Tells, Member.mulMode, member, hneeds, hk]
  obtain ⟨n, slot, hslot, haspect⟩ := Shape.exists_slot_of_mem_aspects ha hmode
  obtain ⟨read, hdn⟩ : ∃ read, d.operands[n]? = some read :=
    ⟨_, List.getElem?_eq_getElem (h.length ▸ (List.getElem?_eq_some_iff.1 hslot).1)⟩
  have hn := hnth n slot read hslot hdn
  cases c with
  | operand k o =>
    obtain ⟨rfl, hslotRead⟩ : k = n ∧ d.operand? slot read = read := by
      cases slot <;> simp [Content.aspect, Slot.aspects] at haspect <;> exact ⟨haspect, rfl⟩
    cases hdn.symm.trans hd
    exact hn.symm.trans hslotRead
  | acc a =>
    obtain rfl := Slot.eq_accView_of_mem_aspects (.inl rfl) haspect
    obtain ⟨view, hview⟩ := h.view_eq (Shape.mem_aspects hslot (List.mem_cons_of_mem _ List.mem_cons_self))
    have hacc : d.acc = some a := hd
    refine ⟨n, view, hslot, hn.symm.trans ?_⟩
    rw [operand?, hacc, hview]
    rfl
  | view v =>
    obtain rfl := Slot.eq_accView_of_mem_aspects (.inr rfl) haspect
    obtain ⟨a, -, hacc⟩ := h.acc_eq (Shape.mem_aspects hslot List.mem_cons_self)
    have hview : d.view = some v := hd
    refine ⟨n, a, hslot, hn.symm.trans ?_⟩
    rw [operand?, hacc, hview]
    rfl
  | index k =>
    obtain ⟨mode, hmode, hr⟩ := h.exists_mem? hnth hslot (Slot.isMem_of_mem_aspects (a := .index) (by decide) haspect)
    exact ⟨_, hr, (index?_of_addrMode? hmode haspect).trans hd⟩
  | modify k =>
    obtain ⟨mode, hmode, hr⟩ := h.exists_mem? hnth hslot (Slot.isMem_of_mem_aspects (a := .modify) (by decide) haspect)
    exact ⟨_, hr, (modify?_of_addrMode? hmode haspect).trans hd⟩
  | step v =>
    obtain ⟨mode, hmode, hr⟩ := h.exists_mem? hnth hslot (Slot.isMem_of_mem_aspects (a := .step) (by decide) haspect)
    exact ⟨_, hr, (step?_of_addrMode? hmode haspect).trans hd⟩
  | addr a =>
    obtain ⟨mode, hmode, hr⟩ := h.exists_mem? hnth hslot (Slot.isMem_of_mem_aspects (a := .addr) (by decide) haspect)
    exact ⟨_, hr, eq_direct_of_addrMode? hmode haspect hd⟩
  | mode k => exact absurd rfl hmode
  | pre | conj | opcode => cases slot <;> simp [Content.aspect, Slot.aspects] at haspect

theorem tells_pre (h : d.Ready) {i : Instruction} (hnth : d.Supplies (d.member i))
    (ha : .index ∈ d.shape.aspects) : (d.member i).Tells (.pre d.pre) := by
  obtain ⟨n, slot, hslot, haspect⟩ := Shape.exists_slot_of_mem_aspects ha Aspect.noConfusion
  obtain ⟨mode, hmode, hr⟩ := h.exists_mem? hnth hslot (Slot.isMem_of_mem_aspects (by decide) haspect)
  refine ⟨_, hr, ?_⟩
  rcases addrMode?_cases hmode with ⟨rfl, -⟩ | ⟨-, i, n, -, -, rfl⟩ | ⟨-, i, v, -, -, rfl⟩
  · simp [Slot.aspects] at haspect
  · cases hpre : d.pre <;> simp [AddrMode.isPre]
  · cases hpre : d.pre <;> simp [AddrMode.isPre]

end Draft.Ready

theorem Draft.finish?_fields {d : Draft} {c : Condition} {i : Instruction} (h : d.finish? c = some i) :
    i.opcode = d.opcode ∧ i.conjugate = d.conjugate ∧ i.condition = some c := by
  obtain ⟨os, -, hi⟩ := Option.bind_eq_some_iff.1 h
  cases hi
  exact ⟨rfl, rfl, rfl⟩

/-- The operations that a coded part can play. -/
def Role.coded : Role → List Opcode
  | alu => bundledAlu
  | mac => bundledMac
  | shf => bundledShift
  | _ => []

theorem FormatId.mem_coded_of_subOp (f : FormatId) {fd : Field} (hfd : fd ∈ f.layout)
    {table : List Opcode} (hk : fd.kind = .subOp table) {op : Opcode} (hop : op ∈ table) :
    op ∈ fd.role.coded := by
  have hall : ∀ f ∈ all, ∀ fd ∈ f.layout, (match fd.kind with
      | .subOp table => table.all (· ∈ fd.role.coded)
      | _ => true) = true := by decide +kernel
  have h := hall f (mem_all f) fd hfd
  rw [hk] at h
  exact of_decide_eq_true (List.all_eq_true.1 h op hop)

theorem Field.subOp_of_content? {f : Field} {s : Shape} {addr v : Nat} {op : Opcode}
    (h : f.content? s addr v = some (.opcode op)) : ∃ table, f.kind = .subOp table ∧ op ∈ table := by
  have ha := Field.aspect_of_content? h
  obtain ⟨kind, role, arg, width⟩ := f
  cases kind with
  | subOp table =>
    obtain ⟨op', hop, ⟨⟩⟩ := Option.map_eq_some_iff.1 h
    exact ⟨table, rfl, List.mem_of_getElem? hop⟩
  | opcode | pad | cond => cases h
  | reg base =>
    dsimp only [Field.aspect] at ha
    split at ha <;> cases ha
  | _ => cases ha

/-- The operation plays a part, and tells what the values of the word's fields say about it. -/
structure Member.Plays (m : Member) (part : FormPart) (addr : Nat) (values : List (Field × Nat)) :
    Prop where
  classified : m.Classified
  takes : part.Takes m
  tells : ∀ x ∈ values, x.1.isOwn = true → x.1.role = part.role →
    ∃ c, x.1.content? part.shape addr x.2 = some c ∧ m.Tells c
  coded : part.role.isCoded = true → m.opcode ∈ part.role.coded
  post : part.role.isTransfer = true → ∃ i n, m.mem? = some ⟨.data, .post i n⟩

namespace FormPart

theorem memModify_of_isTransfer : ∀ t ∈ wordForms, ∀ part ∈ t.parts, part.role.isTransfer = true →
    .memModify ∈ part.shape.slots := by
  decide +kernel

section Read

variable {t : WordForm} {part : FormPart} {addr : Nat} {values : List (Field × Nat)} {cs : List Content}
  {i j : Instruction}

variable (ht : t ∈ wordForms) (hpart : part ∈ t.parts) (hvalues : values.map Prod.fst = t.format.layout)
  (hcs : ownContents? addr part.role part.shape values = some cs) (hlt : ∀ x ∈ values, x.2 < span x.1.width)

include ht hpart hvalues hcs hlt

/-- The fields of a part tell all that its shape needs. -/
theorem ready_read : (part.read cs).Ready := by
  have haspects := map_aspect_eq hvalues hcs
  refine ⟨length_operands_read, fun a ha => ?_⟩
  rw [shape_read] at ha ⊢
  obtain ⟨c, hc, hca⟩ : ∃ c ∈ cs, c.aspect = a := List.mem_map.1 (haspects ▸ covers t ht part hpart a ha)
  obtain ⟨x, hx, ⟨-, hxrole⟩, hxc⟩ := (mem_ownContents? hcs).1 hc
  have hf : x.1 ∈ t.format.layout := hvalues ▸ List.mem_map_of_mem hx
  exact ⟨c, hca, has_read ht hpart haspects c hc,
    Field.sound_of_content? (WordForm.wellPlaced t ht part hpart x.1 hf hxrole) (hlt x hx) hxc⟩

/-- What the fields of a part tell, the operation tells that the draft finishes as. -/
theorem tells_read {cond : Condition} (hfinish : (part.read cs).finish? cond = some j) (hopcode : i.opcode = j.opcode)
    (hoperands : i.operands = j.operands) (hconj : i.conjugate = j.conjugate) :
    ∀ c ∈ cs, ((part.read cs).member i).Tells c := by
  have hready := ready_read ht hpart hvalues hcs hlt
  have haspects := map_aspect_eq hvalues hcs
  obtain ⟨-, hnth⟩ := hready.classified_member hfinish hoperands
  obtain ⟨hop, hcj, -⟩ := Draft.finish?_fields hfinish
  intro c hc
  have hhas := has_read ht hpart haspects c hc
  have ha : c.aspect ∈ part.aspects t.format := haspects ▸ List.mem_map_of_mem hc
  rcases mem_aspects t ht part hpart _ ha with hneeded | hbeside
  · exact hready.tells_of_has hnth hhas (shape_read ▸ hneeded)
  · -- opcode, conjugation and order of the step stand in no slot
    cases c <;> simp only [Content.aspect, List.mem_cons, List.not_mem_nil, reduceCtorEq, or_false,
      or_true] at hbeside
    · obtain rfl := hhas
      exact hready.tells_pre hnth (shape_read ▸ ((pre_mem_aspects t ht part hpart).1 ha).1)
    · exact (hconj.trans hcj).trans hhas
    · exact (hopcode.trans hop).trans hhas

end Read

/-- An instruction read off a word, and any with the same operands, plays the part that it was read
as. -/
theorem Reads.exists_plays {t : WordForm} (ht : t ∈ wordForms) {part : FormPart} (hpart : part ∈ t.parts)
    {addr : Nat} {values : List (Field × Nat)} (hvalues : values.map Prod.fst = t.format.layout)
    (hlt : ∀ x ∈ values, x.2 < span x.1.width) {c : Condition} {i j : Instruction}
    (h : part.Reads addr values c j) (hopcode : i.opcode = j.opcode) (hoperands : i.operands = j.operands)
    (hconj : i.conjugate = j.conjugate) :
    ∃ m : Member, m.instr = i ∧ m.Plays part addr values := by
  obtain ⟨d, ⟨-, cs, hcs, (hd : d = part.read cs)⟩, hfinish⟩ := h
  subst hd
  have haspects := map_aspect_eq hvalues hcs
  have hready := ready_read ht hpart hvalues hcs hlt
  have htells := tells_read ht hpart hvalues hcs hlt hfinish hopcode hoperands hconj
  obtain ⟨hclass, hnth⟩ := hready.classified_member hfinish hoperands
  obtain ⟨hop, -⟩ := Draft.finish?_fields hfinish
  refine ⟨(part.read cs).member i, rfl, hclass, ⟨role_read, shape_read, fun hcoded => ?_⟩, fun x hx hown hxrole => ?_,
    fun hcoded => ?_, fun htransfer => ?_⟩
  · have hne : .opcode ∉ part.aspects t.format := fun ha => by
      rw [opcode_mem_aspects t ht part hpart, hcoded] at ha
      cases ha
    have hstart : (part.read cs).Has (.opcode part.opcode) := has_read_of_notMem haspects hne rfl
    exact (hopcode.trans hop).trans hstart
  · obtain ⟨c, hc⟩ := content?_of_ownContents? hcs hx hown hxrole
    exact ⟨c, hc, htells c ((mem_ownContents? hcs).2 ⟨x, hx, ⟨hown, hxrole⟩, hc⟩)⟩
  · obtain ⟨c, hc, hca⟩ : ∃ c ∈ cs, c.aspect = .opcode :=
      List.mem_map.1 (haspects ▸ (opcode_mem_aspects t ht part hpart).2 hcoded)
    obtain ⟨x, hx, ⟨-, (hxrole : x.1.role = part.role)⟩, hxc⟩ := (mem_ownContents? hcs).1 hc
    have hf : x.1 ∈ t.format.layout := hvalues ▸ List.mem_map_of_mem hx
    cases c <;> cases hca
    obtain ⟨table, hk, hop⟩ := Field.subOp_of_content? hxc
    obtain rfl : ((part.read cs).member i).opcode = _ := htells _ hc
    exact hxrole ▸ FormatId.mem_coded_of_subOp _ hf hk hop
  · obtain ⟨n, hn, hslot⟩ := List.getElem_of_mem (memModify_of_isTransfer t ht part hpart htransfer)
    have hslot' : (part.read cs).shape.slots[n]? = some .memModify := by
      rw [shape_read, List.getElem?_eq_getElem hn, hslot]
    have hne : .pre ∉ part.aspects t.format := fun ha => by
      have := ((pre_mem_aspects t ht part hpart).1 ha).2
      rw [htransfer] at this
      cases this
    have hpre : (part.read cs).pre = false :=
      (has_read_of_notMem haspects hne rfl : (part.read cs).Has (.pre false))
    obtain ⟨mode, hmode, hr⟩ := hready.exists_mem? hnth hslot' rfl
    rcases Draft.Ready.addrMode?_cases hmode with ⟨⟨⟩, -⟩ | ⟨-, i, n, -, -, rfl⟩ | ⟨⟨⟩, -⟩
    rw [hpre] at hr
    exact ⟨i, n, hr⟩

end FormPart

end QuadDsp
