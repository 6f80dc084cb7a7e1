import QuadDsp.Program.Builder
import QuadDsp.Proofs.Instruction.Respell
import QuadDsp.Proofs.Program.Resolving
import QuadDsp.Proofs.Word.Alike
import QuadDsp.Proofs.Word.Reencode

/-! # Decoded words as source lines

What a word decodes to has no names, the reader of operands takes all its numbers, and every operation has
the condition of the word (`Decoded.spelled`). So its text is a source line, which a builder places at the
address of the word (`Decoded.readLine_text`); resolved, the line is the same word, and it assembles to the
word it was decoded from, padding aside (`Decoded.assemble_text`). -/

namespace QuadDsp

open Text

/-! ### Numbers off a word -/

/-- The reader takes the numbers of the operand; it has no label. -/
def Operand.Numbered : Operand → Prop
  | .imm v => v.natAbs < span 63
  | .target (.abs a) => a < span 32
  | .target (.label _) => False
  | _ => True

/-- The reader takes the numbers of the content. -/
def Content.Numbered : Content → Prop
  | .operand _ o => o.Numbered
  | .step v => Fits 32 v
  | .addr a => a < span 32
  | _ => True

theorem Shape.numbered_of_operandAt? {s : Shape} {arg : Arg} {o : Operand} {c : Content}
    (h : s.operandAt? arg o = some c) (ho : o.Numbered) : c.Numbered := by
  obtain ⟨n, -, rfl⟩ := exists_of_operandAt? h
  exact ho

theorem Slot.numbered_of_regContent? {slot : Slot} {n index : Nat} {c : Content}
    (h : slot.regContent? n index = some c) : c.Numbered := by
  unfold Slot.regContent? at h
  split at h
  · cases h
    trivial
  · obtain ⟨cls, -, h⟩ := Option.bind_eq_some_iff.1 h
    split at h <;> cases h
    trivial

theorem fits_wrap_of_le {bits : Nat} (h : bits ≤ 32) (v : Int) : Fits 32 (wrap bits v) := by
  have hspan : span bits ≤ span 32 := Nat.pow_le_pow_right (by decide) h
  have hlow := Int.le_bmod (x := v) (span_pos bits)
  have hhigh := Int.bmod_lt (x := v) (span_pos bits)
  have h32 : span 32 = 4294967296 := rfl
  have h31 : span (32 - 1) = 2147483648 := rfl
  unfold Fits wrap
  omega

theorem FormatId.width_le (f : FormatId) : ∀ fd ∈ f.layout, fd.width ≤ 32 := by
  have hall : ∀ f ∈ all, ∀ fd ∈ f.layout, fd.width ≤ 32 := by decide +kernel
  exact hall f (mem_all f)

theorem Field.numbered_of_content? {f : Field} (hwidth : f.width ≤ 32) {s : Shape} {addr v : Nat} {c : Content}
    (hv : v < span f.width) (h : f.content? s addr v = some c) : c.Numbered := by
  have hbind {α : Type} {x : Option α} {g : α → Operand} (h : (x.bind fun a => s.operandAt? f.arg (g a)) = some c)
      (hg : ∀ a, x = some a → (g a).Numbered) : c.Numbered := by
    obtain ⟨a, ha, h⟩ := Option.bind_eq_some_iff.1 h
    exact Shape.numbered_of_operandAt? h (hg a ha)
  have hspan : span f.width ≤ span 32 := Nat.pow_le_pow_right (by decide) hwidth
  have h32 : span 32 = 4294967296 := rfl
  have h63 : span 63 = 9223372036854775808 := rfl
  have hwrap : (wrap f.width v).natAbs < span 63 := by
    obtain ⟨hlow, hhigh⟩ := fits_wrap_of_le hwidth v
    have h31 : span (32 - 1) = 2147483648 := rfl
    omega
  obtain ⟨kind, role, arg, width⟩ := f
  cases kind with
  | opcode | pad | cond => cases h
  | reg base =>
    obtain ⟨n, -, h⟩ := Option.bind_eq_some_iff.1 h
    obtain ⟨slot, -, h⟩ := Option.bind_eq_some_iff.1 h
    exact Slot.numbered_of_regContent? h
  | accPair => exact Shape.numbered_of_operandAt? h trivial
  | dag | sys | modeBit | termCond => exact hbind h fun _ _ => trivial
  | imm sign =>
    cases sign with
    | unsigned =>
      have hlt : (v : Int).natAbs < span 63 := by
        dsimp only at hv hspan
        omega
      exact Shape.numbered_of_operandAt? h hlt
    | _ => exact Shape.numbered_of_operandAt? h hwrap
  | pcRel => exact hbind h fun a ha => (toAddr?_eq_some_iff.1 ha).2
  | loopEnd => exact Shape.numbered_of_operandAt? h (addrBehind_lt _ _)
  | addr =>
    cases h
    exact Nat.lt_of_lt_of_le hv hspan
  | step =>
    cases h
    exact fits_wrap_of_le hwidth v
  | index | modify | pre | conj =>
    cases h
    trivial
  | part | mode | subOp =>
    obtain ⟨_, -, rfl⟩ := Option.map_eq_some_iff.1 h
    trivial

/-! ### Operations off a word -/

section Plays

variable {t : WordForm} {part : FormPart} {m : Member} {word addr : Nat}

/-- What an operation must say is said by one of the fields, and its numbers are taken. -/
theorem Member.Plays.exists_told (ht : t ∈ wordForms) (hpart : part ∈ t.parts)
    (h : m.Plays part addr (wordReadings word 0 t.format.layout)) {a : Aspect} (ha : a ∈ part.shape.aspects) :
    ∃ c : Content, c.aspect = a ∧ c.Numbered ∧ m.Tells c := by
  obtain ⟨f, hf, rfl⟩ := List.mem_map.1 (FormPart.covers t ht part hpart a ha)
  obtain ⟨hmem, hown⟩ := List.mem_filter.1 hf
  obtain ⟨hown, hrole⟩ := of_decide_eq_true hown
  rw [← map_fst_wordReadings word 0 t.format.layout] at hmem
  obtain ⟨x, hx, rfl⟩ := List.mem_map.1 hmem
  obtain ⟨c, hc, htells⟩ := h.tells x hx hown hrole
  have hwidth := t.format.width_le x.1 (fst_mem_of_mem_wordReadings hx)
  exact ⟨c, Field.aspect_of_content? hc, Field.numbered_of_content? hwidth (lt_span_of_mem_wordReadings hx) hc, htells⟩

/-- The reader takes every operand of an operation off a word. -/
theorem Member.Plays.spelled (ht : t ∈ wordForms) (hpart : part ∈ t.parts)
    (h : m.Plays part addr (wordReadings word 0 t.format.layout)) {n : Nat} {slot : Slot} {o : Operand}
    (hslot : m.shape.slots[n]? = some slot) (ho : m.nth? n = some o) (haccepts : slot.accepts o = true)
    (husable : o.Usable) : o.Spelled := by
  have htold {a : Aspect} (ha : a ∈ slot.aspects n) : ∃ c : Content, c.aspect = a ∧ c.Numbered ∧ m.Tells c :=
    h.exists_told ht hpart (h.takes.shape ▸ Shape.mem_aspects hslot ha)
  have hoperand (ha : .operand n ∈ slot.aspects n) : o.Numbered := by
    obtain ⟨c, hc, hnumbered, htells⟩ := htold ha
    cases c <;> cases hc
    cases ho.symm.trans htells
    exact hnumbered
  cases o with
  | reg r => exact husable.1
  | accView a view =>
    have hlt : a < RegClass.acc.count := of_decide_eq_true husable.1
    exact hlt
  | imm v => exact hoperand (by cases slot <;> first | exact List.mem_cons_self | cases haccepts)
  | target t =>
    have hnumbered := hoperand (by cases slot <;> first | exact List.mem_cons_self | cases haccepts)
    cases t with
    | abs a => exact hnumbered
    | label => exact hnumbered
  | mem ref =>
    have href (hmem : slot.isMem = true) : m.mem? = some ref := Draft.Shows.mem?_of_slot hslot hmem ho
    have haddr (ha : .addr ∈ slot.aspects n) (hmem : slot.isMem = true) :
        ∃ a, ref.mode = .direct a ∧ a < span 32 := by
      obtain ⟨c, hc, hnumbered, htells⟩ := htold ha
      cases c <;> cases hc
      obtain ⟨ref', href', hmode⟩ := htells
      cases (href hmem).symm.trans href'
      exact ⟨_, hmode, hnumbered⟩
    have hstep (ha : .step ∈ slot.aspects n) (hmem : slot.isMem = true) :
        ∃ v, ref.mode.step? = some v ∧ Fits 32 v := by
      obtain ⟨c, hc, hnumbered, htells⟩ := htold ha
      cases c <;> cases hc
      obtain ⟨ref', href', hstep⟩ := htells
      cases (href hmem).symm.trans href'
      exact ⟨_, hstep, hnumbered⟩
    have hinFile := husable.1
    obtain ⟨space, mode⟩ := ref
    cases mode with
    | direct b =>
      obtain rfl : slot = .memAbs := by cases slot <;> first | rfl | cases haccepts
      obtain ⟨a, ha, hlt⟩ := haddr List.mem_cons_self rfl
      cases ha
      exact hlt
    | symbol name =>
      obtain rfl : slot = .memAbs := by cases slot <;> first | rfl | cases haccepts
      obtain ⟨a, ⟨⟩, -⟩ := haddr List.mem_cons_self rfl
    | post i k =>
      have hboth : (decide (i < 8) && decide (k < 8)) = true := hinFile
      simpa [Operand.Spelled, AddrMode.Spelled] using hboth
    | pre k i =>
      have hboth : (decide (i < 8) && decide (k < 8)) = true := hinFile
      simpa [Operand.Spelled, AddrMode.Spelled] using hboth
    | postImm | preImm =>
      obtain rfl : slot = .memImm := by cases slot <;> first | rfl | cases haccepts
      obtain ⟨v, hv, hfits⟩ := hstep (List.mem_cons_of_mem _ List.mem_cons_self) rfl
      cases hv
      exact ⟨of_decide_eq_true hinFile, hfits⟩
  | sys | cond | key => trivial

theorem FormPart.of_loop : ∀ t ∈ wordForms, ∀ part ∈ t.parts, part.opcode = .loop →
    part.shape = .targetCond ∧ t.format.hasCond = false := by
  decide +kernel

/-- A loop is its own form, which has no condition. -/
theorem Member.Plays.of_loop (ht : t ∈ wordForms) (hpart : part ∈ t.parts)
    (h : m.Plays part addr (wordReadings word 0 t.format.layout)) (hop : m.instr.opcode = .loop) :
    m.shape = .targetCond ∧ t.format.hasCond = false := by
  by_cases hcoded : part.role.isCoded = true
  · have hnone (role : Role) : Opcode.loop ∉ role.coded := by cases role <;> decide
    exact absurd (hop ▸ h.coded hcoded) (hnone part.role)
  · have hopcode : part.opcode = .loop := (h.takes.opcode (Bool.eq_false_iff.2 hcoded)).symm.trans hop
    obtain ⟨hshape, hcond⟩ := FormPart.of_loop t ht part hpart hopcode
    exact ⟨h.takes.shape.trans hshape, hcond⟩

/-- The reader takes the operands of an operation off a word, its mode behind them. -/
theorem Member.Plays.spelledOperands (ht : t ∈ wordForms) (hpart : part ∈ t.parts)
    (h : m.Plays part addr (wordReadings word 0 t.format.layout))
    (horder : m.instr.operands = m.instr.plain ++ m.instr.modes) :
    Instruction.SpelledOperands m.instr.operands := by
  obtain ⟨hfits, hmodes, husable⟩ := Shape.classify_eq_ok_iff.1 h.classified.classify
  rw [Shape.fits_iff] at hfits
  have hspelled : ∀ o ∈ m.instr.plain, o.Spelled ∧ o.isMulMode = false := by
    intro o ho
    obtain ⟨n, hn, rfl⟩ := List.getElem_of_mem ho
    have hlt : n < m.shape.slots.length := hfits.length_eq.symm ▸ hn
    have haccepts : m.shape.slots[n].accepts m.instr.plain[n] = true := hfits.get hlt hn
    exact ⟨h.spelled ht hpart (List.getElem?_eq_getElem hlt) (List.getElem?_eq_getElem hn) haccepts
      (husable _ (List.mem_of_mem_filter ho)), Slot.not_isMulMode_of_accepts haccepts⟩
  have hplain : ∀ o ∈ m.instr.plain, o.Plain := fun o ho => ⟨.spelled (hspelled o ho).1, (hspelled o ho).2⟩
  rw [horder, hmodes]
  cases m.mode with
  | none =>
    have hnil : m.instr.plain ++ (Option.toList none).map (fun k => Operand.key (.mul k)) = m.instr.plain :=
      List.append_nil _
    rw [hnil]
    exact ⟨.list hplain, fun o ho => (hspelled o ho).1⟩
  | some k =>
    refine ⟨.mode hplain k, fun o ho => ?_⟩
    rcases List.mem_append.1 ho with ho | ho
    · exact (hspelled o ho).1
    · rw [List.mem_singleton.1 ho]
      trivial

theorem Instruction.operands_eq_append {i : Instruction} {os ms : List Operand} (h : i.operands = os ++ ms)
    (hms : ∀ o ∈ ms, o.isMulMode = true) (hlen : i.modes.length = ms.length) : i.operands = i.plain ++ i.modes := by
  have hmodes : i.modes = os.filter Operand.isMulMode ++ ms := by
    rw [modes, h, List.filter_append, List.filter_eq_self.2 hms]
  have hos : os.filter Operand.isMulMode = [] := by
    rw [hmodes, List.length_append] at hlen
    exact List.eq_nil_of_length_eq_zero (by omega)
  have hplain : i.plain = os := by
    have hnot : ∀ o ∈ os, (!o.isMulMode) = true := by
      intro o ho
      simpa using List.filter_eq_nil_iff.1 hos o ho
    have hnone : ms.filter (fun o => !o.isMulMode) = [] :=
      List.filter_eq_nil_iff.2 fun o ho => by simp [hms o ho]
    rw [plain, h, List.filter_append, List.filter_eq_self.2 hnot, hnone, List.append_nil]
  rw [hplain, hmodes, hos, List.nil_append, h]

/-- The reader takes the operands of an instruction off a word. -/
theorem FormPart.Reads.spelledOperands (ht : t ∈ wordForms) (hpart : part ∈ t.parts)
    {c : Condition} {i : Instruction} (h : part.Reads addr (wordReadings word 0 t.format.layout) c i) :
    Instruction.SpelledOperands i.operands := by
  obtain ⟨m, rfl, hplays⟩ := h.exists_plays ht hpart (map_fst_wordReadings word 0 t.format.layout)
    (fun x hx => lt_span_of_mem_wordReadings hx) rfl rfl rfl
  obtain ⟨d, ⟨-, cs, -, (hd : d = part.read cs)⟩, hfinish⟩ := h
  have hshape : d.shape = m.shape := by rw [hd, FormPart.shape_read, hplays.takes.shape]
  obtain ⟨os, -, hos⟩ := Option.bind_eq_some_iff.1 hfinish
  have hoperands : m.instr.operands =
      os ++ if d.shape.needsMode then [Operand.key (.mul (d.mode.getD .ss))] else [] := by
    rw [← Option.some.inj hos]
  refine hplays.spelledOperands ht hpart (Instruction.operands_eq_append hoperands ?_ ?_)
  · intro o ho
    split at ho
    · rw [List.mem_singleton.1 ho]
      rfl
    · cases ho
  · obtain ⟨-, hmodes, -⟩ := Shape.classify_eq_ok_iff.1 hplays.classified.classify
    have hmode := hplays.classified.mode
    rw [hmodes, hshape, ← hmode]
    cases m.mode <;> rfl

end Plays

/-! ### The line of a word -/

/-- What a word decodes to is shown with all that the word says. -/
theorem Decoded.spelled {word addr : Nat} {d : Decoded} (haddr : addr < span addrBits)
    (h : decodeWord? word addr = some d) :
    (∀ m ∈ d.instr.members, Instruction.SpelledOperands m.operands) ∧
      (∀ m ∈ d.instr.members, m.condition = some d.instr.cond) ∧
      (d.instr.opcode = .loop → d.instr.cond = .always) ∧ d.instr.programAddr = addr := by
  obtain ⟨-, t, ht, hlead, c, head, siblings, hcond, hparts, rfl⟩ := decodeWord?_eq_some_iff.1 h
  have hconditions := condition_of_reads hparts
  have hcond_eq : (ofMembers t.format addr head siblings).instr.cond = c := by
    have hhead : (ofMembers t.format addr head siblings).instr.condition = some c :=
      hconditions head List.mem_cons_self
    rw [Instruction.cond, hhead]
    rfl
  have hspelled : ∀ m ∈ head :: siblings, Instruction.SpelledOperands m.operands := by
    intro m hm
    have hmem := (forall₂_congr_of_mem fun part hpart j => (and_iff_right hpart).symm).1 hparts
    obtain ⟨part, -, hpart, hreads⟩ := exists_left_of_forall₂ hmem hm
    exact hreads.spelledOperands ht hpart
  refine ⟨?_, ?_, fun hop => ?_, UInt32.toNat_ofNat_of_lt' haddr⟩
  · exact List.forall_mem_cons.2 (List.forall_mem_cons.1 hspelled)
  · rw [hcond_eq]
    exact List.forall_mem_cons.2 (List.forall_mem_cons.1 hconditions)
  · obtain ⟨ms, hi, hms⟩ := exists_members ht hparts
    have hmem : (ofMembers t.format addr head siblings).instr ∈ ms.map Member.instr := by
      rw [hi]
      exact List.mem_cons_self
    obtain ⟨m, hm, hmi⟩ := List.mem_map.1 hmem
    have hmem := (forall₂_congr_of_mem fun part hpart j => (and_iff_right hpart).symm).1 hms
    obtain ⟨part, -, hpart, hplays⟩ := exists_left_of_forall₂ hmem hm
    rw [hcond_eq]
    exact (code_of_wordReadings hcond).2 (hplays.of_loop ht hpart (hmi ▸ hop)).2

/-! ### Back to the word -/

namespace Decoded

/-- The instruction that a builder places at an address for the text. -/
def line (d : Decoded) (addr : Nat) : Instruction := { d.instr.respelled with line := 1, address := .ofNat addr }

theorem readLine_text {word addr : Nat} {d : Decoded} (hword : word < span wordBits) (haddr : addr + 65536 < span 32)
    (h : decodeWord? word addr = some d) :
    ∃ b, (Builder.origin addr).readLine d.text.toList = .ok b ∧ b.program.instrs = [d.line addr] := by
  have hlt : addr < span addrBits := Nat.lt_of_le_of_lt (Nat.le_add_right addr 65536) haddr
  have hdir := (select_of_decodeWord? hword hlt h).1
  have hread := Instruction.read_text hdir (spelled hlt h).1
  have hsect : (Builder.origin addr).enterSection d.instr.respelled = Builder.origin addr := by
    have hop : d.instr.respelled.opcode ≠ .sect := by
      intro hop
      have hop : d.instr.opcode = .sect := hop
      rw [Instruction.isDirective, hop] at hdir
      cases hdir
    unfold Builder.enterSection
    split
    · next hop' _ => exact absurd hop' hop
    · next hop' _ => exact absurd hop' hop
    · rfl
  refine ⟨(Builder.origin addr).push d.instr.respelled, ?_, rfl⟩
  rw [Builder.readLine, text, hread]
  show Except.ok (((Builder.origin addr).enterSection d.instr.respelled).push d.instr.respelled) = _
  rw [hsect]

/-- The line of a word, resolved, is the word again. -/
theorem sameWord_resolve_line {word addr : Nat} {d : Decoded} (haddr : addr < span addrBits)
    (h : decodeWord? word addr = some d) (hdir : d.instr.isDirective = false) (b : Bool) :
    d.instr.SameWord ((d.line addr).resolve b).1 := by
  obtain ⟨-, hconditions, hloop, -⟩ := spelled haddr h
  have hcond : (d.line addr).cond = d.instr.cond := by
    show d.instr.shownCondition?.getD .always = d.instr.cond
    unfold Instruction.shownCondition?
    split
    · rfl
    · next hno =>
      rw [hdir] at hno
      by_cases halways : d.instr.cond = .always
      · exact halways.symm
      · by_cases hop : d.instr.opcode = .loop
        · exact (hloop hop).symm
        · exact absurd (by simp [halways, hop]) hno
  obtain ⟨format, hresolve⟩ := (d.line addr).fst_resolve b
  rw [hresolve]
  refine .cons ⟨rfl, rfl, ?_, rfl⟩ ?_
  · exact (congrArg some hcond).trans (hconditions d.instr List.mem_cons_self).symm
  · show List.Forall₂ Instruction.SameOperation d.instr.siblings
      ((d.instr.siblings.map Instruction.bare).map fun s =>
        { s with condition := some (s.condition.getD (d.line addr).cond) })
    rw [List.map_map, List.forall₂_map_right_iff, List.forall₂_same]
    intro s hs
    exact ⟨rfl, rfl, (congrArg some hcond).trans (hconditions s (List.mem_cons_of_mem _ hs)).symm, rfl⟩

/-- The line of a word is accepted, and encodes to the word without its padding. -/
theorem encode_resolve_line {word addr : Nat} {d : Decoded} (hword : word < span wordBits)
    (haddr : addr + 65536 < span 32) (h : decodeWord? word addr = some d) (hstructure : checkStructure d.instr = .ok ())
    {s : Selection} (hselect : select d.instr = .ok s) (b : Bool) (p : Program) :
    ((d.line addr).resolve b).2 = none ∧
      ∃ relocs, ((d.line addr).resolve b).1.encode p = .ok ⟨d.format.clearPad word, relocs⟩ := by
  have hlt : addr < span addrBits := Nat.lt_of_le_of_lt (Nat.le_add_right addr 65536) haddr
  have hdir := (select_of_decodeWord? hword hlt h).1
  have hsame := sameWord_resolve_line hlt h hdir b
  have hno := not_refused_of_select hstructure hselect
  obtain ⟨s₀, t, -, -, hformat, hiformat, -, hselect₀, -, hrestores⟩ :=
    (select_of_decodeWord? hword hlt h).2 hno (d.format.reaches haddr)
  cases hselect.symm.trans hselect₀
  rcases (d.line addr).resolve_cases rfl b with ⟨e, hfault, -⟩ | ⟨s', -, hselect', hformat', hnone⟩
  · rw [hsame.fault?, Instruction.fault?_of_select hstructure hselect] at hfault
    cases hfault
  · obtain ⟨s'', hs'', halike⟩ := (select_alike hsame).of_ok hselect
    cases hselect'.symm.trans hs''
    have hformats : ((d.line addr).resolve b).1.format = d.instr.format := by
      rw [hformat', halike.format, hrestores.format, hiformat]
    have haddrs : ((d.line addr).resolve b).1.programAddr = d.instr.programAddr := by
      rw [Instruction.programAddr_resolve, (spelled hlt h).2.2.2]
      exact UInt32.toNat_ofNat_of_lt' hlt
    rw [hsame.encode haddrs hformats]
    exact ⟨hnone, encode_of_decodeWord? hword haddr h hno p⟩

/-- The text of what a word decodes to is a source line. If the encoder accepts the operation, the line,
resolved and assembled at the address of the word, gives the word without its padding and no error. -/
theorem assemble_text {word addr : Nat} {d : Decoded} (hword : word < span wordBits) (haddr : addr + 65536 < span 32)
    (h : decodeWord? word addr = some d) (hstructure : checkStructure d.instr = .ok ()) {s : Selection}
    (hselect : select d.instr = .ok s) (delaySlots : Bool) :
    ∃ b i, (Builder.origin addr).readLine d.text.toList = .ok b ∧ b.program.instrs = [i] ∧
      (b.program.resolve delaySlots).2 = [] ∧
      (b.program.resolve delaySlots).1.assemble.words = [d.format.clearPad word] ∧
      (b.program.resolve delaySlots).1.assemble.diagnostics = [] := by
  have hlt : addr < span addrBits := Nat.lt_of_le_of_lt (Nat.le_add_right addr 65536) haddr
  obtain ⟨b, hread, hinstrs⟩ := readLine_text hword haddr h
  have hdir : (d.line addr).isDirective = false := (select_of_decodeWord? hword hlt h).1
  obtain ⟨hnone, relocs, hencode⟩ := encode_resolve_line hword haddr h hstructure hselect false
    (b.program.resolve delaySlots).1
  have hresolve : resolveList delaySlots false [d.line addr] = ([((d.line addr).resolve false).1], []) := by
    rw [resolveList, hdir, if_neg Bool.false_ne_true, Bool.and_false]
    show ([((d.line addr).resolve false).1], ((d.line addr).resolve false).2.toList ++ []) = _
    rw [hnone]
    rfl
  have hwords : (b.program.resolve delaySlots).1.words = [((d.line addr).resolve false).1] := by
    have hlist : (b.program.resolve delaySlots).1.instrs = [((d.line addr).resolve false).1] := by
      show (resolveList delaySlots false b.program.instrs).1 = _
      rw [hinstrs, hresolve]
    rw [Program.words, hlist, List.filter_singleton, Instruction.isDirective_resolve, hdir]
    rfl
  refine ⟨b, d.line addr, hread, hinstrs, ?_, ?_, ?_⟩
  · show (resolveList delaySlots false b.program.instrs).2 = []
    rw [hinstrs, hresolve]
  · simp [Program.assemble, Assembly.words, hwords, Instruction.assemble, hencode]
  · simp [Program.assemble, hwords, Instruction.assemble, hencode]

/-- `IF NOT CE MAC ACC1, R2, R3 (SU) || LD R4, DM(I1,M2)` at address 7. -/
def conditionalBundle : Decoded :=
  ⟨.bMacLd, { line := 0, opcode := .mac, address := 7, format := some .bMacLd, condition := some .notCe
              operands := [.reg ⟨.acc, 1⟩, .reg ⟨.general, 2⟩, .reg ⟨.general, 3⟩, .key (.mul .su)]
              siblings := [{ line := 0, opcode := .ld, condition := some .notCe
                             operands := [.reg ⟨.general, 4⟩, .mem ⟨.data, .post 1 2⟩] }] }⟩

theorem assemble_text_conditionalBundle :
    2770544849 < span wordBits ∧ 7 + 65536 < span 32 ∧ decodeWord? 2770544849 7 = some conditionalBundle ∧
      checkStructure conditionalBundle.instr = .ok () ∧
      (∃ s, select conditionalBundle.instr = .ok s) ∧
      ∃ b i, (Builder.origin 7).readLine conditionalBundle.text.toList = .ok b ∧ b.program.instrs = [i] ∧
        (b.program.resolve true).2 = [] ∧
        (b.program.resolve true).1.assemble.words = [conditionalBundle.format.clearPad 2770544849] ∧
        (b.program.resolve true).1.assemble.diagnostics = [] := by
  have hword : 2770544849 < span wordBits := by decide
  have haddr : 7 + 65536 < span 32 := by decide
  have hdecode : decodeWord? 2770544849 7 = some conditionalBundle := by rfl
  have hstructure : checkStructure conditionalBundle.instr = .ok () := by rfl
  obtain ⟨s, hselect⟩ : ∃ s, select conditionalBundle.instr = .ok s := ⟨_, rfl⟩
  exact ⟨hword, haddr, hdecode, hstructure, ⟨s, hselect⟩,
    assemble_text hword haddr hdecode hstructure hselect true⟩

end Decoded

end QuadDsp
