import QuadDsp.Proofs.Machine.Again
import QuadDsp.Proofs.Machine.Sequel

/-! # Programs read back from their words

An assembled program is read back word by word (`Program.readBack`). What comes back has no directives and no
names, and its words are those of the program, as far as the controller can tell (`ReadsAs.sequencedAs`): the
same addresses, delay slots, memory accesses, multiplications and ends of loops. -/

namespace QuadDsp

/-- The program of what the emitted words decode to at their addresses. -/
def Program.readBack (p : Program) : Program where
  instrs := p.assemble.listing.filterMap fun l => (decodeWord? l.word l.addr).map (·.instr)

/-! ### What is kept of a word -/

theorem FormatEntry.cond_notMem_of_isMac : ∀ e ∈ formatEntries, e.opcode.isMac = true → .cond ∉ e.shape.slots := by
  decide +kernel

theorem Role.cond_notMem {role : Role} (h : role ≠ .op) : .cond ∉ role.part.shape.slots := by
  cases role <;> first | exact absurd rfl h | decide

theorem isBranch_of_bundled : ∀ op ∈ [.ld, .st] ++ bundledAlu ++ bundledMac ++ bundledShift, op.isBranch = false := by
  decide

theorem Member.Classified.cond_notMem {m : Member} (hm : m.Classified) (h : .cond ∉ m.shape.slots) (c : Condition) :
    .cond c ∉ m.instr.operands := by
  intro hc
  have hplain : .cond c ∈ m.instr.plain := List.mem_filter.2 ⟨hc, rfl⟩
  have hfits := Shape.fits_iff.1 (Shape.classify_eq_ok_iff.1 hm.classify).1
  obtain ⟨slot, hslot, haccepts⟩ := exists_left_of_forall₂ hfits hplain
  have hcond : slot = .cond := by cases slot <;> first | rfl | cases haccepts
  exact h (hcond ▸ hslot)

theorem Operand.cond_of_readBack {p : Program} {wide : Option Nat} {o : Operand} {c : Condition} :
    o.readBack p wide = .cond c ↔ o = .cond c := by
  cases o <;> simp [readBack]

theorem Operand.isMem_readBack {p : Program} {wide : Option Nat} (o : Operand) :
    (o.readBack p wide).isMem = o.isMem := by
  cases o <;> rfl

namespace Member

variable {m : Member} {p : Program} {f : FormatId} {c : Condition}

theorem mem_decoded {o : Operand} (h : o ∈ (m.decoded p f c).operands) :
    (∃ o' ∈ m.instr.plain, o'.readBack p f.wide? = o) ∨ o ∈ m.instr.modes :=
  (List.mem_append.1 h).imp List.mem_map.1 id

theorem cond_notMem_decoded {c' : Condition} (h : .cond c' ∉ m.instr.operands) :
    .cond c' ∉ (m.decoded p f c).operands := by
  intro hc
  rcases mem_decoded hc with ⟨o, ho, hread⟩ | hmode
  · rw [Operand.cond_of_readBack.1 hread] at ho
    exact h (List.mem_of_mem_filter ho)
  · exact h (List.mem_of_mem_filter hmode)

theorem hasMemOperand_decoded : (m.decoded p f c).hasMemOperand = m.instr.hasMemOperand := by
  rw [Bool.eq_iff_iff, Instruction.hasMemOperand, Instruction.hasMemOperand, List.any_eq_true, List.any_eq_true]
  constructor
  · rintro ⟨o, ho, hmem⟩
    rcases mem_decoded ho with ⟨o', ho', rfl⟩ | hmode
    · exact ⟨o', List.mem_of_mem_filter ho', o'.isMem_readBack ▸ hmem⟩
    · exact ⟨o, List.mem_of_mem_filter hmode, hmem⟩
  · rintro ⟨o, ho, hmem⟩
    have hplain : o ∈ m.instr.plain := by
      refine List.mem_filter.2 ⟨ho, ?_⟩
      cases o <;> first | rfl | cases hmem
    exact ⟨_, List.mem_append_left _ (List.mem_map_of_mem hplain), o.isMem_readBack.trans hmem⟩

theorem hasMemOperand_of_sameOperation {k : Instruction} (hk : (m.decoded p f c).SameOperation k) :
    k.hasMemOperand = m.instr.hasMemOperand := by
  rw [Instruction.hasMemOperand, hk.operands]
  exact hasMemOperand_decoded

end Member

namespace Readback

variable {p : Program} {i j : Instruction} {s : Selection} {t : WordForm} (h : Readback p i j s t)

include h

theorem any_members {f : Instruction → Bool} (hf : ∀ m ∈ s.members, ∀ k,
    (m.decoded p s.format i.cond).SameOperation k → f k = f m.instr) : j.members.any f = i.members.any f := by
  have hperm := (h.fills.inOrder_perm h.form).map Member.instr
  rw [h.fills.instrs] at hperm
  have hread : j.members.any f = (s.inOrder.map Member.instr).any f := by
    rw [List.any_map, Bool.eq_iff_iff, List.any_eq_true, List.any_eq_true]
    constructor
    · rintro ⟨k, hk, hfk⟩
      obtain ⟨m, hm, hmk⟩ := exists_left_of_forall₂ h.members hk
      exact ⟨m, hm, (hf m (h.mem_members hm) k hmk).symm.trans hfk⟩
    · rintro ⟨m, hm, hfm⟩
      obtain ⟨k, hk, hmk⟩ := exists_right_of_forall₂ h.members hm
      exact ⟨k, hk, (hf m (h.mem_members hm) k hmk).trans hfm⟩
  rw [hread, hperm.any_eq]

theorem isMacWord : j.isMacWord = i.isMacWord :=
  h.any_members fun m _ k hk => by rw [hk.opcode]; rfl

theorem readsMemory : j.readsMemory = i.readsMemory :=
  h.any_members fun m _ k hk => by rw [hk.opcode, Member.hasMemOperand_of_sameOperation hk]; rfl

theorem writesMemory : j.writesMemory = i.writesMemory :=
  h.any_members fun m _ k hk => by rw [hk.opcode, Member.hasMemOperand_of_sameOperation hk]; rfl

theorem term_of_cond_notMem (hno : ∀ m ∈ s.members, .cond ∉ m.shape.slots) (c : Condition) :
    j.operands[1]? = some (.cond c) ↔ i.operands[1]? = some (.cond c) := by
  have hoperands : ∀ m ∈ s.members, .cond c ∉ m.instr.operands := fun m hm =>
    (h.fills.classified m hm).cond_notMem (hno m hm) c
  refine iff_of_false (fun hj => ?_) fun hi => ?_
  · obtain ⟨m, hm, hmj⟩ := exists_left_of_forall₂ h.members List.mem_cons_self
    have hmem := List.mem_of_getElem? hj
    rw [hmj.operands] at hmem
    exact Member.cond_notMem_decoded (hoperands m (h.mem_members hm)) hmem
  · obtain ⟨m, hm, rfl⟩ := h.fills.exists_head
    exact hoperands m hm (List.mem_of_getElem? hi)

theorem operands_of_lone {m : Member} (hmembers : s.members = [m]) (hinstr : m.instr = i)
    (hmac : m.opcode.isMac = false) :
    j.operands = i.operands.map (·.readBack p s.format.wide?) := by
  have hm : m ∈ s.members := by
    rw [hmembers]
    exact List.mem_singleton_self m
  obtain ⟨hplain, hmodes⟩ := plain_of_not_isMac h.selected hm (h.fills.classified m hm) hmac
  obtain ⟨m', hm', -, -, hoperands⟩ := h.exists_member (List.mem_cons_self : j ∈ j.members)
  rw [hmembers, List.mem_singleton] at hm'
  rw [hoperands, hm', hplain, hmodes, hinstr, List.append_nil]

theorem term (c : Condition) : j.operands[1]? = some (.cond c) ↔ i.operands[1]? = some (.cond c) := by
  rcases select_members h.selected with ⟨m, e, he, hmembers, hinstr, hop, hshape, -⟩ | ⟨hall, -⟩
  · by_cases hmac : m.opcode.isMac = true
    · refine h.term_of_cond_notMem (fun m' hm' => ?_) c
      rw [hmembers, List.mem_singleton] at hm'
      rw [hm', hshape]
      exact FormatEntry.cond_notMem_of_isMac e he (hop ▸ hmac)
    · rw [h.operands_of_lone hmembers hinstr (Bool.eq_false_iff.2 hmac), List.getElem?_map, Option.map_eq_some_iff]
      constructor
      · rintro ⟨o, ho, hread⟩
        rw [ho, Operand.cond_of_readBack.1 hread]
      · intro hi
        exact ⟨_, hi, rfl⟩
  · exact h.term_of_cond_notMem (fun m hm => (hall m hm).1.takes.shape ▸ Role.cond_notMem (hall m hm).1.role) c

/-- A branch stays one; the operations of a bundle branch in no order. -/
theorem isBranch : j.opcode.isBranch = i.opcode.isBranch := by
  obtain ⟨m, hm, -, hop, -⟩ := h.exists_member (List.mem_cons_self : j ∈ j.members)
  obtain ⟨m', hm', hinstr⟩ := h.fills.exists_head
  have hop' : i.opcode = m'.opcode := by
    rw [← hinstr]
    rfl
  rcases select_members h.selected with ⟨m₀, -, -, hmembers, -⟩ | ⟨hall, -⟩
  · rw [hmembers, List.mem_singleton] at hm hm'
    rw [hop, hop', hm, hm']
  · have hbundled (m : Member) (hm : m ∈ s.members) : m.opcode.isBranch = false :=
      isBranch_of_bundled _ ((hall m hm).1.opcode_mem (hall m hm).2)
    rw [hop, hop', hbundled m hm, hbundled m' hm']

theorem condition {k : Instruction} (hk : k ∈ j.members) : k.condition = some i.cond := by
  obtain ⟨m, -, hm⟩ := exists_left_of_forall₂ h.members hk
  exact hm.condition

end Readback

/-! ### Words in their programs -/

/-- The word `j` is what the word of `i`, encoded with the names of `p`, is read back as. -/
structure ReadsAs (p : Program) (i j : Instruction) : Prop where
  decoded : ∃ e d, i.encode p = .ok e ∧ e.word ≠ errorWord ∧ decodeWord? e.word i.programAddr = some d ∧
    d.instr.SameWord j
  fit : i.TargetsFit p
  addr : j.programAddr = i.programAddr
  delay : j.inDelaySlot = i.inDelaySlot

namespace ReadsAs

variable {p : Program} {i i' j j' : Instruction}

theorem exists_readback (h : ReadsAs p i j) :
    ∃ s t s', Readback p i j s t ∧ checkStructure j = .ok () ∧ select j = .ok s' := by
  obtain ⟨e, d, hencode, hword, hdecode, hsame⟩ := h.decoded
  obtain ⟨s, t, d', hdecode', hread, hreach⟩ := Readback.of_encode hencode h.fit hword
  cases hdecode.symm.trans hdecode'
  obtain ⟨s₀, -, -, -, -, -, hstructure, hselect, -⟩ :=
    (select_of_decodeWord? (Instruction.encode_lt hencode) i.programAddr_lt hdecode).2 hread.not_refused hreach
  obtain ⟨s', hs', -⟩ := (select_alike hsame).of_ok hselect
  exact ⟨s, t, s', hread.sameWord hsame, hsame.checkStructure.trans hstructure, hs'⟩

/-- The controller does not tell them apart. -/
theorem sequencedAs (h : ReadsAs p i j) : i.SequencedAs j := by
  obtain ⟨s, t, -, hread, -⟩ := h.exists_readback
  exact ⟨h.addr, h.delay, hread.isMacWord, hread.readsMemory, hread.writesMemory, hread.term⟩

/-- Whatever latencies a run records in them. -/
theorem reran (h : ReadsAs p i j) (hi : i.Reran i') (hj : j.Reran j') : ReadsAs p i' j' := by
  obtain ⟨e, d, hencode, hword, hdecode, hsame⟩ := h.decoded
  have hencode' : i'.encode p = .ok e := by
    rw [hi.sameWord.encode hi.programAddr (by rw [hi]), hencode]
  refine ⟨⟨e, d, hencode', hword, hi.programAddr ▸ hdecode, hsame.trans hj.sameWord⟩, ?_, ?_, ?_⟩
  · intro k hk t a ht ha
    rcases List.mem_cons.1 hk with rfl | hk
    · rw [hi] at ht
      exact h.fit i List.mem_cons_self t a ht ha
    · rw [hi] at hk
      exact h.fit k (List.mem_cons_of_mem _ hk) t a ht ha
  · rw [hi.programAddr, hj.programAddr, h.addr]
  · have hdelay {i i' : Instruction} (h : i.Reran i') : i'.inDelaySlot = i.inDelaySlot := by rw [h]
    rw [hdelay hi, hdelay hj, h.delay]

end ReadsAs

/-! ### Resolving what is read back -/

namespace Instruction

variable {i j : Instruction}

theorem SameWord.targetsFit {p : Program} (h : i.SameWord j) (hfit : i.TargetsFit p) : j.TargetsFit p := by
  intro k hk t a ht ha
  obtain ⟨l, hl, hlk⟩ := exists_left_of_forall₂ h hk
  exact hfit l hl t a (hlk.operands ▸ ht) ha

theorem SameWord.format_withFormat (h : i.SameWord j) (hformat : j.format = i.format) :
    j.withFormat.1.format = i.withFormat.1.format := by
  unfold withFormat
  rw [hformat, h.checkStructure]
  split
  · exact hformat
  · split
    · exact hformat
    · have halike := select_alike h
      generalize select i = x at halike ⊢
      generalize select j = y at halike ⊢
      cases halike with
      | ok hs => exact congrArg some hs.format
      | error e => exact hformat

variable (i) (b b' : Bool)

theorem sameWord_resolve : (i.resolve b).1.SameWord (i.resolve b').1 := by
  obtain ⟨_, h⟩ := i.fst_resolve b
  obtain ⟨_, h'⟩ := i.fst_resolve b'
  rw [h, h']
  exact .cons ⟨rfl, rfl, rfl, rfl⟩ (List.forall₂_same.2 fun k _ => .refl k)

theorem format_resolve : (i.resolve b').1.format = (i.resolve b).1.format :=
  SameWord.format_withFormat (.cons ⟨rfl, rfl, rfl, rfl⟩ (List.forall₂_same.2 fun k _ => .refl k)) rfl

theorem encode_resolve (p : Program) : (i.resolve b').1.encode p = (i.resolve b).1.encode p := by
  refine (i.sameWord_resolve b b').encode ?_ (i.format_resolve b b') p
  rw [programAddr_resolve, programAddr_resolve]

theorem inDelaySlot_resolve : (i.resolve b).1.inDelaySlot = b := by
  obtain ⟨_, h⟩ := i.fst_resolve b
  rw [h]

variable {i}

theorem sameWord_resolve_of_conditions {c : Condition} (h : ∀ k ∈ i.members, k.condition = some c) :
    i.SameWord (i.resolve b).1 := by
  obtain ⟨_, hresolve⟩ := i.fst_resolve b
  obtain ⟨hhead, hsiblings⟩ := List.forall_mem_cons.1 h
  rw [hresolve]
  refine .cons ⟨rfl, rfl, ?_, rfl⟩ ?_
  · show some i.cond = i.condition
    rw [Instruction.cond, hhead]
    rfl
  · show List.Forall₂ SameOperation i.siblings
      (i.siblings.map fun s => { s with condition := some (s.condition.getD i.cond) })
    rw [List.forall₂_map_right_iff, List.forall₂_same]
    intro s hs
    exact ⟨rfl, rfl, by rw [hsiblings s hs]; rfl, rfl⟩

end Instruction

/-- Directives do not count when a list is resolved. -/
theorem filter_resolveList (delaySlots afterBranch : Bool) (instrs : List Instruction) :
    (resolveList delaySlots afterBranch instrs).1.filter (!·.isDirective) =
      (resolveList delaySlots afterBranch (instrs.filter (!·.isDirective))).1 := by
  induction instrs generalizing afterBranch with
  | nil => rfl
  | cons i rest ih =>
    by_cases hdir : i.isDirective = true
    · rw [List.filter_cons_of_neg (by simp [hdir]), resolveList, if_pos hdir]
      dsimp only
      rw [List.filter_cons_of_neg (by simp [hdir]), ih]
    · rw [List.filter_cons_of_pos (by simp [hdir]), resolveList, resolveList, if_neg hdir, if_neg hdir]
      dsimp only
      rw [List.filter_cons_of_pos (by simp [Instruction.isDirective_resolve, hdir]), ih]

/-- The word `j` is what the word of `i`, resolved and encoded with the names of `p`, decodes to. -/
structure DecodesTo (p : Program) (i j : Instruction) : Prop where
  word : i.isDirective = false
  decoded : ∃ b e d, (i.resolve b).1.encode p = .ok e ∧ (i.resolve b).1.TargetsFit p ∧ e.word ≠ errorWord ∧
    decodeWord? e.word i.programAddr = some d ∧ d.instr = j

namespace DecodesTo

variable {p : Program} {i j : Instruction}

theorem exists_readback (h : DecodesTo p i j) : ∃ b s t, Readback p (i.resolve b).1 j s t := by
  obtain ⟨b, e, d, hencode, hfit, hword, hdecode, rfl⟩ := h.decoded
  obtain ⟨s, t, d', hdecode', hread, -⟩ := Readback.of_encode hencode hfit hword
  rw [i.programAddr_resolve, hdecode] at hdecode'
  cases hdecode'
  exact ⟨b, s, t, hread⟩

theorem isDirective (h : DecodesTo p i j) : j.isDirective = false := by
  obtain ⟨b, e, d, hencode, -, -, hdecode, rfl⟩ := h.decoded
  exact (select_of_decodeWord? (Instruction.encode_lt hencode) i.programAddr_lt hdecode).1

theorem isBranch (h : DecodesTo p i j) : j.opcode.isBranch = i.opcode.isBranch := by
  obtain ⟨b, s, t, hread⟩ := h.exists_readback
  obtain ⟨format, hresolve⟩ := i.fst_resolve b
  rw [hread.isBranch, hresolve]
  rfl

theorem resolve (h : DecodesTo p i j) (b : Bool) : ReadsAs p (i.resolve b).1 (j.resolve b).1 := by
  obtain ⟨_, _, _, hread⟩ := h.exists_readback
  obtain ⟨b₀, e, d, hencode, hfit, hword, hdecode, rfl⟩ := h.decoded
  refine ⟨⟨e, d, ?_, hword, ?_, ?_⟩, (i.sameWord_resolve b₀ b).targetsFit hfit, ?_, ?_⟩
  · rw [i.encode_resolve b₀ b, hencode]
  · rw [i.programAddr_resolve, hdecode]
  · exact Instruction.sameWord_resolve_of_conditions b fun k hk => hread.condition hk
  · obtain ⟨-, t, -, -, c, head, siblings, -, -, rfl⟩ := decodeWord?_eq_some_iff.1 hdecode
    rw [Instruction.programAddr_resolve, Instruction.programAddr_resolve]
    exact congrArg UInt32.toNat i.ofNat_programAddr
  · rw [Instruction.inDelaySlot_resolve, Instruction.inDelaySlot_resolve]

theorem resolveList {l r : List Instruction} (h : List.Forall₂ (DecodesTo p) l r) (delaySlots afterBranch : Bool) :
    List.Forall₂ (ReadsAs p) (resolveList delaySlots afterBranch l).1 (resolveList delaySlots afterBranch r).1 := by
  induction h generalizing afterBranch with
  | nil => exact .nil
  | @cons i j l r hij _ ih =>
    rw [QuadDsp.resolveList, QuadDsp.resolveList, if_neg (by simp [hij.word]), if_neg (by simp [hij.isDirective])]
    refine .cons (hij.resolve _) ?_
    rw [hij.isBranch]
    exact ih _

end DecodesTo

namespace Program

variable {p : Program} {delaySlots : Bool}

/-- Where assembly reports no error, every word encodes. -/
theorem exists_encode_of_errors {r : Instruction} (h : p.assemble.errors = 0) (hr : r ∈ p.words) :
    ∃ e, r.encode p = .ok e := by
  have hnone : (r.assemble p).2 = none := by
    have hdiagnostics : p.assemble.diagnostics = [] := List.eq_nil_of_length_eq_zero h
    exact List.filterMap_eq_nil_iff.1 hdiagnostics _ (List.mem_map_of_mem hr)
  unfold Instruction.assemble at hnone
  split at hnone
  · next e he => exact ⟨e, he⟩
  · cases hnone

theorem words_resolve (p : Program) (b : Bool) : (p.resolve b).1.words = (QuadDsp.resolveList b false p.words).1 :=
  filter_resolveList b false p.instrs

/-- The words of a resolved program are those of the program, resolved. -/
theorem forall₂_words_resolve :
    List.Forall₂ (fun i r => i.isDirective = false ∧ ∃ b, r = (i.resolve b).1)
      p.words (p.resolve delaySlots).1.words := by
  have hall := forall₂_resolveList delaySlots false p.words
  rw [words_resolve]
  refine (forall₂_congr_of_mem fun i hi r => ?_).1 hall
  have hdir : i.isDirective = false := by simpa using (List.mem_filter.1 hi).2
  simp [hdir]

/-- The words that a program emits decode. -/
theorem forall₂_decoded {q : Program} (herrors : q.assemble.errors = 0) (hword : errorWord ∉ q.assemble.words)
    (hfit : ∀ r ∈ q.words, r.TargetsFit q) :
    List.Forall₂ (fun r j => r.TargetsFit q ∧ ∃ e d, r.encode q = .ok e ∧ e.word ≠ errorWord ∧
      decodeWord? e.word r.programAddr = some d ∧ d.instr = j) q.words q.readBack.instrs := by
  have hlisting : q.readBack.instrs = q.words.filterMap fun r =>
      (decodeWord? (r.assemble q).1.word (r.assemble q).1.addr).map (·.instr) := by
    simp only [readBack, assemble, List.filterMap_map, Function.comp_def]
  rw [hlisting]
  refine forall₂_filterMap fun r hr => ?_
  obtain ⟨e, hencode⟩ := exists_encode_of_errors herrors hr
  have hassemble : (r.assemble q).1.word = e.word ∧ (r.assemble q).1.addr = r.programAddr := by
    rw [Instruction.assemble, hencode]
    exact ⟨rfl, rfl⟩
  have hne : e.word ≠ errorWord := by
    intro he
    refine hword (he ▸ hassemble.1 ▸ ?_)
    exact List.mem_map_of_mem (List.mem_map_of_mem (List.mem_map_of_mem hr))
  obtain ⟨s, t, d, hdecode, -⟩ := Readback.of_encode hencode (hfit r hr) hne
  exact ⟨d.instr, by rw [hassemble.1, hassemble.2, hdecode]; rfl, hfit r hr, e, d, hencode, hne, hdecode, rfl⟩

/-- The words of a program decode as they are resolved. -/
theorem forall₂_readBack (herrors : (p.resolve delaySlots).1.assemble.errors = 0)
    (hword : errorWord ∉ (p.resolve delaySlots).1.assemble.words)
    (hfit : ∀ r ∈ (p.resolve delaySlots).1.words, r.TargetsFit (p.resolve delaySlots).1) :
    List.Forall₂ (DecodesTo (p.resolve delaySlots).1) p.words (p.resolve delaySlots).1.readBack.instrs := by
  refine (exists_forall₂_forall₂_iff.1 ⟨_, forall₂_words_resolve, forall₂_decoded herrors hword hfit⟩).imp ?_
  rintro i j ⟨_, ⟨hdir, b, rfl⟩, hfit, e, d, hencode, hne, hdecode, hj⟩
  exact ⟨hdir, b, e, d, hencode, hfit, hne, by rw [← i.programAddr_resolve b, hdecode], hj⟩

/-- Resolved alike, the words of the program are read back as those of what was read back. -/
theorem forall₂_resolve_readBack (herrors : (p.resolve delaySlots).1.assemble.errors = 0)
    (hword : errorWord ∉ (p.resolve delaySlots).1.assemble.words)
    (hfit : ∀ r ∈ (p.resolve delaySlots).1.words, r.TargetsFit (p.resolve delaySlots).1) (b : Bool) :
    List.Forall₂ (ReadsAs (p.resolve delaySlots).1) (p.resolve b).1.words
      ((p.resolve delaySlots).1.readBack.resolve b).1.words := by
  have hall := forall₂_readBack herrors hword hfit
  have hself : (p.resolve delaySlots).1.readBack.words = (p.resolve delaySlots).1.readBack.instrs := by
    refine List.filter_eq_self.2 fun j hj => ?_
    obtain ⟨i, -, hij⟩ := exists_left_of_forall₂ hall hj
    simp [hij.isDirective]
  rw [words_resolve, words_resolve, hself]
  exact DecodesTo.resolveList hall b false

end Program

end QuadDsp
