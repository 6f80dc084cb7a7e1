import Mathlib.Data.List.Permutation
import QuadDsp.Proofs.Word.ReadBack
import QuadDsp.Word.Listing

/-! # The error word

The error word stands for an instruction that cannot be encoded, but one word form has no bit that is
always zero: an ALU operation bundled with a multiplication. Where all bits of all its fields are set
(`Instruction.AllOnes`), the word of a correct instruction is the error word, and these are the only such
instructions (`errorWord_encode_iff`). -/

namespace QuadDsp

/-- The operation that the instruction stands for, bundled operations aside. -/
structure Instruction.Spells (i : Instruction) (op : Opcode) (plain modes : List Operand) : Prop where
  opcode : i.opcode = op
  plain : i.plain = plain
  modes : i.modes = modes

/-- The instruction is MAX R15, R15, R15 || MAS ACC1, R7, R7 (SS), in either order. -/
structure Instruction.AllOnes (i : Instruction) : Prop where
  format : i.format = some .bAluMac
  conditions : ∀ j ∈ i.members, j.condition.getD .always = .always
  members : ∃ a m, i.members.Perm [a, m] ∧
    a.Spells .max [.reg ⟨.general, 15⟩, .reg ⟨.general, 15⟩, .reg ⟨.general, 15⟩] [] ∧
    m.Spells .mas [.reg ⟨.acc, 1⟩, .reg ⟨.general, 7⟩, .reg ⟨.general, 7⟩] [.key (.mul .ss)]

namespace Member.Classified

variable {m : Member}

theorem length_plain (h : m.Classified) : m.instr.plain.length = m.shape.slots.length :=
  (Shape.fits_iff.1 (Shape.classify_eq_ok_iff.1 h.classify).1).length_eq.symm

theorem modes_eq (h : m.Classified) : m.instr.modes = m.mode.toList.map fun k => .key (.mul k) :=
  (Shape.classify_eq_ok_iff.1 h.classify).2.1

/-- An operation with three operands has the ones that it tells. -/
theorem plain_eq_three_iff (h : m.Classified) (hlen : m.shape.slots.length = 3) {x y z : Operand} :
    m.instr.plain = [x, y, z] ↔
      m.Tells (.operand 0 x) ∧ m.Tells (.operand 1 y) ∧ m.Tells (.operand 2 z) := by
  obtain ⟨x', y', z', hplain⟩ := List.length_eq_three.1 (h.length_plain.trans hlen)
  have hnth (n : Nat) : m.nth? n = [x', y', z'][n]? := by
    rw [← hplain]
    rfl
  simp [Tells, hnth, hplain]

end Member.Classified

namespace Selection

variable {s : Selection} {p : Program} {f : Field} {m : Member} {v : Nat}

theorem emits_iff_of_content? {c : Content} (hm : s.member? f.role = some m) (hclass : m.Classified)
    (hown : f.isOwn = true) (hloop : f.kind ≠ .loopEnd) (hf : f.wellPlaced m.shape = true) (hsettled : f.Settled m)
    (hv : v < span f.width) (hc : f.content? m.shape s.head.programAddr v = some c) :
    s.Emits p f v ↔ m.Tells c := by
  rw [emits_iff_tells hown hm hclass hf hsettled, hc]
  simp [hv, Field.reaches_of_ne hloop]

/-- A bundle of an ALU operation and a multiplication has only ones in its fields exactly if it is the
one that the fields spell. -/
theorem emits_ones_iff {a m : Member} (ha : s.member? .alu = some a) (hm : s.member? .mac = some m)
    (haclass : a.Classified) (hmclass : m.Classified) (hashape : a.shape = .rrr)
    (hmshape : m.shape = .accRR) :
    (∀ f ∈ FormatId.bAluMac.layout, s.Emits p f (span f.width - 1)) ↔
      s.fixed = 15 ∧ s.head.cond = .always ∧
      a.instr.Spells .max [.reg ⟨.general, 15⟩, .reg ⟨.general, 15⟩, .reg ⟨.general, 15⟩] [] ∧
      m.instr.Spells .mas [.reg ⟨.acc, 1⟩, .reg ⟨.general, 7⟩, .reg ⟨.general, 7⟩] [.key (.mul .ss)] := by
  obtain ⟨arole, ai, ashape, amode⟩ := a
  obtain ⟨mrole, mi, mshape, mmode⟩ := m
  subst hashape hmshape
  have hamodes : ai.modes = [] := by
    have hmode : amode = none := Option.isSome_eq_false_iff.1 haclass.mode |> Option.isNone_iff_eq_none.1
    simpa [hmode] using haclass.modes_eq
  have hmmodes : mi.modes = [.key (.mul .ss)] ↔ Member.Tells ⟨mrole, mi, .accRR, mmode⟩ (.mode .ss) := by
    obtain ⟨k, rfl⟩ := Option.isSome_iff_exists.1 hmclass.mode
    simp [hmclass.modes_eq, Member.Tells, Member.mulMode]
  have halu {f : Field} {v : Nat} {c : Content} (hrole : f.role = .alu) (hown : f.isOwn = true)
      (hloop : f.kind ≠ .loopEnd) (hf : f.wellPlaced .rrr = true)
      (hsettled : f.Settled ⟨arole, ai, .rrr, amode⟩) (hv : v < span f.width)
      (hc : f.content? .rrr s.head.programAddr v = some c) :
      s.Emits p f v ↔ Member.Tells ⟨arole, ai, .rrr, amode⟩ c :=
    emits_iff_of_content? (hrole ▸ ha) haclass hown hloop hf hsettled hv hc
  have hmac {f : Field} {v : Nat} {c : Content} (hrole : f.role = .mac) (hown : f.isOwn = true)
      (hloop : f.kind ≠ .loopEnd) (hf : f.wellPlaced .accRR = true) (hsettled : f.Settled ⟨mrole, mi, .accRR, mmode⟩)
      (hv : v < span f.width) (hc : f.content? .accRR s.head.programAddr v = some c) :
      s.Emits p f v ↔ Member.Tells ⟨mrole, mi, .accRR, mmode⟩ c :=
    emits_iff_of_content? (hrole ▸ hm) hmclass hown hloop hf hsettled hv hc
  have hfields : (∀ f ∈ FormatId.bAluMac.layout, s.Emits p f (span f.width - 1)) ↔
      15 = s.fixed ∧
      (Member.Tells ⟨arole, ai, .rrr, amode⟩ (.opcode .max) ∧
        Member.Tells ⟨arole, ai, .rrr, amode⟩ (.operand 0 (.reg ⟨.general, 15⟩)) ∧
        Member.Tells ⟨arole, ai, .rrr, amode⟩ (.operand 1 (.reg ⟨.general, 15⟩)) ∧
        Member.Tells ⟨arole, ai, .rrr, amode⟩ (.operand 2 (.reg ⟨.general, 15⟩))) ∧
      (Member.Tells ⟨mrole, mi, .accRR, mmode⟩ (.opcode .mas) ∧
        Member.Tells ⟨mrole, mi, .accRR, mmode⟩ (.operand 0 (.reg ⟨.acc, 1⟩)) ∧
        Member.Tells ⟨mrole, mi, .accRR, mmode⟩ (.operand 1 (.reg ⟨.general, 7⟩)) ∧
        Member.Tells ⟨mrole, mi, .accRR, mmode⟩ (.operand 2 (.reg ⟨.general, 7⟩)) ∧
        Member.Tells ⟨mrole, mi, .accRR, mmode⟩ (.mode .ss)) ∧
      31 = s.head.cond.code := by
    simp only [FormatId.layout, Layout.alu, List.cons_append, List.nil_append, List.forall_mem_cons,
      List.not_mem_nil, IsEmpty.forall_iff, implies_true, and_true, and_assoc]
    refine and_congr (emits_iff_of_not_isOwn rfl) ?_
    refine and_congr (halu rfl rfl (by decide) (by decide) trivial (by decide) rfl) ?_
    refine and_congr (halu rfl rfl (by decide) (by decide) trivial (by decide) rfl) ?_
    refine and_congr (halu rfl rfl (by decide) (by decide) trivial (by decide) rfl) ?_
    refine and_congr (halu rfl rfl (by decide) (by decide) trivial (by decide) rfl) ?_
    refine and_congr (hmac rfl rfl (by decide) (by decide) trivial (by decide) rfl) ?_
    refine and_congr (hmac rfl rfl (by decide) (by decide) trivial (by decide) rfl) ?_
    refine and_congr (hmac rfl rfl (by decide) (by decide) trivial (by decide) rfl) ?_
    refine and_congr (hmac rfl rfl (by decide) (by decide) trivial (by decide) rfl) ?_
    refine and_congr (hmac rfl rfl (by decide) (by decide) trivial (by decide) rfl) ?_
    exact emits_iff_of_not_isOwn rfl
  have hcond : 31 = s.head.cond.code ↔ s.head.cond = .always := by
    cases s.head.cond <;> decide
  rw [hfields, hcond, eq_comm]
  constructor
  · rintro ⟨hfixed, ⟨haop, haplain⟩, ⟨hmop, hm0, hm1, hm2, hmode⟩, hcond⟩
    exact ⟨hfixed, hcond, ⟨haop, (haclass.plain_eq_three_iff rfl).2 haplain, hamodes⟩,
      ⟨hmop, (hmclass.plain_eq_three_iff rfl).2 ⟨hm0, hm1, hm2⟩, hmmodes.2 hmode⟩⟩
  · rintro ⟨hfixed, hcond, ha, hm⟩
    obtain ⟨hm0, hm1, hm2⟩ := (hmclass.plain_eq_three_iff rfl).1 hm.plain
    exact ⟨hfixed, ⟨ha.opcode, (haclass.plain_eq_three_iff rfl).1 ha.plain⟩,
      ⟨hm.opcode, hm0, hm1, hm2, hmmodes.1 hm.modes⟩, hcond⟩

end Selection

/-- All bits of a word are set only in one format. -/
theorem WordForm.leads_errorWord : ∀ t ∈ wordForms, t.leads errorWord = true →
    t = ⟨.bAluMac, 15, [Role.alu.part, Role.mac.part]⟩ := by
  decide +kernel

theorem allOnes_of_encode {p : Program} {i : Instruction} {e : EncodedWord} (h : i.encode p = .ok e)
    (hword : e.word = errorWord) : i.AllOnes := by
  obtain ⟨hstructure, s, t, ht, -, hformat, hfills, hholds⟩ := holds_of_encode h
  rw [hword] at hholds
  obtain rfl := WordForm.leads_errorWord t ht (hfills.leads_of_holds ht hholds)
  have hperm := (hfills.inOrder_perm ht).map Member.instr
  obtain ⟨a, ha, (harole : s.member? .alu = some a), hatakes⟩ :=
    hfills.exists_member ht List.mem_cons_self
  obtain ⟨m, hm, (hmrole : s.member? .mac = some m), hmtakes⟩ :=
    hfills.exists_member ht (List.mem_cons_of_mem _ List.mem_cons_self)
  have hones : ∀ f ∈ FormatId.bAluMac.layout, s.Emits p f (span f.width - 1) := by
    have hreadings : wordReadings errorWord 0 FormatId.bAluMac.layout =
        FormatId.bAluMac.layout.map fun f => (f, span f.width - 1) := by decide
    intro f hf
    refine hholds.emits (f, span f.width - 1) ?_
    rw [hfills.format, hreadings]
    exact List.mem_map_of_mem hf
  have hinOrder : s.inOrder = [a, m] := by
    have hroles : FormatId.bAluMac.roles = [.alu, .mac] := by decide
    rw [Selection.inOrder, hfills.format, hroles, List.filterMap_cons_some harole,
      List.filterMap_cons_some hmrole, List.filterMap_nil]
  obtain ⟨-, hcond, hspells⟩ := (Selection.emits_ones_iff harole hmrole (hfills.classified a ha)
    (hfills.classified m hm) hatakes.shape hmtakes.shape).1 hones
  rw [hfills.head] at hcond
  refine ⟨hformat.trans (congrArg some hfills.format), fun j hj => ?_, a.instr, m.instr, ?_, hspells⟩
  · rw [← hcond]
    exact getD_condition_of_checkStructure hstructure hj
  · rw [← hfills.instrs]
    rw [hinOrder] at hperm
    exact hperm.symm

/-- An operation with operands that fit a bundled shape is a member of a bundle. -/
theorem bundleMember_of_spells {i : Instruction} {op : Opcode} {plain : List Operand} {shape : Shape}
    {mode : Option MulMode} {role : Role}
    (h : i.Spells op plain (mode.toList.map fun k => .key (.mul k))) (hfits : shape.fits plain = true)
    (husable : ∀ o ∈ plain, o.Usable) (hrole : bundleRole i shape = .ok role)
    (hmode : mode.isSome = true ↔ role = .mac) : bundleMember i = .ok ⟨role, i, shape, mode⟩ := by
  have husable : ∀ o ∈ i.operands, o.Usable := Instruction.usable_of_plain (h.plain ▸ husable)
  exact bundleMember_eq_ok_iff.2
    ⟨rfl, Shape.classify_eq_ok_iff.2 ⟨h.plain ▸ hfits, h.modes, husable⟩, hrole, hmode⟩

theorem nodup_destinations_of_allOnes {i : Instruction} (h : i.AllOnes) :
    (i.members.filterMap Instruction.destination?).Nodup := by
  obtain ⟨a, m, hperm, ha, hm⟩ := h.members
  rw [(hperm.filterMap _).nodup_iff]
  have hdest {j : Instruction} {r : Reg} (hr : j.destination? = some r) : .reg r ∈ j.plain := by
    unfold Instruction.destination? at hr
    split at hr
    · cases hr
    split at hr
    · next hops =>
      cases hr
      exact List.mem_filter.2 ⟨hops ▸ List.mem_cons_self, rfl⟩
    · cases hr
  cases hda : a.destination? with
  | none => cases hdm : m.destination? <;> simp [hda, hdm]
  | some r =>
    cases hdm : m.destination? with
    | none => simp [hda, hdm]
    | some r' =>
      have hr := hdest hda
      have hr' := hdest hdm
      rw [ha.plain] at hr
      rw [hm.plain] at hr'
      have hne : r ≠ r' := by
        rintro rfl
        simp at hr hr'
        simp [hr] at hr'
      simp [hda, hdm, hne]

theorem encode_of_allOnes {p : Program} {i : Instruction} (h : i.AllOnes) :
    ∃ relocs, i.encode p = .ok ⟨errorWord, relocs⟩ := by
  have hnodup := nodup_destinations_of_allOnes h
  have hcond : i.cond = .always := h.conditions i List.mem_cons_self
  obtain ⟨a, m, hperm, ha, hm⟩ := h.members
  have hamember : bundleMember a = .ok ⟨.alu, a, .rrr, none⟩ := by
    refine bundleMember_of_spells ha rfl
      (by simp [Operand.Usable, Operand.inFile, Reg.inFile, RegClass.count]) ?_ (by decide)
    exact bundleRole_eq_ok_iff.2 (.inr (.inr (.inl ⟨rfl, rfl, ha.opcode ▸ by decide⟩)))
  have hmmember : bundleMember m = .ok ⟨.mac, m, .accRR, some .ss⟩ := by
    refine bundleMember_of_spells hm rfl
      (by simp [Operand.Usable, Operand.inFile, Reg.inFile, RegClass.count]) ?_ (by decide)
    exact bundleRole_eq_ok_iff.2 (.inr (.inr (.inr (.inl ⟨rfl, rfl, hm.opcode ▸ by decide⟩))))
  -- the two orders of the operations differ only in the members of the selection
  obtain ⟨ms, hms, horder, hshape, harole, hmrole⟩ : ∃ ms : List Member,
      List.Forall₂ (fun j m => bundleMember j = .ok m) i.members ms ∧ orderLoads ms = ms ∧
      BundleShape.ofMembers? ms = some .aluMac ∧
      Selection.member? ⟨.bAluMac, 15, i, ms⟩ .alu = some ⟨.alu, a, .rrr, none⟩ ∧
      Selection.member? ⟨.bAluMac, 15, i, ms⟩ .mac = some ⟨.mac, m, .accRR, some .ss⟩ := by
    rcases List.perm_pair.1 hperm with h | h
    · exact ⟨[⟨.alu, a, .rrr, none⟩, ⟨.mac, m, .accRR, some .ss⟩],
        h ▸ .cons hamember (.cons hmmember .nil), rfl, rfl, rfl, rfl⟩
    · exact ⟨[⟨.mac, m, .accRR, some .ss⟩, ⟨.alu, a, .rrr, none⟩],
        h ▸ .cons hmmember (.cons hamember .nil), rfl, rfl, rfl, rfl⟩
  have hones := (Selection.emits_ones_iff (p := p) harole hmrole
    (bundled_of_bundleMember hamember).2.1.classified
    (bundled_of_bundleMember hmmember).2.1.classified rfl rfl).2 ⟨rfl, hcond, ha, hm⟩
  have hlen : i.siblings.length = 1 := Nat.succ.inj hperm.length_eq
  have hselect : select i = .ok ⟨.bAluMac, 15, i, ms⟩ := by
    have hbundle : ¬i.siblings.isEmpty = true := by simp [← List.length_eq_zero_iff, hlen]
    rw [select, if_neg hbundle, selectBundle_eq_ok_iff]
    refine ⟨ms, ⟨.aluMac, .bAluMac, 15⟩, by decide, hms, horder.symm ▸ hshape, by rw [horder], ?_⟩
    exact Selection.validate_of_emits fun f hf => ⟨_, hones f hf⟩
  refine encode_eq_ok_iff.2 ⟨checkStructure_eq_ok_iff.2 ⟨by omega, ?_, hnodup⟩, _, hselect, h.format,
    FormatId.bAluMac.layout.map fun f => (f, span f.width - 1), rfl, ?_, by decide⟩
  · intro j hj
    rw [hcond]
    exact h.conditions j (List.mem_cons_of_mem _ hj)
  · simpa using hones

/-- The word of an instruction that encodes is the error word in one case. -/
theorem errorWord_encode_iff {p : Program} {i : Instruction} {e : EncodedWord}
    (h : i.encode p = .ok e) : e.word = errorWord ↔ i.AllOnes := by
  constructor
  · exact allOnes_of_encode h
  · intro hones
    obtain ⟨relocs, hencode⟩ := encode_of_allOnes (p := p) hones
    cases h.symm.trans hencode
    rfl

theorem FormatId.tag_ne_error : ∀ f ∈ all, f.tag ≠ "ERROR" := by decide +kernel

theorem isError_assemble_iff {p : Program} {i : Instruction} :
    (i.assemble p).1.isError = true ↔ ∃ e, i.encode p = .error e := by
  unfold Instruction.assemble
  cases hencode : i.encode p with
  | error e => simp [ListingLine.isError]
  | ok e =>
    obtain ⟨-, s, t, ht, -, hformat, -⟩ := holds_of_encode hencode
    have htag : s.format.tag ≠ "ERROR" := FormatId.tag_ne_error s.format (FormatId.mem_all _)
    simp [ListingLine.isError, hformat, htag]

theorem isSome_assemble_iff {p : Program} {i : Instruction} :
    (i.assemble p).2.isSome = true ↔ ∃ e, i.encode p = .error e := by
  unfold Instruction.assemble
  cases i.encode p <;> simp

theorem word_assemble_eq_errorWord_iff {p : Program} {i : Instruction} :
    (i.assemble p).1.word = errorWord ↔ (i.assemble p).1.isError = true ∨ i.AllOnes := by
  rw [isError_assemble_iff]
  unfold Instruction.assemble
  cases hencode : i.encode p with
  | error e => simp
  | ok e => simpa using errorWord_encode_iff hencode

theorem isError_assemble_of_allOnes {p : Program} {i : Instruction} (h : i.AllOnes) :
    (i.assemble p).1.isError = false := by
  obtain ⟨relocs, hencode⟩ := encode_of_allOnes (p := p) h
  rw [Bool.eq_false_iff, ne_eq, isError_assemble_iff, hencode]
  simp

theorem decodeWord?_assemble_eq_none_iff {p : Program} {i : Instruction} (hfit : i.TargetsFit p) :
    decodeWord? (i.assemble p).1.word i.programAddr = none ↔ (i.assemble p).1.word = errorWord := by
  constructor
  · intro hnone
    by_contra hword
    cases hencode : i.encode p with
    | error e =>
      rw [Instruction.assemble, hencode] at hword
      exact hword rfl
    | ok e =>
      rw [Instruction.assemble, hencode] at hword hnone
      obtain ⟨_, _, _, _, _, _, _, _, _, _, hsome⟩ := decodeWord?_of_encode hencode hfit hword
      cases hnone.symm.trans hsome
  · intro hword
    rw [hword]
    exact decodeWord?_errorWord _

/-- Which words of a listing are the error word: those of the errors, all of them counted, and that of
the one instruction whose bits are all set, which is no error. These are the words that do not decode. -/
theorem Program.assemble_errorWord_iff (p : Program) :
    p.assemble.errors = p.assemble.listing.countP ListingLine.isError ∧
      List.Forall₂ (fun i l => (l.word = errorWord ↔ l.isError = true ∨ i.AllOnes) ∧
        (i.AllOnes → l.isError = false) ∧
        (i.TargetsFit p → (decodeWord? l.word i.programAddr = none ↔ l.isError = true ∨ i.AllOnes)))
        p.words p.assemble.listing := by
  constructor
  · dsimp only [Program.assemble, Assembly.errors]
    rw [List.length_filterMap_eq_countP, List.countP_map, List.countP_map, List.countP_map]
    exact List.countP_congr fun i _ => isSome_assemble_iff.trans isError_assemble_iff.symm
  · dsimp only [Program.assemble]
    rw [List.map_map, List.forall₂_map_right_iff, List.forall₂_same]
    intro i hi
    refine ⟨word_assemble_eq_errorWord_iff, isError_assemble_of_allOnes, fun hfit => ?_⟩
    exact (decodeWord?_assemble_eq_none_iff hfit).trans word_assemble_eq_errorWord_iff

end QuadDsp
