import QuadDsp.Proofs.Format.Accepted

/-! # The same word at another place

Whether a word is accepted, and in which format, depends on its operations alone: what they are called,
their operands, conditions and conjugation. Words with the same operations are selected alike
(`select_alike`), wherever they stand and whatever a run has recorded in them; and where the format has a
field for it, any condition will do (`select_of_sameActions`). -/

namespace QuadDsp

namespace Instruction

/-- The same operation, under whatever condition. -/
structure SameAction (i j : Instruction) : Prop where
  opcode : j.opcode = i.opcode
  operands : j.operands = i.operands
  conjugate : j.conjugate = i.conjugate

/-- The same operation, wherever it stands. -/
structure SameOperation (i j : Instruction) : Prop where
  opcode : j.opcode = i.opcode
  operands : j.operands = i.operands
  condition : j.condition = i.condition
  conjugate : j.conjugate = i.conjugate

/-- The same operations in one word. -/
def SameWord (i j : Instruction) : Prop := List.Forall₂ SameOperation i.members j.members

variable {i j k : Instruction}

theorem SameOperation.refl (i : Instruction) : i.SameOperation i := ⟨rfl, rfl, rfl, rfl⟩

theorem SameOperation.trans (h : i.SameOperation j) (h' : j.SameOperation k) : i.SameOperation k :=
  ⟨h'.opcode.trans h.opcode, h'.operands.trans h.operands, h'.condition.trans h.condition,
    h'.conjugate.trans h.conjugate⟩

theorem SameOperation.sameAction (h : i.SameOperation j) : i.SameAction j := ⟨h.opcode, h.operands, h.conjugate⟩

theorem SameAction.destination? (h : i.SameAction j) : j.destination? = i.destination? := by
  unfold Instruction.destination?
  rw [h.opcode, h.operands]

theorem SameWord.refl (i : Instruction) : i.SameWord i := List.forall₂_same.2 fun j _ => .refl j

theorem SameWord.trans (h : i.SameWord j) (h' : j.SameWord k) : i.SameWord k := by
  have hboth := exists_forall₂_forall₂_iff.1 ⟨_, h, h'⟩
  refine hboth.imp ?_
  rintro a c ⟨b, hab, hbc⟩
  exact hab.trans hbc

theorem SameWord.head (h : i.SameWord j) : i.SameOperation j := (List.forall₂_cons.1 h).1

theorem SameWord.siblings (h : i.SameWord j) : List.Forall₂ SameOperation i.siblings j.siblings :=
  (List.forall₂_cons.1 h).2

theorem SameWord.sameActions (h : i.SameWord j) : List.Forall₂ SameAction i.members j.members :=
  h.imp fun _ _ => SameOperation.sameAction

theorem SameWord.cond (h : i.SameWord j) : j.cond = i.cond := by
  unfold Instruction.cond
  rw [h.head.condition]

theorem firstRepeat_alike {l l' : List Instruction} (h : List.Forall₂ SameAction l l') (seen : List Reg) :
    firstRepeat seen l' = firstRepeat seen l := by
  induction h generalizing seen with
  | nil => rfl
  | cons hab _ ih => simp only [firstRepeat_cons, hab.destination?, ih]

/-- The same word is well-formed, or malformed in the same way. -/
theorem SameWord.checkStructure (h : i.SameWord j) : checkStructure j = checkStructure i := by
  have hcond : j.siblings.filterMap (·.condition) = i.siblings.filterMap (·.condition) := by
    have hmap := map_eq_map_of_forall₂ (fun a b hab => SameOperation.condition hab) h.siblings.flip
    simpa [List.filterMap_map] using congrArg (List.filterMap id) hmap
  have hlen := h.siblings.length_eq
  unfold QuadDsp.checkStructure
  rw [firstRepeat_alike h.sameActions, h.cond]
  cases hi : i.siblings with
  | nil =>
    rw [hi] at hlen
    rw [List.eq_nil_of_length_eq_zero hlen.symm]
  | cons a rest =>
    obtain ⟨b, rest', hj⟩ : ∃ b rest', j.siblings = b :: rest' := by
      rw [hi] at hlen
      exact List.exists_cons_of_length_eq_add_one hlen.symm
    rw [hi, hj] at hlen hcond
    simp only [hj, ← hlen, hcond]

end Instruction

/-- The same operation in the same part. -/
structure Member.Alike (m m' : Member) : Prop where
  role : m'.role = m.role
  shape : m'.shape = m.shape
  mode : m'.mode = m.mode
  instr : m.instr.SameAction m'.instr

namespace Member.Alike

variable {m m' : Member}

theorem operand? (h : m.Alike m') (arg : Arg) : m'.operand? arg = m.operand? arg := by
  have hnth : m'.nth? = m.nth? := by
    funext n
    rw [Member.nth?, Member.nth?, h.instr.operands]
  cases arg <;> simp only [Member.operand?, hnth, h.shape]

theorem memberValue (h : m.Alike m') (f : Field) : f.memberValue m' = f.memberValue m := by
  have hmode : m'.mulMode = m.mulMode := by rw [Member.mulMode, h.mode, Member.mulMode]
  simp only [Field.memberValue, Member.mem?, Member.noForm, Shape.noForm, Member.opcode, hmode, h.operand?,
    h.role, h.instr.opcode, h.instr.operands, h.instr.conjugate]

theorem checkOperands (h : m.Alike m') : m'.checkOperands = m.checkOperands := by
  simp only [Member.checkOperands, Member.checkOperands.bitNumber, Member.reg?, Member.imm?,
    Member.tokenAt, Member.opcode, h.operand?, h.shape, h.instr.opcode]

theorem dataReg? (h : m.Alike m') : m'.dataReg? = m.dataReg? := by
  simp only [Member.dataReg?, h.operand?]

end Member.Alike

section Select

variable {i j : Instruction}

theorem Shape.noForm_congr (h : i.SameAction j) : noForm j = noForm i := by
  rw [noForm, noForm, h.opcode, h.operands]

theorem Shape.classify_congr (h : i.SameAction j) : classify j = classify i := by
  simp only [classify, noForm_congr h, h.operands]

theorem bundleRole_congr (h : i.SameAction j) (shape : Shape) : bundleRole j shape = bundleRole i shape := by
  simp only [bundleRole, h.opcode, h.operands]

theorem bundleMember_alike (h : i.SameAction j) : Agree Member.Alike (bundleMember i) (bundleMember j) := by
  simp only [bundleMember, Shape.classify_congr h, bundleRole_congr h, Shape.noForm_congr h, h.opcode]
  refine Agree.bind_same _ fun classified => Agree.bind_same _ fun role => ?_
  obtain ⟨shape, mode⟩ := classified
  dsimp only
  split
  · exact .error _
  · split
    · exact .error _
    · exact .ok ⟨rfl, rfl, rfl, h⟩

theorem member?_alike {ms ms' : List Member} (h : List.Forall₂ Member.Alike ms ms') (role : Role) :
    Option.Rel Member.Alike (ms.find? (·.role == role)) (ms'.find? (·.role == role)) := by
  induction h with
  | nil => exact .none
  | cons hab _ ih =>
    rw [List.find?_cons, List.find?_cons, hab.role]
    split
    · exact .some hab
    · exact ih

section Selections

variable {s s' : Selection} (hfixed : s'.fixed = s.fixed) (hhead : s.head.SameAction s'.head)
  (hmembers : List.Forall₂ Member.Alike s.members s'.members)

include hfixed hhead hmembers

theorem fieldValue_alike {f : Field} (hcond : s'.head.cond = s.head.cond ∨ f.kind ≠ .cond) :
    s'.fieldValue f = s.fieldValue f := by
  have hvalue : (do return some (← f.memberValue (← orElse (Shape.noForm s'.head) (s'.member? f.role))) :
        Except ShapeError (Option Nat)) =
      do return some (← f.memberValue (← orElse (Shape.noForm s.head) (s.member? f.role))) := by
    have hmember := member?_alike hmembers f.role
    unfold Selection.member?
    generalize s.members.find? (·.role == f.role) = o at hmember ⊢
    generalize s'.members.find? (·.role == f.role) = o' at hmember ⊢
    cases hmember with
    | none => rw [Shape.noForm_congr hhead]
    | some hab =>
      simp only [orElse, bind, Except.bind]
      rw [hab.memberValue]
  unfold Selection.fieldValue
  rw [hfixed, hvalue]
  rcases hcond with hcond | hkind
  · rw [hcond]
  · split
    · rfl
    · split <;> first | rfl | contradiction

theorem validate_alike (hformat : s'.format = s.format) : s'.validate = s.validate := by
  unfold Selection.validate
  rw [hformat]
  refine congrArg s.format.layout.forM (funext fun f => ?_)
  by_cases hkind : f.kind = .cond
  · have hany (s : Selection) : discard (s.fieldValue f) = .ok () := by
      unfold Selection.fieldValue
      rw [hkind]
      split <;> rfl
    rw [hany, hany]
  · rw [fieldValue_alike hfixed hhead hmembers (.inr hkind)]

end Selections

/-- The same format, and the same operations in the same parts. -/
structure Selection.Alike (s s' : Selection) : Prop where
  format : s'.format = s.format
  fixed : s'.fixed = s.fixed
  head : s.head.SameAction s'.head
  members : List.Forall₂ Member.Alike s.members s'.members

theorem Selection.Alike.validate {s s' : Selection} (h : s.Alike s') : s'.validate = s.validate :=
  validate_alike h.fixed h.head h.members h.format

theorem selectSingle_alike (h : i.SameAction j) (hcond : j.cond = i.cond) :
    Agree Selection.Alike (selectSingle i) (selectSingle j) := by
  simp only [selectSingle, Shape.classify_congr h, Shape.noForm_congr h, h.opcode, hcond]
  refine Agree.bind_same _ fun classified => Agree.bind_same _ fun entry => ?_
  obtain ⟨shape, mode⟩ := classified
  have halike : (⟨.op, i, shape, mode⟩ : Member).Alike ⟨.op, j, shape, mode⟩ := ⟨rfl, rfl, rfl, h⟩
  have hselection : (⟨entry.format, entry.fixed, i, [⟨.op, i, shape, mode⟩]⟩ : Selection).Alike
      ⟨entry.format, entry.fixed, j, [⟨.op, j, shape, mode⟩]⟩ := ⟨rfl, rfl, h, .cons halike .nil⟩
  dsimp only
  rw [halike.checkOperands, hselection.validate]
  split
  · exact .error _
  split
  · exact .error _
  refine Agree.bind_same _ fun _ => ?_
  split
  · exact .error _
  exact Agree.bind_same _ fun _ => .ok hselection

theorem selectSingle_of_sameAction (h : i.SameAction j) {s : Selection} (hs : selectSingle i = .ok s)
    (hcond : s.format.hasCond = true) : ∃ s', selectSingle j = .ok s' ∧ s.Alike s' := by
  obtain ⟨m, e, hmem, rfl, hm, ht, hcheck, rfl, -, hvalid⟩ := selectSingle_eq_ok_iff.1 hs
  have halike : m.Alike { m with instr := j } := ⟨rfl, rfl, rfl, h⟩
  have hselection : (⟨e.format, e.fixed, m.instr, [m]⟩ : Selection).Alike
      ⟨e.format, e.fixed, j, [{ m with instr := j }]⟩ := ⟨rfl, rfl, h, .cons halike .nil⟩
  refine ⟨_, selectSingle_eq_ok_iff.2 ⟨{ m with instr := j }, e, hmem, rfl, ⟨?_, hm.mode⟩, ?_, ?_, rfl, ?_, ?_⟩,
    hselection⟩
  · exact (Shape.classify_congr h).trans hm.classify
  · exact ⟨ht.role, ht.shape, fun hcoded => h.opcode.trans (ht.opcode hcoded)⟩
  · exact halike.checkOperands.trans hcheck
  · exact fun hnone => absurd (hcond.symm.trans hnone) (by decide)
  · exact hselection.validate.trans hvalid

theorem markLoad_alike {ms ms' : List Member} (h : List.Forall₂ Member.Alike ms ms') (n : Nat) :
    List.Forall₂ Member.Alike (markLoad n ms) (markLoad n ms') := by
  induction h generalizing n with
  | nil => exact .nil
  | @cons m m' rest rest' hab hrest ih =>
    by_cases hld : m.role = .ld
    · have hld' : m'.role = .ld := hab.role.trans hld
      cases n with
      | zero =>
        rw [markLoad_zero hld, markLoad_zero hld']
        exact .cons ⟨rfl, hab.shape, hab.mode, hab.instr⟩ hrest
      | succ n =>
        rw [markLoad_succ hld, markLoad_succ hld']
        exact .cons hab (ih n)
    · have hld' : m'.role ≠ .ld := fun h => hld (hab.role.symm.trans h)
      rw [markLoad_cons_of_ne hld, markLoad_cons_of_ne hld']
      exact .cons hab (ih n)

theorem orderLoads_alike {ms ms' : List Member} (h : List.Forall₂ Member.Alike ms ms') :
    List.Forall₂ Member.Alike (orderLoads ms) (orderLoads ms') := by
  have hloads : List.Forall₂ Member.Alike (ms.filter (·.role == .ld)) (ms'.filter (·.role == .ld)) :=
    List.rel_filter (fun {m m'} hm => by simp [hm.role]) h
  unfold orderLoads
  generalize ms.filter (·.role == .ld) = loads at hloads ⊢
  generalize ms'.filter (·.role == .ld) = loads' at hloads ⊢
  rcases hloads with _ | ⟨ha, _ | ⟨hb, _ | ⟨hc, hrest⟩⟩⟩
  · exact h
  · exact h
  · simp only [ha.dataReg?, hb.dataReg?]
    exact markLoad_alike h _
  · exact h

theorem ofMembers?_alike {ms ms' : List Member} (h : List.Forall₂ Member.Alike ms ms') :
    BundleShape.ofMembers? ms' = BundleShape.ofMembers? ms := by
  have hroles := map_eq_map_of_forall₂ (fun m m' hm => Member.Alike.role hm) h.flip
  have hcount (role : Role) : ms'.countP (·.role == role) = ms.countP (·.role == role) := by
    simpa [List.countP_map, Function.comp_def] using congrArg (List.countP (· == role)) hroles
  simp only [BundleShape.ofMembers?, hcount]

theorem selectBundle_alike (h : List.Forall₂ Instruction.SameAction i.members j.members) :
    Agree Selection.Alike (selectBundle i) (selectBundle j) := by
  have hmnemonics : j.mnemonics = i.mnemonics := by
    have hmap := map_eq_map_of_forall₂ (f := fun j : Instruction => j.opcode.mnemonic)
      (g := fun j => j.opcode.mnemonic) (fun a b hab => by rw [hab.opcode]) h
    rw [Instruction.mnemonics, Instruction.mnemonics, hmap]
  have hhead : i.SameAction j := (List.forall₂_cons.1 h).1
  simp only [selectBundle, Shape.noForm_congr hhead, hhead.opcode, hmnemonics]
  refine (Agree.mapM h fun a b hab => bundleMember_alike hab).bind fun ms ms' hms => ?_
  have horder := orderLoads_alike hms
  rw [ofMembers?_alike horder]
  refine Agree.bind_same _ fun shape => Agree.bind_same _ fun entry => ?_
  have hselection : (⟨entry.format, entry.fixed, i, orderLoads ms⟩ : Selection).Alike
      ⟨entry.format, entry.fixed, j, orderLoads ms'⟩ := ⟨rfl, rfl, hhead, horder⟩
  rw [hselection.validate]
  exact Agree.bind_same _ fun _ => .ok hselection

theorem isEmpty_siblings_congr (h : List.Forall₂ Instruction.SameAction i.members j.members) :
    j.siblings.isEmpty = i.siblings.isEmpty := by
  rw [Bool.eq_iff_iff, List.isEmpty_iff_length_eq_zero, List.isEmpty_iff_length_eq_zero,
    (List.forall₂_cons.1 h).2.length_eq]

/-- The same word is accepted in the same format, with its operations in the same parts, or refused for the
same reason. -/
theorem select_alike (h : i.SameWord j) : Agree Selection.Alike (select i) (select j) := by
  unfold select
  rw [isEmpty_siblings_congr h.sameActions]
  split
  · exact selectSingle_alike h.head.sameAction h.cond
  · exact selectBundle_alike h.sameActions

/-- A word is accepted under any condition, in the same format and with its operations in the same parts, if the
format has a field for conditions. -/
theorem select_of_sameActions (h : List.Forall₂ Instruction.SameAction i.members j.members) {s : Selection}
    (hs : select i = .ok s) (hcond : s.format.hasCond = true) : ∃ s', select j = .ok s' ∧ s.Alike s' := by
  unfold select at hs ⊢
  rw [isEmpty_siblings_congr h]
  split at hs
  · next hsingle =>
    rw [if_pos hsingle]
    exact selectSingle_of_sameAction (List.forall₂_cons.1 h).1 hs hcond
  · next hbundle =>
    rw [if_neg hbundle]
    exact (selectBundle_alike h).of_ok hs

end Select

end QuadDsp
