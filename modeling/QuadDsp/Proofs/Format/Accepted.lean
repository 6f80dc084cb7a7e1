import Mathlib.Data.List.Nodup
import QuadDsp.Proofs.Format.Classify
import QuadDsp.Proofs.Format.Forms
import QuadDsp.Proofs.Results

/-! # Accepted instructions

What it means that an instruction passes `checkStructure` (`checkStructure_eq_ok_iff`) and that `select`
accepts it: the selection fills a form of the table. Its
operations, one for each part of the form, have the shapes and opcodes of their parts, and every
field of the layout has a value (`select_fills`). -/

namespace QuadDsp

theorem orElse_eq_ok_iff {α : Type} {e : ShapeError} {o : Option α} {a : α} :
    orElse e o = .ok a ↔ o = some a := by
  cases o <;> simp [orElse]

/-- The register that an operation writes as its first operand. -/
def Instruction.destination? (i : Instruction) : Option Reg :=
  if i.opcode = .st then none
  else
    match i.operands with
    | .reg r :: _ => some r
    | _ => none

theorem firstRepeat_cons (seen : List Reg) (i : Instruction) (rest : List Instruction) :
    firstRepeat seen (i :: rest) =
      match i.destination? with
      | some r => if r ∈ seen then some r else firstRepeat (r :: seen) rest
      | none => firstRepeat seen rest := by
  rw [firstRepeat, Instruction.destination?]
  split
  · next hst => rw [if_pos hst]
  · next hops hst => rw [if_neg hst, hops]
  · next hst hops =>
    rw [if_neg hst]
    split
    · next r hdest =>
      split at hdest
      · next hreg => exact absurd hreg (hops _ _)
      · cases hdest
    · rfl

theorem firstRepeat_eq_none_iff {seen : List Reg} {l : List Instruction} :
    firstRepeat seen l = none ↔ (l.filterMap Instruction.destination?).Nodup ∧
      ∀ r ∈ l.filterMap Instruction.destination?, r ∉ seen := by
  induction l generalizing seen with
  | nil => simp [firstRepeat]
  | cons i rest ih =>
    rw [firstRepeat_cons]
    cases hdest : i.destination? with
    | none =>
      rw [List.filterMap_cons_none hdest]
      exact ih
    | some r =>
      rw [List.filterMap_cons_some hdest, List.nodup_cons, List.forall_mem_cons]
      dsimp only
      split
      · next hr => simp [hr]
      · next hr =>
        rw [ih]
        simp only [List.mem_cons, not_or]
        constructor
        · rintro ⟨hnodup, hseen⟩
          exact ⟨⟨fun hmem => (hseen r hmem).1 rfl, hnodup⟩, hr, fun x hx => (hseen x hx).2⟩
        · rintro ⟨⟨hnotMem, hnodup⟩, -, hseen⟩
          exact ⟨hnodup, fun x hx => ⟨fun h => hnotMem (h ▸ hx), hseen x hx⟩⟩

/-- What a well-formed word is: at most three operations, under one condition, with different
destinations. -/
theorem checkStructure_eq_ok_iff {i : Instruction} :
    checkStructure i = .ok () ↔ i.siblings.length ≤ 2 ∧
      (∀ j ∈ i.siblings, j.condition.getD i.cond = i.cond) ∧
      (i.members.filterMap Instruction.destination?).Nodup := by
  unfold checkStructure
  split
  · next hnil =>
    have hmembers : i.members = [i] := by rw [Instruction.members, hnil]
    rw [hnil, hmembers]
    cases hdest : i.destination? <;> simp [hdest]
  · have hcond : (i.siblings.filterMap (·.condition)).find? (· != i.cond) = none ↔
        ∀ j ∈ i.siblings, j.condition.getD i.cond = i.cond := by
      simp only [List.find?_eq_none, List.forall_mem_filterMap]
      refine forall₂_congr fun j _ => ?_
      cases j.condition <;> simp
    have hrepeat : firstRepeat [] i.members = none ↔
        (i.members.filterMap Instruction.destination?).Nodup := by
      simp [firstRepeat_eq_none_iff]
    rw [← hcond, ← hrepeat]
    split
    · next hlen => exact iff_of_false nofun fun h => absurd h.1 (Nat.not_le_of_lt hlen)
    · next hlen =>
      split
      · next hmixed => simp [hmixed]
      · next hnone =>
        split
        · next hfirst => simp [hfirst]
        · next hfirst => simp [hnone, hfirst, Nat.le_of_not_lt hlen]

/-- The operation can play the part. Which one a coded part plays, the word says. -/
structure FormPart.Takes (part : FormPart) (m : Member) : Prop where
  role : m.role = part.role
  shape : m.shape = part.shape
  opcode : part.role.isCoded = false → m.opcode = part.opcode

/-- Shape and mode are those of the instruction, and a mode stands exactly where one is needed. -/
structure Member.Classified (m : Member) : Prop where
  classify : Shape.classify m.instr = .ok (m.shape, m.mode)
  mode : m.mode.isSome = m.shape.needsMode

/-- Roles of the operations that access memory in a bundle. -/
def Role.isTransfer : Role → Bool
  | .ld | .ld2 | .st => true
  | _ => false

/-- The selection is that of an instruction in a form of the table. -/
structure Selection.Fills (s : Selection) (t : WordForm) (i : Instruction) : Prop where
  head : s.head = i
  format : s.format = t.format
  fixed : s.fixed = t.fixed
  instrs : s.members.map Member.instr = i.members
  classified : ∀ m ∈ s.members, m.Classified
  takes : ∀ m ∈ s.members, ∃ part ∈ t.parts, part.Takes m
  roles : (s.members.map Member.role).Perm (t.parts.map FormPart.role)
  post : ∀ m ∈ s.members, m.role.isTransfer = true → ∃ space i n, m.mem? = some ⟨space, .post i n⟩
  unconditional : t.format.hasCond = false → i.cond = .always
  values : ∀ f ∈ t.format.layout, ∃ v, s.fieldValue f = .ok v

theorem Selection.member?_of_nodup {s : Selection} (hnd : (s.members.map Member.role).Nodup) {m : Member}
    (hm : m ∈ s.members) : s.member? m.role = some m := by
  cases hf : s.member? m.role with
  | none => exact absurd (beq_self_eq_true m.role) (List.find?_eq_none.1 hf m hm)
  | some m' =>
    have hrole : m'.role = m.role :=
      eq_of_beq (List.find?_some (p := fun m' : Member => m'.role == m.role) hf)
    rw [List.inj_on_of_nodup_map hnd (List.mem_of_find?_eq_some hf) hm hrole]

theorem Selection.validate_eq_ok_iff {s : Selection} :
    s.validate = .ok () ↔ ∀ f ∈ s.format.layout, ∃ v, s.fieldValue f = .ok v := by
  have hdiscard : ∀ f, discard (s.fieldValue f) = .ok () ↔ ∃ v, s.fieldValue f = .ok v := by
    intro f
    cases s.fieldValue f <;> simp [discard, Functor.mapConst, Except.map]
  rw [validate, forM_eq_ok_iff]
  simp only [hdiscard]

theorem selectSingle_eq_ok_iff {i : Instruction} {s : Selection} :
    selectSingle i = .ok s ↔ ∃ m : Member, ∃ e ∈ formatEntries,
      m.instr = i ∧ m.Classified ∧ (⟨.op, e.opcode, e.shape⟩ : FormPart).Takes m ∧
      m.checkOperands = .ok () ∧ s = ⟨e.format, e.fixed, i, [m]⟩ ∧
      (e.format.hasCond = false → i.cond = .always) ∧ s.validate = .ok () := by
  simp only [selectSingle, bind_eq_ok_iff, Prod.exists, orElse_eq_ok_iff, throw_if_eq_ok_iff]
  constructor
  · rintro ⟨shape, mode, hclass, e, he, hmissing, hextra, _, hcheck, hcond, _, hvalid, ⟨⟩⟩
    obtain ⟨hmem, hop, rfl⟩ := FormatEntry.of_find? he
    refine ⟨⟨.op, i, e.shape, mode⟩, e, hmem, rfl, ⟨hclass, ?_⟩, ⟨rfl, rfl, fun _ => hop.symm⟩, hcheck,
      rfl, ?_, hvalid⟩
    · cases hn : e.shape.needsMode <;> cases mode <;> simp_all
    · intro hf
      simpa [hf] using hcond
  · rintro ⟨m, e, hmem, rfl, hm, ht, hcheck, rfl, hcond, hvalid⟩
    obtain ⟨role, i, shape, mode⟩ := m
    obtain rfl : role = .op := ht.role
    obtain rfl : shape = e.shape := ht.shape
    have hop : i.opcode = e.opcode := ht.opcode rfl
    have hmode : mode.isSome = e.shape.needsMode := hm.mode
    refine ⟨e.shape, mode, hm.classify, e, ?_, ?_, ?_, (), hcheck, ?_, (), hvalid, rfl⟩
    · rw [hop]
      exact FormatEntry.find?_of_mem e hmem
    · cases mode <;> simp_all
    · cases mode <;> simp_all
    · intro h
      simp_all

/-- The operations that can be bundled, by the parts they play. -/
theorem bundleRole_eq_ok_iff {i : Instruction} {shape : Shape} {role : Role} :
    bundleRole i shape = .ok role ↔
      (role = .ld ∧ shape = .rMemM ∧ i.opcode = .ld ∧
        ∃ space j n, i.operands[1]? = some (.mem ⟨space, .post j n⟩)) ∨
      (role = .st ∧ shape = .memMR ∧ i.opcode = .st ∧
        ∃ space j n, i.operands[0]? = some (.mem ⟨space, .post j n⟩)) ∨
      (role = .alu ∧ shape = .rrr ∧ i.opcode ∈ bundledAlu) ∨
      (role = .mac ∧ shape = .accRR ∧ i.opcode ∈ bundledMac) ∨
      (role = .shf ∧ shape = .rrImm ∧ i.opcode ∈ bundledShift) := by
  constructor
  · intro h
    unfold bundleRole at h
    split at h
    case h_1 | h_2 =>
      rename_i n hop hslot
      dsimp only at h
      split at h
      case h_1 | h_2 =>
        rename_i hop' hpost
        cases h
        cases hslot
        split at hpost
        · simp_all
        · cases hpost
      · split at h <;> cases h
    · split at h
      case h_4 => cases h
      all_goals
        split at h
        · cases h
          simp_all
        · cases h
  · rintro (⟨rfl, rfl, hop, space, j, n, ho⟩ | ⟨rfl, rfl, hop, space, j, n, ho⟩ | ⟨rfl, rfl, hop⟩ |
      ⟨rfl, rfl, hop⟩ | ⟨rfl, rfl, hop⟩)
    · have hslot : Shape.rMemM.memSlot? = some 1 := rfl
      simp [bundleRole, hslot, hop, ho]
    · have hslot : Shape.memMR.memSlot? = some 0 := rfl
      simp [bundleRole, hslot, hop, ho]
    · have hslot : Shape.rrr.memSlot? = none := rfl
      simp [bundleRole, hslot, hop]
    · have hslot : Shape.accRR.memSlot? = none := rfl
      simp [bundleRole, hslot, hop]
    · have hslot : Shape.rrImm.memSlot? = none := rfl
      simp [bundleRole, hslot, hop]

theorem bundleMember_eq_ok_iff {i : Instruction} {m : Member} :
    bundleMember i = .ok m ↔ m.instr = i ∧ Shape.classify i = .ok (m.shape, m.mode) ∧
      bundleRole i m.shape = .ok m.role ∧ (m.mode.isSome = true ↔ m.role = .mac) := by
  simp only [bundleMember, bind_eq_ok_iff, Prod.exists, throw_if_eq_ok_iff]
  constructor
  · rintro ⟨shape, mode, hclass, role, hrole, hmissing, hextra, ⟨⟩⟩
    refine ⟨rfl, hclass, hrole, ?_⟩
    cases mode <;> simp_all
  · rintro ⟨rfl, hclass, hrole, hmode⟩
    refine ⟨m.shape, m.mode, hclass, m.role, hrole, ?_, ?_, rfl⟩
    · rintro ⟨hmac, hnone⟩
      simp_all
    · rintro ⟨hmac, hsome⟩
      exact hmac (hmode.1 hsome)

theorem selectBundle_eq_ok_iff {i : Instruction} {s : Selection} :
    selectBundle i = .ok s ↔ ∃ ms, ∃ b ∈ bundleEntries,
      List.Forall₂ (fun j m => bundleMember j = .ok m) i.members ms ∧
      BundleShape.ofMembers? (orderLoads ms) = some b.shape ∧
      s = ⟨b.format, b.fixed, i, orderLoads ms⟩ ∧ s.validate = .ok () := by
  simp only [selectBundle, bind_eq_ok_iff, orElse_eq_ok_iff, mapM_eq_ok_iff]
  constructor
  · rintro ⟨ms, hms, shape, hshape, b, hb, _, hvalid, ⟨⟩⟩
    obtain ⟨hmem, rfl⟩ := BundleEntry.of_find? hb
    exact ⟨ms, b, hmem, hms, hshape, rfl, hvalid⟩
  · rintro ⟨ms, b, hmem, hms, hshape, rfl, hvalid⟩
    exact ⟨ms, hms, b.shape, hshape, b, BundleEntry.find?_of_mem b hmem, (), hvalid, rfl⟩

/-- The same operation, or a load that is now the second one. -/
def Member.Marked (m m' : Member) : Prop := m' = m ∨ m.role = .ld ∧ m' = { m with role := .ld2 }

theorem Member.Marked.instr_eq {m m' : Member} (h : m.Marked m') : m'.instr = m.instr := by
  rcases h with rfl | ⟨-, rfl⟩ <;> rfl

theorem markLoad_cons_of_ne {n : Nat} {m : Member} (h : m.role ≠ .ld) (rest : List Member) :
    markLoad n (m :: rest) = m :: markLoad n rest := by
  cases n <;> simp [markLoad, h]

theorem markLoad_zero {m : Member} (h : m.role = .ld) (rest : List Member) :
    markLoad 0 (m :: rest) = { m with role := .ld2 } :: rest := by
  simp [markLoad, h]

theorem markLoad_succ {n : Nat} {m : Member} (h : m.role = .ld) (rest : List Member) :
    markLoad (n + 1) (m :: rest) = m :: markLoad n rest := by
  simp [markLoad, h]

theorem marked_markLoad (n : Nat) (ms : List Member) :
    List.Forall₂ Member.Marked ms (markLoad n ms) := by
  induction ms generalizing n with
  | nil => exact .nil
  | cons m rest ih =>
    by_cases hld : m.role = .ld
    · cases n with
      | zero =>
        rw [markLoad_zero hld]
        exact .cons (.inr ⟨hld, rfl⟩) (List.forall₂_same.2 fun _ _ => .inl rfl)
      | succ n =>
        rw [markLoad_succ hld]
        exact .cons (.inl rfl) (ih n)
    · rw [markLoad_cons_of_ne hld]
      exact .cons (.inl rfl) (ih n)

theorem marked_orderLoads (ms : List Member) : List.Forall₂ Member.Marked ms (orderLoads ms) := by
  unfold orderLoads
  split
  · exact marked_markLoad _ ms
  · exact List.forall₂_same.2 fun _ _ => .inl rfl

/-- How many operations play a part. -/
def roleCount (role : Role) (ms : List Member) : Nat := ms.countP (·.role == role)

theorem roleCount_eq_of_marked {role : Role} (hld : role ≠ .ld) (hld2 : role ≠ .ld2)
    {ms ms' : List Member} (h : List.Forall₂ Member.Marked ms ms') :
    roleCount role ms' = roleCount role ms := by
  unfold roleCount
  induction h with
  | nil => rfl
  | cons hm _ ih =>
    rcases hm with rfl | ⟨hm, rfl⟩
    · rw [List.countP_cons, List.countP_cons, ih]
    · have h1 : (Role.ld == role) = false := beq_false_of_ne hld.symm
      have h2 : (Role.ld2 == role) = false := beq_false_of_ne hld2.symm
      simp [ih, hm, h1, h2]

theorem roleCount_markLoad {n : Nat} {ms : List Member} (h : n < roleCount .ld ms) :
    roleCount .ld (markLoad n ms) + 1 = roleCount .ld ms ∧
      roleCount .ld2 (markLoad n ms) = roleCount .ld2 ms + 1 := by
  unfold roleCount at *
  have hne : (Role.ld == Role.ld2) = false := rfl
  have hne' : (Role.ld2 == Role.ld) = false := rfl
  induction ms generalizing n with
  | nil => cases h
  | cons m rest ih =>
    by_cases hld : m.role = .ld
    · cases n with
      | zero =>
        rw [markLoad_zero hld]
        simp [hld, hne, hne']
      | succ n =>
        have hn : n < rest.countP (·.role == .ld) := by
          simpa [List.countP_cons, hld] using h
        obtain ⟨h1, h2⟩ := ih hn
        rw [markLoad_succ hld]
        simp only [List.countP_cons, hld, hne]
        omega
    · have hn : n < rest.countP (·.role == .ld) := by
        simpa [List.countP_cons, hld] using h
      obtain ⟨h1, h2⟩ := ih hn
      rw [markLoad_cons_of_ne hld]
      simp only [List.countP_cons, h2]
      omega

/-- Of two loads, one is the second; otherwise none is. -/
theorem roleCount_orderLoads {ms : List Member} (h : ∀ m ∈ ms, m.role ≠ .ld2) :
    if roleCount .ld ms = 2 then
      roleCount .ld (orderLoads ms) = 1 ∧ roleCount .ld2 (orderLoads ms) = 1
    else
      roleCount .ld (orderLoads ms) = roleCount .ld ms ∧ roleCount .ld2 (orderLoads ms) = 0 := by
  have hzero : roleCount .ld2 ms = 0 := List.countP_eq_zero.2 fun m hm => by simpa using h m hm
  have hfilter : roleCount .ld ms = (ms.filter (·.role == .ld)).length := List.countP_eq_length_filter
  split
  · next htwo =>
    obtain ⟨a, b, hab⟩ := List.length_eq_two.1 (hfilter.symm.trans htwo)
    obtain ⟨n, hn, horder⟩ : ∃ n < 2, orderLoads ms = markLoad n ms := by
      unfold orderLoads
      rw [hab]
      exact ⟨_, by dsimp only; split <;> decide, rfl⟩
    obtain ⟨h1, h2⟩ := roleCount_markLoad (htwo.symm ▸ hn)
    rw [horder]
    omega
  · next htwo =>
    have horder : orderLoads ms = ms := by
      unfold orderLoads
      split
      · next a b hab =>
        rw [hab] at hfilter
        exact absurd hfilter htwo
      · rfl
    rw [horder]
    exact ⟨rfl, hzero⟩

/-- The shape of a bundle is in how many operations play each part, of loads in all. -/
theorem ofMembers?_eq_some_iff {ms : List Member} {shape : BundleShape} :
    BundleShape.ofMembers? ms = some shape ↔
      roleCount .alu ms = shape.roles.count .alu ∧ roleCount .mac ms = shape.roles.count .mac ∧
      roleCount .shf ms = shape.roles.count .shf ∧ roleCount .st ms = shape.roles.count .st ∧
      roleCount .ld ms + roleCount .ld2 ms = shape.roles.count .ld + shape.roles.count .ld2 := by
  unfold BundleShape.ofMembers? roleCount
  constructor
  · intro h
    dsimp only at h
    split at h <;> cases h <;> exact ⟨‹_›, ‹_›, ‹_›, ‹_›, ‹_›⟩
  · rintro ⟨halu, hmac, hshf, hst, hld⟩
    dsimp only
    rw [halu, hmac, hshf, hst, hld]
    cases shape <;> rfl

theorem roles_perm_of_ofMembers? {ms : List Member} {shape : BundleShape}
    (hop : ∀ m ∈ ms, m.role ≠ .op) (hld2 : ∀ m ∈ ms, m.role ≠ .ld2)
    (h : BundleShape.ofMembers? (orderLoads ms) = some shape) :
    ((orderLoads ms).map Member.role).Perm shape.roles := by
  have hloads := roleCount_orderLoads hld2
  have hzero : roleCount .op (orderLoads ms) = 0 := by
    rw [roleCount_eq_of_marked (by decide) (by decide) (marked_orderLoads ms)]
    exact List.countP_eq_zero.2 fun m hm => by simpa using hop m hm
  obtain ⟨halu, hmac, hshf, hst, hld⟩ := ofMembers?_eq_some_iff.1 h
  refine List.perm_iff_count.2 fun role => ?_
  have hcount : ((orderLoads ms).map Member.role).count role = roleCount role (orderLoads ms) := by
    rw [List.count, List.countP_map]
    rfl
  rw [hcount]
  split at hloads <;> cases shape <;> simp [BundleShape.roles] at halu hmac hshf hst hld <;>
    cases role <;> simp [BundleShape.roles] <;> omega

/-- An operation that plays a part of a bundle. -/
structure Member.Bundled (m : Member) : Prop where
  classified : m.Classified
  role : m.role ≠ .op
  takes : m.role.part.Takes m
  post : m.role.isTransfer = true → ∃ space i n, m.mem? = some ⟨space, .post i n⟩

theorem Member.Bundled.marked {m m' : Member} (h : m.Bundled) (hm : m.Marked m') : m'.Bundled := by
  rcases hm with rfl | ⟨hld, rfl⟩
  · exact h
  · have hshape : m.shape = .rMemM := by
      rw [h.takes.shape, hld]
      rfl
    have hop : m.opcode = .ld := by
      rw [h.takes.opcode (by rw [hld]; rfl), hld]
      rfl
    exact ⟨⟨h.classified.classify, h.classified.mode⟩, Role.noConfusion, ⟨rfl, hshape, fun _ => hop⟩,
      fun _ => h.post (by rw [hld]; rfl)⟩

theorem Instruction.plain_eq_operands {i : Instruction} {shape : Shape}
    (h : Shape.classify i = .ok (shape, none)) : i.plain = i.operands := by
  have hmodes : i.modes = [] := (Shape.classify_eq_ok_iff.1 h).2.1
  exact List.filter_eq_self.2 fun o ho => by simpa using List.filter_eq_nil_iff.1 hmodes o ho

theorem Member.Classified.plain_eq {m : Member} (hm : m.Classified) (hneeds : m.shape.needsMode = false) :
    m.instr.plain = m.instr.operands ∧ m.instr.modes = [] := by
  have hnone : m.mode = none := by
    rw [← Option.isNone_iff_eq_none, ← Option.not_isSome, hm.mode, hneeds]
    rfl
  have hclassify := hnone ▸ hm.classify
  exact ⟨Instruction.plain_eq_operands hclassify, (Shape.classify_eq_ok_iff.1 hclassify).2.1⟩

theorem bundled_of_bundleMember {i : Instruction} {m : Member} (h : bundleMember i = .ok m) :
    m.instr = i ∧ m.Bundled ∧ m.role ≠ .ld2 := by
  obtain ⟨rfl, hclass, hrole, hmode⟩ := bundleMember_eq_ok_iff.1 h
  obtain ⟨role, i, shape, mode⟩ := m
  dsimp only at hclass hrole hmode
  have hnone : role ≠ .mac → mode = none := fun hne => by
    cases mode with
    | none => rfl
    | some k => exact absurd (hmode.1 rfl) hne
  have hmem (hne : role ≠ .mac) (n : Nat) (hn : shape.memSlot? = some n) (r : MemRef)
      (ho : i.operands[n]? = some (.mem r)) : (⟨role, i, shape, mode⟩ : Member).mem? = some r := by
    have hplain : i.plain = i.operands := Instruction.plain_eq_operands (hnone hne ▸ hclass)
    have hnth : (⟨role, i, shape, mode⟩ : Member).operand? .mem = some (.mem r) := by
      rw [Member.operand?, hn, Option.bind_some, ← ho, ← hplain]
      rfl
    rw [Member.mem?, hnth]
  refine ⟨rfl, ?_⟩
  rcases bundleRole_eq_ok_iff.1 hrole with ⟨rfl, rfl, hop, space, j, n, ho⟩ |
    ⟨rfl, rfl, hop, space, j, n, ho⟩ | ⟨rfl, rfl, hop⟩ | ⟨rfl, rfl, hop⟩ | ⟨rfl, rfl, hop⟩
  · have hm := hnone Role.noConfusion
    exact ⟨⟨⟨hclass, hm ▸ rfl⟩, Role.noConfusion, ⟨rfl, rfl, fun _ => hop⟩,
      fun _ => ⟨space, j, n, hmem Role.noConfusion 1 rfl _ ho⟩⟩, Role.noConfusion⟩
  · have hm := hnone Role.noConfusion
    exact ⟨⟨⟨hclass, hm ▸ rfl⟩, Role.noConfusion, ⟨rfl, rfl, fun _ => hop⟩,
      fun _ => ⟨space, j, n, hmem Role.noConfusion 0 rfl _ ho⟩⟩, Role.noConfusion⟩
  · have hm := hnone Role.noConfusion
    exact ⟨⟨⟨hclass, hm ▸ rfl⟩, Role.noConfusion, ⟨rfl, rfl, fun h => by cases h⟩,
      fun h => by cases h⟩, Role.noConfusion⟩
  · have hm : mode.isSome = true := hmode.2 rfl
    exact ⟨⟨⟨hclass, hm⟩, Role.noConfusion, ⟨rfl, rfl, fun h => by cases h⟩,
      fun h => by cases h⟩, Role.noConfusion⟩
  · have hm := hnone Role.noConfusion
    exact ⟨⟨⟨hclass, hm ▸ rfl⟩, Role.noConfusion, ⟨rfl, rfl, fun h => by cases h⟩,
      fun h => by cases h⟩, Role.noConfusion⟩

theorem hasCond_of_bundleEntries : ∀ b ∈ bundleEntries, b.format.hasCond = true := by decide

theorem selectSingle_fills {i : Instruction} {s : Selection} (hi : i.siblings = [])
    (h : selectSingle i = .ok s) : ∃ t ∈ wordForms, s.Fills t i := by
  obtain ⟨m, e, hmem, rfl, hm, ht, -, rfl, hcond, hvalid⟩ := selectSingle_eq_ok_iff.1 h
  refine ⟨e.form, FormatEntry.form_mem hmem, rfl, rfl, rfl, ?_, ?_, ?_, ?_, ?_, hcond,
    Selection.validate_eq_ok_iff.1 hvalid⟩
  · rw [Instruction.members, hi]
    rfl
  · simpa using hm
  · simpa [FormatEntry.form] using ht
  · simp [FormatEntry.form, ht.role]
  · intro m' hm' htransfer
    rw [List.mem_singleton.1 hm', ht.role] at htransfer
    cases htransfer

theorem selectBundle_fills {i : Instruction} {s : Selection} (h : selectBundle i = .ok s) :
    ∃ t ∈ wordForms, s.Fills t i := by
  obtain ⟨ms, b, hmem, hms, hshape, rfl, hvalid⟩ := selectBundle_eq_ok_iff.1 h
  have hmarked := marked_orderLoads ms
  have hbundled : ∀ m ∈ ms, m.Bundled ∧ m.role ≠ .ld2 := fun m hm => by
    obtain ⟨j, -, hj⟩ := exists_left_of_forall₂ hms hm
    exact (bundled_of_bundleMember hj).2
  have hordered : ∀ m ∈ orderLoads ms, m.Bundled := fun m hm => by
    obtain ⟨m', hm', hmark⟩ := exists_left_of_forall₂ hmarked hm
    exact (hbundled m' hm').1.marked hmark
  have hperm := roles_perm_of_ofMembers? (fun m hm => (hbundled m hm).1.role)
    (fun m hm => (hbundled m hm).2) hshape
  have hroles : b.form.parts.map FormPart.role = b.shape.roles := by
    simp [BundleEntry.form, Role.part, Function.comp_def]
  refine ⟨b.form, BundleEntry.form_mem hmem, rfl, rfl, rfl, ?_, fun m hm => (hordered m hm).classified,
    ?_, hroles ▸ hperm, fun m hm => (hordered m hm).post, ?_, Selection.validate_eq_ok_iff.1 hvalid⟩
  · have hinstr : i.members = ms.map Member.instr :=
      (List.map_id _).symm.trans
        (map_eq_map_of_forall₂ (fun j m hj => (bundled_of_bundleMember hj).1.symm) hms)
    rw [hinstr]
    exact (map_eq_map_of_forall₂ (fun m m' hm => hm.instr_eq.symm) hmarked).symm
  · intro m hm
    refine ⟨m.role.part, ?_, (hordered m hm).takes⟩
    have hrole : m.role ∈ b.shape.roles := hperm.subset (List.mem_map_of_mem hm)
    exact List.mem_map_of_mem hrole
  · intro hcond
    exact absurd hcond (by simp [BundleEntry.form, hasCond_of_bundleEntries b hmem])

/-- An accepted instruction fills a form of the table. -/
theorem select_fills {i : Instruction} {s : Selection} (h : select i = .ok s) :
    ∃ t ∈ wordForms, s.Fills t i := by
  unfold select at h
  split at h
  · next hi => exact selectSingle_fills (List.isEmpty_iff.1 hi) h
  · exact selectBundle_fills h

end QuadDsp
