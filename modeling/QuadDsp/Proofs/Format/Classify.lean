import Mathlib.Data.List.Forall2
import QuadDsp.Format.Selection

/-! # Classified operand lists

An operand list without multiply modes fits at most one shape (`Shape.eq_of_fits`). So classification
gives the shape of an instruction exactly when all its operands can be used, the plain ones fit the
shape, and at most one multiply mode stands among them (`Shape.classify_eq_ok_iff`). -/

namespace QuadDsp

/-- What kind of operand it is, as far as slots tell operands apart. -/
inductive OperandKind
  | reg (cls : RegClass)
  | accView | sys | imm | memAbs | memModify | memImm | target | cond | sts | mulMode | modeBit
deriving DecidableEq, Repr

namespace Operand

def kind : Operand → OperandKind
  | reg r => .reg r.cls
  | accView .. => .accView
  | sys _ => .sys
  | imm _ => .imm
  | mem ⟨_, .direct _⟩ | mem ⟨_, .symbol _⟩ => .memAbs
  | mem ⟨_, .post ..⟩ | mem ⟨_, .pre ..⟩ => .memModify
  | mem ⟨_, .postImm ..⟩ | mem ⟨_, .preImm ..⟩ => .memImm
  | target _ => .target
  | cond _ => .cond
  | key .sts => .sts
  | key (.mul _) => .mulMode
  | key (.mode _) => .modeBit

/-- In range, and no reference to program memory. -/
def Usable (o : Operand) : Prop := o.inFile = true ∧ ∀ mode, o ≠ .mem ⟨.program, mode⟩

end Operand

/-- The kinds of operand that a slot accepts. -/
def Slot.kinds : Slot → List OperandKind
  | general => [.reg .general]
  | complex => [.reg .complex]
  | acc => [.reg .acc]
  | accView => [.accView]
  | index => [.reg .index]
  | modify => [.reg .modify]
  | address => [.reg .index, .reg .modify, .reg .length, .reg .base]
  | sys => [.sys]
  | imm => [.imm]
  | memAbs => [.memAbs]
  | memModify => [.memModify]
  | memImm => [.memImm]
  | target => [.target]
  | cond => [.cond]
  | sts => [.sts]
  | modeBit => [.modeBit]

theorem Slot.accepts_iff {slot : Slot} {o : Operand} :
    slot.accepts o = true ↔ o.kind ∈ slot.kinds := by
  rcases o with ⟨c, n⟩ | ⟨a, v⟩ | s | v | ⟨sp, m⟩ | t | c | k
  case reg => cases slot <;> cases c <;> simp [accepts, Operand.kind, kinds, RegClass.isAddress]
  case mem => cases slot <;> cases m <;> simp [accepts, Operand.kind, kinds]
  case key => cases slot <;> cases k <;> simp [accepts, Operand.kind, kinds]
  all_goals cases slot <;> simp [accepts, Operand.kind, kinds]

theorem Slot.not_isMulMode_of_accepts {slot : Slot} {o : Operand} (h : slot.accepts o = true) :
    o.isMulMode = false := by
  rcases o with r | ⟨a, v⟩ | s | v | m | t | c | k
  case key => cases k <;> first | rfl | (cases slot <;> cases h)
  all_goals rfl

namespace Instruction

/-- The operands, multiply modes not counted. -/
def plain (i : Instruction) : List Operand := i.operands.filter fun o => !o.isMulMode

/-- The multiply modes among the operands. -/
def modes (i : Instruction) : List Operand := i.operands.filter Operand.isMulMode

theorem usable_of_plain {i : Instruction} (h : ∀ o ∈ i.plain, o.Usable) : ∀ o ∈ i.operands, o.Usable := by
  intro o ho
  by_cases hmul : o.isMulMode = true
  · cases o with
    | key k => exact ⟨rfl, fun _ h => by cases h⟩
    | _ => cases hmul
  · exact h o (List.mem_filter.2 ⟨ho, by simpa using hmul⟩)

/-- Where the multiply modes stand last, the operands are taken apart in the middle. -/
theorem plain_and_modes_eq {i : Instruction} {os ms : List Operand} (h : i.operands = os ++ ms)
    (hos : ∀ o ∈ os, o.isMulMode = false) (hms : ∀ o ∈ ms, o.isMulMode = true) :
    i.plain = os ∧ i.modes = ms := by
  have hos' : os.filter (fun o => !o.isMulMode) = os := List.filter_eq_self.2 fun o ho => by simp [hos o ho]
  have hms' : ms.filter Operand.isMulMode = ms := List.filter_eq_self.2 hms
  constructor
  · rw [plain, h, List.filter_append, hos', List.filter_eq_nil_iff.2 fun o ho => by simp [hms o ho],
      List.append_nil]
  · rw [modes, h, List.filter_append, hms', List.filter_eq_nil_iff.2 fun o ho => by simp [hos o ho],
      List.nil_append]

end Instruction

namespace Shape

theorem fits_iff {s : Shape} {ops : List Operand} :
    s.fits ops = true ↔ List.Forall₂ (fun slot o => Slot.accepts slot o = true) s.slots ops := by
  rw [fits, Bool.and_eq_true, beq_iff_eq, List.all_eq_true, List.forall₂_iff_zip]
  simp

/-- Some operand kind fits both slots. -/
def Overlap (s t : Slot) : Prop := ∃ k ∈ s.kinds, k ∈ t.kinds

instance (s t : Slot) : Decidable (Overlap s t) := inferInstanceAs (Decidable (∃ k ∈ _, _))

theorem eq_of_overlap : ∀ s ∈ all, ∀ t ∈ all, s.slots.length = t.slots.length →
    (∀ p ∈ s.slots.zip t.slots, Overlap p.1 p.2) → s = t := by
  decide +kernel

theorem overlap_of_forall₂ {ss ts : List Slot} {ops : List Operand}
    (hs : List.Forall₂ (fun slot o => Slot.accepts slot o = true) ss ops)
    (ht : List.Forall₂ (fun slot o => Slot.accepts slot o = true) ts ops) :
    ∀ p ∈ ss.zip ts, Overlap p.1 p.2 := by
  induction hs generalizing ts with
  | nil => intro p hp; cases hp
  | cons hso _ ih =>
    cases ht with
    | cons hto ht =>
      intro p hp
      rcases List.mem_cons.1 hp with rfl | hp
      · exact ⟨_, Slot.accepts_iff.1 hso, Slot.accepts_iff.1 hto⟩
      · exact ih ht p hp

/-- An operand list fits at most one shape. -/
theorem eq_of_fits {s t : Shape} {ops : List Operand} (hs : s.fits ops = true)
    (ht : t.fits ops = true) : s = t := by
  rw [fits_iff] at hs ht
  exact eq_of_overlap s (mem_all s) t (mem_all t) (hs.length_eq.trans ht.length_eq.symm)
    (overlap_of_forall₂ hs ht)

theorem find?_fits_iff {s : Shape} {ops : List Operand} :
    all.find? (·.fits ops) = some s ↔ s.fits ops = true := by
  constructor
  · exact List.find?_some (p := fun s : Shape => s.fits ops)
  · intro hs
    cases hf : all.find? (·.fits ops) with
    | none => exact absurd hs (List.find?_eq_none.1 hf s (mem_all s))
    | some t => rw [eq_of_fits (List.find?_some (p := fun s : Shape => s.fits ops) hf) hs]

/-- Behind the mode, or where an operand is none, the operand itself is checked and kept. -/
theorem setModeAside_cons {mode : Option MulMode} {o : Operand} {ops rest : List Operand}
    {m : Option MulMode} (hm : mode.isSome ∨ o.isMulMode = false) :
    setModeAside mode (o :: ops) = .ok (rest, m) ↔
      o.Usable ∧ ∃ rest', rest = o :: rest' ∧ setModeAside mode ops = .ok (rest', m) := by
  by_cases hp : ∃ md, o = .mem ⟨.program, md⟩
  · obtain ⟨md, rfl⟩ := hp
    have herr : setModeAside mode (.mem ⟨.program, md⟩ :: ops) =
        .error (.programMemory (Operand.mem ⟨.program, md⟩).text) := by cases mode <;> rfl
    simp [herr, Operand.Usable]
  · have hne : ∀ md, o ≠ .mem ⟨.program, md⟩ := fun md h => hp ⟨md, h⟩
    rw [setModeAside, Operand.Usable]
    · cases o.inFile <;> cases hs : setModeAside mode ops <;>
        simp [Except.map, Prod.ext_iff, eq_comm, and_comm, hne]
    · exact hne
    · rintro k rfl rfl
      rcases hm with hm | hm <;> exact Bool.noConfusion hm

theorem setModeAside_some {k : MulMode} {ops rest : List Operand} {mode : Option MulMode} :
    setModeAside (some k) ops = .ok (rest, mode) ↔
      rest = ops ∧ mode = some k ∧ ∀ o ∈ ops, o.Usable := by
  induction ops generalizing rest with
  | nil => simp [setModeAside, eq_comm]
  | cons o ops ih =>
    rw [setModeAside_cons (.inl rfl)]
    simp only [ih, List.forall_mem_cons]
    constructor
    · rintro ⟨ho, _, rfl, rfl, rfl, hops⟩
      exact ⟨rfl, rfl, ho, hops⟩
    · rintro ⟨rfl, rfl, ho, hops⟩
      exact ⟨ho, ops, rfl, rfl, rfl, hops⟩

/-- With one mode at most among the operands, exactly the plain ones are left. -/
theorem setModeAside_none {ops rest : List Operand} {mode : Option MulMode}
    (hrest : ∀ o ∈ rest, o.isMulMode = false) :
    setModeAside none ops = .ok (rest, mode) ↔
      rest = ops.filter (fun o => !o.isMulMode) ∧
        ops.filter Operand.isMulMode = mode.toList.map (fun m => .key (.mul m)) ∧
        ∀ o ∈ ops, o.Usable := by
  induction ops generalizing rest with
  | nil => cases mode <;> simp [setModeAside, eq_comm]
  | cons o ops ih =>
    by_cases ho : o.isMulMode = true
    · obtain ⟨k, rfl⟩ : ∃ k, o = .key (.mul k) := by
        unfold Operand.isMulMode at ho
        split at ho
        · exact ⟨_, rfl⟩
        · cases ho
      have hk : Operand.Usable (.key (.mul k)) := ⟨rfl, fun _ h => by cases h⟩
      rw [setModeAside, setModeAside_some]
      simp only [List.filter_cons, ho, Bool.not_true, if_true, List.forall_mem_cons]
      constructor
      · rintro ⟨rfl, rfl, hops⟩
        have hplain : ∀ o ∈ rest, (!o.isMulMode) = true := fun o h => by rw [hrest o h]; rfl
        have hmodes : rest.filter Operand.isMulMode = [] :=
          List.filter_eq_nil_iff.2 fun o h => by simp [hrest o h]
        refine ⟨(List.filter_eq_self.2 hplain).symm, ?_, hk, hops⟩
        rw [hmodes]
        rfl
      · rintro ⟨hr, hmode, -, hops⟩
        cases mode with
        | none => cases hmode
        | some m =>
          obtain ⟨hkm, hnil⟩ := List.cons.inj hmode
          cases hkm
          have hplain : ∀ o ∈ ops, (!o.isMulMode) = true := fun o h => by
            simpa using List.filter_eq_nil_iff.1 hnil o h
          rw [List.filter_eq_self.2 hplain] at hr
          exact ⟨hr, rfl, hops⟩
    · have ho' : o.isMulMode = false := Bool.eq_false_iff.2 ho
      rw [setModeAside_cons (.inr ho')]
      simp only [List.filter_cons, ho', Bool.not_false, if_true, Bool.false_eq_true, if_false,
        List.forall_mem_cons]
      constructor
      · rintro ⟨hu, rest', rfl, hs⟩
        obtain ⟨rfl, hmode, hops⟩ := (ih fun o h => hrest o (List.mem_cons_of_mem _ h)).1 hs
        exact ⟨rfl, hmode, hu, hops⟩
      · rintro ⟨rfl, hmode, hu, hops⟩
        exact ⟨hu, _, rfl, (ih fun o h => hrest o (List.mem_cons_of_mem _ h)).2 ⟨rfl, hmode, hops⟩⟩

theorem not_isMulMode_of_fits {s : Shape} {ops : List Operand} (h : s.fits ops = true) :
    ∀ o ∈ ops, o.isMulMode = false := by
  rw [fits_iff] at h
  generalize s.slots = slots at h
  induction h with
  | nil => intro o ho; cases ho
  | cons hso _ ih => exact List.forall_mem_cons.2 ⟨Slot.not_isMulMode_of_accepts hso, ih⟩

/-- When an instruction is classified, and as what. -/
theorem classify_eq_ok_iff {i : Instruction} {s : Shape} {mode : Option MulMode} :
    classify i = .ok (s, mode) ↔
      s.fits i.plain = true ∧ i.modes = mode.toList.map (fun m => .key (.mul m)) ∧
        ∀ o ∈ i.operands, o.Usable := by
  have unfolded : classify i = .ok (s, mode) ↔
      ∃ ops, setModeAside none i.operands = .ok (ops, mode) ∧ s.fits ops = true := by
    unfold classify
    cases hs : setModeAside none i.operands with
    | error e => simp [bind, Except.bind]
    | ok r =>
      obtain ⟨ops, md⟩ := r
      simp only [bind, Except.bind]
      cases hf : all.find? (·.fits ops) with
      | none =>
        have hno : ¬ s.fits ops = true := List.find?_eq_none.1 hf s (mem_all s)
        constructor
        · intro h
          cases h
        · rintro ⟨_, h, hfits⟩
          cases h
          exact absurd hfits hno
      | some t =>
        rw [find?_fits_iff] at hf
        simp only [pure, Except.pure, Except.ok.injEq, Prod.mk.injEq]
        constructor
        · rintro ⟨rfl, rfl⟩
          exact ⟨ops, ⟨rfl, rfl⟩, hf⟩
        · rintro ⟨_, ⟨rfl, rfl⟩, hs⟩
          exact ⟨eq_of_fits hf hs, rfl⟩
  rw [unfolded]
  constructor
  · rintro ⟨ops, hset, hfits⟩
    obtain ⟨rfl, h⟩ := (setModeAside_none (not_isMulMode_of_fits hfits)).1 hset
    exact ⟨hfits, h⟩
  · rintro ⟨hfits, h⟩
    exact ⟨i.plain, (setModeAside_none (not_isMulMode_of_fits hfits)).2 ⟨rfl, h⟩, hfits⟩

end Shape

end QuadDsp
