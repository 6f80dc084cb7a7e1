import QuadDsp.Proofs.Word.Emitting
import QuadDsp.Proofs.Word.Finishing

/-! # Decoding undoes encoding

A word that encodes an instruction decodes to the same operations, each as it is read back: labels and
symbols are addresses, and an immediate that may have either sign is read as signed
(`decodeWord?_of_encode`). The operations stand in the order of the layout. -/

namespace QuadDsp

namespace AddrMode

/-- With the address of a symbol in place of its name. -/
def resolved (p : Program) : AddrMode → AddrMode
  | symbol name =>
    match p.symbols.addr name with
    | .ok a => direct a
    | .error _ => symbol name
  | mode => mode

end AddrMode

namespace Target

/-- With the address of a label in place of its name. -/
def resolved (p : Program) : Target → Target
  | label name =>
    match p.symbols.addr name with
    | .ok a => abs a
    | .error _ => label name
  | abs a => abs a

end Target

/-- The operand as a word gives it back, in a format whose immediate has `wide` bits of either sign, if
it has one. -/
def Operand.readBack (p : Program) (wide : Option Nat) : Operand → Operand
  | .imm v => .imm (wide.elim v fun w => wrap w v)
  | .target t => .target (t.resolved p)
  | .mem ⟨space, mode⟩ => .mem ⟨space, mode.resolved p⟩
  | o => o

/-- The width of the immediate that may have either sign. -/
def FormatId.wide? (f : FormatId) : Option Nat :=
  f.layout.findSome? fun fd => if fd.kind = .imm .either then some fd.width else none

/-- The parts that the operations of a word play, in the order of the layout. -/
def FormatId.roles (f : FormatId) : List Role :=
  if f.isBundle then ((f.layout.filter Field.isOwn).map Field.role).eraseDups else [.op]

namespace Member

/-- The operation with its operands as they are read back. -/
def readBack (p : Program) (wide : Option Nat) (m : Member) : Member :=
  { m with
    instr := { m.instr with operands := m.instr.plain.map (·.readBack p wide) ++ m.instr.modes } }

/-- The operation as the decoder gives it, in a word of a format with condition `c`. -/
def decoded (p : Program) (f : FormatId) (c : Condition) (m : Member) : Instruction :=
  { line := 0, opcode := m.opcode
    operands := m.instr.plain.map (·.readBack p f.wide?) ++ m.instr.modes
    condition := some c, conjugate := f.hasConj && m.instr.conjugate }

end Member

namespace Selection

/-- The operations in the order of the layout. -/
def inOrder (s : Selection) : List Member := s.format.roles.filterMap s.member?

/-- The selection with its operations as they are read back. -/
def readBack (p : Program) (s : Selection) : Selection :=
  { s with members := s.members.map (·.readBack p s.format.wide?) }

end Selection

section Facts

variable {p : Program} {wide : Option Nat}

@[simp] theorem targetAddr_resolved (t : Target) : p.targetAddr (t.resolved p) = p.targetAddr t := by
  cases t with
  | abs a => rfl
  | label name =>
    cases h : p.symbols.addr name <;> simp [Target.resolved, h, Program.targetAddr]

@[simp] theorem dataAddr?_resolved (mode : AddrMode) :
    p.dataAddr? (mode.resolved p) = p.dataAddr? mode := by
  cases mode with
  | symbol name =>
    cases h : p.symbols.addr name <;> simp [AddrMode.resolved, h, Program.dataAddr?, Except.map]
  | _ => rfl

@[simp] theorem kind_readBack (o : Operand) : (o.readBack p wide).kind = o.kind := by
  rcases o with r | ⟨a, w⟩ | s | w | ⟨space, mode⟩ | t | c | k
  case mem =>
    cases mode with
    | symbol name =>
      cases h : p.symbols.addr name <;> simp [Operand.readBack, AddrMode.resolved, h, Operand.kind]
    | _ => rfl
  all_goals rfl

@[simp] theorem accepts_readBack (slot : Slot) (o : Operand) :
    slot.accepts (o.readBack p wide) = slot.accepts o := by
  rw [Bool.eq_iff_iff, Slot.accepts_iff, Slot.accepts_iff, kind_readBack]

@[simp] theorem isMulMode_readBack (o : Operand) :
    (o.readBack p wide).isMulMode = o.isMulMode := by
  cases o <;> rfl

theorem usable_readBack {o : Operand} (h : o.Usable) : (o.readBack p wide).Usable := by
  rcases o with r | ⟨a, w⟩ | s | w | ⟨space, mode⟩ | t | c | k
  case mem =>
    obtain rfl : space = .data := h.space_eq
    refine ⟨?_, fun _ h => by cases h⟩
    cases mode with
    | symbol name =>
      cases h : p.symbols.addr name <;> simp [Operand.readBack, AddrMode.resolved, h, Operand.inFile]
    | _ => exact h.1
  case imm => exact ⟨rfl, fun _ h => by cases h⟩
  case target => exact ⟨rfl, fun _ h => by cases h⟩
  all_goals exact h

theorem plain_and_modes_readBack (m : Member) :
    (m.readBack p wide).instr.plain = m.instr.plain.map (·.readBack p wide) ∧
      (m.readBack p wide).instr.modes = m.instr.modes := by
  refine Instruction.plain_and_modes_eq rfl (fun o ho => ?_) fun o ho => (List.mem_filter.1 ho).2
  obtain ⟨o', ho', rfl⟩ := List.mem_map.1 ho
  simpa using (List.mem_filter.1 ho').2

theorem plain_readBack (m : Member) :
    (m.readBack p wide).instr.plain = m.instr.plain.map (·.readBack p wide) :=
  (plain_and_modes_readBack m).1

theorem modes_readBack (m : Member) : (m.readBack p wide).instr.modes = m.instr.modes :=
  (plain_and_modes_readBack m).2

theorem nth?_readBack (m : Member) (n : Nat) :
    (m.readBack p wide).nth? n = (m.nth? n).map (·.readBack p wide) := by
  have h : (m.readBack p wide).nth? n = (m.readBack p wide).instr.plain[n]? := rfl
  rw [h, plain_readBack, List.getElem?_map]
  rfl

theorem operand?_readBack (m : Member) (arg : Arg) :
    (m.readBack p wide).operand? arg = (m.operand? arg).map (·.readBack p wide) := by
  rw [Member.operand?_eq, Member.operand?_eq]
  cases h : m.shape.argSlot? arg with
  | none =>
    have h' : (m.readBack p wide).shape.argSlot? arg = none := h
    rw [h']
    rfl
  | some n =>
    have h' : (m.readBack p wide).shape.argSlot? arg = some n := h
    rw [h', Option.bind_some, Option.bind_some, nth?_readBack]

theorem mem?_readBack (m : Member) :
    (m.readBack p wide).mem? = m.mem?.map fun r => ⟨r.space, r.mode.resolved p⟩ := by
  unfold Member.mem?
  rw [operand?_readBack]
  cases m.operand? .mem with
  | none => rfl
  | some o => cases o <;> rfl

theorem classified_readBack {m : Member} (hm : m.Classified) : (m.readBack p wide).Classified := by
  obtain ⟨hfits, hmodes, husable⟩ := Shape.classify_eq_ok_iff.1 hm.classify
  refine ⟨Shape.classify_eq_ok_iff.2 ⟨?_, ?_, ?_⟩, hm.mode⟩
  · rw [Shape.fits_iff] at hfits
    rw [plain_readBack, Shape.fits_iff, List.forall₂_map_right_iff]
    exact hfits.imp fun slot o h => (accepts_readBack slot o).trans h
  · rw [modes_readBack]
    exact hmodes
  · intro o ho
    rcases List.mem_append.1 ho with ho | ho
    · obtain ⟨o', ho', rfl⟩ := List.mem_map.1 ho
      exact usable_readBack (husable o' (List.mem_of_mem_filter ho'))
    · exact husable o (List.mem_of_mem_filter ho)

theorem resolved_of_index? {mode : AddrMode} {i : Nat} (h : mode.index? = some i) :
    mode.resolved p = mode := by
  cases mode <;> first | rfl | cases h

theorem isPre_resolved (mode : AddrMode) : (mode.resolved p).isPre = mode.isPre := by
  cases mode with
  | symbol name =>
    cases h : p.symbols.addr name <;> simp [AddrMode.resolved, h, AddrMode.isPre]
  | _ => rfl

/-- What an operation tells, it still tells as it is read back, but for an operand that changes. -/
theorem tells_readBack {m : Member} {c : Content} (h : m.Tells c)
    (hc : ∀ n o, c = .operand n o → o.readBack p wide = o) : (m.readBack p wide).Tells c := by
  have hnth {n : Nat} {o : Operand} (ho : m.nth? n = some o) (hfix : o.readBack p wide = o) :
      (m.readBack p wide).nth? n = some o := by
    rw [nth?_readBack, ho, Option.map_some, hfix]
  have hmem {r : MemRef} (hr : m.mem? = some r) :
      (m.readBack p wide).mem? = some ⟨r.space, r.mode.resolved p⟩ := by
    rw [mem?_readBack, hr, Option.map_some]
  cases c with
  | operand n o => exact hnth h (hc n o rfl)
  | acc a =>
    obtain ⟨n, view, hslot, ho⟩ := h
    exact ⟨n, view, hslot, hnth ho rfl⟩
  | view v =>
    obtain ⟨n, a, hslot, ho⟩ := h
    exact ⟨n, a, hslot, hnth ho rfl⟩
  | index i =>
    obtain ⟨r, hr, hi⟩ := h
    exact ⟨_, hmem hr, (congrArg AddrMode.index? (resolved_of_index? hi)).trans hi⟩
  | modify n =>
    obtain ⟨r, hr, hn⟩ := h
    refine ⟨_, hmem hr, ?_⟩
    obtain ⟨space, mode⟩ := r
    cases mode <;> first | exact hn | cases hn
  | pre b =>
    obtain ⟨r, hr, hb⟩ := h
    exact ⟨_, hmem hr, (isPre_resolved r.mode).trans hb⟩
  | step v =>
    obtain ⟨r, hr, hv⟩ := h
    refine ⟨_, hmem hr, ?_⟩
    obtain ⟨space, mode⟩ := r
    cases mode <;> first | exact hv | cases hv
  | addr a =>
    obtain ⟨r, hr, ha⟩ := h
    exact ⟨_, hmem hr, by dsimp only; rw [ha]; rfl⟩
  | mode | conj | opcode => exact h

theorem eq_of_operandAt? {s : Shape} {arg : Arg} {o o' : Operand} {n : Nat}
    (h : s.operandAt? arg o = some (.operand n o')) : o' = o := by
  obtain ⟨k, -, hcontent⟩ := Shape.exists_of_operandAt? h
  cases hcontent
  rfl

/-- A field that does not wait for addresses tells an operand that is read back as it is. -/
theorem readBack_of_content? {f : Field} {s : Shape} {addr v n : Nat} {o : Operand}
    (h : f.content? s addr v = some (.operand n o)) (hreloc : f.isReloc = false)
    (hwide : ∀ sign, f.kind = .imm sign → wide = none) : o.readBack p wide = o := by
  have hbind {α : Type} {x : Option α} {g : α → Operand} (hg : ∀ a, (g a).readBack p wide = g a)
      (h : (x.bind fun a => s.operandAt? f.arg (g a)) = some (.operand n o)) :
      o.readBack p wide = o := by
    obtain ⟨a, -, h⟩ := Option.bind_eq_some_iff.1 h
    rw [eq_of_operandAt? h, hg]
  obtain ⟨kind, role, arg, width⟩ := f
  cases kind with
  | opcode | pad | cond | index | modify | pre | step | conj => cases h
  | addr | pcRel | loopEnd => cases hreloc
  | reg base =>
    obtain ⟨k, -, h⟩ := Option.bind_eq_some_iff.1 h
    obtain ⟨slot, -, h⟩ := Option.bind_eq_some_iff.1 h
    unfold Slot.regContent? at h
    split at h
    · cases h
    · obtain ⟨cls, -, h⟩ := Option.bind_eq_some_iff.1 h
      split at h
      · cases h
        rfl
      · cases h
  | accPair => rw [eq_of_operandAt? h]; rfl
  | imm sign =>
    obtain rfl := hwide sign rfl
    cases sign <;> rw [eq_of_operandAt? h] <;> rfl
  | dag | sys | modeBit | termCond => exact hbind (fun _ => rfl) h
  | part | mode | subOp =>
    obtain ⟨_, -, h⟩ := Option.map_eq_some_iff.1 h
    cases h

theorem member?_readBack (s : Selection) (role : Role) :
    (s.readBack p).member? role = (s.member? role).map (·.readBack p s.format.wide?) := by
  rw [Selection.member?, Selection.readBack, List.find?_map]
  rfl

theorem relocValue_readBack (s : Selection) (f : Field) :
    (s.readBack p).relocValue p f = s.relocValue p f := by
  unfold Selection.relocValue
  rw [member?_readBack]
  cases s.member? f.role with
  | none => rfl
  | some m =>
    simp only [Option.map_some]
    rw [operand?_readBack, mem?_readBack]
    cases f.kind with
    | addr =>
      cases m.mem? with
      | none => rfl
      | some r => simp only [Option.map_some, dataAddr?_resolved]; rfl
    | pcRel | loopEnd =>
      cases m.operand? f.arg with
      | none => rfl
      | some o =>
        cases o with
        | target t => simp only [Option.map_some, Operand.readBack, targetAddr_resolved]; rfl
        | _ => rfl
    | _ => rfl

end Facts

/-- The targets that the operations of a word name are addresses of 32 bits. -/
def Instruction.TargetsFit (p : Program) (i : Instruction) : Prop :=
  ∀ j ∈ i.members, ∀ t a, .target t ∈ j.operands → p.targetAddr t = .ok a → a < span 32

theorem FormatId.wide?_of_imm (f : FormatId) {fd : Field} (hfd : fd ∈ f.layout) {sign : Sign}
    (hk : fd.kind = .imm sign) : f.wide? = if sign = .either then some fd.width else none := by
  have hall : ∀ f ∈ all, ∀ fd ∈ f.layout, ∀ sign ∈ [Sign.signed, .unsigned, .either],
      fd.kind = .imm sign → f.wide? = if sign = .either then some fd.width else none := by
    decide +kernel
  exact hall f (mem_all f) fd hfd sign (by cases sign <;> decide) hk

namespace Selection

variable {p : Program} {s : Selection} {f : Field} {m : Member} {v : Nat}

/-- A target with an address is read back as that address. -/
theorem target_of_operand?_readBack {wide : Option Nat} {arg : Arg} {t : Target}
    (ht : (m.readBack p wide).operand? arg = some (.target t)) :
    ∃ t₀, m.operand? arg = some (.target t₀) ∧ .target t₀ ∈ m.instr.operands ∧
      ∀ a, p.targetAddr t₀ = .ok a → t = .abs a := by
  rw [operand?_readBack, Option.map_eq_some_iff] at ht
  obtain ⟨o, ho, hot⟩ := ht
  obtain ⟨t₀, rfl⟩ : ∃ t₀, o = .target t₀ := by cases o <;> simp_all [Operand.readBack]
  refine ⟨t₀, ho, ?_, fun a ha => ?_⟩
  · rw [Member.operand?_eq] at ho
    obtain ⟨n, -, hn⟩ := Option.bind_eq_some_iff.1 ho
    exact List.mem_of_mem_filter (List.mem_of_getElem? hn)
  · cases hot
    cases t₀ with
    | abs b => cases ha; rfl
    | label name =>
      have hname : p.symbols.addr name = .ok a := ha
      simp [Target.resolved, hname]

/-- What waits for addresses is settled once it is read back. -/
theorem settled_readBack (hm : s.member? f.role = some m)
    (hfit : ∀ t a, .target t ∈ m.instr.operands → p.targetAddr t = .ok a → a < span 32)
    (hreloc : f.isReloc = true) (h : s.Emits p f v) : f.Settled (m.readBack p s.format.wide?) := by
  obtain ⟨x, hx, -⟩ := (emits_iff_relocValue hreloc).1 h
  unfold Field.Settled
  cases hk : f.kind with
  | pcRel | loopEnd =>
    intro t ht
    obtain ⟨t₀, ho, hmem, hresolved⟩ := target_of_operand?_readBack ht
    cases ha : p.targetAddr t₀ with
    | error e => simp [relocValue, hm, hk, ho, ha] at hx
    | ok a => exact ⟨a, hfit t₀ a hmem ha, hresolved a ha⟩
  | addr =>
    intro r hr
    rw [mem?_readBack, Option.map_eq_some_iff] at hr
    obtain ⟨⟨space, mode⟩, hr, rfl⟩ := hr
    cases mode with
    | direct a => exact ⟨a, rfl⟩
    | symbol name =>
      cases ha : p.symbols.addr name with
      | error e => simp [relocValue, hm, hk, hr, Program.dataAddr?, ha, Except.map] at hx
      | ok a => exact ⟨a, by simp [AddrMode.resolved, ha]⟩
    | _ => simp [relocValue, hm, hk, hr, Program.dataAddr?] at hx
  | _ => simp [Field.isReloc, hk] at hreloc

/-- Where a field has a value, the operation tells its content as it is read back, and no loop ends behind the last
address. -/
theorem tells_of_emits (hf : f ∈ s.format.layout) (hown : f.isOwn = true)
    (hm : s.member? f.role = some m) (hclass : m.Classified) (hplaced : f.wellPlaced m.shape = true)
    (hfit : ∀ t a, .target t ∈ m.instr.operands → p.targetAddr t = .ok a → a < span 32)
    (h : s.Emits p f v) :
    v < span f.width ∧ f.Reaches s.head.programAddr v ∧
      ∃ c, f.content? m.shape s.head.programAddr v = some c ∧ (m.readBack p s.format.wide?).Tells c := by
  have hwide (sign : Sign) (hk : f.kind = .imm sign) := s.format.wide?_of_imm hf hk
  by_cases hreloc : f.isReloc = true
  · have h' : (s.readBack p).Emits p f v := by
      rw [emits_iff_relocValue hreloc] at h ⊢
      rwa [relocValue_readBack]
    have hm' : (s.readBack p).member? f.role = some (m.readBack p s.format.wide?) := by
      rw [member?_readBack, hm, Option.map_some]
    exact (emits_iff_tells hown hm' (classified_readBack hclass) hplaced (settled_readBack hm hfit hreloc h)).1 h'
  · have hreloc' : f.isReloc = false := Bool.eq_false_iff.2 hreloc
    have hreach : f.Reaches s.head.programAddr v :=
      Field.reaches_of_ne fun hk => hreloc (by rw [Field.isReloc, hk])
    rw [emits_iff_memberValue hm hown hreloc'] at h
    by_cases heither : f.kind = .imm .either
    · -- the one kind of value that may be read back as another
      obtain ⟨hslot, hwidth⟩ : m.shape.slotAt? f.arg = some .imm ∧ 0 < f.width := by
        simpa [Field.wellPlaced, heither] using hplaced
      obtain ⟨x, harg, rfl⟩ := Field.exists_of_memberValue_imm heither h
      refine ⟨lowBits_lt f.width x, hreach, ?_⟩
      have hcontent : f.content? m.shape s.head.programAddr (lowBits f.width x) =
          m.shape.operandAt? f.arg (.imm (wrap f.width x)) := by
        simp [Field.content?, heither, wrap_lowBits]
      rw [hcontent]
      have hslot' : (m.readBack p s.format.wide?).shape.slotAt? f.arg = some .imm := hslot
      refine (Member.exists_operandAt?_iff hslot').2 ?_
      rw [operand?_readBack, harg, hwide .either heither]
      rfl
    · obtain ⟨hv, c, hc, htells⟩ := (Field.agrees hown hreloc' hclass hplaced
        (fun hk => absurd hk heither)).1 h
      refine ⟨hv, hreach, c, hc, tells_readBack htells fun n o hco => ?_⟩
      refine readBack_of_content? (hco ▸ hc) hreloc' fun sign hk => ?_
      rw [hwide sign hk, if_neg]
      rintro rfl
      exact heither hk

end Selection

theorem WordForm.roles_eq : ∀ t ∈ wordForms, t.format.roles = t.parts.map FormPart.role := by
  decide +kernel

namespace Selection.Fills

variable {s : Selection} {t : WordForm} {i : Instruction}

theorem nodup_roles (h : s.Fills t i) (ht : t ∈ wordForms) : (s.members.map Member.role).Nodup :=
  h.roles.nodup_iff.2 (WordForm.nodup_roles t ht)

theorem member?_of_mem (h : s.Fills t i) (ht : t ∈ wordForms) {m : Member} (hm : m ∈ s.members) :
    s.member? m.role = some m :=
  Selection.member?_of_nodup (h.nodup_roles ht) hm

theorem exists_member (h : s.Fills t i) (ht : t ∈ wordForms) {part : FormPart}
    (hpart : part ∈ t.parts) : ∃ m ∈ s.members, s.member? part.role = some m ∧ part.Takes m := by
  obtain ⟨m, hm, hrole⟩ := List.mem_map.1 (h.roles.mem_iff.2 (List.mem_map_of_mem hpart))
  obtain ⟨part', hpart', htakes⟩ := h.takes m hm
  have hsame : part' = part :=
    List.inj_on_of_nodup_map (WordForm.nodup_roles t ht) hpart' hpart (htakes.role.symm.trans hrole)
  exact ⟨m, hm, hrole ▸ h.member?_of_mem ht hm, hsame ▸ htakes⟩

theorem inOrder_perm (h : s.Fills t i) (ht : t ∈ wordForms) : s.inOrder.Perm s.members := by
  have hself : (s.members.map Member.role).filterMap s.member? = s.members := by
    rw [List.filterMap_map]
    calc s.members.filterMap (s.member? ∘ Member.role)
        = s.members.filterMap some := List.filterMap_congr fun m hm => h.member?_of_mem ht hm
      _ = s.members := List.filterMap_some
  have hroles := h.roles.symm.filterMap s.member?
  rwa [hself, ← t.roles_eq ht, ← h.format] at hroles

theorem forall₂_inOrder (h : s.Fills t i) (ht : t ∈ wordForms) :
    List.Forall₂ (fun part m => m ∈ s.members ∧ s.member? part.role = some m ∧ part.Takes m) t.parts
      s.inOrder := by
  rw [inOrder, h.format, t.roles_eq ht, List.filterMap_map]
  refine forall₂_filterMap fun part hpart => ?_
  obtain ⟨m, hm, hrole, htakes⟩ := h.exists_member ht hpart
  exact ⟨m, hrole, hm, hrole, htakes⟩

end Selection.Fills

/-- The condition among the values of a word, if all that say so agree on it. -/
theorem conditionOf?_eq {values : List (Field × Nat)} {c c₀ : Condition}
    (h : ∀ x ∈ values, x.1.kind = .cond → x.2 = c.code) :
    conditionOf? values c₀ = some (if values.any (·.1.kind == .cond) then c else c₀) := by
  induction values generalizing c₀ with
  | nil => rfl
  | cons x rest ih =>
    obtain ⟨f, v⟩ := x
    obtain ⟨hx, hrest⟩ := List.forall_mem_cons.1 h
    rw [conditionOf?]
    by_cases hf : f.kind = .cond
    · obtain rfl : v = c.code := hx hf
      rw [if_pos hf, Condition.ofCode?_code, Option.bind_some, ih hrest]
      simp [hf]
    · rw [if_neg hf, ih hrest, List.any_cons, beq_false_of_ne hf, Bool.false_or]

namespace FormatId

theorem width_of_cond (f : FormatId) {fd : Field} (hfd : fd ∈ f.layout) (hk : fd.kind = .cond) :
    fd.width = 5 := by
  have hall : ∀ f ∈ all, ∀ fd ∈ f.layout, fd.kind = .cond → fd.width = 5 := by decide +kernel
  exact hall f (mem_all f) fd hfd hk

end FormatId

namespace Selection.Fills

variable {s : Selection} {t : WordForm} {i : Instruction} {p : Program}

theorem lt_span (h : s.Fills t i) (ht : t ∈ wordForms) {f : Field} (hf : f ∈ s.format.layout) {v : Nat}
    (hv : s.Emits p f v) : v < span f.width := by
  by_cases hown : f.isOwn = true
  · by_cases hreloc : f.isReloc = true
    · obtain ⟨x, -, rfl⟩ := (emits_iff_relocValue hreloc).1 hv
      exact lowBits_lt f.width x
    · have hreloc' : f.isReloc = false := Bool.eq_false_iff.2 hreloc
      rw [h.format] at hf
      obtain ⟨part, hpart, hrole⟩ := List.mem_map.1 (t.role_mem_of_isOwn ht f hf hown)
      obtain ⟨m, hm, hmember, htakes⟩ := h.exists_member ht hpart
      rw [emits_iff_memberValue (hrole ▸ hmember) hown hreloc'] at hv
      have hplaced : f.wellPlaced m.shape = true :=
        htakes.shape ▸ WordForm.wellPlaced t ht part hpart f hf hrole.symm
      by_cases heither : f.kind = .imm .either
      · obtain ⟨x, -, rfl⟩ := Field.exists_of_memberValue_imm heither hv
        exact lowBits_lt f.width x
      · have hagrees : f.Agrees m 0 v := Field.agrees hown hreloc' (h.classified m hm) hplaced
          fun hk => absurd hk heither
        exact (hagrees.1 hv).1
  · rw [emits_iff_of_not_isOwn (Bool.eq_false_iff.2 hown)] at hv
    split at hv
    · next hk =>
      obtain ⟨rest, hlayout, hrest⟩ := s.format.layout_eq
      rw [hlayout, List.mem_cons] at hf
      rcases hf with rfl | hf
      · rw [hv, h.fixed, h.format]
        exact WordForm.fixed_lt t ht
      · exact absurd hk (hrest f hf)
    · next hk =>
      rw [hv, s.format.width_of_cond hf hk]
      exact Condition.code_lt _
    · rw [hv]
      exact span_pos f.width

end Selection.Fills

/-- The word holds in its fields what the selection has in them. -/
structure Selection.Holds (s : Selection) (p : Program) (word : Nat) : Prop where
  lt : word < span wordBits
  emits : ∀ x ∈ wordReadings word 0 s.format.layout, s.Emits p x.1 x.2

/-- An instruction that encodes was accepted, and its word holds its values. -/
theorem holds_of_encode {p : Program} {i : Instruction} {e : EncodedWord} (h : i.encode p = .ok e) :
    checkStructure i = .ok () ∧ ∃ s, ∃ t ∈ wordForms, select i = .ok s ∧ i.format = some s.format ∧
      s.Fills t i ∧ s.Holds p e.word := by
  obtain ⟨hstructure, s, hs, hformat, vals, hfst, hvals, hword⟩ := encode_eq_ok_iff.1 ⟨e.relocs, h⟩
  obtain ⟨t, ht, hfills⟩ := select_fills hs
  have hlt : ∀ x ∈ vals, x.2 < span x.1.width := fun x hx =>
    hfills.lt_span ht (hfst ▸ List.mem_map_of_mem hx) (hvals x hx)
  have hread : wordReadings e.word 0 s.format.layout = vals :=
    hword ▸ wordReadings_packFields_of_lt hfst hlt
  refine ⟨hstructure, s, t, ht, hs, hformat, hfills, Instruction.encode_lt h, fun x hx => ?_⟩
  exact hvals x (hread ▸ hx)

namespace Selection.Fills

variable {s : Selection} {t : WordForm} {i : Instruction} {p : Program} {word : Nat}

theorem leads_of_holds (h : s.Fills t i) (ht : t ∈ wordForms) (hword : s.Holds p word) :
    t.leads word = true := by
  rw [WordForm.leads_iff_wordField ht hword.lt]
  obtain ⟨rest, hlayout, -⟩ := s.format.layout_eq
  have hfirst : (Layout.fixed s.format.fixedWidth, wordField word 0 s.format.fixedWidth) ∈
      wordReadings word 0 s.format.layout := by
    rw [hlayout, wordReadings]
    exact List.mem_cons_self
  have hemits := (emits_iff_of_not_isOwn rfl).1 (hword.emits _ hfirst)
  rw [← h.format, ← h.fixed]
  exact hemits

theorem conditionOf?_of_holds (h : s.Fills t i) (hword : s.Holds p word) :
    conditionOf? (wordReadings word 0 s.format.layout) .always = some i.cond := by
  have hcond : ∀ x ∈ wordReadings word 0 s.format.layout, x.1.kind = .cond → x.2 = i.cond.code := by
    intro x hx hk
    have hemits := (emits_iff_of_not_isOwn (by rw [Field.isOwn, hk])).1 (hword.emits x hx)
    rwa [hk, h.head] at hemits
  rw [conditionOf?_eq hcond]
  have hany : (wordReadings word 0 s.format.layout).any (·.1.kind == .cond) = s.format.hasCond := by
    calc (wordReadings word 0 s.format.layout).any (·.1.kind == .cond)
        = ((wordReadings word 0 s.format.layout).map Prod.fst).any (·.kind == .cond) := by
          rw [List.any_map]; rfl
      _ = s.format.hasCond := by rw [map_fst_wordReadings]; rfl
  rw [hany]
  split
  · rfl
  · next hno => rw [h.unconditional (h.format ▸ Bool.eq_false_iff.2 hno)]

/-- Each part is read as the operation that plays it. -/
theorem reads_of_holds (h : s.Fills t i) (ht : t ∈ wordForms) (hword : s.Holds p word)
    (hfit : i.TargetsFit p) {part : FormPart} (hpart : part ∈ t.parts) {m : Member}
    (hm : m ∈ s.members) (hmember : s.member? part.role = some m) (htakes : part.Takes m) :
    part.Reads i.programAddr (wordReadings word 0 s.format.layout) i.cond
      (m.decoded p s.format i.cond) := by
  have hclass := h.classified m hm
  have hfits : ∀ t a, .target t ∈ m.instr.operands → p.targetAddr t = .ok a → a < span 32 :=
    hfit m.instr (h.instrs ▸ List.mem_map_of_mem hm)
  have htold : ∀ x ∈ wordReadings word 0 s.format.layout, x.1.isOwn = true → x.1.role = part.role →
      ∃ c, x.1.content? part.shape i.programAddr x.2 = some c ∧
        (m.readBack p s.format.wide?).Tells c := by
    intro x hx hown hrole
    have hf : x.1 ∈ s.format.layout := fst_mem_of_mem_wordReadings hx
    have hplaced : x.1.wellPlaced m.shape = true :=
      htakes.shape ▸ WordForm.wellPlaced t ht part hpart x.1 (h.format ▸ hf) hrole
    obtain ⟨-, -, c, hc, htells⟩ := tells_of_emits hf hown (hrole ▸ hmember) hclass hplaced hfits
      (hword.emits x hx)
    rw [htakes.shape, h.head] at hc
    exact ⟨c, hc, htells⟩
  obtain ⟨cs, hcs⟩ := exists_ownContents? fun x hx hown hrole =>
    (htold x hx hown hrole).imp fun _ => And.left
  have hcs_tells : ∀ c ∈ cs, (m.readBack p s.format.wide?).Tells c := by
    intro c hc
    obtain ⟨x, hx, ⟨hown, hrole⟩, hxc⟩ := (mem_ownContents? hcs).1 hc
    obtain ⟨c', hc', htells⟩ := htold x hx hown hrole
    cases hxc.symm.trans hc'
    exact htells
  have hfst : (wordReadings word 0 s.format.layout).map Prod.fst = t.format.layout := by
    rw [map_fst_wordReadings, h.format]
  have haspects := FormPart.map_aspect_eq hfst hcs
  have hpost : m.role.isTransfer = true →
      ∀ r, (m.readBack p s.format.wide?).mem? = some r → r.mode.isPre = false := by
    intro htransfer r hr
    obtain ⟨space, i, n, hpost⟩ := h.post m hm htransfer
    rw [mem?_readBack, hpost] at hr
    cases hr
    rfl
  have hshows : (part.read cs).Shows (m.readBack p s.format.wide?) :=
    FormPart.shows_read ht hpart haspects hcs_tells ⟨htakes.role, htakes.shape, htakes.opcode⟩
      (classified_readBack hclass) hpost
  refine ⟨part.read cs, ⟨List.length_replicate, cs, hcs, rfl⟩, ?_⟩
  rw [hshows.finish?_eq (classified_readBack hclass), plain_readBack, modes_readBack,
    FormPart.conjugate_read ht hpart haspects hcs_tells, ← h.format]
  rfl

end Selection.Fills

/-- No loop in the word ends behind the last address of all. -/
def FormatId.Reaches (f : FormatId) (word addr : Nat) : Prop :=
  ∀ x ∈ wordReadings word 0 f.layout, x.1.Reaches addr x.2

theorem Field.isOwn_of_loopEnd {f : Field} (hk : f.kind = .loopEnd) : f.isOwn = true := by rw [isOwn, hk]

/-- The encoder takes the end of a loop from an address. -/
theorem Selection.Fills.reaches_of_holds {s : Selection} {t : WordForm} {i : Instruction} {p : Program} {word : Nat}
    (h : s.Fills t i) (ht : t ∈ wordForms) (hword : s.Holds p word) (hfit : i.TargetsFit p) :
    s.format.Reaches word i.programAddr := by
  intro x hx hk
  have hf : x.1 ∈ s.format.layout := fst_mem_of_mem_wordReadings hx
  have hown := Field.isOwn_of_loopEnd hk
  obtain ⟨part, hpart, hrole⟩ := List.mem_map.1 (t.role_mem_of_isOwn ht x.1 (h.format ▸ hf) hown)
  obtain ⟨m, hm, hmember, htakes⟩ := h.exists_member ht hpart
  have hplaced : x.1.wellPlaced m.shape = true :=
    htakes.shape ▸ WordForm.wellPlaced t ht part hpart x.1 (h.format ▸ hf) hrole.symm
  obtain ⟨-, hreaches, -⟩ := tells_of_emits hf hown (hrole ▸ hmember) (h.classified m hm) hplaced
    (hfit m.instr (h.instrs ▸ List.mem_map_of_mem hm)) (hword.emits x hx)
  rw [← h.head]
  exact hreaches hk

/-- A word with no error decodes to the operations that it encodes, in the order of the layout. -/
theorem decodeWord?_of_encode {p : Program} {i : Instruction} {e : EncodedWord}
    (h : i.encode p = .ok e) (hfit : i.TargetsFit p) (hword : e.word ≠ errorWord) :
    ∃ s, ∃ t ∈ wordForms, select i = .ok s ∧ i.format = some s.format ∧ s.Fills t i ∧
      s.format.Reaches e.word i.programAddr ∧ ∃ head siblings,
        s.inOrder.map (·.decoded p s.format i.cond) = head :: siblings ∧
        decodeWord? e.word i.programAddr = some (.ofMembers s.format i.programAddr head siblings) := by
  obtain ⟨-, s, t, ht, hs, hformat, hfills, hholds⟩ := holds_of_encode h
  have hparts : List.Forall₂ (FormPart.Reads i.programAddr
      (wordReadings e.word 0 s.format.layout) i.cond) t.parts
      (s.inOrder.map (·.decoded p s.format i.cond)) := by
    rw [List.forall₂_map_right_iff]
    have hself : ∀ part ∈ t.parts, ∀ m, (m ∈ s.members ∧ s.member? part.role = some m ∧ part.Takes m) ↔
        part ∈ t.parts ∧ m ∈ s.members ∧ s.member? part.role = some m ∧ part.Takes m :=
      fun part hpart m => (and_iff_right hpart).symm
    refine ((forall₂_congr_of_mem hself).1 (hfills.forall₂_inOrder ht)).imp ?_
    rintro part m ⟨hpart, hm, hmember, htakes⟩
    exact hfills.reads_of_holds ht hholds hfit hpart hm hmember htakes
  cases horder : s.inOrder.map (·.decoded p s.format i.cond) with
  | nil =>
    rw [horder, List.forall₂_nil_right_iff] at hparts
    exact absurd hparts (t.parts_ne_nil ht)
  | cons head siblings =>
    refine ⟨s, t, ht, hs, hformat, hfills, hfills.reaches_of_holds ht hholds hfit, head, siblings, horder, ?_⟩
    rw [horder] at hparts
    rw [decodeWord?_eq_some_iff]
    refine ⟨hword, t, ht, hfills.leads_of_holds ht hholds, i.cond, head, siblings, ?_, ?_, ?_⟩
    · rw [← hfills.format]
      exact hfills.conditionOf?_of_holds hholds
    · rw [← hfills.format]
      exact hparts
    · rw [hfills.format]

/-- The operand with addresses in place of the names of labels and symbols. -/
def Operand.resolved (p : Program) : Operand → Operand
  | .target t => .target (t.resolved p)
  | .mem ⟨space, mode⟩ => .mem ⟨space, mode.resolved p⟩
  | o => o

/-- What an operand may be read back as: itself with its addresses, but an immediate from a field of
some width only has the bits of the field. -/
def Operand.ReadsAs (p : Program) (width : Option Nat) (o o' : Operand) : Prop :=
  match width, o, o' with
  | some k, .imm v, .imm v' => v' % (span k : Int) = v % (span k : Int)
  | _, _, _ => o' = o.resolved p

/-- The width of the field for the immediate at place `n` of an operation. -/
def FormatId.immWidth? (f : FormatId) (role : Role) (n : Nat) : Option Nat :=
  f.layout.findSome? fun fd =>
    match fd.kind with
    | .imm _ => if fd.role = role ∧ fd.arg = .nth n then some fd.width else none
    | _ => none

/-- The instruction `j` is what the operation `m` of a word with condition `c` is read back as: the
same operation, condition, conjugation, multiply mode and operands. -/
structure Member.ReadsAs (p : Program) (f : FormatId) (c : Condition) (m : Member) (j : Instruction) :
    Prop where
  opcode : j.opcode = m.opcode
  condition : j.condition = some (m.instr.condition.getD c)
  conjugate : f.hasConj = true → j.conjugate = m.instr.conjugate
  modes : j.modes = m.instr.modes
  length : j.plain.length = m.instr.plain.length
  operands : ∀ (n : Nat) (o o' : Operand), m.instr.plain[n]? = some o → j.plain[n]? = some o' →
    o.ReadsAs p (f.immWidth? m.role n) o'

theorem WordForm.immWidth?_of_imm : ∀ t ∈ wordForms, ∀ part ∈ t.parts,
    ∀ n ∈ List.range part.shape.slots.length, part.shape.slots[n]? = some .imm →
      ∃ k ∈ t.format.immWidth? part.role n, t.format.wide? = none ∨ t.format.wide? = some k := by
  decide +kernel

/-- An operand is read back with the bits of its field. -/
theorem Operand.readsAs_readBack {p : Program} {wide width : Option Nat} {o : Operand}
    (h : ∀ v, o = .imm v → ∃ k, width = some k ∧ (wide = none ∨ wide = some k)) :
    o.ReadsAs p width (o.readBack p wide) := by
  cases o with
  | imm v =>
    obtain ⟨k, rfl, rfl | rfl⟩ := h v rfl
    · rfl
    · exact Int.bmod_emod
  | mem r => cases width <;> rfl
  | _ => cases width <;> rfl

theorem Slot.eq_imm_of_accepts {slot : Slot} {v : Int} (h : slot.accepts (.imm v) = true) :
    slot = .imm := by
  cases slot <;> first | rfl | cases h

theorem Member.readsAs_decoded {p : Program} {t : WordForm} (ht : t ∈ wordForms) {part : FormPart}
    (hpart : part ∈ t.parts) {m : Member} (htakes : part.Takes m) (hclass : m.Classified)
    {c : Condition} (hcond : m.instr.condition.getD c = c) :
    m.ReadsAs p t.format c (m.decoded p t.format c) := by
  have hplain : (m.decoded p t.format c).plain = m.instr.plain.map (·.readBack p t.format.wide?) :=
    plain_readBack m
  refine ⟨rfl, by rw [hcond]; rfl, fun hconj => by rw [decoded, hconj]; rfl, modes_readBack m,
    by rw [hplain, List.length_map], fun n o o' ho ho' => ?_⟩
  rw [hplain, List.getElem?_map, ho] at ho'
  cases ho'
  refine Operand.readsAs_readBack fun v hv => ?_
  subst hv
  have hfits := Shape.fits_iff.1 (Shape.classify_eq_ok_iff.1 hclass.classify).1
  obtain ⟨hn, ho⟩ := List.getElem?_eq_some_iff.1 ho
  have hlt : n < m.shape.slots.length := hfits.length_eq ▸ hn
  have haccepts : m.shape.slots[n].accepts (.imm v) = true := ho ▸ hfits.get hlt hn
  have himm : m.shape.slots[n]? = some .imm := by
    rw [List.getElem?_eq_getElem hlt, Slot.eq_imm_of_accepts haccepts]
  rw [htakes.shape] at hlt himm
  obtain ⟨k, hk, hwide⟩ := WordForm.immWidth?_of_imm t ht part hpart n (List.mem_range.2 hlt) himm
  exact ⟨k, htakes.role ▸ hk, hwide⟩

theorem getD_condition_of_checkStructure {i j : Instruction} (h : checkStructure i = .ok ())
    (hj : j ∈ i.members) : j.condition.getD i.cond = i.cond := by
  rcases List.mem_cons.1 hj with rfl | hj
  · unfold Instruction.cond
    cases j.condition <;> rfl
  · exact (checkStructure_eq_ok_iff.1 h).2.1 j hj

/-- Whatever instruction encodes without error, into another word than the error word, its word decodes
to the format of the instruction and to its operations, part by part in the order of the layout. Labels
and symbols are read back as addresses, an immediate as the number with the bits of its field. -/
theorem Instruction.encode_readsBack {p : Program} {i : Instruction} {e : EncodedWord}
    (h : i.encode p = .ok e) (hfit : i.TargetsFit p) (hword : e.word ≠ errorWord) :
    ∃ s d, select i = .ok s ∧ decodeWord? e.word i.programAddr = some d ∧
      i.format = some d.format ∧ d.instr.programAddr = i.programAddr ∧
      s.inOrder.map Member.role = d.format.roles ∧ (s.inOrder.map Member.instr).Perm i.members ∧
      List.Forall₂ (fun m j => m.ReadsAs p d.format i.cond j) s.inOrder d.instr.members := by
  obtain ⟨s, t, ht, hs, hformat, hfills, -, head, siblings, horder, hdecode⟩ :=
    decodeWord?_of_encode h hfit hword
  have hstructure := (holds_of_encode h).1
  have hparts := hfills.forall₂_inOrder ht
  have hreads : List.Forall₂ (fun m j => m.ReadsAs p s.format i.cond j) s.inOrder (head :: siblings) := by
    rw [← horder, List.forall₂_map_right_iff, List.forall₂_same]
    intro m hm
    obtain ⟨part, hpart, hmem, -, htakes⟩ := exists_left_of_forall₂ hparts hm
    have hinstr : m.instr ∈ i.members := hfills.instrs ▸ List.mem_map_of_mem hmem
    rw [hfills.format]
    exact Member.readsAs_decoded ht hpart htakes (hfills.classified m hmem)
      (getD_condition_of_checkStructure hstructure hinstr)
  refine ⟨s, _, hs, hdecode, hformat, congrArg UInt32.toNat i.ofNat_programAddr, ?_, ?_, ?_⟩
  · change s.inOrder.map Member.role = s.format.roles
    rw [hfills.format, t.roles_eq ht]
    exact (map_eq_map_of_forall₂ (fun part m hm => hm.2.2.role.symm) hparts).symm
  · rw [← hfills.instrs]
    exact (hfills.inOrder_perm ht).map Member.instr
  · obtain ⟨m, ms, hhead, hrest, hcons⟩ := List.forall₂_cons_right_iff.1 hreads
    rw [hcons]
    exact .cons ⟨hhead.1, hhead.2, hhead.3, hhead.4, hhead.5, hhead.6⟩ hrest

/-- A jump on zero, back to a label four words in front of it. -/
def jumpBack : Instruction :=
  { line := 4, opcode := .jump, address := 7, format := some .brRel
    operands := [.target (.label "BACK")], condition := some .eq }

/-- A program where the label stands at address 3. -/
def labeledProgram : Program := { symbols := ⟨[("BACK", ⟨3, .code, false, false⟩)]⟩ }

theorem Instruction.encode_readsBack_jumpBack :
    jumpBack.encode labeledProgram = .ok ⟨2030043008, [⟨-4, 5, 19⟩]⟩ ∧
      jumpBack.TargetsFit labeledProgram ∧ 2030043008 ≠ errorWord ∧
      ∃ s d, select jumpBack = .ok s ∧ decodeWord? 2030043008 jumpBack.programAddr = some d ∧
        jumpBack.format = some d.format ∧ d.instr.programAddr = jumpBack.programAddr ∧
        s.inOrder.map Member.role = d.format.roles ∧
        (s.inOrder.map Member.instr).Perm jumpBack.members ∧
        List.Forall₂ (fun m j => m.ReadsAs labeledProgram d.format jumpBack.cond j) s.inOrder
          d.instr.members := by
  have hencode : jumpBack.encode labeledProgram = .ok ⟨2030043008, [⟨-4, 5, 19⟩]⟩ := by rfl
  have hfit : jumpBack.TargetsFit labeledProgram := by
    intro j hj t a ht ha
    obtain rfl := List.mem_singleton.1 hj
    cases List.mem_singleton.1 ht
    cases ha
    decide
  have hword : 2030043008 ≠ errorWord := by decide
  exact ⟨hencode, hfit, hword, encode_readsBack hencode hfit hword⟩

end QuadDsp
