import Mathlib.Data.List.Pairwise
import QuadDsp.Proofs.Word.ReadBack
import QuadDsp.Proofs.Word.Sound
import QuadDsp.Word.Listing

/-! # Encoding undoes decoding

Whatever a word decodes to encodes again, to the same word without its padding, unless it is one of the
few operations that no field width excludes and the encoder refuses (`Instruction.Refused`). Both ways
are told by the fields: the operations read off the word play its parts (`Member.Plays`), so every field
takes the value that it was read from. -/

namespace QuadDsp

/-- Operations that a word can hold and the encoder refuses: a division into an odd register, a bit that
the lane does not have, a write of a read-only system register, and a bundle that computes and loads the
same register. -/
inductive Instruction.Refused (i : Instruction) : Prop
  | division (r : Reg) (hop : i.opcode = .divs ∨ i.opcode = .divq)
      (hreg : i.plain[0]? = some (.reg r)) (hodd : r.index % 2 = 1)
  | bitNumber (n : Nat) (v : Int)
      (hop : (i.opcode = .setb ∨ i.opcode = .clrb ∨ i.opcode = .tglb) ∧ n = 2 ∨ i.opcode = .tstb ∧ n = 1)
      (himm : i.plain[n]? = some (.imm v)) (hout : ¬(0 ≤ v ∧ v ≤ 11))
  | readOnly (s : SysReg) (hop : i.opcode = .ld ∨ i.opcode = .mov) (hsys : i.plain[0]? = some (.sys s))
      (hs : s = .status ∨ s = .laneId)
  | sameDestination (j l : Instruction) (r : Reg) (hj : j ∈ i.members) (hl : l ∈ i.members)
      (hop : j.opcode ∈ bundledAlu ∨ j.opcode ∈ bundledShift) (hld : l.opcode = .ld)
      (hjr : j.destination? = some r) (hlr : l.destination? = some r)

/-- Two operations that do not write the same register. -/
def Instruction.Apart (i j : Instruction) : Prop :=
  ∀ r, i.destination? = some r → ∀ r', j.destination? = some r' → r ≠ r'

instance : Std.Symm Instruction.Apart where
  symm _ _ h r hr r' hr' heq := h r' hr' r hr heq.symm

theorem Instruction.nodup_destinations_iff {l : List Instruction} :
    (l.filterMap destination?).Nodup ↔ l.Pairwise Apart :=
  List.pairwise_filterMap

theorem Field.settled_of_content? {f : Field} {m : Member} {addr v : Nat} {c : Content}
    (h : f.content? m.shape addr v = some c) (hc : m.Tells c) : f.Settled m := by
  have hoperand {arg : Arg} {o o' : Operand} (h : m.shape.operandAt? arg o = some c)
      (ho' : m.operand? arg = some o') : o' = o := by
    obtain ⟨n, hn, rfl⟩ := Shape.exists_of_operandAt? h
    rw [Member.operand?_eq, hn, Option.bind_some] at ho'
    exact Option.some.inj (ho'.symm.trans hc)
  obtain ⟨kind, role, arg, width⟩ := f
  cases kind with
  | imm sign =>
    cases sign with
    | either =>
      intro x hx
      cases hoperand h hx
      exact wrap_wrap width v
    | _ => trivial
  | pcRel =>
    intro t ht
    obtain ⟨a, ha, h⟩ := Option.bind_eq_some_iff.1 h
    cases hoperand h ht
    exact ⟨a, (toAddr?_eq_some_iff.1 ha).2, rfl⟩
  | loopEnd =>
    intro t ht
    cases hoperand h ht
    exact ⟨_, addrBehind_lt _ _, rfl⟩
  | addr =>
    intro r hr
    cases h
    obtain ⟨r', hr', hmode⟩ := hc
    cases hr.symm.trans hr'
    exact ⟨v, hmode⟩
  | _ => trivial

/-- The condition that is read is that of each field that says so, where there is one at most. -/
theorem code_of_conditionOf? {values : List (Field × Nat)} {c₀ c : Condition}
    (h : conditionOf? values c₀ = some c) (hone : values.countP (·.1.kind == .cond) ≤ 1) :
    (∀ x ∈ values, x.1.kind = .cond → x.2 = c.code) ∧
      (values.countP (·.1.kind == .cond) = 0 → c = c₀) := by
  induction values generalizing c₀ with
  | nil =>
    cases h
    exact ⟨List.forall_mem_nil _, fun _ => rfl⟩
  | cons x rest ih =>
    obtain ⟨f, v⟩ := x
    rw [conditionOf?] at h
    split at h
    · next hk =>
      obtain ⟨c', hc', h⟩ := Option.bind_eq_some_iff.1 h
      rw [List.countP_cons_of_pos (by simp [hk])] at hone ⊢
      have hzero : rest.countP (·.1.kind == .cond) = 0 := by omega
      obtain ⟨hrest, hc⟩ := ih h (by omega)
      refine ⟨List.forall_mem_cons.2 ⟨fun _ => ?_, hrest⟩, fun hno => by omega⟩
      rw [hc hzero]
      exact (Condition.ofCode?_eq_some_iff.1 hc').symm
    · next hk =>
      rw [List.countP_cons_of_neg (by simp [hk])] at hone ⊢
      obtain ⟨hrest, hc⟩ := ih h hone
      exact ⟨List.forall_mem_cons.2 ⟨fun h => absurd h hk, hrest⟩, hc⟩

/-- The operations of a decoded word, as they play its parts. -/
theorem Decoded.exists_members {t : WordForm} (ht : t ∈ wordForms) {word addr : Nat} {c : Condition}
    {head : Instruction} {siblings : List Instruction}
    (h : List.Forall₂ (FormPart.Reads addr (wordReadings word 0 t.format.layout) c) t.parts
      (head :: siblings)) :
    ∃ ms : List Member, ms.map Member.instr = (ofMembers t.format addr head siblings).instr.members ∧
      List.Forall₂ (fun part m => m.Plays part addr (wordReadings word 0 t.format.layout)) t.parts ms := by
  have hfst := map_fst_wordReadings word 0 t.format.layout
  have hlt : ∀ x ∈ wordReadings word 0 t.format.layout, x.2 < span x.1.width :=
    fun x hx => lt_span_of_mem_wordReadings hx
  have hplays : ∀ part ∈ t.parts, ∀ i j : Instruction, i.opcode = j.opcode → i.operands = j.operands →
      i.conjugate = j.conjugate → part.Reads addr (wordReadings word 0 t.format.layout) c j →
      ∃ m : Member, m.Plays part addr (wordReadings word 0 t.format.layout) ∧ m.instr = i := by
    intro part hpart i j hop hoperands hconj hreads
    obtain ⟨m, hm, hplays⟩ := hreads.exists_plays ht hpart hfst hlt hop hoperands hconj
    exact ⟨m, hplays, hm⟩
  have hmem : List.Forall₂ (fun part j => part ∈ t.parts ∧
      part.Reads addr (wordReadings word 0 t.format.layout) c j) t.parts (head :: siblings) :=
    (forall₂_congr_of_mem fun part hpart j => (and_iff_right hpart).symm).1 h
  have hall : List.Forall₂ (fun part i => ∃ m : Member,
      m.Plays part addr (wordReadings word 0 t.format.layout) ∧ m.instr = i) t.parts
      (ofMembers t.format addr head siblings).instr.members := by
    obtain ⟨part, parts, hhead, hrest, hparts⟩ := List.forall₂_cons_right_iff.1 hmem
    rw [hparts]
    refine .cons (hplays part hhead.1 _ head rfl rfl rfl hhead.2) (hrest.imp ?_)
    exact fun part j hj => hplays part hj.1 j j rfl rfl rfl hj.2
  obtain ⟨ms, hms, hinstr⟩ := exists_forall₂_forall₂_iff.2 hall
  refine ⟨ms, ?_, hms⟩
  rwa [← List.forall₂_eq_eq_eq, List.forall₂_map_left_iff]

theorem FormatId.countP_cond_le (f : FormatId) : f.layout.countP (·.kind == .cond) ≤ 1 := by
  have hall : ∀ f ∈ all, f.layout.countP (·.kind == .cond) ≤ 1 := by decide +kernel
  exact hall f (mem_all f)

/-- The condition that is read off a word. -/
theorem code_of_wordReadings {f : FormatId} {word : Nat} {c : Condition}
    (h : conditionOf? (wordReadings word 0 f.layout) .always = some c) :
    (∀ x ∈ wordReadings word 0 f.layout, x.1.kind = .cond → x.2 = c.code) ∧
      (f.hasCond = false → c = .always) := by
  have hcount : (wordReadings word 0 f.layout).countP (·.1.kind == .cond) =
      f.layout.countP (·.kind == .cond) := by
    conv_rhs => rw [← map_fst_wordReadings word 0 f.layout]
    rw [List.countP_map]
    rfl
  obtain ⟨hcode, halways⟩ := code_of_conditionOf? h (hcount ▸ f.countP_cond_le)
  refine ⟨hcode, fun hno => halways ?_⟩
  rw [hcount, List.countP_eq_zero]
  simpa [FormatId.hasCond] using hno

theorem FormatId.width_of_loopEnd (f : FormatId) {fd : Field} (hfd : fd ∈ f.layout) (hk : fd.kind = .loopEnd) :
    fd.width = 16 := by
  have hall : ∀ f ∈ all, ∀ fd ∈ f.layout, fd.kind = .loopEnd → fd.width = 16 := by decide +kernel
  exact hall f (mem_all f) fd hfd hk

theorem FormatId.reaches (f : FormatId) {word addr : Nat} (h : addr + 65536 < span addrBits) : f.Reaches word addr := by
  intro x hx hk
  have hlt := lt_span_of_mem_wordReadings hx
  rw [f.width_of_loopEnd (fst_mem_of_mem_wordReadings hx) hk, show span 16 = 65536 from rfl] at hlt
  omega

namespace Selection

variable {s : Selection} {t : WordForm} {word addr : Nat}

/-- The selection encodes the operations that play the parts of the word. -/
structure Restores (s : Selection) (t : WordForm) (word addr : Nat) : Prop where
  format : s.format = t.format
  fixed : s.fixed = t.fixed
  head : s.head.programAddr = addr
  cond : conditionOf? (wordReadings word 0 t.format.layout) .always = some s.head.cond
  reaches : t.format.Reaches word addr
  members : ∀ part ∈ t.parts, ∃ m, s.member? part.role = some m ∧
    m.Plays part addr (wordReadings word 0 t.format.layout)

/-- Every field takes the value that it was read from, a pad field zero. -/
theorem Restores.emits (h : s.Restores t word addr) (ht : t ∈ wordForms) (hword : word < span wordBits)
    (hlead : t.leads word = true) (p : Program) :
    ∀ x ∈ wordReadings word 0 t.format.layout, s.Emits p x.1 (if x.1.kind = .pad then 0 else x.2) := by
  intro x hx
  have hf : x.1 ∈ t.format.layout := fst_mem_of_mem_wordReadings hx
  by_cases hown : x.1.isOwn = true
  · obtain ⟨part, hpart, hrole⟩ := List.mem_map.1 (t.role_mem_of_isOwn ht x.1 hf hown)
    obtain ⟨m, hm, hplays⟩ := h.members part hpart
    obtain ⟨c, hc, htells⟩ := hplays.tells x hx hown hrole.symm
    rw [← hplays.takes.shape] at hc
    have hpad : x.1.kind ≠ .pad := fun hk => by simp [Field.isOwn, hk] at hown
    have hplaced : x.1.wellPlaced m.shape = true :=
      hplays.takes.shape ▸ WordForm.wellPlaced t ht part hpart x.1 hf hrole.symm
    rw [if_neg hpad, emits_iff_tells hown (hrole ▸ hm) hplays.classified hplaced
      (Field.settled_of_content? hc htells), h.head]
    exact ⟨lt_span_of_mem_wordReadings hx, h.reaches x hx, c, hc, htells⟩
  · rw [emits_iff_of_not_isOwn (Bool.eq_false_iff.2 hown)]
    obtain ⟨f, v⟩ := x
    dsimp only at hf hown ⊢
    cases hk : f.kind with
    | opcode =>
      rw [h.fixed, (eq_wordField_of_opcode hx hk).2]
      exact (WordForm.leads_iff_wordField ht hword).1 hlead
    | pad => rfl
    | cond => exact (code_of_wordReadings h.cond).1 _ hx hk
    | _ => simp [Field.isOwn, hk] at hown

theorem Restores.validate (h : s.Restores t word addr) (ht : t ∈ wordForms) (hword : word < span wordBits)
    (hlead : t.leads word = true) : s.validate = .ok () := by
  refine validate_of_emits (p := default) fun f hf => ?_
  rw [h.format, ← map_fst_wordReadings word 0 t.format.layout] at hf
  obtain ⟨x, hx, rfl⟩ := List.mem_map.1 hf
  exact ⟨_, h.emits ht hword hlead default x hx⟩

theorem Restores.encode (h : s.Restores t word addr) (ht : t ∈ wordForms) (hword : word < span wordBits)
    (hlead : t.leads word = true) (hstructure : checkStructure s.head = .ok ())
    (hselect : select s.head = .ok s) (hformat : s.head.format = some t.format) (p : Program) :
    ∃ relocs, s.head.encode p = .ok ⟨t.format.clearPad word, relocs⟩ := by
  refine encode_eq_ok_iff.2 ⟨hstructure, s, hselect, h.format.symm ▸ hformat,
    zeroPad (wordReadings word 0 t.format.layout), ?_, ?_,
    (packFields_clearPad t.format hword).symm⟩
  · rw [map_fst_zeroPad, map_fst_wordReadings, h.format]
  · intro x hx
    obtain ⟨⟨f, v⟩, hv, rfl⟩ := List.mem_map.1 hx
    exact h.emits ht hword hlead p (f, v) hv

end Selection

theorem conditionOf?_zeroPad (values : List (Field × Nat)) (c : Condition) :
    conditionOf? (zeroPad values) c =
      conditionOf? values c := by
  induction values generalizing c with
  | nil => rfl
  | cons x rest ih =>
    obtain ⟨f, v⟩ := x
    rw [zeroPad_cons, conditionOf?, conditionOf?]
    split
    · next hk =>
      rw [if_neg (by simp [hk])]
      exact congrArg (Option.bind _) (funext fun c => ih c)
    · exact ih c

theorem ownContents?_zeroPad (addr : Nat) (role : Role) (s : Shape) (values : List (Field × Nat)) :
    ownContents? addr role s (zeroPad values) =
      ownContents? addr role s values := by
  induction values with
  | nil => rfl
  | cons x rest ih =>
    obtain ⟨f, v⟩ := x
    rw [zeroPad_cons, ownContents?, ownContents?, ih]
    split
    · next hf =>
      have hpad : f.kind ≠ .pad := fun hk => by simp [Field.isOwn, hk] at hf
      rw [if_neg hpad]
    · rfl

/-- Pad bits do not tell which form leads a word. -/
theorem WordForm.leads_clearPad {t : WordForm} (ht : t ∈ wordForms) {word : Nat}
    (hword : word < span wordBits) (hlead : t.leads word = true) :
    t.leads (t.format.clearPad word) = true := by
  have hle : t.format.clearPad word ≤ word := Nat.and_le_left
  rw [leads_iff_wordField ht hword] at hlead
  rw [leads_iff_wordField ht (Nat.lt_of_le_of_lt hle hword), ← hlead]
  have hreadings := wordReadings_clearPad t.format hword
  obtain ⟨rest, hlayout, -⟩ := t.format.layout_eq
  rw [hlayout, wordReadings, wordReadings, zeroPad_cons, List.cons.injEq, Prod.mk.injEq] at hreadings
  exact hreadings.1.2

/-- The decoder ignores pad bits. -/
theorem decodeWord?_clearPad {word addr : Nat} {d : Decoded} (hword : word < span wordBits)
    (h : decodeWord? word addr = some d) : decodeWord? (d.format.clearPad word) addr = some d := by
  obtain ⟨hne, t, ht, hlead, c, head, siblings, hcond, hparts, rfl⟩ := decodeWord?_eq_some_iff.1 h
  have hle : t.format.clearPad word ≤ word := Nat.and_le_left
  have hreadings := wordReadings_clearPad t.format hword
  refine decodeWord?_eq_some_iff.2 ⟨fun herror => hne ?_, t, ht, ?_, c, head, siblings, ?_, ?_, rfl⟩
  · change t.format.clearPad word = errorWord at herror
    have hmax : errorWord + 1 = span wordBits := by decide
    omega
  · exact WordForm.leads_clearPad ht hword hlead
  · dsimp only [Decoded.ofMembers]
    rw [hreadings, conditionOf?_zeroPad]
    exact hcond
  · dsimp only [Decoded.ofMembers]
    rw [hreadings]
    refine hparts.imp fun part i hi => ?_
    obtain ⟨draft, ⟨hlen, cs, hcs, hd⟩, hfinish⟩ := hi
    exact ⟨draft, ⟨hlen, cs, (ownContents?_zeroPad ..).trans hcs, hd⟩, hfinish⟩

section Single

theorem FormatEntry.opcode_of_sys : ∀ e ∈ formatEntries, e.shape = .sysR ∨ e.shape = .sysImm →
    e.opcode = .ld ∨ e.opcode = .mov := by
  decide +kernel

theorem Shape.of_slots_sys {s : Shape} (h : s.slots[0]? = some .sys) : s = .sysR ∨ s = .sysImm := by
  have hall : ∀ s ∈ all, s.slots[0]? = some .sys → s = .sysR ∨ s = .sysImm := by decide +kernel
  exact hall s (mem_all s) h

/-- A lane has twelve bits. -/
theorem Member.bitNumber_eq_ok_iff {m : Member} {n : Nat} :
    checkOperands.bitNumber m n = .ok () ↔ ∀ v, m.instr.plain[n]? = some (.imm v) → 0 ≤ v ∧ v ≤ 11 := by
  have hnth : m.operand? (.nth n) = m.instr.plain[n]? := rfl
  unfold checkOperands.bitNumber imm?
  rw [hnth]
  cases m.instr.plain[n]? with
  | none => simp
  | some o =>
    cases o with
    | imm v =>
      simp only [Option.some.injEq, Operand.imm.injEq, forall_eq']
      split
      · next h => exact iff_of_true rfl ⟨h.1, by omega⟩
      · next h => exact iff_of_false (fun herr => by cases herr) fun h' => h ⟨h'.1, by omega⟩
    | _ => simp

theorem Member.Classified.shape_of_sys {m : Member} (h : m.Classified) {s : SysReg}
    (hs : m.instr.plain[0]? = some (.sys s)) : m.shape = .sysR ∨ m.shape = .sysImm := by
  have hfits := Shape.fits_iff.1 (Shape.classify_eq_ok_iff.1 h.classify).1
  obtain ⟨hn, ho⟩ := List.getElem?_eq_some_iff.1 hs
  have hlt : 0 < m.shape.slots.length := hfits.length_eq ▸ hn
  have haccepts : m.shape.slots[0].accepts (.sys s) = true := ho ▸ hfits.get hlt hn
  refine Shape.of_slots_sys ?_
  rw [List.getElem?_eq_getElem hlt]
  cases hslot : m.shape.slots[0] <;> rw [hslot] at haccepts <;> first | rfl | cases haccepts

section Refusal

variable {e : FormatEntry} (he : e ∈ formatEntries) {m : Member} (hclass : m.Classified)
  (htakes : (⟨.op, e.opcode, e.shape⟩ : FormPart).Takes m)

include hclass in
/-- The check of the operands finds each kind of operation that is refused. -/
theorem not_refused_of_checkOperands (hsingle : m.instr.siblings = []) (hok : m.checkOperands = .ok ()) :
    ¬m.instr.Refused := by
  have hreg : m.reg? 0 = m.instr.plain[0]?.bind Operand.reg? := rfl
  have hfirst : m.operand? (.nth 0) = m.instr.plain[0]? := rfl
  rintro (⟨r, hop, hr, hodd⟩ | ⟨n, v, hop, himm, hout⟩ | ⟨s, hop, hsys, hs⟩ | ⟨j, l, r, hj, hl, hop, hld, -, -⟩)
  · rcases hop with hop | hop <;>
      simp [Member.checkOperands, Member.opcode, hop, hreg, hr, Operand.reg?, hodd] at hok
  · have hbit : Member.checkOperands.bitNumber m n = .ok () := by
      rcases hop with ⟨hop | hop | hop, rfl⟩ | ⟨hop, rfl⟩ <;>
        simpa [Member.checkOperands, Member.opcode, hop] using hok
    exact hout (Member.bitNumber_eq_ok_iff.1 hbit v himm)
  · have hwritable : s.writable = false := by rcases hs with rfl | rfl <;> rfl
    rcases hclass.shape_of_sys hsys with hshape | hshape <;> rcases hop with hop | hop <;>
      simp [Member.checkOperands, Member.opcode, hop, hshape, hfirst, hsys, hwritable] at hok
  · -- an operation that stands alone is not one of two
    rw [Instruction.members, hsingle, List.mem_singleton] at hj hl
    subst hj hl
    rw [hld] at hop
    revert hop
    decide

include he htakes in
/-- An operation that is not refused passes the check of its operands. -/
theorem checkOperands_of_not_refused (hno : ¬m.instr.Refused) : m.checkOperands = .ok () := by
  have hop : m.instr.opcode = e.opcode := htakes.opcode rfl
  have hshape : m.shape = e.shape := htakes.shape
  have hreg : m.reg? 0 = m.instr.plain[0]?.bind Operand.reg? := rfl
  have hpair : (m.opcode = .divs ∨ m.opcode = .divq) → ∀ r, m.reg? 0 = some r → r.index % 2 = 0 := by
    intro hop r hr
    obtain ⟨o, ho, hor⟩ := Option.bind_eq_some_iff.1 (hreg.symm.trans hr)
    cases o <;> cases hor
    by_contra hodd
    exact hno (.division r hop ho (by omega))
  have hbit (n : Nat) (hop : (m.opcode = .setb ∨ m.opcode = .clrb ∨ m.opcode = .tglb) ∧ n = 2 ∨
      m.opcode = .tstb ∧ n = 1) : Member.checkOperands.bitNumber m n = .ok () := by
    refine Member.bitNumber_eq_ok_iff.2 fun v hv => ?_
    by_contra hout
    exact hno (.bitNumber n v hop hv hout)
  have hwritable (s : SysReg) (hsys : m.shape = .sysR ∨ m.shape = .sysImm)
      (hs : m.operand? (.nth 0) = some (.sys s)) : s.writable = true := by
    by_contra hreadOnly
    have hop : m.instr.opcode = .ld ∨ m.instr.opcode = .mov :=
      hop ▸ FormatEntry.opcode_of_sys e he (hshape ▸ hsys)
    exact hno (.readOnly s hop hs (by cases s <;> simp [SysReg.writable] at hreadOnly ⊢))
  unfold Member.checkOperands
  split
  case h_1 hop | h_2 hop =>
    cases hr : m.reg? 0 with
    | none => rfl
    | some r => exact if_pos (hpair (by simp [hop]) r hr)
  case h_3 hop | h_4 hop | h_5 hop => exact hbit 2 (.inl ⟨by simp [hop], rfl⟩)
  case h_6 hop => exact hbit 1 (.inr ⟨hop, rfl⟩)
  case h_7 =>
    split
    · next s hs ho => exact if_pos (hwritable s (.inl hs) ho)
    · next s hs ho => exact if_pos (hwritable s (.inr hs) ho)
    · rfl

end Refusal

/-- A word with one operation is accepted unless it is refused. -/
theorem FormatEntry.select_of_plays {e : FormatEntry} (he : e ∈ formatEntries) {m : Member} {word addr : Nat}
    (hword : word < span wordBits) (hlead : e.form.leads word = true)
    (h : m.Plays ⟨.op, e.opcode, e.shape⟩ addr (wordReadings word 0 e.format.layout))
    (hcond : conditionOf? (wordReadings word 0 e.format.layout) .always = some m.instr.cond)
    (haddr : m.instr.programAddr = addr) (hreach : e.format.Reaches word addr) (hsingle : m.instr.siblings = [])
    (hno : ¬m.instr.Refused) :
    ∃ s : Selection, select m.instr = .ok s ∧ s.head = m.instr ∧ s.Restores e.form word addr := by
  have hrole : m.role = .op := h.takes.role
  have hrestores : Selection.Restores ⟨e.format, e.fixed, m.instr, [m]⟩ e.form word addr := by
    refine ⟨rfl, rfl, haddr, hcond, hreach, fun part hpart => ⟨m, ?_, ?_⟩⟩
    · rw [List.mem_singleton.1 hpart]
      simp [Selection.member?, hrole]
    · rw [List.mem_singleton.1 hpart]
      exact h
  refine ⟨_, ?_, rfl, hrestores⟩
  rw [select, if_pos (by simp [hsingle]), selectSingle_eq_ok_iff]
  refine ⟨m, e, he, rfl, h.classified, h.takes, ?_, rfl, ?_, ?_⟩
  · exact checkOperands_of_not_refused he h.takes hno
  · exact (code_of_wordReadings hcond).2
  · exact hrestores.validate (FormatEntry.form_mem he) hword hlead

end Single

section Bundle

/-- The part before the second of two loads is told apart. -/
def Role.unmarked : Role → Role
  | ld2 => ld
  | role => role

/-- The operation as it enters the bundle. -/
def Member.unmarked (m : Member) : Member := { m with role := m.role.unmarked }

/-- Register number that orders two loads. -/
def Member.loadKey (m : Member) : Nat := (m.dataReg?.map Reg.index).getD 0

/-- Loads are told apart again if they stand in the order of their registers. -/
theorem orderLoads_unmarked {ms : List Member} {shape : BundleShape}
    (hroles : ms.map Member.role = shape.roles)
    (hkey : ∀ a ∈ ms, ∀ b ∈ ms, a.role = .ld → b.role = .ld2 → a.loadKey ≤ b.loadKey) :
    orderLoads (ms.map Member.unmarked) = ms := by
  have hlen : ms.length = shape.roles.length := by rw [← hroles, List.length_map]
  cases shape with
  | macLdLd =>
    obtain ⟨a, b, c, rfl⟩ := List.length_eq_three.1 hlen
    simp only [List.map_cons, List.map_nil, BundleShape.roles, List.cons.injEq, and_true] at hroles
    obtain ⟨ha, hb, hc⟩ := hroles
    have hle : b.unmarked.loadKey ≤ c.unmarked.loadKey := hkey b (by simp) c (by simp) hb hc
    obtain ⟨_, ai, ashape, amode⟩ := a
    obtain ⟨_, bi, bshape, bmode⟩ := b
    obtain ⟨_, ci, cshape, cmode⟩ := c
    dsimp only at ha hb hc
    subst ha hb hc
    exact congrArg (markLoad · _) (if_pos hle)
  | _ =>
    obtain ⟨a, b, rfl⟩ := List.length_eq_two.1 hlen
    simp only [List.map_cons, List.map_nil, BundleShape.roles, List.cons.injEq, and_true] at hroles
    obtain ⟨ha, hb⟩ := hroles
    obtain ⟨_, ai, ashape, amode⟩ := a
    obtain ⟨_, bi, bshape, bmode⟩ := b
    dsimp only at ha hb
    subst ha hb
    rfl

theorem ofMembers?_of_roles {ms : List Member} {shape : BundleShape}
    (hroles : ms.map Member.role = shape.roles) : BundleShape.ofMembers? ms = some shape := by
  have hcount (role : Role) : roleCount role ms = shape.roles.count role := by
    rw [← hroles, List.count, List.countP_map]
    rfl
  simp only [ofMembers?_eq_some_iff, hcount, and_self]

variable {m : Member} {role : Role} {addr : Nat} {values : List (Field × Nat)}

theorem Member.Plays.operands_eq (h : m.Plays role.part addr values) (hmac : role ≠ .mac) :
    m.instr.operands = m.instr.plain := by
  have hneeds : m.shape.needsMode = false := by
    rw [h.takes.shape]
    cases role <;> first | rfl | exact absurd rfl hmac
  have hmode : m.mode = none := by
    have hsome := h.classified.mode
    rwa [hneeds, Option.isSome_eq_false_iff, Option.isNone_iff_eq_none] at hsome
  have hclass : Shape.classify m.instr = .ok (m.shape, none) := hmode ▸ h.classified.classify
  exact (Instruction.plain_eq_operands hclass).symm

theorem Member.Plays.nth?_of_post (h : m.Plays role.part addr values) (htransfer : role.isTransfer = true)
    {n : Nat} (hn : m.shape.memSlot? = some n) :
    ∃ i k, m.instr.operands[n]? = some (.mem ⟨.data, .post i k⟩) := by
  obtain ⟨i, k, hmem⟩ := h.post htransfer
  refine ⟨i, k, ?_⟩
  rw [h.operands_eq fun hmac => by rw [hmac] at htransfer; cases htransfer]
  have harg : m.operand? .mem = m.instr.plain[n]? := by
    rw [Member.operand?, hn]
    rfl
  rw [Member.mem?] at hmem
  split at hmem
  · next r hr =>
    cases hmem
    exact harg.symm.trans hr
  · cases hmem

theorem bundleMember_of_plays (h : m.Plays role.part addr values) (hrole : role ≠ .op) :
    bundleMember m.instr = .ok m.unmarked := by
  have hmrole : m.role = role := h.takes.role
  have hshape : m.shape = role.shape := h.takes.shape
  refine bundleMember_eq_ok_iff.2 ⟨rfl, h.classified.classify, ?_, ?_⟩
  · change bundleRole m.instr m.shape = .ok m.role.unmarked
    rw [bundleRole_eq_ok_iff, hmrole, hshape]
    cases role with
    | op => exact absurd rfl hrole
    | ld | ld2 =>
      obtain ⟨i, k, ho⟩ := h.nth?_of_post (n := 1) rfl (by rw [hshape]; rfl)
      exact .inl ⟨rfl, rfl, h.takes.opcode rfl, .data, i, k, ho⟩
    | st =>
      obtain ⟨i, k, ho⟩ := h.nth?_of_post (n := 0) rfl (by rw [hshape]; rfl)
      exact .inr (.inl ⟨rfl, rfl, h.takes.opcode rfl, .data, i, k, ho⟩)
    | alu => exact .inr (.inr (.inl ⟨rfl, rfl, h.coded rfl⟩))
    | mac => exact .inr (.inr (.inr (.inl ⟨rfl, rfl, h.coded rfl⟩)))
    | shf => exact .inr (.inr (.inr (.inr ⟨rfl, rfl, h.coded rfl⟩)))
  · change m.mode.isSome = true ↔ m.role.unmarked = .mac
    rw [h.classified.mode, hmrole, hshape]
    cases role <;> first | exact absurd rfl hrole | decide

/-- The register that a load in a bundle moves. -/
theorem dataReg?_of_plays {f : FormatId} {word width base : Nat} (hshape : role.shape = .rMemM)
    (hf : Layout.on role (.reg base) .data width ∈ f.layout)
    (h : m.Plays role.part addr (wordReadings word 0 f.layout)) :
    ∃ v < span width, m.dataReg? = some ⟨.general, v + base⟩ := by
  rw [← map_fst_wordReadings word 0 f.layout] at hf
  obtain ⟨⟨_, v⟩, hx, rfl⟩ := List.mem_map.1 hf
  have hlt := lt_span_of_mem_wordReadings hx
  obtain ⟨c, hc, htells⟩ := h.tells _ hx rfl rfl
  have hcontent : (Layout.on role (.reg base) .data width).content? .rMemM addr v =
      if v + base < RegClass.general.count then some (.operand 0 (.reg ⟨.general, v + base⟩))
      else none := rfl
  have hpart : role.part.shape = .rMemM := hshape
  rw [hpart, hcontent] at hc
  split at hc
  · cases hc
    have hnth : m.nth? 0 = some (.reg ⟨.general, v + base⟩) := htells
    have hdata : m.shape.dataSlot? = some 0 := by rw [h.takes.shape, hpart]; rfl
    refine ⟨v, hlt, ?_⟩
    rw [Member.dataReg?, Member.operand?, hdata, Option.bind_some, hnth]
    rfl
  · cases hc

theorem Instruction.plain_of_destination? {i : Instruction} {r : Reg} (h : i.destination? = some r) :
    i.opcode ≠ .st ∧ i.plain[0]? = some (.reg r) := by
  unfold destination? at h
  split at h
  · cases h
  · next hst =>
    split at h
    · next hops =>
      cases h
      refine ⟨hst, ?_⟩
      rw [plain, hops, List.filter_cons_of_pos rfl]
      rfl
    · cases h

/-- What a bundled operation writes: a multiplication an accumulator, any other a data register. -/
theorem destination_of_plays (h : m.Plays role.part addr values) (hrole : role ≠ .op) {r : Reg}
    (hr : m.instr.destination? = some r) :
    role = .mac ∧ r.cls = .acc ∨ (role = .alu ∨ role = .shf) ∧ r.cls = .general ∨
      (role = .ld ∨ role = .ld2) ∧ r.cls = .general ∧ m.dataReg? = some r := by
  obtain ⟨hst, hplain⟩ := Instruction.plain_of_destination? hr
  have hnth : m.nth? 0 = some (.reg r) := hplain
  have hshape : m.shape = role.shape := h.takes.shape
  have hfirst (slot : Slot) (hslot : m.shape.slots[0]? = some slot) : slot.accepts (.reg r) = true := by
    obtain ⟨o, ho, haccepts, -⟩ := h.classified.nth?_of_slot hslot
    cases hnth.symm.trans ho
    exact haccepts
  have hgeneral (hslot : role.shape.slots[0]? = some .general) : r.cls = .general :=
    eq_of_beq (hfirst .general (hshape ▸ hslot))
  have hdata (hslot : role.shape.dataSlot? = some 0) : m.dataReg? = some r := by
    rw [Member.dataReg?, Member.operand?, hshape, hslot, Option.bind_some, hnth]
    rfl
  cases role with
  | op => exact absurd rfl hrole
  | mac => exact .inl ⟨rfl, eq_of_beq (hfirst .acc (hshape ▸ rfl))⟩
  | alu => exact .inr (.inl ⟨.inl rfl, hgeneral rfl⟩)
  | shf => exact .inr (.inl ⟨.inr rfl, hgeneral rfl⟩)
  | ld => exact .inr (.inr ⟨.inl rfl, hgeneral rfl, hdata rfl⟩)
  | ld2 => exact .inr (.inr ⟨.inr rfl, hgeneral rfl, hdata rfl⟩)
  | st => exact absurd (h.takes.opcode rfl) hst

/-- Each operation plays a part of the bundle. -/
theorem BundleEntry.plays_of_mem {b : BundleEntry} {ms : List Member}
    (hms : List.Forall₂ (fun part m => m.Plays part addr values) b.form.parts ms) {m : Member}
    (hm : m ∈ ms) : m.role ∈ b.shape.roles ∧ m.Plays m.role.part addr values := by
  obtain ⟨part, hpart, hplays⟩ := exists_left_of_forall₂ hms hm
  obtain ⟨role, hrole, rfl⟩ := List.mem_map.1 hpart
  obtain rfl : m.role = role := hplays.takes.role
  exact ⟨hrole, hplays⟩

theorem BundleEntry.map_role {b : BundleEntry} {ms : List Member}
    (hms : List.Forall₂ (fun part m => m.Plays part addr values) b.form.parts ms) :
    ms.map Member.role = b.shape.roles := by
  have hroles : b.form.parts.map FormPart.role = b.shape.roles := by
    simp [form, Role.part, Function.comp_def]
  rw [← hroles]
  exact (map_eq_map_of_forall₂ (fun part m hm => hm.takes.role.symm) hms).symm

theorem BundleEntry.loads_of_mem : ∀ b ∈ bundleEntries, .ld2 ∈ b.shape.roles →
    Layout.on .ld (.reg 0) .data 2 ∈ b.format.layout ∧ Layout.on .ld2 (.reg 4) .data 2 ∈ b.format.layout := by
  decide +kernel

theorem BundleShape.op_notMem_roles (shape : BundleShape) : Role.op ∉ shape.roles := by
  cases shape <;> decide

theorem BundleShape.shf_notMem_roles {shape : BundleShape} (h : .alu ∈ shape.roles) : Role.shf ∉ shape.roles := by
  cases shape <;> revert h <;> decide

theorem BundleShape.length_roles (shape : BundleShape) :
    2 ≤ shape.roles.length ∧ shape.roles.length ≤ 3 := by
  cases shape <;> decide

theorem BundleShape.nodup_roles (shape : BundleShape) : shape.roles.Nodup := by
  cases shape <;> decide

/-- The two loads of a bundle move different registers, the first a lower one. -/
theorem dataReg?_lt_of_plays {b : BundleEntry} (hb : b ∈ bundleEntries) {word : Nat} {l l' : Member}
    (hrole' : .ld2 ∈ b.shape.roles)
    (hl : l.Plays Role.ld.part addr (wordReadings word 0 b.format.layout))
    (hl' : l'.Plays Role.ld2.part addr (wordReadings word 0 b.format.layout)) :
    ∃ r r', l.dataReg? = some r ∧ l'.dataReg? = some r' ∧ r.index < r'.index := by
  obtain ⟨hf, hf'⟩ := BundleEntry.loads_of_mem b hb hrole'
  obtain ⟨v, hv, hr⟩ := dataReg?_of_plays rfl hf hl
  obtain ⟨v', -, hr'⟩ := dataReg?_of_plays rfl hf' hl'
  have hspan : span 2 = 4 := rfl
  exact ⟨_, _, hr, hr', (by omega : v + 0 < v' + 4)⟩

/-- The operations of a decoded bundle write different registers, but for the one case that is
refused. -/
theorem apart_of_plays {b : BundleEntry} (hb : b ∈ bundleEntries) {word : Nat} {ms : List Member}
    (hms : List.Forall₂ (fun part m => m.Plays part addr (wordReadings word 0 b.format.layout))
      b.form.parts ms) {i : Instruction} (hi : ms.map Member.instr = i.members) (hno : ¬i.Refused) :
    i.members.Pairwise Instruction.Apart := by
  rw [← hi, List.pairwise_map]
  have hroles : (ms.map Member.role).Nodup := by
    rw [BundleEntry.map_role hms]
    exact b.shape.nodup_roles
  -- neither of two operations that compute, and load, the same register
  have hclash {j l : Member} {r : Reg} (hj : j ∈ ms) (hl : l ∈ ms) (hjrole : j.role = .alu ∨ j.role = .shf)
      (hlrole : l.role = .ld ∨ l.role = .ld2) (hjr : j.instr.destination? = some r)
      (hlr : l.instr.destination? = some r) : False := by
    have hplays := (BundleEntry.plays_of_mem hms hj).2
    have hload := (BundleEntry.plays_of_mem hms hl).2
    refine hno (.sameDestination j.instr l.instr r (hi ▸ List.mem_map_of_mem hj)
      (hi ▸ List.mem_map_of_mem hl) ?_ ?_ hjr hlr)
    · rcases hjrole with hrole | hrole <;> rw [hrole] at hplays
      · exact .inl (hplays.coded rfl)
      · exact .inr (hplays.coded rfl)
    · rcases hlrole with hrole | hrole <;> rw [hrole] at hload <;> exact hload.takes.opcode rfl
  have hloads {l l' : Member} {r : Reg} (hl : l ∈ ms) (hl' : l' ∈ ms) (hrole : l.role = .ld)
      (hrole' : l'.role = .ld2) (hr : l.dataReg? = some r) (hr' : l'.dataReg? = some r) : False := by
    obtain ⟨hmem', hplays'⟩ := BundleEntry.plays_of_mem hms hl'
    obtain ⟨q, q', hq, hq', hlt⟩ := dataReg?_lt_of_plays hb (hrole' ▸ hmem')
      (hrole ▸ (BundleEntry.plays_of_mem hms hl).2) (hrole' ▸ hplays')
    cases hr.symm.trans hq
    cases hr'.symm.trans hq'
    exact Nat.lt_irrefl _ hlt
  refine (List.pairwise_map.1 hroles).imp_of_mem fun {a c} ha hc hne r hr r' hr' heq => ?_
  subst heq
  obtain ⟨hamem, haplays⟩ := BundleEntry.plays_of_mem hms ha
  obtain ⟨hcmem, hcplays⟩ := BundleEntry.plays_of_mem hms hc
  have haop : a.role ≠ .op := fun h => b.shape.op_notMem_roles (h ▸ hamem)
  have hcop : c.role ≠ .op := fun h => b.shape.op_notMem_roles (h ▸ hcmem)
  rcases destination_of_plays haplays haop hr with ⟨hmac, hacc⟩ | ⟨hcompute, hgen⟩ | ⟨hload, hgen, hdata⟩ <;>
    rcases destination_of_plays hcplays hcop hr' with ⟨hmac', hacc'⟩ | ⟨hcompute', hgen'⟩ |
      ⟨hload', hgen', hdata'⟩
  · exact hne (hmac.trans hmac'.symm)
  · exact absurd (hacc.symm.trans hgen') RegClass.noConfusion
  · exact absurd (hacc.symm.trans hgen') RegClass.noConfusion
  · exact absurd (hgen.symm.trans hacc') RegClass.noConfusion
  · rcases hcompute with h | h <;> rcases hcompute' with h' | h'
    · exact hne (h.trans h'.symm)
    · exact BundleShape.shf_notMem_roles (h ▸ hamem) (h' ▸ hcmem)
    · exact BundleShape.shf_notMem_roles (h' ▸ hcmem) (h ▸ hamem)
    · exact hne (h.trans h'.symm)
  · exact hclash ha hc hcompute hload' hr hr'
  · exact absurd (hgen.symm.trans hacc') RegClass.noConfusion
  · exact hclash hc ha hcompute' hload hr' hr
  · rcases hload with h | h <;> rcases hload' with h' | h'
    · exact hne (h.trans h'.symm)
    · exact hloads ha hc h h' hdata hdata'
    · exact hloads hc ha h' h hdata' hdata
    · exact hne (h.trans h'.symm)

/-- A decoded bundle is accepted, with its operations in the order of the layout. -/
theorem BundleEntry.select_of_plays {b : BundleEntry} (hb : b ∈ bundleEntries) {word : Nat}
    (hword : word < span wordBits) (hlead : b.form.leads word = true) {ms : List Member}
    (hms : List.Forall₂ (fun part m => m.Plays part addr (wordReadings word 0 b.format.layout))
      b.form.parts ms) {i : Instruction} (hi : ms.map Member.instr = i.members)
    (hcond : conditionOf? (wordReadings word 0 b.format.layout) .always = some i.cond)
    (haddr : i.programAddr = addr) (hreach : b.format.Reaches word addr) :
    ∃ s : Selection, select i = .ok s ∧ s.head = i ∧ s.Restores b.form word addr := by
  have hroles := map_role hms
  have hrestores : Selection.Restores ⟨b.format, b.fixed, i, ms⟩ b.form word addr := by
    refine ⟨rfl, rfl, haddr, hcond, hreach, fun part hpart => ?_⟩
    obtain ⟨m, hm, hplays⟩ := exists_right_of_forall₂ hms hpart
    have hnodup : (ms.map Member.role).Nodup := hroles ▸ b.shape.nodup_roles
    exact ⟨m, hplays.takes.role ▸ Selection.member?_of_nodup (s := ⟨b.format, b.fixed, i, ms⟩) hnodup hm, hplays⟩
  have hmembers : List.Forall₂ (fun j m => bundleMember j = .ok m) i.members (ms.map Member.unmarked) := by
    rw [← hi, List.forall₂_map_left_iff, List.forall₂_map_right_iff, List.forall₂_same]
    intro m hm
    obtain ⟨hrole, hplays⟩ := plays_of_mem hms hm
    exact bundleMember_of_plays hplays fun h => b.shape.op_notMem_roles (h ▸ hrole)
  have horder : orderLoads (ms.map Member.unmarked) = ms := by
    refine orderLoads_unmarked hroles fun l hl l' hl' hrole hrole' => ?_
    obtain ⟨hmem', hplays'⟩ := plays_of_mem hms hl'
    obtain ⟨r, r', hr, hr', hlt⟩ := dataReg?_lt_of_plays hb (hrole' ▸ hmem')
      (hrole ▸ (plays_of_mem hms hl).2) (hrole' ▸ hplays')
    rw [Member.loadKey, Member.loadKey, hr, hr']
    exact Nat.le_of_lt hlt
  have hsiblings : ¬i.siblings.isEmpty = true := by
    have hlen : i.siblings.length + 1 = b.shape.roles.length := by
      rw [← hroles, List.length_map, ← List.length_map (f := Member.instr), hi]
      rfl
    have htwo := b.shape.length_roles.1
    rw [List.isEmpty_iff_length_eq_zero]
    omega
  refine ⟨_, ?_, rfl, hrestores⟩
  rw [select, if_neg hsiblings, selectBundle_eq_ok_iff]
  exact ⟨_, b, hb, hmembers, horder.symm ▸ ofMembers?_of_roles hroles, by rw [horder],
    hrestores.validate (form_mem hb) hword hlead⟩

end Bundle

theorem opcode_of_bundleRole {i : Instruction} {shape : Shape} {role : Role}
    (h : bundleRole i shape = .ok role) :
    i.opcode ∈ [.ld, .st] ++ bundledAlu ++ bundledMac ++ bundledShift := by
  rcases bundleRole_eq_ok_iff.1 h with ⟨-, -, hop, -⟩ | ⟨-, -, hop, -⟩ | ⟨-, -, hop⟩ | ⟨-, -, hop⟩ |
    ⟨-, -, hop⟩ <;> simp [hop]

/-- What is accepted is not refused. -/
theorem not_refused_of_select {i : Instruction} {s : Selection} (hstructure : checkStructure i = .ok ())
    (hs : select i = .ok s) : ¬i.Refused := by
  by_cases hsingle : i.siblings = []
  · rw [select, if_pos (by simp [hsingle]), selectSingle_eq_ok_iff] at hs
    obtain ⟨m, e, he, rfl, hclass, htakes, hcheck, -⟩ := hs
    exact not_refused_of_checkOperands hclass hsingle hcheck
  · rw [select, if_neg (by simpa using hsingle), selectBundle_eq_ok_iff] at hs
    obtain ⟨ms, b, hb, hms, -⟩ := hs
    obtain ⟨m, -, hm⟩ := exists_right_of_forall₂ hms (List.mem_cons_self : i ∈ i.members)
    have hclass := (bundled_of_bundleMember hm).2.1.classified
    obtain ⟨rfl, -, hrole, -⟩ := bundleMember_eq_ok_iff.1 hm
    have hbundled := opcode_of_bundleRole hrole
    have hnodup := (checkStructure_eq_ok_iff.1 hstructure).2.2
    rintro (⟨r, hop, -⟩ | ⟨n, v, hop, -⟩ | ⟨s, -, hsys, -⟩ | ⟨j, l, r, hj, hl, hop, hld, hjr, hlr⟩)
    · rcases hop with hop | hop <;> rw [hop] at hbundled <;> revert hbundled <;> decide
    · rcases hop with ⟨hop | hop | hop, -⟩ | ⟨hop, -⟩ <;> rw [hop] at hbundled <;> revert hbundled <;> decide
    · rcases hclass.shape_of_sys hsys with hshape | hshape <;> rw [hshape] at hrole <;>
        rcases bundleRole_eq_ok_iff.1 hrole with ⟨-, ⟨⟩, -⟩ | ⟨-, ⟨⟩, -⟩ | ⟨-, ⟨⟩, -⟩ | ⟨-, ⟨⟩, -⟩ | ⟨-, ⟨⟩, -⟩
    · have hne : j ≠ l := by
        rintro rfl
        rw [hld] at hop
        revert hop
        decide
      exact (Instruction.nodup_destinations_iff.1 hnodup).forall hj hl hne r hjr r hlr rfl

theorem not_refused_of_encode {p : Program} {i : Instruction} {e : EncodedWord} (h : i.encode p = .ok e) :
    ¬i.Refused := by
  obtain ⟨hstructure, s, t, ht, hs, -⟩ := holds_of_encode h
  exact not_refused_of_select hstructure hs

/-- Every operation of a decoded word has the condition of the word. -/
theorem condition_of_reads {parts : List FormPart} {addr : Nat} {values : List (Field × Nat)} {c : Condition}
    {instrs : List Instruction} (h : List.Forall₂ (FormPart.Reads addr values c) parts instrs) :
    ∀ j ∈ instrs, j.condition = some c := by
  intro j hj
  obtain ⟨part, -, d, -, hfinish⟩ := exists_left_of_forall₂ h hj
  exact (Draft.finish?_fields hfinish).2.2

theorem isDirective_of_entries : ∀ e ∈ formatEntries, e.opcode.isDirective = false := by decide +kernel

theorem isDirective_of_bundled : ∀ op ∈ [.ld, .st] ++ bundledAlu ++ bundledMac ++ bundledShift,
    op.isDirective = false := by
  decide

section Accepted

variable {word addr : Nat} {i : Instruction} {ms : List Member}

/-- An instruction that plays a form of a single operation is accepted, unless it is refused. -/
theorem FormatEntry.accepted_of_plays {e : FormatEntry} (he : e ∈ formatEntries) (hword : word < span wordBits)
    (hlead : e.form.leads word = true)
    (hms : List.Forall₂ (fun part m => m.Plays part addr (wordReadings word 0 e.form.format.layout)) e.form.parts ms)
    (hi : ms.map Member.instr = i.members)
    (hcond : conditionOf? (wordReadings word 0 e.form.format.layout) .always = some i.cond)
    (haddr : i.programAddr = addr) (hsame : ∀ j ∈ i.siblings, j.condition.getD i.cond = i.cond) :
    i.isDirective = false ∧ (¬i.Refused → e.format.Reaches word addr → checkStructure i = .ok () ∧
      ∃ s : Selection, select i = .ok s ∧ s.head = i ∧ s.Restores e.form word addr) := by
  obtain ⟨m, rest, hplays, hnil, rfl⟩ := List.forall₂_cons_left_iff.1 hms
  rw [List.forall₂_nil_left_iff.1 hnil, List.map_singleton] at hi
  obtain ⟨rfl, hsiblings⟩ := List.cons.inj hi
  have hsingle : m.instr.siblings = [] := hsiblings.symm
  have hop : m.instr.opcode = e.opcode := hplays.takes.opcode rfl
  refine ⟨by rw [Instruction.isDirective, hop]; exact isDirective_of_entries e he, fun hno hreach => ⟨?_, ?_⟩⟩
  · refine checkStructure_eq_ok_iff.2 ⟨?_, hsame, ?_⟩
    · rw [hsingle]
      exact Nat.zero_le 2
    · rw [Instruction.nodup_destinations_iff, Instruction.members, hsingle]
      exact List.pairwise_singleton _ _
  · exact select_of_plays he hword hlead hplays hcond haddr hreach hsingle hno

/-- An instruction that plays a form of a bundle is accepted, unless it is refused. -/
theorem BundleEntry.accepted_of_plays {b : BundleEntry} (hb : b ∈ bundleEntries) (hword : word < span wordBits)
    (hlead : b.form.leads word = true)
    (hms : List.Forall₂ (fun part m => m.Plays part addr (wordReadings word 0 b.form.format.layout)) b.form.parts ms)
    (hi : ms.map Member.instr = i.members)
    (hcond : conditionOf? (wordReadings word 0 b.form.format.layout) .always = some i.cond)
    (haddr : i.programAddr = addr) (hsame : ∀ j ∈ i.siblings, j.condition.getD i.cond = i.cond) :
    i.isDirective = false ∧ (¬i.Refused → b.format.Reaches word addr → checkStructure i = .ok () ∧
      ∃ s : Selection, select i = .ok s ∧ s.head = i ∧ s.Restores b.form word addr) := by
  have hlen : i.siblings.length + 1 = b.shape.roles.length := by
    have hmembers : i.members.length = ms.length := by rw [← hi, List.length_map]
    rw [← map_role hms, List.length_map, ← hmembers]
    rfl
  have hop : i.opcode ∈ [.ld, .st] ++ bundledAlu ++ bundledMac ++ bundledShift := by
    have hhead : i ∈ ms.map Member.instr := by
      rw [hi]
      exact List.mem_cons_self
    obtain ⟨m, hm, hmi⟩ := List.mem_map.1 hhead
    obtain ⟨hrole, hplays⟩ := plays_of_mem hms hm
    have hmember := bundleMember_of_plays hplays fun h => b.shape.op_notMem_roles (h ▸ hrole)
    exact hmi ▸ opcode_of_bundleRole (bundleMember_eq_ok_iff.1 hmember).2.2.1
  refine ⟨isDirective_of_bundled _ hop, fun hno hreach => ?_⟩
  refine ⟨?_, select_of_plays hb hword hlead hms hi hcond haddr hreach⟩
  refine checkStructure_eq_ok_iff.2 ⟨?_, hsame, ?_⟩
  · have hthree := b.shape.length_roles.2
    omega
  · exact Instruction.nodup_destinations_iff.2 (apart_of_plays hb hms hi hno)

end Accepted

/-- What a word decodes to is accepted with all its fields, unless it is refused. -/
theorem select_of_decodeWord? {word addr : Nat} {d : Decoded} (hword : word < span wordBits)
    (haddr : addr < span addrBits) (h : decodeWord? word addr = some d) :
    d.instr.isDirective = false ∧ (¬d.instr.Refused → d.format.Reaches word addr →
      ∃ (s : Selection) (t : WordForm), t ∈ wordForms ∧ t.leads word = true ∧ t.format = d.format ∧
        d.instr.format = some t.format ∧ checkStructure d.instr = .ok () ∧ select d.instr = .ok s ∧
        s.head = d.instr ∧ s.Restores t word addr) := by
  obtain ⟨-, t, ht, hlead, c, head, siblings, hcond, hparts, rfl⟩ := decodeWord?_eq_some_iff.1 h
  obtain ⟨ms, hi, hms⟩ := Decoded.exists_members ht hparts
  have hconditions := condition_of_reads hparts
  set i := (Decoded.ofMembers t.format addr head siblings).instr
  have hi_cond : i.cond = c := by
    have hhead : i.condition = some c := hconditions head List.mem_cons_self
    rw [Instruction.cond, hhead]
    rfl
  have hsame : ∀ j ∈ i.siblings, j.condition.getD i.cond = i.cond := by
    intro j hj
    rw [hconditions j (List.mem_cons_of_mem _ hj), hi_cond]
    rfl
  have haddr : i.programAddr = addr := UInt32.toNat_ofNat_of_lt' haddr
  have haccepted : i.isDirective = false ∧ (¬i.Refused → t.format.Reaches word addr → checkStructure i = .ok () ∧
      ∃ s : Selection, select i = .ok s ∧ s.head = i ∧ s.Restores t word addr) := by
    rcases List.mem_append.1 ht with hmem | hmem
    · obtain ⟨e, he, rfl⟩ := List.mem_map.1 hmem
      exact FormatEntry.accepted_of_plays he hword hlead hms hi (hi_cond ▸ hcond) haddr hsame
    · obtain ⟨b, hb, rfl⟩ := List.mem_map.1 hmem
      exact BundleEntry.accepted_of_plays hb hword hlead hms hi (hi_cond ▸ hcond) haddr hsame
  refine ⟨haccepted.1, fun hno hreach => ?_⟩
  obtain ⟨hstructure, s, hselect, hhead, hrestores⟩ := haccepted.2 hno hreach
  exact ⟨s, t, ht, hlead, rfl, rfl, hstructure, hselect, hhead, hrestores⟩

/-- What a word decodes to encodes to the same word without its padding, unless it is refused. -/
theorem encode_of_decodeWord? {word addr : Nat} {d : Decoded} (hword : word < span wordBits)
    (haddr : addr + 65536 < span addrBits) (h : decodeWord? word addr = some d) (hno : ¬d.instr.Refused) (p : Program) :
    ∃ relocs, d.instr.encode p = .ok ⟨d.format.clearPad word, relocs⟩ := by
  obtain ⟨s, t, ht, hlead, hformat, hiformat, hstructure, hselect, hhead, hrestores⟩ :=
    (select_of_decodeWord? hword (by omega) h).2 hno (d.format.reaches haddr)
  rw [← hhead] at hiformat hstructure hselect ⊢
  rw [← hformat]
  exact hrestores.encode ht hword hlead hstructure hselect hiformat p

/-- Assembled alone, what a word decodes to gives the word without its padding, which decodes to the same
again; but if it is refused, an error is reported. -/
theorem Program.assemble_decoded {word addr : Nat} {d : Decoded} (hword : word < span wordBits)
    (haddr : addr + 65536 < span addrBits) (h : decodeWord? word addr = some d) :
    (d.instr.Refused → (assemble { instrs := [d.instr] }).errors = 1) ∧
      (¬d.instr.Refused → (assemble { instrs := [d.instr] }).words = [d.format.clearPad word] ∧
        (assemble { instrs := [d.instr] }).errors = 0 ∧
        decodeWord? (d.format.clearPad word) addr = some d) := by
  have hwords : words { instrs := [d.instr] } = [d.instr] := by
    simp [words, (select_of_decodeWord? hword (by omega) h).1]
  constructor
  · intro hrefused
    cases hencode : d.instr.encode { instrs := [d.instr] } with
    | ok e => exact absurd hrefused (not_refused_of_encode hencode)
    | error e => simp [assemble, Assembly.errors, hwords, Instruction.assemble, hencode]
  · intro hno
    obtain ⟨relocs, hencode⟩ := encode_of_decodeWord? hword haddr h hno { instrs := [d.instr] }
    refine ⟨?_, ?_, decodeWord?_clearPad hword h⟩
    · simp [assemble, Assembly.words, hwords, Instruction.assemble, hencode]
    · simp [assemble, Assembly.errors, hwords, Instruction.assemble, hencode]

/-- NOT R1, R2, with ones in the padding of its word. -/
def paddedNot : Decoded :=
  ⟨.alu2r, { line := 0, opcode := .not, format := some .alu2r, condition := some .always
             operands := [.reg ⟨.general, 1⟩, .reg ⟨.general, 2⟩] }⟩

theorem Program.assemble_decoded_paddedNot :
    16813055 < span wordBits ∧ 0 + 65536 < span addrBits ∧ decodeWord? 16813055 0 = some paddedNot ∧
      (paddedNot.instr.Refused → (assemble { instrs := [paddedNot.instr] }).errors = 1) ∧
      (¬paddedNot.instr.Refused →
        (assemble { instrs := [paddedNot.instr] }).words = [paddedNot.format.clearPad 16813055] ∧
        (assemble { instrs := [paddedNot.instr] }).errors = 0 ∧
        decodeWord? (paddedNot.format.clearPad 16813055) 0 = some paddedNot) := by
  have hword : 16813055 < span wordBits := by decide
  have haddr : 0 + 65536 < span addrBits := by decide
  have hdecode : decodeWord? 16813055 0 = some paddedNot := by rfl
  exact ⟨hword, haddr, hdecode, assemble_decoded hword haddr hdecode⟩

end QuadDsp
