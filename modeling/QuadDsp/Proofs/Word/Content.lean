import QuadDsp.Proofs.Format.Forms
import QuadDsp.Word.Decode

/-! # What a field tells

Reading a field of a word adds one `Content` to the draft of its operation, and which one follows from
the field, the shape of the operation and the value (`Field.content?`, `Draft.read?_eq`). Contents of
different aspects do not touch each other, so a draft has whatever was put into it, in any order
(`Draft.has_foldl_put`). -/

namespace QuadDsp

/-- What one field says about its operation. -/
inductive Content
  | operand (n : Nat) (o : Operand)
  /-- number of the accumulator that a view belongs to -/
  | acc (a : Nat)
  | view (v : AccView)
  | index (i : Nat)
  | modify (n : Nat)
  | pre (b : Bool)
  | step (v : Int)
  | addr (a : Nat)
  | mode (k : MulMode)
  | conj (b : Bool)
  | opcode (op : Opcode)
deriving DecidableEq, Repr

/-- The part of an operation that a content is about. -/
inductive Aspect
  | operand (n : Nat)
  | acc | view | index | modify | pre | step | addr | mode | conj | opcode
deriving DecidableEq, Repr

def Content.aspect : Content → Aspect
  | operand n _ => .operand n
  | acc _ => .acc
  | view _ => .view
  | index _ => .index
  | modify _ => .modify
  | pre _ => .pre
  | step _ => .step
  | addr _ => .addr
  | mode _ => .mode
  | conj _ => .conj
  | opcode _ => .opcode

namespace Draft

def put (d : Draft) : Content → Draft
  | .operand n o => { d with operands := d.operands.set n (some o) }
  | .acc a => { d with acc := some a }
  | .view v => { d with view := some v }
  | .index i => { d with index := some i }
  | .modify n => { d with modify := some n }
  | .pre b => { d with pre := b }
  | .step v => { d with step := some v }
  | .addr a => { d with addr := some a }
  | .mode k => { d with mode := some k }
  | .conj b => { d with conjugate := b }
  | .opcode op => { d with opcode := op }

/-- The draft says so. -/
def Has (d : Draft) : Content → Prop
  | .operand n o => d.operands[n]? = some (some o)
  | .acc a => d.acc = some a
  | .view v => d.view = some v
  | .index i => d.index = some i
  | .modify n => d.modify = some n
  | .pre b => d.pre = b
  | .step v => d.step = some v
  | .addr a => d.addr = some a
  | .mode k => d.mode = some k
  | .conj b => d.conjugate = b
  | .opcode op => d.opcode = op

@[simp] theorem put_role (d : Draft) (c : Content) : (d.put c).role = d.role := by cases c <;> rfl

@[simp] theorem put_shape (d : Draft) (c : Content) : (d.put c).shape = d.shape := by cases c <;> rfl

@[simp] theorem length_put (d : Draft) (c : Content) :
    (d.put c).operands.length = d.operands.length := by
  cases c <;> simp [put]

theorem has_put {d : Draft} {c : Content} (h : ∀ n o, c = .operand n o → n < d.operands.length) :
    (d.put c).Has c := by
  cases c with
  | operand n o => exact List.getElem?_set_self (h n o rfl)
  | _ => rfl

theorem has_put_of_ne {d : Draft} {c c' : Content} (hne : c.aspect ≠ c'.aspect) (h : d.Has c) :
    (d.put c').Has c := by
  cases c with
  | operand n o =>
    cases c' with
    | operand n' o' =>
      have hn : n' ≠ n := fun hn => hne (by rw [hn]; rfl)
      simpa [Has, put, List.getElem?_set, hn] using h
    | _ => exact h
  | _ => cases c' <;> first | exact h | exact absurd rfl hne

theorem has_foldl_put_of_notMem {d : Draft} {c : Content} {cs : List Content}
    (hc : c.aspect ∉ cs.map Content.aspect) (h : d.Has c) : (cs.foldl put d).Has c := by
  induction cs generalizing d with
  | nil => exact h
  | cons c' cs ih =>
    rw [List.map_cons, List.mem_cons, not_or] at hc
    exact ih hc.2 (has_put_of_ne hc.1 h)

/-- A draft has every content that is put into it, if no two are of the same aspect. -/
theorem has_foldl_put {d : Draft} {cs : List Content} (hnd : (cs.map Content.aspect).Nodup)
    (hlen : ∀ n o, .operand n o ∈ cs → n < d.operands.length) : ∀ c ∈ cs, (cs.foldl put d).Has c := by
  induction cs generalizing d with
  | nil => intro c hc; cases hc
  | cons c' cs ih =>
    rw [List.map_cons, List.nodup_cons] at hnd
    intro c hc
    rcases List.mem_cons.1 hc with rfl | hc
    · rw [List.foldl_cons]
      exact has_foldl_put_of_notMem hnd.1 (has_put fun n o h => hlen n o (h ▸ List.mem_cons_self))
    · refine ih hnd.2 (fun n o h => ?_) c hc
      rw [length_put]
      exact hlen n o (List.mem_cons_of_mem _ h)

@[simp] theorem foldl_put_role (d : Draft) (cs : List Content) : (cs.foldl put d).role = d.role := by
  induction cs generalizing d with
  | nil => rfl
  | cons c cs ih => exact (ih (d.put c)).trans (d.put_role c)

@[simp] theorem foldl_put_shape (d : Draft) (cs : List Content) :
    (cs.foldl put d).shape = d.shape := by
  induction cs generalizing d with
  | nil => rfl
  | cons c cs ih => exact (ih (d.put c)).trans (d.put_shape c)

@[simp] theorem length_foldl_put (d : Draft) (cs : List Content) :
    (cs.foldl put d).operands.length = d.operands.length := by
  induction cs generalizing d with
  | nil => rfl
  | cons c cs ih => exact (ih (d.put c)).trans (d.length_put c)

end Draft

namespace Shape

/-- The slot that an argument of a field stands for. -/
def argSlot? (s : Shape) : Arg → Option Nat
  | .nth n => some n
  | .mem => s.memSlot?
  | .data => s.dataSlot?

/-- An operand in the slot of an argument. -/
def operandAt? (s : Shape) (arg : Arg) (o : Operand) : Option Content := do
  let n ← s.argSlot? arg
  if n < s.slots.length then some (.operand n o) else none

theorem exists_of_operandAt? {s : Shape} {arg : Arg} {o : Operand} {c : Content} (h : s.operandAt? arg o = some c) :
    ∃ n, s.argSlot? arg = some n ∧ c = .operand n o := by
  obtain ⟨n, hn, h⟩ := Option.bind_eq_some_iff.1 h
  split at h
  · cases h
    exact ⟨n, hn, rfl⟩
  · cases h

end Shape

namespace Slot

/-- The class of the registers that a slot takes, if it takes only one. -/
def regClass? : Slot → Option RegClass
  | general => some .general
  | complex => some .complex
  | acc => some .acc
  | index => some .index
  | modify => some .modify
  | _ => none

/-- A register number in the slot at place `n`. -/
def regContent? (n index : Nat) : Slot → Option Content
  | accView => some (.acc index)
  | slot => do
    let cls ← slot.regClass?
    if index < cls.count then some (.operand n (.reg ⟨cls, index⟩)) else none

end Slot

namespace Field

/-- The field belongs to one operation of the word. -/
def isOwn (f : Field) : Bool :=
  match f.kind with
  | .opcode | .pad | .cond => false
  | _ => true

/-- What the value `v` of a field tells about an operation of a shape; `addr` is the address of the
word. -/
def content? (f : Field) (s : Shape) (addr v : Nat) : Option Content :=
  match f.kind with
  | .reg base => do
    let n ← s.argSlot? f.arg
    (← s.slots[n]?).regContent? n (v + base)
  | .accPair => s.operandAt? f.arg (.reg ⟨.acc, v * 2⟩)
  | .dag => do s.operandAt? f.arg (.reg ⟨← RegClass.ofAddressCode? (v / 8), v % 8⟩)
  | .sys => do s.operandAt? f.arg (.sys (← SysReg.ofCode? v))
  | .part => (AccView.ofCode? v).map .view
  | .imm .unsigned => s.operandAt? f.arg (.imm v)
  | .imm _ => s.operandAt? f.arg (.imm (wrap f.width v))
  | .addr => some (.addr v)
  | .pcRel => do s.operandAt? f.arg (.target (.abs (← Operand.toAddr? (addr + wrap f.width v))))
  | .loopEnd => s.operandAt? f.arg (.target (.abs (addrBehind addr (1 + v))))
  | .index base => some (.index (v + base))
  | .modify base => some (.modify (v + base))
  | .pre => some (.pre (v == 1))
  | .step => some (.step (wrap f.width v))
  | .mode => (MulMode.ofCode? v).map .mode
  | .conj => some (.conj (v == 1))
  | .subOp table => table[v]?.map .opcode
  | .modeBit => do s.operandAt? f.arg (.key (.mode (← ModeBit.ofCode? v)))
  | .termCond => do s.operandAt? f.arg (.cond (← Condition.ofCode? v))
  | .opcode | .pad | .cond => none

end Field

namespace Draft

theorem slotIndex?_eq (d : Draft) (arg : Arg) : d.slotIndex? arg = d.shape.argSlot? arg := by
  cases arg <;> rfl

theorem set?_eq {d : Draft} (h : d.operands.length = d.shape.slots.length) (arg : Arg) (o : Operand) :
    d.set? arg o = (d.shape.operandAt? arg o).map d.put := by
  unfold set? Shape.operandAt?
  rw [slotIndex?_eq, h]
  cases d.shape.argSlot? arg with
  | none => rfl
  | some n =>
    simp only [Option.bind_eq_bind, Option.bind_some]
    split <;> rfl

theorem setReg?_eq {d : Draft} (h : d.operands.length = d.shape.slots.length) (arg : Arg)
    (index : Nat) : d.setReg? arg index = (do
      let n ← d.shape.argSlot? arg
      (← d.shape.slots[n]?).regContent? n index).map d.put := by
  unfold setReg?
  rw [slotIndex?_eq]
  cases harg : d.shape.argSlot? arg with
  | none => rfl
  | some n =>
    cases hslot : d.shape.slots[n]? with
    | none => simp [hslot]
    | some slot =>
      have hn : n < d.shape.slots.length := (List.getElem?_eq_some_iff.1 hslot).1
      have hset (o : Operand) : d.set? arg o = some (d.put (.operand n o)) := by
        rw [set?_eq h, Shape.operandAt?, harg]
        simp [hn]
      cases slot with
      | accView =>
        simp [hslot, Slot.regContent?]
        rfl
      | _ => simp [hslot, Slot.regContent?, Slot.regClass?, hset]

/-- Reading a field puts its content into the draft. -/
theorem read?_eq {d : Draft} {f : Field} (h : d.operands.length = d.shape.slots.length)
    (hf : f.isOwn = true) (addr v : Nat) :
    d.read? f addr v = (f.content? d.shape addr v).map d.put := by
  have hbind {α : Type} (x : Option α) (g : α → Operand) :
      (x.bind fun a => d.set? f.arg (g a)) =
        (x.bind fun a => d.shape.operandAt? f.arg (g a)).map d.put := by
    cases x with
    | none => rfl
    | some a => exact set?_eq h f.arg (g a)
  have hmap {α : Type} (x : Option α) (g : α → Content) :
      (x.bind fun a => some (d.put (g a))) = (x.map g).map d.put := by
    cases x <;> rfl
  obtain ⟨kind, role, arg, width⟩ := f
  cases kind with
  | opcode | pad | cond => cases hf
  | reg base => exact setReg?_eq h arg (v + base)
  | accPair | loopEnd => exact set?_eq h arg _
  | imm sign => cases sign <;> exact set?_eq h arg _
  | dag | sys | pcRel | modeBit | termCond => exact hbind _ _
  | addr | index | modify | pre | step | conj => rfl
  | part => exact hmap (AccView.ofCode? v) .view
  | mode => exact hmap (MulMode.ofCode? v) .mode
  | subOp table => exact hmap table[v]? .opcode

end Draft

end QuadDsp
