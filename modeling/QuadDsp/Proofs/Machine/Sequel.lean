import QuadDsp.Proofs.Program.Places

/-! # Sequencing corresponding programs

The controller looks at little of a program: where its words stand, which of them multiply, access memory or
wait in a delay slot, and the conditions that end loops. In two programs whose words agree in that
(`Instruction.SequencedAs`) it counts the same cycles, leaves the same core and goes on with the same word
(`Controller.sameSequel_advance`). -/

namespace QuadDsp

/-- Words that the controller does not tell apart. -/
structure Instruction.SequencedAs (i j : Instruction) : Prop where
  addr : j.programAddr = i.programAddr
  delay : j.inDelaySlot = i.inDelaySlot
  mac : j.isMacWord = i.isMacWord
  reads : j.readsMemory = i.readsMemory
  writes : j.writesMemory = i.writesMemory
  term : ∀ c, j.operands[1]? = some (.cond c) ↔ i.operands[1]? = some (.cond c)

namespace Program

variable {p q : Program} {place place' : Option Nat}

theorem SamePlace.isSome (h : p.SamePlace q place place') : place'.isSome = place.isSome := by
  cases h <;> rfl

theorem SamePlace.orElse {other other' : Option Nat} (h : p.SamePlace q place place')
    (h' : p.SamePlace q other other') : p.SamePlace q (place <|> other) (place' <|> other') := by
  cases h with
  | none => exact h'
  | some hi hword hj hword' hnumber => exact .some hi hword hj hword' hnumber

variable (h : Corresponds Instruction.SequencedAs p q)

include h

theorem Corresponds.samePlace_bind (target : Option Nat) :
    p.SamePlace q (target.bind p.indexOf?) (target.bind q.indexOf?) := by
  cases target with
  | none => exact .none
  | some addr => exact h.samePlace_indexOf? addr

theorem SamePlace.isMacAt (hplace : p.SamePlace q place place') : q.isMacAt place' = p.isMacAt place := by
  cases hplace with
  | none => rfl
  | some hi hword hj hword' hnumber =>
    simp only [Program.isMacAt, Option.bind_some, hi, hj, Option.any_some,
      (h.related hi hword hj hword' hnumber).mac]

theorem Corresponds.loopCondition (first : Nat) : q.loopCondition first = p.loopCondition first := by
  have hwordAt (p : Program) (a : Nat) : p.wordAt? a = (p.indexOf? a).bind (p.instrs[·]?) := rfl
  unfold Program.loopCondition
  rw [hwordAt, hwordAt]
  split
  · rfl
  · have hplace := h.samePlace_indexOf? (first - 1)
    generalize p.indexOf? (first - 1) = place at hplace ⊢
    generalize q.indexOf? (first - 1) = place' at hplace ⊢
    cases hplace with
    | none => rfl
    | @some idx idx' i j hi hword hj hword' hnumber =>
      have hterm := (h.related hi hword hj hword' hnumber).term
      simp only [Option.bind_some, hi, hj]
      split
      · next c hc => rw [(hterm c).1 hc]
      · next hno =>
        split
        · next c hc => exact absurd ((hterm c).2 hc) (hno c)
        · rfl

theorem Corresponds.endRound (addr : Nat) (s : Core) (frames : List LoopFrame) :
    Core.endRound q addr s frames = Core.endRound p addr s frames := by
  induction frames generalizing s with
  | nil => rfl
  | cons top outer ih => simp only [Core.endRound, h.loopCondition, ih]

end Program

namespace Controller

variable {p q : Program} {i j : Instruction} (c : Controller) (s : Core) (flow : Option Flow)

theorem followed_congr (hij : i.SequencedAs j) : c.followed s j flow = c.followed s i flow := by
  unfold followed
  rw [hij.addr]

theorem transfer_congr (hij : i.SequencedAs j) (taken : Option Nat) : c.transfer j taken = c.transfer i taken := by
  unfold transfer
  rw [hij.delay]

theorem rounded_congr (h : Program.Corresponds Instruction.SequencedAs p q) (hij : i.SequencedAs j) :
    c.rounded s q j flow = c.rounded s p i flow := by
  unfold rounded
  simp only [followed_congr c s flow hij, transfer_congr c hij, hij.addr, h.endRound]

/-- The same decision, about corresponding words. -/
structure SameSequel (p q : Program) (x y : Controller × Core × Advance) : Prop where
  controller : y.1 = x.1
  core : y.2.1 = x.2.1
  next : p.SamePlace q x.2.2.next y.2.2.next

theorem controller_advance (idx : Nat) :
    (c.advance s p idx i flow).1 =
      { c with
        pending := if flow = some .reset then none else (c.transfer i (c.followed s i flow).2).2
        storedBefore := i.writesMemory
        cycles := c.cycles + 1 + c.stallOf p i
          (if (c.rounded s p i flow).2.isSome && ((c.destination s p i flow).bind p.indexOf?).isSome then
            (c.advance s p idx i flow).2.2.next else p.nextWord? idx) } := by
  cases flow <;> rfl

/-- In corresponding programs the controller decides the same. -/
theorem sameSequel_advance (h : Program.Corresponds Instruction.SequencedAs p q) {idx idx' : Nat}
    (hi : p.instrs[idx]? = some i) (hword : i.isDirective = false) (hj : q.instrs[idx']? = some j)
    (hword' : j.isDirective = false) (hnumber : q.number idx' = p.number idx) :
    SameSequel p q (c.advance s p idx i flow) (c.advance s q idx' j flow) := by
  have hij := h.related hi hword hj hword' hnumber
  have hrounded := c.rounded_congr s flow h hij
  have hfollowed := c.followed_congr s flow hij
  have hdestination : c.destination s q j flow = c.destination s p i flow := by
    unfold destination
    rw [hfollowed, c.transfer_congr hij, hrounded]
  have hbehind := h.samePlace_nextWord? hi hword hj hword' hnumber
  have hfound := h.samePlace_bind (c.destination s p i flow)
  have hnext : p.SamePlace q (c.advance s p idx i flow).2.2.next (c.advance s q idx' j flow).2.2.next := by
    rw [next_advance, next_advance, hdestination]
    exact hfound.orElse hbehind
  refine ⟨?_, by rw [core_advance, core_advance, hrounded], hnext⟩
  rw [controller_advance, controller_advance, hfollowed, c.transfer_congr hij, hij.writes, hrounded, hdestination,
    hfound.isSome]
  have hstall {place place' : Option Nat} (hplace : p.SamePlace q place place') :
      c.stallOf q j place' = c.stallOf p i place := by
    rw [stallOf, stallOf, hij.reads, hij.mac, hplace.isMacAt h]
  congr 2
  split
  · exact hstall hnext
  · exact hstall hbehind

end Controller

end QuadDsp
