import Mathlib.Algebra.BigOperators.Group.List.Basic
import Mathlib.Tactic.IntervalCases
import QuadDsp.Proofs.Machine.LoopWords

/-! # Nested loops

A stretch of a program is crossed (`Simulator.Crosses`) if the run leaves it like a single word at its last address,
whatever loops are around it; on the way each of its words has been executed a number of times. Words that ask the
sequencer for nothing are crossed, one behind the other (`Simulator.Crosses.append`), and if the body of a counted loop
is crossed, so is the loop, with the counts of the body taken as often as the loop has rounds
(`Simulator.Crosses.loop`). By induction on the depth nested loops are crossed, and a word in them is executed as often
as the rounds of all loops around it multiply to (`Simulator.runsNest`). Inner loops may end where outer loops end:
a loop that is left there leaves the outer one to end its own round. -/

namespace QuadDsp

/-! ### Stretches of a program -/

namespace Simulator

variable {start sim : Simulator} {frames : List LoopFrame} {room room' lo mid hi addr : Nat} {v w : Nat → Nat}

/-- Loops that are run around the words up to an address: none of them ends before it, and there is room for so many
more on the stacks. -/
structure Around (start : Simulator) (room hi : Nat) (frames : List LoopFrame) : Prop where
  counted : ∀ f ∈ frames, f.Counted start.program
  last : ∀ f, frames.head? = some f → hi ≤ f.last
  room : ∀ t ∈ start.core.loops.states, frames.length + room ≤ t.depth

/-- Where the run goes on behind the word at an address inside of loops. -/
def behind (start : Simulator) (addr : Nat) (frames : List LoopFrame) : Option Nat :=
  (LoopFrame.countRound addr frames).2.bind start.program.indexOf? <|>
    (start.program.indexOf? addr).bind start.program.nextWord?

/-- From one address to another the words are executed so often, with room for so many loops, and are left like a
single word at the last address, whatever loops are around them. -/
def Crosses (start : Simulator) (room lo hi : Nat) (visits : Nat → Nat) : Prop :=
  ∀ frames sim, start.Around room hi frames → start.Stands frames (start.program.indexOf? lo) sim →
    ∃ sim', sim.Walks sim' visits ∧
      start.Stands (LoopFrame.countRound hi frames).1 (start.behind hi frames) sim'

/-- The word at an address asks the sequencer for nothing, and no target is due there. -/
def Plain (start : Simulator) (addr : Nat) : Prop :=
  ∀ i, start.program.wordAt? addr = some i → i.opcode.asks = false ∧ start.NothingDue i

/-- From one address to another no target is due. -/
def Undisturbed (start : Simulator) (lo hi : Nat) : Prop :=
  ∀ addr i, lo ≤ addr → addr ≤ hi → start.program.wordAt? addr = some i → start.NothingDue i

theorem Around.mono (h : start.Around room hi frames) (hroom : room' ≤ room) (hle : mid ≤ hi) :
    start.Around room' mid frames :=
  ⟨h.counted, fun f hf => Nat.le_trans hle (h.last f hf), fun t ht => by have := h.room t ht; omega⟩

/-- Before the last address no loop ends. -/
theorem Around.countRound (h : start.Around room hi frames) (hlt : addr < hi) :
    LoopFrame.countRound addr frames = (frames, none) :=
  LoopFrame.countRound_of_ne fun f hf => by have := h.last f hf; omega

theorem Around.behind (h : start.Around room hi frames) (hlt : addr < hi) :
    start.behind addr frames = (start.program.indexOf? addr).bind start.program.nextWord? := by
  rw [Simulator.behind, h.countRound hlt]
  rfl

namespace Crosses

theorem mono (h : start.Crosses room lo hi v) (hroom : room ≤ room') : start.Crosses room' lo hi v :=
  fun frames sim haround hstands => h frames sim (haround.mono hroom (Nat.le_refl hi)) hstands

theorem word (hstraight : start.program.Straight addr addr) (hplain : start.Plain addr) :
    start.Crosses 0 addr addr (once addr (addr + 1)) := by
  intro frames sim haround hstands
  obtain ⟨idx, hidx, -⟩ := hstraight addr (Nat.le_refl _) (Nat.le_refl _)
  obtain ⟨i, hi, -, haddr⟩ := Program.exists_of_indexOf? hidx
  obtain ⟨hasks, hdue⟩ := hplain i (Program.wordAt?_eq_some_iff.2 ⟨idx, hidx, hi⟩)
  rw [hidx] at hstands
  obtain ⟨j, hcurrent, hij⟩ := hstands.exists_current hi
  have hasked : sim.asked j = none := asked_of_asks (by rw [hij]; exact hasks)
  have hstep := hstands.step_of_asked_none hcurrent hasked (by rw [hij]; exact hdue) haround.counted
  rw [hij.programAddr, haddr] at hstep
  rw [behind, hidx]
  exact ⟨_, hstep⟩

theorem append (h : start.Crosses room lo mid v) (h' : start.Crosses room (mid + 1) hi w)
    (hstraight : start.program.Straight mid hi) (hlt : mid < hi) : start.Crosses room lo hi (v + w) := by
  intro frames sim haround hstands
  obtain ⟨sim', hwalk, hstands'⟩ := h frames sim (haround.mono (Nat.le_refl _) (Nat.le_of_lt hlt)) hstands
  obtain ⟨idx, hidx, -⟩ := hstraight mid (Nat.le_refl _) (Nat.le_of_lt hlt)
  rw [haround.countRound hlt, haround.behind hlt, hidx, Option.bind_some,
    hstraight.nextWord?_eq (Nat.le_refl _) hlt hidx] at hstands'
  obtain ⟨sim'', hwalk', hstands''⟩ := h' frames sim' haround hstands'
  exact ⟨sim'', hwalk.trans hwalk', hstands''⟩

theorem extendFront (h : start.Crosses room mid hi v) (hstraight : start.program.Straight lo hi) (hlo : lo ≤ mid)
    (hhi : mid ≤ hi) (hplain : ∀ addr, lo ≤ addr → addr < mid → start.Plain addr) :
    start.Crosses room lo hi (once lo mid + v) := by
  obtain ⟨d, rfl⟩ := Nat.exists_eq_add_of_le hlo
  induction d generalizing lo with
  | zero =>
    have hnone : once lo lo = 0 := funext fun addr => if_neg (by omega)
    rwa [Nat.add_zero, hnone, zero_add]
  | succ d ih =>
    have hmid : lo + 1 + d = lo + (d + 1) := by omega
    have hrest : start.Crosses room (lo + 1) hi (once (lo + 1) (lo + (d + 1)) + v) := by
      rw [← hmid] at h hhi ⊢
      exact ih (hstraight.mono (Nat.le_succ lo) (Nat.le_refl hi)) h (Nat.le_add_right ..) hhi fun addr hlo hlt =>
        hplain addr (Nat.le_of_lt hlo) (by omega)
    have hword := (word (hstraight.mono (Nat.le_refl lo) (by omega)) (hplain lo (Nat.le_refl lo) (by omega))).mono
      (Nat.zero_le room)
    have hboth := hword.append hrest hstraight (by omega)
    rwa [← add_assoc, once_add_once (by omega) (by omega)] at hboth

theorem stretch (hstraight : start.program.Straight lo hi) (hle : lo ≤ hi)
    (hplain : ∀ addr, lo ≤ addr → addr ≤ hi → start.Plain addr) : start.Crosses 0 lo hi (once lo (hi + 1)) := by
  have hword := word (hstraight.mono hle (Nat.le_refl hi)) (hplain hi hle (Nat.le_refl hi))
  have hall := hword.extendFront hstraight hle (Nat.le_refl hi) fun addr hlo hlt => hplain addr hlo (Nat.le_of_lt hlt)
  rwa [once_add_once hle (Nat.le_succ hi)] at hall

theorem extendBack (h : start.Crosses room lo mid v) (hstraight : start.program.Straight mid hi) (hle : mid ≤ hi)
    (hplain : ∀ addr, mid < addr → addr ≤ hi → start.Plain addr) :
    start.Crosses room lo hi (v + once (mid + 1) (hi + 1)) := by
  rcases Nat.eq_or_lt_of_le hle with rfl | hlt
  · have hnone : once (mid + 1) (mid + 1) = 0 := funext fun addr => if_neg (by omega)
    rwa [hnone, add_zero]
  · have hstraight' := hstraight.mono (Nat.le_succ mid) (Nat.le_refl hi)
    have hrest := stretch hstraight' hlt fun addr hlo hhi => hplain addr hlo hhi
    exact h.append (hrest.mono (Nat.zero_le room)) hstraight hlt

end Crosses

end Simulator

/-! ### Loops around stretches -/

/-- A loop that is entered by a load of the loop counter and the DO behind it. -/
structure CountedLoop where
  /-- address of the load -/
  entry : Nat
  /-- address of the last word of the body -/
  last : Nat
  /-- the number that is loaded -/
  count : Nat
deriving DecidableEq, Repr

namespace CountedLoop

/-- Address of the first word of the body. -/
def first (l : CountedLoop) : Nat := l.entry + 2

/-- How often the body is run; a count of zero wraps. -/
def rounds (l : CountedLoop) : Nat := if l.count = 0 then 0x10000 else l.count

/-- The body has a word at the address. -/
def Covers (l : CountedLoop) (addr : Nat) : Prop := l.first ≤ addr ∧ addr ≤ l.last

instance (l : CountedLoop) (addr : Nat) : Decidable (l.Covers addr) := inferInstanceAs (Decidable (_ ∧ _))

theorem once_covers (l : CountedLoop) (addr : Nat) :
    Simulator.once l.first (l.last + 1) addr = if l.Covers addr then 1 else 0 := by
  unfold Simulator.once
  simp only [Nat.lt_succ_iff]
  rfl

/-- The frame of the loop with so many rounds left. -/
def frame (l : CountedLoop) (left : Nat) : LoopFrame := ⟨l.first, l.last, left % 0x10000, false⟩

/-- The loop stands in a program. -/
structure In (l : CountedLoop) (p : Program) : Prop where
  body : l.first ≤ l.last
  count : l.count < 0x10000
  straight : p.Straight l.entry l.last
  load : ∃ i, p.wordAt? l.entry = some i ∧ i.LoadsCounter l.count
  start : ∃ i, p.wordAt? (l.entry + 1) = some i ∧ i.LoopsUntilCe p l.last

variable {l : CountedLoop} {p : Program}

theorem rounds_pos (l : CountedLoop) : 0 < l.rounds := by
  unfold rounds
  split <;> omega

theorem rounds_le (h : l.count < 0x10000) : l.rounds ≤ 0x10000 := by
  unfold rounds
  split <;> omega

theorem frame_rounds (h : l.count < 0x10000) : l.frame l.rounds = ⟨l.first, l.last, l.count, false⟩ := by
  unfold frame rounds
  split
  · next hzero => rw [hzero]
  · rw [Nat.mod_eq_of_lt h]

theorem again_frame (l : CountedLoop) (left : Nat) : (l.frame (left + 1)).again = l.frame left := by
  have hcount : countOff ((left + 1) % 0x10000) = left % 0x10000 := by
    unfold countOff
    omega
  simp only [frame, LoopFrame.again, hcount]

/-- In its last round a loop is left, and before that it goes round again. -/
theorem countRound_frame {left : Nat} (hle : left + 1 ≤ 0x10000) (frames : List LoopFrame) :
    LoopFrame.countRound l.last (l.frame (left + 1) :: frames) =
      if left = 0 then LoopFrame.countRound l.last frames else (l.frame left :: frames, some l.first) := by
  have hlast : ¬(l.frame (left + 1)).last ≠ l.last := fun h => h rfl
  have hone : (l.frame (left + 1)).count = 1 ↔ left = 0 := by
    simp only [frame]
    omega
  rw [LoopFrame.countRound, if_neg hlast, again_frame]
  simp only [hone]
  rfl

theorem In.first_lt (h : l.In p) : l.first < span addrBits := by
  obtain ⟨idx, hidx, -⟩ := h.straight l.first (Nat.le_add_right ..) h.body
  exact Program.lt_of_indexOf? hidx

theorem In.counted (h : l.In p) (left : Nat) : (l.frame left).Counted p := by
  obtain ⟨i, hat, hi⟩ := h.start
  obtain ⟨t, hoperands, -⟩ := hi.operands
  obtain ⟨idx, hidx, -⟩ := h.straight l.first (Nat.le_add_right ..) h.body
  have hfirst : (l.frame left).first ≠ 0 ∧ (l.frame left).first - 1 = l.entry + 1 := ⟨Nat.succ_ne_zero _, rfl⟩
  refine ⟨rfl, ?_, Option.isSome_iff_exists.2 ⟨idx, hidx⟩⟩
  rw [Program.loopCondition, if_neg hfirst.1, hfirst.2, hat, Option.bind_some, hoperands]
  rfl

end CountedLoop

namespace Simulator

variable {start sim : Simulator} {frames : List LoopFrame} {room : Nat} {v : Nat → Nat} {l : CountedLoop}

theorem enters (h : l.In start.program) (hdue : start.Undisturbed l.entry l.last)
    (haround : start.Around (room + 1) l.last frames)
    (hstands : start.Stands frames (start.program.indexOf? l.entry) sim) :
    ∃ sim', sim.Walks sim' (once l.entry l.first) ∧
      start.Stands (l.frame l.rounds :: frames) (start.program.indexOf? l.first) sim' := by
  have hbody : l.entry + 2 ≤ l.last := h.body
  have hfirst : l.first = l.entry + 1 + 1 := rfl
  obtain ⟨i, hat, hload⟩ := h.load
  obtain ⟨idx, hidx, hi, haddr⟩ := Program.exists_of_wordAt? hat
  obtain ⟨j, hat', hloop⟩ := h.start
  obtain ⟨idx', hidx', hj, haddr'⟩ := Program.exists_of_wordAt? hat'
  have hnext : start.program.nextWord? idx = some idx' := by
    rw [h.straight.nextWord?_eq (Nat.le_refl _) (by omega) hidx, hidx']
  have hnext' := h.straight.nextWord?_eq (Nat.le_succ _) (by omega) hidx'
  rw [hidx] at hstands
  obtain ⟨hwalk, hstands', hcounter⟩ := loads hload h.count hi (hdue _ i (Nat.le_refl _) (by omega) hat)
    (fun f hf => by have := haround.last f hf; omega) haround.counted hstands
  have hframe :
      (⟨addrBehind j.programAddr 1, l.last, sim.step.core.counter, false⟩ : LoopFrame) = l.frame l.rounds := by
    have hbehind : addrBehind (l.entry + 1) 1 = l.first := addrBehind_of_lt h.first_lt
    rw [CountedLoop.frame_rounds h.count, hcounter, haddr', hbehind]
  -- no word stands between the load and the DO, so the DO finds the number in the loop counter
  rw [hnext] at hstands'
  obtain ⟨hwalk', hstands''⟩ := begins hloop hj (hdue _ j (Nat.le_succ _) (by omega) hat') (by omega)
    (fun t ht => by have := haround.room t ht; omega)
    (hframe ▸ List.forall_mem_cons.2 ⟨h.counted _, haround.counted⟩) hstands'
  rw [hframe, hnext'] at hstands''
  have hboth := hwalk.trans hwalk'
  rw [haddr, haddr', once_add_once (Nat.le_succ _) (Nat.le_succ _)] at hboth
  exact ⟨_, hboth, hstands''⟩

theorem Around.inside (h : start.Around (room + 1) l.last frames) (hin : l.In start.program) (left : Nat) :
    start.Around room l.last (l.frame left :: frames) := by
  refine ⟨List.forall_mem_cons.2 ⟨hin.counted left, h.counted⟩, ?_, fun t ht => ?_⟩
  · rintro f ⟨⟩
    exact Nat.le_refl l.last
  · have := h.room t ht
    rw [List.length_cons]
    omega

/-- So many rounds of a body. -/
theorem Crosses.rounds (h : start.Crosses room l.first l.last v) (hin : l.In start.program)
    (haround : start.Around (room + 1) l.last frames) {left : Nat} (hleft : left + 1 ≤ 0x10000)
    (hstands : start.Stands (l.frame (left + 1) :: frames) (start.program.indexOf? l.first) sim) :
    ∃ sim', sim.Walks sim' ((left + 1) • v) ∧
      start.Stands (LoopFrame.countRound l.last frames).1 (start.behind l.last frames) sim' := by
  induction left generalizing sim with
  | zero =>
    -- in the last round the frame is taken off, and the loops around it may end at the same word
    obtain ⟨sim', hwalk, hstands'⟩ := h _ sim (haround.inside hin 1) hstands
    rw [behind, CountedLoop.countRound_frame hleft, if_pos rfl] at hstands'
    rw [zero_add, one_nsmul]
    exact ⟨sim', hwalk, hstands'⟩
  | succ left ih =>
    obtain ⟨sim', hwalk, hstands'⟩ := h _ sim (haround.inside hin _) hstands
    rw [behind, CountedLoop.countRound_frame hleft, if_neg (Nat.succ_ne_zero _)] at hstands'
    obtain ⟨idx, hidx⟩ := Option.isSome_iff_exists.1 (hin.counted 0).found
    have hagain : start.program.indexOf? l.first = some idx := hidx
    rw [Option.bind_some, hagain] at hstands'
    obtain ⟨sim'', hwalk', hstands''⟩ := ih (Nat.le_of_succ_le hleft) (by rw [hagain]; exact hstands')
    rw [succ_nsmul']
    exact ⟨sim'', hwalk.trans hwalk', hstands''⟩

theorem Crosses.loop (h : start.Crosses room l.first l.last v) (hin : l.In start.program)
    (hdue : start.Undisturbed l.entry l.last) :
    start.Crosses (room + 1) l.entry l.last (once l.entry l.first + l.rounds • v) := by
  intro frames sim haround hstands
  obtain ⟨sim', hwalk, hstands'⟩ := enters hin hdue haround hstands
  obtain ⟨left, hleft⟩ := Nat.exists_eq_add_one.2 l.rounds_pos
  rw [hleft] at hstands' ⊢
  obtain ⟨sim'', hwalk', hstands''⟩ := h.rounds hin haround (hleft ▸ l.rounds_le hin.count) hstands'
  exact ⟨sim'', hwalk.trans hwalk', hstands''⟩

end Simulator

/-! ### Nests -/

/-- Loops of a program, each of them in the body of the one before it. The other words of their bodies ask the
sequencer for nothing. -/
structure Program.LoopNest (p : Program) (loops : List CountedLoop) : Prop where
  stands : ∀ l ∈ loops, l.In p
  nested : loops.Pairwise fun outer inner => outer.first ≤ inner.entry ∧ inner.last ≤ outer.last
  plain : ∀ l ∈ loops, ∀ addr, l.Covers addr → (∀ inner ∈ loops, addr ≠ inner.entry ∧ addr ≠ inner.entry + 1) →
    ∀ i, p.wordAt? addr = some i → i.opcode.asks = false

/-- How often a word is executed when a nest is run: once in each round of the loops around it. -/
def tally (loops : List CountedLoop) (addr : Nat) : Nat :=
  ((loops.filter fun l => l.Covers addr).map CountedLoop.rounds).prod

theorem tally_cons (l : CountedLoop) (rest : List CountedLoop) (addr : Nat) :
    tally (l :: rest) addr = (if l.Covers addr then l.rounds else 1) * tally rest addr := by
  unfold tally
  by_cases h : l.Covers addr
  · rw [List.filter_cons_of_pos (by simpa using h), List.map_cons, List.prod_cons, if_pos h]
  · rw [List.filter_cons_of_neg (by simpa using h), if_neg h, one_mul]

namespace Program.LoopNest

variable {p : Program} {l m : CountedLoop} {rest : List CountedLoop} {addr : Nat}

theorem tail (h : p.LoopNest (l :: rest)) : p.LoopNest rest := by
  obtain ⟨houter, hnested⟩ := List.pairwise_cons.1 h.nested
  refine ⟨fun m hm => h.stands m (List.mem_cons_of_mem l hm), hnested, fun m hm addr hcovers hnot i hi => ?_⟩
  refine h.plain m (List.mem_cons_of_mem l hm) addr hcovers (List.forall_mem_cons.2 ⟨?_, hnot⟩) i hi
  -- the load and the DO of the outer loop lie in front of its body
  have hm := houter m hm
  unfold CountedLoop.Covers CountedLoop.first at *
  omega

theorem within_of_mem (h : p.LoopNest (l :: rest)) (hm : m ∈ l :: rest) : l.entry ≤ m.entry ∧ m.last ≤ l.last := by
  rcases List.mem_cons.1 hm with rfl | hm
  · exact ⟨Nat.le_refl _, Nat.le_refl _⟩
  · obtain ⟨hentry, hlast⟩ := (List.pairwise_cons.1 h.nested).1 m hm
    exact ⟨Nat.le_trans (Nat.le_add_right ..) hentry, hlast⟩

theorem covers_of_mem (h : p.LoopNest (l :: rest)) (hm : m ∈ l :: rest) (hcovers : m.Covers addr) : l.Covers addr := by
  obtain ⟨hentry, hlast⟩ := h.within_of_mem hm
  unfold CountedLoop.Covers CountedLoop.first at *
  omega

theorem tally_eq_one (h : p.LoopNest (l :: rest)) (hnot : ¬l.Covers addr) : tally (l :: rest) addr = 1 := by
  have hnone : (l :: rest).filter (fun m => decide (m.Covers addr)) = [] :=
    List.filter_eq_nil_iff.2 fun m hm hcovers => hnot (h.covers_of_mem hm (of_decide_eq_true hcovers))
  rw [tally, hnone]
  rfl

/-- A word of a loop that is in none of the deeper loops is in all loops around it. -/
theorem tally_eq_prod {loops : List CountedLoop} (h : p.LoopNest loops) {j : Nat} (hl : loops[j]? = some l)
    (hcovers : l.Covers addr) (hdeeper : ∀ deeper ∈ loops.drop (j + 1), ¬deeper.Covers addr) :
    tally loops addr = ((loops.take (j + 1)).map CountedLoop.rounds).prod := by
  obtain ⟨hj, rfl⟩ := List.getElem?_eq_some_iff.1 hl
  have haround : (loops.take (j + 1)).filter (fun m => decide (m.Covers addr)) = loops.take (j + 1) := by
    refine List.filter_eq_self.2 fun m hm => decide_eq_true ?_
    obtain ⟨k, hk, rfl⟩ := List.mem_take_iff_getElem.1 hm
    rcases Nat.eq_or_lt_of_le (Nat.le_of_lt_succ (Nat.lt_of_lt_of_le hk (Nat.min_le_left ..))) with rfl | hlt
    · exact hcovers
    · have hnested := List.pairwise_iff_getElem.1 h.nested k j (Nat.lt_trans hlt hj) hj hlt
      unfold CountedLoop.Covers CountedLoop.first at *
      omega
  have hnone : (loops.drop (j + 1)).filter (fun m => decide (m.Covers addr)) = [] :=
    List.filter_eq_nil_iff.2 fun m hm hc => hdeeper m hm (of_decide_eq_true hc)
  conv_lhs => rw [tally, ← List.take_append_drop (j + 1) loops, List.filter_append, haround, hnone, List.append_nil]

/-- How often the words of a body are executed in each round. -/
theorem body_visits (h : p.LoopNest (l :: m :: rest)) (addr : Nat) :
    (Simulator.once l.first m.entry +
        (fun addr => Simulator.once m.entry (m.last + 1) addr * tally (m :: rest) addr) +
          Simulator.once (m.last + 1) (l.last + 1)) addr = if l.Covers addr then tally (m :: rest) addr else 0 := by
  obtain ⟨hentry, hlast⟩ := (List.pairwise_cons.1 h.nested).1 m List.mem_cons_self
  have hbody : m.entry + 2 ≤ m.last := (h.tail.stands m List.mem_cons_self).body
  rw [Pi.add_apply, Pi.add_apply]
  by_cases hcovers : m.Covers addr
  · have hin := h.covers_of_mem (List.mem_cons_of_mem l List.mem_cons_self) hcovers
    unfold CountedLoop.Covers CountedLoop.first at hcovers
    unfold Simulator.once
    rw [if_neg (by omega), if_pos (by omega), if_neg (by omega), if_pos hin, zero_add, one_mul, add_zero]
  · rw [h.tail.tally_eq_one hcovers, mul_one, ← l.once_covers]
    unfold Simulator.once
    split_ifs <;> omega

/-- What the load, the DO and the rounds of a body make together. -/
theorem once_add_rounds (h : p.LoopNest (l :: rest)) {v : Nat → Nat}
    (hv : ∀ addr, v addr = if l.Covers addr then tally rest addr else 0) :
    Simulator.once l.entry l.first + l.rounds • v =
      fun addr => Simulator.once l.entry (l.last + 1) addr * tally (l :: rest) addr := by
  have hbody : l.first ≤ l.last := (h.stands l List.mem_cons_self).body
  have hfirst : l.first = l.entry + 2 := rfl
  funext addr
  rw [Pi.add_apply, Pi.smul_apply, Nat.nsmul_eq_mul, hv]
  by_cases hcovers : l.Covers addr
  · have hinside : Simulator.once l.entry l.first addr = 0 ∧ Simulator.once l.entry (l.last + 1) addr = 1 := by
      unfold CountedLoop.Covers at hcovers
      exact ⟨if_neg (by omega), if_pos (by omega)⟩
    rw [tally_cons, if_pos hcovers, if_pos hcovers, hinside.1, hinside.2, zero_add, one_mul]
  · have houtside : Simulator.once l.entry l.first addr = Simulator.once l.entry (l.last + 1) addr := by
      unfold CountedLoop.Covers at hcovers
      unfold Simulator.once
      split_ifs <;> omega
    rw [h.tally_eq_one hcovers, if_neg hcovers, mul_zero, add_zero, mul_one, houtside]

end Program.LoopNest

namespace Simulator

variable {start sim : Simulator} {l : CountedLoop} {rest : List CountedLoop}

open Program (LoopNest)

/-- Loops that are nested are crossed like a single word. -/
theorem crosses_nest (h : start.program.LoopNest (l :: rest))
    (hdue : start.Undisturbed l.entry l.last) : start.Crosses (rest.length + 1) l.entry l.last fun addr =>
      once l.entry (l.last + 1) addr * tally (l :: rest) addr := by
  -- the body of a loop is a stretch with the next loop in it, or the innermost body
  induction rest generalizing l with
  | nil =>
    have hin := h.stands l List.mem_cons_self
    have hfirst : l.first = l.entry + 2 := rfl
    have hplain (addr : Nat) (hlo : l.first ≤ addr) (hhi : addr ≤ l.last) : start.Plain addr := by
      refine fun i hi => ⟨h.plain l List.mem_cons_self addr ⟨hlo, hhi⟩ ?_ i hi, hdue addr i (by omega) hhi hi⟩
      simp only [List.mem_singleton, forall_eq]
      omega
    have hbody := Crosses.stretch (hin.straight.mono (by omega) (Nat.le_refl _)) hin.body hplain
    rw [← h.once_add_rounds fun addr => ?_]
    · exact hbody.loop hin hdue
    · exact l.once_covers addr
  | cons m rest ih =>
    have hin := h.stands l List.mem_cons_self
    have hfirst : l.first = l.entry + 2 := rfl
    have hin' := h.stands m (List.mem_cons_of_mem l List.mem_cons_self)
    have hfirst' : m.first = m.entry + 2 := rfl
    have hle := hin.body
    have hle' := hin'.body
    obtain ⟨hentry, hlast⟩ := (List.pairwise_cons.1 h.nested).1 m List.mem_cons_self
    have hinner := ih h.tail fun addr i hlo hhi => hdue addr i (by omega) (by omega)
    -- the words of the body in front of the inner loop and behind it
    have hplain (addr : Nat) (hlo : l.first ≤ addr) (hhi : addr ≤ l.last) (hout : addr < m.entry ∨ m.last < addr) :
        start.Plain addr := by
      refine fun i hi => ⟨h.plain l List.mem_cons_self addr ⟨hlo, hhi⟩ (List.forall_mem_cons.2 ⟨by omega, ?_⟩) i hi,
        hdue addr i (by omega) hhi hi⟩
      intro inner hmem
      have hwithin := h.tail.within_of_mem hmem
      have hinner : inner.entry + 2 ≤ inner.last := (h.stands inner (List.mem_cons_of_mem l hmem)).body
      omega
    have hfront := hinner.extendFront (hin.straight.mono (by omega) hlast) hentry (by omega) fun addr hlo hlt =>
      hplain addr hlo (by omega) (.inl hlt)
    have hbody := hfront.extendBack (hin.straight.mono (by omega) (Nat.le_refl _)) hlast fun addr hlt hhi =>
      hplain addr (by omega) hhi (.inr hlt)
    rw [← h.once_add_rounds fun addr => ?_]
    · exact hbody.loop hin hdue
    · exact h.body_visits addr

/-- Nested loops are run from the load of the outermost one on: a word is executed as often as the rounds of all
loops around it multiply to, the run goes on behind the last word of the outermost loop, the loop stacks are as they
were before, and the sequencer has nothing to report. -/
structure RunsNest (sim : Simulator) (outer : CountedLoop) (inner : List CountedLoop) (steps : Nat) : Prop where
  executions : ∀ j l addr, (outer :: inner)[j]? = some l → l.Covers addr →
    (∀ deeper ∈ (outer :: inner).drop (j + 1), ¬deeper.Covers addr) →
    sim.executions addr steps = (((outer :: inner).take (j + 1)).map CountedLoop.rounds).prod
  pc : (step^[steps] sim).pc = (sim.program.indexOf? outer.last).bind sim.program.nextWord?
  loops : (step^[steps] sim).core.loops = sim.core.loops
  silent : ∀ k < steps, (step^[k] sim).Silent

/-- Loops are run as often as their counts say, however deep they are nested, as long as the loop stacks have room. -/
theorem runsNest {outer : CountedLoop} {inner : List CountedLoop} (h : sim.program.LoopNest (outer :: inner))
    (hpc : sim.pc = sim.program.indexOf? outer.entry) (hempty : ∀ t ∈ sim.core.loops.states, t.length = 0)
    (hroom : ∀ t ∈ sim.core.loops.states, (outer :: inner).length ≤ t.depth)
    (hdue : sim.Undisturbed outer.entry outer.last) : ∃ steps, sim.RunsNest outer inner steps := by
  have hholding := LoopStacks.holding_of_empty hempty
  have hstands : sim.Stands [] (sim.program.indexOf? outer.entry) sim :=
    ⟨.refl _, hpc, by rw [hholding]; rfl, rfl⟩
  have haround : sim.Around (inner.length + 1) outer.last [] := by
    refine ⟨nofun, nofun, fun t ht => ?_⟩
    rw [List.length_nil, Nat.zero_add]
    exact hroom t ht
  obtain ⟨_, ⟨steps, rfl, hvisits, hsilent⟩, hstands'⟩ := crosses_nest h hdue [] sim haround hstands
  refine ⟨steps, fun j l addr hl hcovers hdeeper => ?_, hstands'.place, ?_, hsilent⟩
  · have hbetween := h.covers_of_mem (List.mem_of_getElem? hl) hcovers
    have honce : once outer.entry (outer.last + 1) addr = 1 := by
      unfold CountedLoop.Covers CountedLoop.first at hbetween
      exact if_pos (by omega)
    rw [hvisits addr, ← h.tally_eq_prod hl hcovers hdeeper]
    dsimp only
    rw [honce, one_mul]
  · exact (congrArg (·.2.1) hstands'.sequencing).trans hholding

/-- Two loops that end at one word. -/
def sharedEnd : Program :=
  (((((((Builder.origin 0).push { line := 1, opcode := .ld, operands := [.sys .counter, .imm 2] }).push
    { line := 2, opcode := .loop, operands := [.target (.abs 5), .cond .ce] }).push
    { line := 3, opcode := .ld, operands := [.sys .counter, .imm 0] }).push
    { line := 4, opcode := .loop, operands := [.target (.abs 5), .cond .ce] }).push
    { line := 5, opcode := .nop }).push { line := 6, opcode := .nop }).program

theorem runsNest_sharedEnd :
    let sim := load sharedEnd { stackDepth := 2 }
    sim.program.LoopNest [⟨0, 5, 2⟩, ⟨2, 5, 0⟩] ∧ ∃ steps, sim.RunsNest ⟨0, 5, 2⟩ [⟨2, 5, 0⟩] steps := by
  intro sim
  have hp : sharedEnd.Written :=
    ⟨0, _, (((((Builder.Written.origin.push _).push _).push _).push _).push _).push _, by decide, rfl⟩
  have hruns : sim.Runs sharedEnd { stackDepth := 2 } := .of_reachable .load
  have hstraight : sim.program.Straight 0 5 := by
    refine (hruns.consecutive hp).straight fun addr _ hhi => ?_
    interval_cases addr <;> rfl
  have hnest : sim.program.LoopNest [⟨0, 5, 2⟩, ⟨2, 5, 0⟩] := by
    refine ⟨?_, by decide, ?_⟩
    · simp only [List.forall_mem_cons]
      refine ⟨⟨by decide, by decide, hstraight, ⟨_, rfl, rfl, rfl, rfl, rfl⟩,
          ⟨_, rfl, rfl, ⟨.abs 5, rfl, rfl⟩, rfl, rfl⟩⟩,
        ⟨by decide, by decide, hstraight.mono (by decide) (by decide), ⟨_, rfl, rfl, rfl, rfl, rfl⟩,
          ⟨_, rfl, rfl, ⟨.abs 5, rfl, rfl⟩, rfl, rfl⟩⟩, nofun⟩
    · intro l hl addr hcovers hnot i hi
      have hrest : addr = 4 ∨ addr = 5 := by
        have hentry := hnot ⟨2, 5, 0⟩ (by decide)
        have hl : l = ⟨0, 5, 2⟩ ∨ l = ⟨2, 5, 0⟩ := by simpa using hl
        unfold CountedLoop.Covers CountedLoop.first at hcovers
        rcases hl with rfl | rfl <;> (dsimp only at hcovers hentry; omega)
      rcases hrest with rfl | rfl <;> (cases hi; rfl)
  refine ⟨hnest, runsNest hnest rfl (by decide) (by decide) fun _ _ _ _ _ _ => rfl⟩

end Simulator

end QuadDsp
