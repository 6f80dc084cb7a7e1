import QuadDsp.Program.Builder
import QuadDsp.Proofs.Program.Places

/-! # Layout of programs

A builder gives each word the address behind that of the word before it (`Builder.Laid`), so as long as there are
addresses left they are consecutive (`Program.Written.consecutive`), and neither resolving a program nor running it
moves a word. So in a program that a builder has put together a word is found by its address
(`Program.Consecutive.indexOf?_programAddr`), and the next word is the one at the next address
(`Program.Consecutive.nextWord?_eq`).

Resolution marks the words behind branches as delay slots, if there are any (`Program.slotsMarked_resolve`), and
a run leaves the marks as they are. -/

namespace QuadDsp

namespace Builder

/-- Builders that programs are written with: from an origin on, one line behind the other. -/
inductive Written (first : Nat) : Builder → Prop
  | origin : Written first (origin first)
  | push {b : Builder} (i : Instruction) : Written first b → Written first (b.push i)
  | var {b : Builder} (name : String) (addr : Nat) : Written first b → Written first (b.var name addr)
  | declareSection {b : Builder} (name : String) (s : ProgramSection) :
      Written first b → Written first (b.declareSection name s)
  | enterSection {b : Builder} (i : Instruction) : Written first b → Written first (b.enterSection i)

namespace Written

variable {first : Nat} {b b' : Builder}

theorem readLine {line : List Char} (h : b.Written first) (hread : b.readLine line = .ok b') : b'.Written first := by
  obtain ⟨i, -, hpush⟩ := bind_eq_ok_iff.1 hread
  cases hpush
  exact (h.enterSection i).push i

theorem readLines (h : b.Written first) (lines : List (List Char)) : (b.readLines lines).1.Written first := by
  induction lines generalizing b with
  | nil => exact h
  | cons line rest ih =>
    rw [Builder.readLines]
    split
    · exact ih h
    · cases hread : b.readLine line with
      | error e => exact h
      | ok b' => exact ih (h.readLine hread)

theorem readNumbered {lines : List (List Char)} {n : Nat} (h : b.Written first)
    (hread : b.readNumbered n lines = .ok b') : b'.Written first := by
  induction lines generalizing b n with
  | nil =>
    cases hread
    exact h
  | cons line rest ih =>
    rw [Builder.readNumbered] at hread
    split at hread
    · exact ih h hread
    · cases hline : b.readLine line with
      | error e => rw [hline] at hread; cases hread
      | ok b'' =>
        rw [hline] at hread
        exact ih (h.readLine hline) hread

end Written

theorem instrs_enterSection (b : Builder) (i : Instruction) :
    (b.enterSection i).program.instrs = b.program.instrs ∧ (b.enterSection i).addr = b.addr := by
  unfold enterSection
  split <;> exact ⟨rfl, rfl⟩

end Builder

namespace Program

/-- A program that a builder has put together without running out of addresses. -/
def Written (p : Program) : Prop :=
  ∃ (first : Nat) (b : Builder), b.Written first ∧ first + p.words.length < span addrBits ∧ p = b.program

/-- The words have consecutive addresses, and there is one left behind the last word. -/
def Consecutive (p : Program) : Prop :=
  ∃ first, first + p.words.length < span addrBits ∧
    ∀ (n : Nat) (i : Instruction), p.words[n]? = some i → i.programAddr = first + n

variable {p q : Program} {idx idx' : Nat} {i j : Instruction}

theorem Written.ofText {text : String} (h : ofText text = .ok p) (hroom : p.words.length < span addrBits) :
    p.Written := by
  unfold Program.ofText at h
  cases hread : (Builder.origin 0).readNumbered 1 (Text.lines text.toList) with
  | error e => rw [hread] at h; cases h
  | ok b =>
    rw [hread] at h
    cases h
    exact ⟨0, b, Builder.Written.origin.readNumbered hread, by rwa [Nat.zero_add], rfl⟩

theorem exists_of_indexOf? {addr : Nat} (h : p.indexOf? addr = some idx) :
    ∃ i, p.instrs[idx]? = some i ∧ i.isDirective = false ∧ i.programAddr = addr := by
  obtain ⟨hlt, hi, -⟩ := List.findIdx?_eq_some_iff_getElem.1 h
  have hboth : p.instrs[idx].isDirective = false ∧ p.instrs[idx].programAddr = addr := by simpa using hi
  exact ⟨_, List.getElem?_eq_getElem hlt, hboth⟩

theorem lt_of_indexOf? {addr : Nat} (h : p.indexOf? addr = some idx) : addr < span addrBits := by
  obtain ⟨i, -, -, rfl⟩ := exists_of_indexOf? h
  exact i.programAddr_lt

theorem wordAt?_eq_some_iff {addr : Nat} :
    p.wordAt? addr = some i ↔ ∃ idx, p.indexOf? addr = some idx ∧ p.instrs[idx]? = some i :=
  Option.bind_eq_some_iff

theorem exists_of_wordAt? {addr : Nat} (h : p.wordAt? addr = some i) :
    ∃ idx, p.indexOf? addr = some idx ∧ p.instrs[idx]? = some i ∧ i.programAddr = addr := by
  obtain ⟨idx, hidx, hi⟩ := wordAt?_eq_some_iff.1 h
  obtain ⟨j, hj, -, haddr⟩ := exists_of_indexOf? hidx
  cases hi.symm.trans hj
  exact ⟨idx, hidx, hi, haddr⟩

theorem words_of_append {front : List Instruction} (h : q.instrs = p.instrs ++ front) :
    q.words = p.words ++ front.filter (!·.isDirective) := by
  rw [words, h, List.filter_append]
  rfl

/-- Every line stands at an address: that of the first word and one more for each word in front of the line. -/
def LaidFrom (p : Program) (first : Nat) : Prop :=
  ∀ (idx : Nat) (i : Instruction), p.instrs[idx]? = some i → i.programAddr = first + p.number idx

theorem LaidFrom.words {first n : Nat} (h : p.LaidFrom first) (hi : p.words[n]? = some i) :
    i.programAddr = first + n := by
  obtain ⟨idx, hidx, -, rfl⟩ := exists_of_words hi
  exact h idx i hidx

end Program

namespace Builder

/-- What is placed is laid out from an address on, and the next word comes behind it. -/
structure Laid (first : Nat) (b : Builder) : Prop where
  addr : b.addr = .ofNat (first + b.program.words.length)
  instrs : ∀ (idx : Nat) (i : Instruction), b.program.instrs[idx]? = some i →
    i.address = .ofNat (first + b.program.number idx)

namespace Laid

variable {first : Nat} {b b' : Builder}

theorem origin (first : Nat) : (origin first).Laid first := ⟨rfl, nofun⟩

/-- The next word gets the address behind that of the last one. -/
theorem append (h : b.Laid first) {i : Instruction} (hinstrs : b'.program.instrs = b.program.instrs ++ [i])
    (hi : i.address = b.addr) (haddr : b'.addr = if i.isDirective then b.addr else b.addr + 1) : b'.Laid first := by
  refine ⟨?_, fun idx j hj => ?_⟩
  · rw [haddr, h.addr, Program.words_of_append hinstrs, List.length_append]
    cases hdir : i.isDirective with
    | true => rw [List.filter_cons_of_neg (by simp [hdir])]; rfl
    | false =>
      rw [List.filter_cons_of_pos (by simp [hdir]), if_neg Bool.false_ne_true, ← Nat.add_assoc]
      exact (UInt32.ofNat_add _ 1).symm
  · rw [hinstrs, List.getElem?_append] at hj
    split at hj
    · next hlt => rw [h.instrs idx j hj, Program.number_append hinstrs (Nat.le_of_lt hlt)]
    · next hge =>
      obtain ⟨hend, rfl⟩ : idx - b.program.instrs.length = 0 ∧ i = j := by
        simpa [List.getElem?_singleton] using hj
      obtain rfl : idx = b.program.instrs.length := by omega
      rw [hi, h.addr, Program.number_append hinstrs (Nat.le_refl _), Program.number_length]

theorem push (h : b.Laid first) (i : Instruction) : (b.push i).Laid first :=
  h.append (b.instrs_push i) rfl rfl

theorem var (h : b.Laid first) (name : String) (addr : Nat) : (b.var name addr).Laid first :=
  h.append (List.reverse_cons ..) rfl rfl

theorem enterSection (h : b.Laid first) (i : Instruction) : (b.enterSection i).Laid first := by
  obtain ⟨hinstrs, haddr⟩ := b.instrs_enterSection i
  have hnumber (idx : Nat) : (b.enterSection i).program.number idx = b.program.number idx := by
    rw [Program.number, hinstrs, Program.number]
  refine ⟨?_, fun idx j hj => ?_⟩
  · rw [haddr, h.addr, Program.words, Program.words, hinstrs]
  · rw [hnumber]
    exact h.instrs idx j (hinstrs ▸ hj)

theorem readLine {line : List Char} (h : b.Laid first) (hread : b.readLine line = .ok b') : b'.Laid first := by
  obtain ⟨i, -, hpush⟩ := bind_eq_ok_iff.1 hread
  cases hpush
  exact (h.enterSection i).push i

theorem readLines (h : b.Laid first) (lines : List (List Char)) : (b.readLines lines).1.Laid first := by
  induction lines generalizing b with
  | nil => exact h
  | cons line rest ih =>
    rw [Builder.readLines]
    split
    · exact ih h
    · cases hread : b.readLine line with
      | error e => exact h
      | ok b' => exact ih (h.readLine hread)

end Laid

theorem Written.laid {first : Nat} {b : Builder} (h : b.Written first) : b.Laid first := by
  induction h with
  | origin => exact .origin first
  | push i _ ih => exact ih.push i
  | var name addr _ ih => exact ih.var name addr
  | declareSection name s _ ih => exact ⟨ih.addr, ih.instrs⟩
  | enterSection i _ ih => exact ih.enterSection i

/-- As long as there are addresses left, every line stands at its own. -/
theorem Laid.laidFrom {first : Nat} {b : Builder} (h : b.Laid first)
    (hroom : first + b.program.words.length < span addrBits) : b.program.LaidFrom first := by
  intro idx i hi
  have hle := b.program.number_le idx
  rw [Instruction.programAddr, h.instrs idx i hi, UInt32.toNat_ofNat']
  exact Nat.mod_eq_of_lt (Nat.lt_of_le_of_lt (Nat.add_le_add_left hle first) hroom)

end Builder

namespace Program

variable {p q : Program} {idx idx' : Nat} {i j : Instruction}

theorem Written.consecutive (h : p.Written) : p.Consecutive := by
  obtain ⟨first, b, hb, hroom, rfl⟩ := h
  exact ⟨first, hroom, fun _ _ => (hb.laid.laidFrom hroom).words⟩

theorem Consecutive.corresponds {R : Instruction → Instruction → Prop} (h : p.Consecutive) (hcor : Corresponds R p q) :
    q.Consecutive := by
  obtain ⟨first, hroom, hwords⟩ := h
  refine ⟨first, hcor.words.length_eq ▸ hroom, fun n j hj => ?_⟩
  obtain ⟨i, hi, hij⟩ := exists_getElem?_of_forall₂ hcor.words hj
  rw [hcor.addr i j hij, hwords n i hi]

theorem Consecutive.ran (h : p.Consecutive) (hran : p.Ran q) : q.Consecutive :=
  h.corresponds ⟨hran.words, fun _ _ hij => hij.programAddr⟩

/-- Resolution leaves words and directives where they are. -/
theorem forall₂_resolve (p : Program) (delaySlots : Bool) :
    List.Forall₂ (fun i j => j.isDirective = i.isDirective ∧ j.programAddr = i.programAddr) p.instrs
      (p.resolve delaySlots).1.instrs := by
  refine (forall₂_resolveList delaySlots false p.instrs).imp fun i j hij => ?_
  split at hij
  · rw [hij]
    exact ⟨rfl, rfl⟩
  · obtain ⟨b, rfl⟩ := hij
    exact ⟨i.isDirective_resolve b, i.programAddr_resolve b⟩

theorem Consecutive.resolve (h : p.Consecutive) (delaySlots : Bool) : (p.resolve delaySlots).1.Consecutive :=
  h.corresponds ⟨List.rel_filter (fun i j hij => by simp [hij.1]) (p.forall₂_resolve delaySlots), fun _ _ hij => hij.2⟩

namespace Consecutive

variable (h : p.Consecutive)

include h

theorem programAddr_succ_lt (hi : p.instrs[idx]? = some i) (hword : i.isDirective = false) :
    i.programAddr + 1 < span addrBits := by
  obtain ⟨first, hroom, hwords⟩ := h
  have hn := words_number hi hword
  have hlt := (List.getElem?_eq_some_iff.1 hn).1
  have haddr := hwords _ _ hn
  omega

theorem indexOf?_programAddr (hi : p.instrs[idx]? = some i) (hword : i.isDirective = false) :
    p.indexOf? i.programAddr = some idx := by
  obtain ⟨first, -, hwords⟩ := h
  refine eq_of_map_number (p := p) (fun _ => isWord_of_indexOf?) (fun k hk => ?_) ?_
  · cases hk
    exact ⟨i, hi, hword⟩
  · have hn := words_number hi hword
    obtain ⟨hlt, hget⟩ := List.getElem?_eq_some_iff.1 hn
    rw [number_indexOf?, Option.map_some, List.findIdx?_eq_some_iff_getElem]
    refine ⟨hlt, by simp [hget, hword], fun k hk => ?_⟩
    -- the words in front of it have lower addresses
    have haddr := hwords k _ (List.getElem?_eq_getElem (Nat.lt_trans hk hlt))
    have haddr' := hwords _ _ hn
    simp only [Bool.not_eq_true, Bool.and_eq_false_imp, beq_eq_false_iff_ne]
    omega

theorem nextWord?_eq (hi : p.instrs[idx]? = some i) (hword : i.isDirective = false) :
    p.nextWord? idx = p.indexOf? (i.programAddr + 1) := by
  have hn := words_number hi hword
  cases hnext : p.nextWord? idx with
  | some next =>
    -- the next word has the next number, so the next address
    obtain ⟨j, hj, hword'⟩ := isWord_of_nextWord? hnext
    have haddr : j.programAddr = i.programAddr + 1 := by
      obtain ⟨first, -, hwords⟩ := h
      have hj' := words_number hj hword'
      rw [number_of_nextWord? hi hword hnext] at hj'
      rw [hwords _ _ hn, hwords _ _ hj', Nat.add_assoc]
    rw [← haddr, h.indexOf?_programAddr hj hword']
  | none =>
    cases hindex : p.indexOf? (i.programAddr + 1) with
    | none => rfl
    | some place =>
      -- a word at the next address would have the next number
      obtain ⟨first, -, hwords⟩ := h
      obtain ⟨j, hj, hword', haddr⟩ := exists_of_indexOf? hindex
      have hj' := words_number hj hword'
      have hlt := (List.getElem?_eq_some_iff.1 hj').1
      have hlast := length_words_le hi hword hnext
      have haddr' := hwords _ _ hn
      have haddr'' := hwords _ _ hj'
      omega

end Consecutive

/-- From one address to another there is a word at each, and the next word is the one at the next address. -/
def Straight (p : Program) (lo hi : Nat) : Prop :=
  ∀ addr, lo ≤ addr → addr ≤ hi →
    ∃ idx, p.indexOf? addr = some idx ∧ (addr < hi → p.nextWord? idx = p.indexOf? (addr + 1))

theorem Consecutive.straight (h : p.Consecutive) {lo hi : Nat}
    (hwords : ∀ addr, lo ≤ addr → addr ≤ hi → (p.indexOf? addr).isSome = true) : p.Straight lo hi := by
  intro addr hlo hhi
  obtain ⟨idx, hidx⟩ := Option.isSome_iff_exists.1 (hwords addr hlo hhi)
  obtain ⟨i, hi, hword, rfl⟩ := exists_of_indexOf? hidx
  exact ⟨idx, hidx, fun _ => h.nextWord?_eq hi hword⟩

theorem Straight.mono {lo hi lo' hi' : Nat} (h : p.Straight lo hi) (hlo : lo ≤ lo') (hhi : hi' ≤ hi) :
    p.Straight lo' hi' := by
  intro addr hlo' hhi'
  obtain ⟨idx, hidx, hnext⟩ := h addr (Nat.le_trans hlo hlo') (Nat.le_trans hhi' hhi)
  exact ⟨idx, hidx, fun hlt => hnext (Nat.lt_of_lt_of_le hlt hhi)⟩

theorem Straight.nextWord?_eq {lo hi addr : Nat} (h : p.Straight lo hi) (hlo : lo ≤ addr) (hlt : addr < hi)
    (hidx : p.indexOf? addr = some idx) : p.nextWord? idx = p.indexOf? (addr + 1) := by
  obtain ⟨k, hk, hnext⟩ := h addr hlo (Nat.le_of_lt hlt)
  cases hidx.symm.trans hk
  exact hnext hlt

/-- With delay slots the words behind branches are marked, and no others; without them no word is. -/
structure SlotsMarked (delaySlots : Bool) (words : List Instruction) : Prop where
  first : ∀ i, words[0]? = some i → i.inDelaySlot = false
  behind : ∀ (n : Nat) (i j : Instruction), words[n]? = some i → words[n + 1]? = some j →
    j.inDelaySlot = (delaySlots && i.opcode.isBranch)

variable {delaySlots : Bool}

theorem inDelaySlot_resolve (i : Instruction) (b : Bool) : (i.resolve b).1.inDelaySlot = b := by
  obtain ⟨format, h⟩ := i.fst_resolve b
  rw [h]

theorem opcode_resolve (i : Instruction) (b : Bool) : (i.resolve b).1.opcode = i.opcode := by
  obtain ⟨format, h⟩ := i.fst_resolve b
  rw [h]
  rfl

/-- The words of a resolved list: the first is marked if a branch stands before the list, and each other one if
the word before it branches. -/
theorem marks_resolveList (delaySlots afterBranch : Bool) (instrs : List Instruction) :
    let words := (resolveList delaySlots afterBranch instrs).1.filter (!·.isDirective)
    (∀ i, words[0]? = some i → i.inDelaySlot = (delaySlots && afterBranch)) ∧
      ∀ (n : Nat) (i j : Instruction), words[n]? = some i → words[n + 1]? = some j →
        j.inDelaySlot = (delaySlots && i.opcode.isBranch) := by
  induction instrs generalizing afterBranch with
  | nil => exact ⟨nofun, nofun⟩
  | cons i rest ih =>
    rw [resolveList]
    split
    · next hdir =>
      dsimp only
      rw [List.filter_cons_of_neg (by simp [hdir])]
      exact ih afterBranch
    · next hdir =>
      obtain ⟨hfirst, hbehind⟩ := ih i.opcode.isBranch
      dsimp only
      rw [List.filter_cons_of_pos (by simp [i.isDirective_resolve, hdir])]
      refine ⟨fun j hj => ?_, fun n j k hj hk => ?_⟩
      · cases hj
        exact inDelaySlot_resolve i _
      · rw [List.getElem?_cons_succ] at hk
        cases n with
        | zero =>
          cases hj
          rw [hfirst k hk, opcode_resolve]
        | succ n =>
          rw [List.getElem?_cons_succ] at hj
          exact hbehind n j k hj hk

theorem slotsMarked_resolve (p : Program) (delaySlots : Bool) :
    SlotsMarked delaySlots (p.resolve delaySlots).1.words := by
  obtain ⟨hfirst, hbehind⟩ := marks_resolveList delaySlots false p.instrs
  exact ⟨fun i hi => by rw [hfirst i hi, Bool.and_false], hbehind⟩

namespace SlotsMarked

theorem ran (h : SlotsMarked delaySlots p.words) (hran : p.Ran q) : SlotsMarked delaySlots q.words := by
  have hback {n : Nat} {j : Instruction} (hj : q.words[n]? = some j) :
      ∃ i, p.words[n]? = some i ∧ j.inDelaySlot = i.inDelaySlot ∧ j.opcode = i.opcode := by
    obtain ⟨i, hi, hij⟩ := exists_getElem?_of_forall₂ hran.words hj
    exact ⟨i, hi, by rw [hij], by rw [hij]⟩
  refine ⟨fun j hj => ?_, fun n j k hj hk => ?_⟩
  · obtain ⟨i, hi, hmark, -⟩ := hback hj
    rw [hmark, h.first i hi]
  · obtain ⟨i, hi, -, hop⟩ := hback hj
    obtain ⟨i', hi', hmark, -⟩ := hback hk
    rw [hmark, hop, h.behind n i i' hi hi']

/-- The next word is a delay slot, if there are any and the word branches. -/
theorem nextWord? (h : SlotsMarked delaySlots p.words) (hi : p.instrs[idx]? = some i) (hword : i.isDirective = false)
    (hnext : p.nextWord? idx = some idx') (hj : p.instrs[idx']? = some j) :
    j.inDelaySlot = (delaySlots && i.opcode.isBranch) := by
  obtain ⟨k, hk, hword'⟩ := isWord_of_nextWord? hnext
  rw [hj] at hk
  cases hk
  have hn := words_number hj hword'
  rw [number_of_nextWord? hi hword hnext] at hn
  exact h.behind _ i j (words_number hi hword) hn

theorem inDelaySlot_eq_false (h : SlotsMarked false p.words) (hi : p.instrs[idx]? = some i)
    (hword : i.isDirective = false) : i.inDelaySlot = false := by
  have hn := words_number hi hword
  generalize p.number idx = n at hn
  cases n with
  | zero => exact h.first i hn
  | succ n =>
    have hlt := (List.getElem?_eq_some_iff.1 hn).1
    exact h.behind n _ i (List.getElem?_eq_getElem (Nat.lt_of_succ_lt hlt)) hn

end SlotsMarked

end Program

end QuadDsp
