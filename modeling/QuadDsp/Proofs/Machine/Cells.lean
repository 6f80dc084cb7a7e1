import Mathlib.Tactic.IntervalCases
import QuadDsp.Machine.Effects

/-! # Cells of the machine

What a bundled word can write, piece by piece: the data registers, the accumulators, the index registers, the words
of memory, and each flag of each lane (`Cell`). A write changes the cells it hits and no other
(`Cell.read_apply_of_not_hits`), and what it leaves in a cell depends on that cell alone (`Cell.read_apply_congr`).
So among the writes of many operations only those count for a cell that hit it
(`Cell.read_foldl_of_others`). -/

namespace QuadDsp

inductive Cell
  | reg (i : Nat)
  | acc (i : Nat)
  | index (i : Nat)
  | word (addr : Nat)
  /-- the flag with a number, in a bank of a lane -/
  | flag (l : Lane) (bank : Bank) (n : Nat)
deriving DecidableEq

namespace Flags

/-- The flags that an update sets: those of its group, and the sticky ones that it latches. -/
def touched (group new : Flags) : Flags :=
  { group with
    stickyOverflow := group.stickyOverflow || new.overflow
    stickyMul := group.stickyMul || new.mulOverflow
    stickyShift := group.stickyShift || new.shiftOverflow }

theorem getElem?_toList_of_le {f : Flags} {n : Nat} (h : 13 ≤ n) : f.toList[n]? = none :=
  List.getElem?_eq_none h

theorem update_of_not_touched {group new : Flags} {n : Nat} (h : (touched group new).toList[n]? ≠ some true)
    (old : Flags) : (update group new old).toList[n]? = old.toList[n]? := by
  by_cases hn : n < 13
  · interval_cases n <;> simp_all [touched, toList, update]
  · rw [getElem?_toList_of_le (Nat.le_of_not_lt hn), getElem?_toList_of_le (Nat.le_of_not_lt hn)]

theorem update_congr {old old' : Flags} {n : Nat} (h : old.toList[n]? = old'.toList[n]?) (group new : Flags) :
    (update group new old).toList[n]? = (update group new old').toList[n]? := by
  by_cases hn : n < 13
  · interval_cases n <;> simp_all [toList, update]
  · rw [getElem?_toList_of_le (Nat.le_of_not_lt hn), getElem?_toList_of_le (Nat.le_of_not_lt hn)]

end Flags

theorem FlagBank.get_modify (b : FlagBank) (bank bank' : Bank) (f : Flags → Flags) :
    (b.modify bank f).get bank' = if bank = bank' then f (b.get bank') else b.get bank' := by
  cases bank <;> cases bank' <;> rfl

/-- The write changes the cell. -/
def Write.Hits : Write → Cell → Prop
  | .reg i _, .reg j => i = j
  | .acc i _, .acc j | .accView i _ _, .acc j => i = j
  | .address r _, .index j => r = ⟨.index, j⟩
  | .mem addr _, .word addr' => addr = addr'
  | .flags bank group v, .flag l bank' n => bank = bank' ∧ (Flags.touched group (v l)).toList[n]? = some true
  | _, _ => False

/-- The write goes to what the lanes share, which lane 0 alone can write. -/
def Write.IsShared : Write → Prop
  | .address .. | .sys .. | .modes .. => True
  | _ => False

def Effects.Hits (fx : Effects) (c : Cell) : Prop := ∃ w ∈ fx.writes, w.Hits c

namespace Core

/-- What each lane has of its own. -/
def lanewise (s : Core) := (s.regs, s.accs, s.flags)

theorem lanewise_apply (s : Core) (mask : Mask) (w : Write) (hw : w.IsShared) :
    (s.apply mask w).lanewise = s.lanewise := by
  cases w with
  | address r v =>
    obtain ⟨cls, i⟩ := r
    simp only [apply]
    split <;> cases cls <;> rfl
  | sys r v =>
    simp only [apply]
    split <;> cases r <;> rfl
  | modes chosen on =>
    simp only [apply]
    split <;> rfl
  | reg | acc | accView | flags | mem => cases hw

/-- What every write of a list leaves alone, the list does. -/
theorem foldl_apply_eq {α : Type} (part : Core → α) {mask : Mask} {ws : List Write}
    (h : ∀ w ∈ ws, ∀ s : Core, part (s.apply mask w) = part s) (s : Core) :
    part (ws.foldl (·.apply mask ·) s) = part s := by
  induction ws generalizing s with
  | nil => rfl
  | cons w rest ih =>
    obtain ⟨hw, hrest⟩ := List.forall_mem_cons.1 h
    exact (ih hrest (s.apply mask w)).trans (hw s)

end Core

namespace Cell

/-- What a cell holds; there may be no such cell. -/
def Value : Cell → Type
  | reg _ | acc _ => Except ExecError (Lanes Int)
  | index _ => Except ExecError Nat
  | word _ => Except AddressError (Lanes Int)
  | flag .. => Option Bool

def read (s : Core) (m : Memory) : (c : Cell) → c.Value
  | reg i => s.reg i
  | acc i => s.acc i
  | index i => Core.fetch s.index i
  | word addr => m.read addr
  | flag l bank n => ((s.flags l).get bank).toList[n]?

variable {c : Cell} {w : Write} {s s' : Core} {m m' : Memory}

theorem fetch_setIfInBounds {α : Type} {n : Nat} (file : Vector α n) (i j : Nat) (a : α) :
    Core.fetch (file.setIfInBounds i a) j =
      if i = j then (Core.fetch file j).map fun _ => a else Core.fetch file j := by
  unfold Core.fetch
  by_cases hj : j < n
  · simp only [hj, dif_pos, Vector.getElem_setIfInBounds]
    split <;> rfl
  · simp only [hj, dif_neg, not_false_eq_true]
    split <;> rfl

theorem fetch_index_setAddress (s : Core) (r : Reg) (v : Int) (j : Nat) :
    Core.fetch (s.setAddress r v).index j =
      if r = ⟨.index, j⟩ then (Core.fetch s.index j).map fun _ => lowBits 16 v else Core.fetch s.index j := by
  obtain ⟨cls, i⟩ := r
  cases cls with
  | index =>
    rw [show (s.setAddress ⟨.index, i⟩ v).index = s.index.setIfInBounds i (lowBits 16 v) from rfl, fetch_setIfInBounds]
    simp only [Reg.mk.injEq, true_and]
  | _ => rw [if_neg (by simp)]; rfl

theorem flags_updateFlags (s : Core) (mask : Mask) (bank : Bank) (group : Flags) (v : Lanes Flags) (l : Lane)
    (bank' : Bank) :
    ((s.updateFlags mask bank group v).flags l).get bank' =
      if mask l = true ∧ bank = bank' then Flags.update group (v l) ((s.flags l).get bank')
      else (s.flags l).get bank' := by
  rw [Core.updateFlags, Lanes.merge_apply, Lanes.zipWith_apply]
  cases mask l with
  | false => simp
  | true => simp [FlagBank.get_modify]

section Apply

variable (s : Core) (mask : Mask) (w : Write)

theorem reg_apply (j : Nat) : (s.apply mask w).reg j =
    match w with
    | .reg i v => if i = j then (s.reg j).map fun old => Lanes.merge mask old (v.map (wrap dataBits)) else s.reg j
    | _ => s.reg j := by
  cases w with
  | reg i v => exact s.reg_setReg i j v mask
  | address r v => exact congrArg (fun x => Core.fetch x.1 j) (s.lanewise_apply mask (.address r v) trivial)
  | sys r v => exact congrArg (fun x => Core.fetch x.1 j) (s.lanewise_apply mask (.sys r v) trivial)
  | modes chosen on => exact congrArg (fun x => Core.fetch x.1 j) (s.lanewise_apply mask (.modes chosen on) trivial)
  | _ => rfl

theorem acc_apply (j : Nat) : (s.apply mask w).acc j =
    match w with
    | .acc i v => if i = j then (s.acc j).map fun old => Lanes.merge mask old v else s.acc j
    | .accView i view v =>
      if i = j then (s.acc j).map fun old => Lanes.merge mask old (Lanes.zipWith (Core.putView view) old v) else s.acc j
    | _ => s.acc j := by
  cases w with
  | acc i v => exact s.acc_setAcc i j v mask
  | accView i view v =>
    rw [Core.apply, Core.setAccView, Core.acc, Core.fetch_alter]
    rfl
  | address r v => exact congrArg (fun x => Core.fetch x.2.1 j) (s.lanewise_apply mask (.address r v) trivial)
  | sys r v => exact congrArg (fun x => Core.fetch x.2.1 j) (s.lanewise_apply mask (.sys r v) trivial)
  | modes chosen on => exact congrArg (fun x => Core.fetch x.2.1 j) (s.lanewise_apply mask (.modes chosen on) trivial)
  | _ => rfl

theorem index_apply (j : Nat) : Core.fetch (s.apply mask w).index j =
    match w with
    | .address r v =>
      if mask .first = true ∧ r = ⟨.index, j⟩ then (Core.fetch s.index j).map fun _ => lowBits 16 v
      else Core.fetch s.index j
    | _ => Core.fetch s.index j := by
  cases w with
  | address r v =>
    simp only [Core.apply]
    split
    · next hmask => simp only [fetch_index_setAddress, hmask, true_and]
    · next hmask => rw [if_neg fun h => hmask h.1]
  | sys r v =>
    simp only [Core.apply]
    split <;> cases r <;> rfl
  | modes chosen on =>
    simp only [Core.apply]
    split <;> rfl
  | _ => rfl

theorem flags_apply (l : Lane) (bank : Bank) : ((s.apply mask w).flags l).get bank =
    match w with
    | .flags bank' group v =>
      if mask l = true ∧ bank' = bank then Flags.update group (v l) ((s.flags l).get bank)
      else (s.flags l).get bank
    | _ => (s.flags l).get bank := by
  cases w with
  | flags bank' group v => exact flags_updateFlags s mask bank' group v l bank
  | address r v => exact congrArg (fun x => (x.2.2 l).get bank) (s.lanewise_apply mask (.address r v) trivial)
  | sys r v => exact congrArg (fun x => (x.2.2 l).get bank) (s.lanewise_apply mask (.sys r v) trivial)
  | modes chosen on => exact congrArg (fun x => (x.2.2 l).get bank) (s.lanewise_apply mask (.modes chosen on) trivial)
  | _ => rfl

theorem word_apply (m : Memory) (addr : Nat) : (m.apply mask w).read addr =
    match w with
    | .mem addr' v =>
      if addr' = addr then (m.read addr).map fun old => Lanes.merge mask old (v.map (wrap dataBits)) else m.read addr
    | _ => m.read addr := by
  cases w with
  | mem addr' v =>
    dsimp only [Memory.apply]
    split
    · next h =>
      subst h
      rw [Memory.read, Memory.read, Memory.store, Array.getElem?_modify, if_pos rfl]
      cases m.words[addr']? <;> rfl
    · next h => exact m.read_store addr' addr v mask h
  | _ => rfl

end Apply

theorem read_apply_of_not_hits (mask : Mask) (h : ¬w.Hits c) :
    c.read (s.apply mask w) (m.apply mask w) = c.read s m := by
  cases c with
  | reg j =>
    refine (reg_apply s mask w j).trans ?_
    split
    · exact if_neg h
    · rfl
  | acc j =>
    refine (acc_apply s mask w j).trans ?_
    split
    · exact if_neg h
    · exact if_neg h
    · rfl
  | index j =>
    refine (index_apply s mask w j).trans ?_
    split
    · exact if_neg fun hboth => h hboth.2
    · rfl
  | word addr =>
    refine (word_apply mask w m addr).trans ?_
    split
    · exact if_neg h
    · rfl
  | flag l bank n =>
    dsimp only [read]
    rw [flags_apply]
    split
    · split
      · next hboth => exact Flags.update_of_not_touched (fun htouched => h ⟨hboth.2, htouched⟩) _
      · rfl
    · rfl

/-- What a write leaves in a cell depends on what was there, and on nothing else. -/
theorem read_apply_congr (mask : Mask) (w : Write) (h : c.read s m = c.read s' m') :
    c.read (s.apply mask w) (m.apply mask w) = c.read (s'.apply mask w) (m'.apply mask w) := by
  cases c with
  | reg j =>
    have hold : s.reg j = s'.reg j := h
    show (s.apply mask w).reg j = (s'.apply mask w).reg j
    rw [reg_apply, reg_apply, hold]
  | acc j =>
    have hold : s.acc j = s'.acc j := h
    show (s.apply mask w).acc j = (s'.apply mask w).acc j
    rw [acc_apply, acc_apply, hold]
  | index j =>
    have hold : Core.fetch s.index j = Core.fetch s'.index j := h
    show Core.fetch (s.apply mask w).index j = Core.fetch (s'.apply mask w).index j
    rw [index_apply, index_apply, hold]
  | word addr =>
    have hold : m.read addr = m'.read addr := h
    show (m.apply mask w).read addr = (m'.apply mask w).read addr
    rw [word_apply, word_apply, hold]
  | flag l bank n =>
    have hold : ((s.flags l).get bank).toList[n]? = ((s'.flags l).get bank).toList[n]? := h
    dsimp only [read]
    rw [flags_apply, flags_apply]
    split
    · split
      · exact Flags.update_congr hold _ _
      · exact hold
    · exact hold

section Many

variable {mask : Mask} {ws ws' : List Write}

theorem read_foldl_of_not_hits (h : ∀ w ∈ ws, ¬w.Hits c) :
    c.read (ws.foldl (·.apply mask ·) s) (ws.foldl (·.apply mask ·) m) = c.read s m := by
  induction ws generalizing s m with
  | nil => rfl
  | cons w ws ih =>
    rw [List.foldl_cons, List.foldl_cons, ih fun w' hw' => h w' (List.mem_cons_of_mem _ hw')]
    exact read_apply_of_not_hits mask (h w List.mem_cons_self)

theorem read_foldl_congr (ws : List Write) (h : c.read s m = c.read s' m') :
    c.read (ws.foldl (·.apply mask ·) s) (ws.foldl (·.apply mask ·) m) =
      c.read (ws.foldl (·.apply mask ·) s') (ws.foldl (·.apply mask ·) m') := by
  induction ws generalizing s m s' m' with
  | nil => exact h
  | cons w ws ih => exact ih (read_apply_congr mask w h)

/-- Writes around others that do not hit the cell do not count for it. -/
theorem read_foldl_of_others {front back : List Write} (hfront : ∀ w ∈ front, ¬w.Hits c)
    (hback : ∀ w ∈ back, ¬w.Hits c) :
    c.read ((front ++ (ws ++ back)).foldl (·.apply mask ·) s) ((front ++ (ws ++ back)).foldl (·.apply mask ·) m) =
      c.read (ws.foldl (·.apply mask ·) s) (ws.foldl (·.apply mask ·) m) := by
  simp only [List.foldl_append]
  rw [read_foldl_of_not_hits hback]
  exact read_foldl_congr ws (read_foldl_of_not_hits hfront)

end Many

end Cell

end QuadDsp
