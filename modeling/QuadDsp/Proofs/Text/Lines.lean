import QuadDsp.Proofs.Text.Pieces

/-! # Lines that are put out

A text is put out line by line, each with a line feed behind it. As long as no line holds a character that ends one
(`Unbroken`), the lines are found again (`lines_ended`). -/

namespace QuadDsp.Text

/-- No character of the text ends a line. -/
def Unbroken (s : String) : Prop := ∀ c ∈ s.toList, c ≠ '\n' ∧ c ≠ '\r'

instance : DecidablePred Unbroken := fun s => inferInstanceAs (Decidable (∀ c ∈ s.toList, c ≠ '\n' ∧ c ≠ '\r'))

variable {s t : String}

theorem Unbroken.append (hs : Unbroken s) (ht : Unbroken t) : Unbroken (s ++ t) := by
  intro c hc
  rw [String.toList_append, List.mem_append] at hc
  exact hc.elim (hs c) (ht c)

theorem unbroken_ofList {cs : List Char} (h : ∀ c ∈ cs, c ≠ '\n' ∧ c ≠ '\r') : Unbroken (String.ofList cs) := by
  unfold Unbroken
  rwa [String.toList_ofList]

theorem unbroken_replicate (n : Nat) {c : Char} (h : c ≠ '\n' ∧ c ≠ '\r') :
    Unbroken (String.ofList (List.replicate n c)) :=
  unbroken_ofList fun d hd => by rwa [List.eq_of_mem_replicate hd]

theorem Unbroken.padLeft (hs : Unbroken s) (width : Nat) : Unbroken (padLeft width s) :=
  (unbroken_replicate _ (by decide)).append hs

theorem Unbroken.padRight (hs : Unbroken s) (width : Nat) : Unbroken (padRight width s) :=
  hs.append (unbroken_replicate _ (by decide))

theorem unbroken_stringJoin {ss : List String} (h : ∀ s ∈ ss, Unbroken s) : Unbroken (String.join ss) := by
  intro c hc
  rw [String.toList_join, List.mem_flatMap] at hc
  obtain ⟨s, hs, hc⟩ := hc
  exact h s hs c hc

theorem unbroken_join (hs : Unbroken s) {ss : List String} (h : ∀ t ∈ ss, Unbroken t) : Unbroken (join s ss) := by
  induction ss with
  | nil => exact fun c hc => absurd hc List.not_mem_nil
  | cons t rest ih =>
    obtain ⟨ht, hrest⟩ := List.forall_mem_cons.1 h
    cases rest with
    | nil => exact ht
    | cons u rest => exact (ht.append hs).append (ih hrest)

theorem unbroken_decimal (n : Nat) : Unbroken (decimal n) :=
  unbroken_ofList (forall_digits (by decide) (by decide) (by decide) n)

theorem unbroken_decimalInt (v : Int) : Unbroken (decimalInt v) := forall_decimalInt (by decide) (by decide) v

theorem unbroken_hexUpper (width n : Nat) : Unbroken (hexUpper width n) := forall_hexUpper (by decide) width n

theorem cut_ended {ss : List String} (h : ∀ s ∈ ss, Unbroken s) :
    cut (· == '\n') (String.join (ss.map fun s => s ++ "\n")).toList = ss.map String.toList ++ [[]] := by
  rw [String.toList_join]
  induction ss with
  | nil => rfl
  | cons s rest ih =>
    obtain ⟨hs, hrest⟩ := List.forall_mem_cons.1 h
    have hcons : (s ++ "\n").toList ++ (rest.map fun s => s ++ "\n").flatMap String.toList =
        s.toList ++ '\n' :: (rest.map fun s => s ++ "\n").flatMap String.toList := by
      rw [String.toList_append, List.append_assoc]
      rfl
    rw [List.map_cons, List.flatMap_cons, hcons, cut_append (fun c hc => beq_false_of_ne (hs c hc).1) rfl, ih hrest]
    rfl

/-- Lines that are put out one by one are found again. -/
theorem lines_ended {ss : List String} (h : ∀ s ∈ ss, Unbroken s) :
    lines (String.join (ss.map fun s => s ++ "\n")).toList = ss.map String.toList := by
  have hreturn : ∀ l ∈ ss.map String.toList, (if l.getLast? == some '\r' then l.dropLast else l) = l := by
    intro l hl
    obtain ⟨s, hs, rfl⟩ := List.mem_map.1 hl
    refine if_neg fun hlast => ?_
    exact (h s hs '\r' (List.mem_of_getLast? (eq_of_beq hlast))).2 rfl
  rw [lines, cut_ended h, List.dropLast_concat, List.getLast?_concat, List.map_congr_left hreturn, List.map_id']
  exact List.append_nil _

end QuadDsp.Text
