import Mathlib.Data.Nat.Bitwise
import QuadDsp.Word.Decode

/-! # Fields of a packed word

Packing fields and reading them back off the word are inverse. `wordReadings` pairs the fields of a
layout with the values that a word holds in them; `wordReadings_packFields` reads packed values back and
`packFields_wordReadings` puts a word together again from what is read off it. `FormatId.clearPad` switches
the pad bits of a word off, which is packing with zeros in the pad fields (`packFields_clearPad`). -/

namespace QuadDsp

/-- The word of some fields with their values. -/
def packFields (vals : List (Field × Nat)) : Nat := pack (vals.map fun (f, v) => (v, f.width))

/-- Fields side by side, each with the value that the word holds there; `offset` bits stand in front. -/
def wordReadings (word : Nat) : Nat → List Field → List (Field × Nat)
  | _, [] => []
  | offset, f :: rest => (f, wordField word offset f.width) :: wordReadings word (offset + f.width) rest

/-- Has a one in every bit of a layout that is no pad bit. -/
def FormatId.meaningMask (f : FormatId) : Nat :=
  packFields (f.layout.map fun fd => (fd, if fd.kind = .pad then 0 else span fd.width - 1))

/-- The word with the pad bits of the format switched off. -/
def FormatId.clearPad (f : FormatId) (word : Nat) : Nat := word &&& f.meaningMask

theorem wordField_lt (word offset width : Nat) : wordField word offset width < span width :=
  Nat.mod_lt _ (span_pos width)

theorem map_fst_wordReadings (word offset : Nat) (fields : List Field) :
    (wordReadings word offset fields).map Prod.fst = fields := by
  induction fields generalizing offset with
  | nil => rfl
  | cons f rest ih => simp [wordReadings, ih]

theorem fst_mem_of_mem_wordReadings {word offset : Nat} {fields : List Field} {x : Field × Nat}
    (h : x ∈ wordReadings word offset fields) : x.1 ∈ fields := by
  rw [← map_fst_wordReadings word offset fields]
  exact List.mem_map_of_mem h

theorem lt_span_of_mem_wordReadings {word offset : Nat} {fields : List Field} {f : Field} {v : Nat}
    (h : (f, v) ∈ wordReadings word offset fields) : v < span f.width := by
  induction fields generalizing offset with
  | nil => cases h
  | cons g rest ih =>
    rcases List.mem_cons.1 h with h | h
    · cases h; exact wordField_lt ..
    · exact ih h

theorem packOnto_div (acc : Nat) (fields : List (Nat × Nat)) :
    packOnto acc fields / span (totalWidth (fields.map Prod.snd)) = acc := by
  induction fields generalizing acc with
  | nil => simp [packOnto, totalWidth, span]
  | cons f rest ih =>
    obtain ⟨v, w⟩ := f
    have hv : v % span w < span w := Nat.mod_lt _ (span_pos w)
    have hwidth : totalWidth (((v, w) :: rest).map Prod.snd) = totalWidth (rest.map Prod.snd) + w :=
      Nat.add_comm ..
    rw [packOnto, hwidth, span_add, ← Nat.div_div_eq_div_mul, ih, Nat.mul_comm,
      Nat.mul_add_div (span_pos w), Nat.div_eq_of_lt hv, Nat.add_zero]

theorem wordField_eq {word offset width below : Nat} (h : offset + width + below = wordBits) :
    wordField word offset width = word / span below % span width := by
  have hb : wordBits - offset - width = below := by omega
  rw [wordField, hb, Nat.shiftRight_eq_div_pow]
  rfl

theorem wordReadings_packOnto (acc offset : Nat) (vals : List (Field × Nat))
    (h : offset + totalWidth (vals.map (·.1.width)) = wordBits) :
    wordReadings (packOnto acc (vals.map fun (f, v) => (v, f.width))) offset (vals.map Prod.fst) =
      vals.map fun (f, v) => (f, v % span f.width) := by
  induction vals generalizing acc offset with
  | nil => rfl
  | cons x rest ih =>
    obtain ⟨f, v⟩ := x
    have hsnd : (rest.map fun (x : Field × Nat) => (x.2, x.1.width)).map Prod.snd =
        rest.map (·.1.width) := by simp
    have hlen : offset + f.width + totalWidth (rest.map (·.1.width)) = wordBits := by
      simpa [totalWidth, Nat.add_assoc] using h
    have hdiv := packOnto_div (acc * span f.width + v % span f.width)
      (rest.map fun (x : Field × Nat) => (x.2, x.1.width))
    rw [hsnd] at hdiv
    simp only [List.map_cons, packOnto, wordReadings, List.cons.injEq, Prod.mk.injEq, true_and]
    refine ⟨?_, ih _ _ hlen⟩
    rw [wordField_eq hlen, hdiv, Nat.mul_comm, Nat.mul_add_mod, Nat.mod_mod]

/-- Values read back off the word that they are packed into. -/
theorem wordReadings_packFields {vals : List (Field × Nat)}
    (h : totalWidth (vals.map (·.1.width)) = wordBits) :
    wordReadings (packFields vals) 0 (vals.map Prod.fst) = vals.map fun (f, v) => (f, v % span f.width) :=
  wordReadings_packOnto 0 0 vals (by rw [Nat.zero_add, h])

/-- Values that fit the fields of a format are what is read back. -/
theorem wordReadings_packFields_of_lt {f : FormatId} {vals : List (Field × Nat)}
    (hfst : vals.map Prod.fst = f.layout) (hlt : ∀ x ∈ vals, x.2 < span x.1.width) :
    wordReadings (packFields vals) 0 f.layout = vals := by
  have hmap : vals.map (·.1.width) = f.layout.map Field.width := by
    rw [← hfst, List.map_map]
    rfl
  have hwidth : totalWidth (vals.map (·.1.width)) = wordBits := by
    rw [hmap]
    exact f.width_layout
  rw [← hfst, wordReadings_packFields hwidth]
  calc vals.map (fun (fd, v) => (fd, v % span fd.width))
      = vals.map id := List.map_congr_left fun x hx => Prod.ext rfl (Nat.mod_eq_of_lt (hlt x hx))
    _ = vals := List.map_id vals

theorem packOnto_wordReadings (word offset : Nat) (fields : List Field)
    (h : offset + totalWidth (fields.map Field.width) = wordBits) :
    packOnto (word / span (totalWidth (fields.map Field.width)))
      ((wordReadings word offset fields).map fun (f, v) => (v, f.width)) = word := by
  induction fields generalizing offset with
  | nil => simp [wordReadings, packOnto, totalWidth, span]
  | cons f rest ih =>
    have hlen : offset + f.width + totalWidth (rest.map Field.width) = wordBits := by
      simpa [totalWidth, Nat.add_assoc] using h
    have hwidth : totalWidth ((f :: rest).map Field.width) = totalWidth (rest.map Field.width) + f.width :=
      Nat.add_comm ..
    simp only [wordReadings, List.map_cons, packOnto]
    rw [wordField_eq hlen, Nat.mod_mod, ← List.map_cons, hwidth, span_add, ← Nat.div_div_eq_div_mul,
      Nat.mul_comm, Nat.div_add_mod]
    exact ih _ hlen

/-- A word is put together again from what is read off it. -/
theorem packFields_wordReadings {word : Nat} (f : FormatId) (hw : word < span wordBits) :
    packFields (wordReadings word 0 f.layout) = word := by
  have h := packOnto_wordReadings word 0 f.layout (by rw [Nat.zero_add]; exact f.width_layout)
  have hl : totalWidth (f.layout.map Field.width) = wordBits := f.width_layout
  rwa [hl, Nat.div_eq_of_lt hw] at h

theorem mul_span_add_and (a b c d w : Nat) (hb : b < span w) (hd : d < span w) :
    (a * span w + b) &&& (c * span w + d) = (a &&& c) * span w + (b &&& d) := by
  have hbd : b &&& d < 2 ^ w := Nat.lt_of_le_of_lt Nat.and_le_left hb
  apply Nat.eq_of_testBit_eq
  intro i
  simp only [span, Nat.pow_eq] at hb hd ⊢
  simp only [Nat.testBit_and, Nat.mul_comm _ (2 ^ w), Nat.testBit_two_pow_mul_add _ hb,
    Nat.testBit_two_pow_mul_add _ hd, Nat.testBit_two_pow_mul_add _ hbd]
  split <;> rfl

theorem packOnto_and (acc acc' : Nat) (vals : List (Field × Nat)) (g : Field → Nat) :
    packOnto acc (vals.map fun (f, v) => (v, f.width)) &&&
        packOnto acc' (vals.map fun (f, _) => (g f, f.width)) =
      packOnto (acc &&& acc') (vals.map fun (f, v) =>
        ((v % span f.width) &&& (g f % span f.width), f.width)) := by
  induction vals generalizing acc acc' with
  | nil => rfl
  | cons x rest ih =>
    obtain ⟨f, v⟩ := x
    have hv : v % span f.width < span f.width := Nat.mod_lt _ (span_pos _)
    have hg : g f % span f.width < span f.width := Nat.mod_lt _ (span_pos _)
    have hand : (v % span f.width) &&& (g f % span f.width) < span f.width :=
      Nat.lt_of_le_of_lt Nat.and_le_left hv
    simp only [List.map_cons, packOnto]
    rw [ih, mul_span_add_and _ _ _ _ _ hv hg, Nat.mod_eq_of_lt hand]

/-- What the fields of a layout hold, with zeros for the pad fields. -/
def zeroPad (values : List (Field × Nat)) : List (Field × Nat) :=
  values.map fun (f, v) => (f, if f.kind = .pad then 0 else v)

theorem zeroPad_cons (f : Field) (v : Nat) (rest : List (Field × Nat)) :
    zeroPad ((f, v) :: rest) = (f, if f.kind = .pad then 0 else v) :: zeroPad rest := rfl

theorem map_fst_zeroPad (values : List (Field × Nat)) : (zeroPad values).map Prod.fst = values.map Prod.fst := by
  rw [zeroPad, List.map_map]
  rfl

/-- Clearing the pad bits of a word is reading its fields and packing zeros for the pad fields. -/
theorem packFields_clearPad {word : Nat} (f : FormatId) (hw : word < span wordBits) :
    packFields (zeroPad (wordReadings word 0 f.layout)) = f.clearPad word := by
  have hmask : f.meaningMask = packOnto 0 ((wordReadings word 0 f.layout).map fun (x : Field × Nat) =>
      (if x.1.kind = .pad then 0 else span x.1.width - 1, x.1.width)) := by
    rw [FormatId.meaningMask, packFields, pack, List.map_map]
    conv_lhs => rw [← map_fst_wordReadings word 0 f.layout, List.map_map]
    rfl
  have hand := packOnto_and 0 0 (wordReadings word 0 f.layout)
    fun fd => if fd.kind = .pad then 0 else span fd.width - 1
  have hpack : word = packOnto 0 ((wordReadings word 0 f.layout).map fun (x : Field × Nat) =>
      (x.2, x.1.width)) := (packFields_wordReadings f hw).symm
  have hclear : f.clearPad word = packOnto (0 &&& 0) _ :=
    (congrArg₂ (· &&& ·) hpack hmask).trans hand
  rw [hclear, packFields, zeroPad, pack, List.map_map]
  congr 1
  refine List.map_congr_left fun x hx => ?_
  obtain ⟨fd, v⟩ := x
  have hv := lt_span_of_mem_wordReadings hx
  have hs := span_pos fd.width
  by_cases hp : fd.kind = .pad
  · simp [hp]
  · have hm : (span fd.width - 1) % span fd.width = span fd.width - 1 := Nat.mod_eq_of_lt (by omega)
    have hval : v &&& (span fd.width - 1) = v :=
      (Nat.and_two_pow_sub_one_eq_mod v fd.width).trans (Nat.mod_eq_of_lt hv)
    simp [hp, hm, Nat.mod_eq_of_lt hv, hval]

theorem wordReadings_clearPad {word : Nat} (f : FormatId) (hw : word < span wordBits) :
    wordReadings (f.clearPad word) 0 f.layout = zeroPad (wordReadings word 0 f.layout) := by
  rw [← packFields_clearPad f hw]
  refine wordReadings_packFields_of_lt ?_ fun x hx => ?_
  · rw [map_fst_zeroPad, map_fst_wordReadings]
  · obtain ⟨⟨fd, v⟩, hv, rfl⟩ := List.mem_map.1 hx
    have hlt := lt_span_of_mem_wordReadings hv
    have hpos := span_pos fd.width
    dsimp only
    split
    · exact hpos
    · exact hlt

end QuadDsp
