import NarrowVec.Proofs.CellModels
import NarrowVec.Proofs.FieldRuns

/-!
# Elements of dense storage

The elements of a store are the run of fields from bit zero on.  `Becomes` says what an operation
may do: the store it leaves is well formed, holds the given elements, and its padding is that of
the store before, where new words count as zero.
-/

set_option autoImplicit false

namespace NarrowVec

namespace Words

variable {words : Words} {w : Width} {s m n : Nat}

theorem take_fields (h : m ≤ n) : (words.fields w s n).take m = words.fields w s m := by
  obtain ⟨k, rfl⟩ := Nat.exists_eq_add_of_le h
  rw [fields_add]
  exact List.take_left' length_fields

theorem drop_fields (h : m ≤ n) :
    (words.fields w s n).drop m = words.fields w (s + m * w.bits) (n - m) := by
  obtain ⟨k, rfl⟩ := Nat.exists_eq_add_of_le h
  rw [fields_add, Nat.add_sub_cancel_left]
  exact List.drop_left' length_fields

theorem fields_resize (h : s + n * w.bits ≤ 64 * m) :
    (words.resize m).fields w s n = words.fields w s n := by
  refine fields_congr fun p _ hp => ?_
  have hlt : p < 64 * m := by omega
  rw [bit_resize, decide_eq_true hlt, Bool.true_and]

end Words

namespace Dense

variable {w : Width} {d d' d'' : Dense w} {i n : Nat} {values values' : List Word}

theorem toList_eq_fields (d : Dense w) : d.toList = d.words.fields w 0 d.size := by
  simp only [toList, Words.fields]
  simp

@[simp] theorem length_toList (d : Dense w) : d.toList.length = d.size := by
  rw [toList_eq_fields, Words.length_fields]

theorem isEmpty_toList : d.toList.isEmpty = true ↔ d.size = 0 := by
  rw [List.isEmpty_iff_length_eq_zero, length_toList]

theorem take_toList (h : n ≤ d.size) : d.toList.take n = d.words.fields w 0 n := by
  rw [toList_eq_fields, Words.take_fields h]

theorem drop_toList (h : n ≤ d.size) :
    d.toList.drop n = d.words.fields w (n * w.bits) (d.size - n) := by
  rw [toList_eq_fields, Words.drop_fields h, Nat.zero_add]

theorem getElem?_toList (h : i < d.size) :
    d.toList[i]? = some (d.words.slice (i * w.bits) w.bits) := by
  rw [toList_eq_fields, Words.getElem?_fields h, Nat.zero_add]

theorem map_truncate_toList (d : Dense w) : d.toList.map w.truncate = d.toList := by
  rw [toList_eq_fields, Words.map_truncate_fields]

theorem toList_empty : (empty : Dense w).toList = [] := rfl

theorem WellFormed.cell_le (h : d.WellFormed) (hi : i < d.size) :
    i * w.bits + w.bits ≤ 64 * d.words.size := by
  have hnext : (i + 1) * w.bits ≤ d.size * w.bits := Nat.mul_le_mul_right w.bits hi
  rw [Nat.succ_mul] at hnext
  exact Nat.le_trans hnext h.size_mul_le

theorem address_of_countable (d : Dense w) (h : w.Countable i) : d.address i = .ok (w.cellAt i) :=
  Width.address_of_countable h

theorem load_cellAt {value : Word} (h : d.WellFormed) (hv : d.toList[i]? = some value) :
    d.words.load (w.cellAt i) = .ok value := by
  have hi : i < d.size := by
    obtain ⟨hi, _⟩ := List.getElem?_eq_some_iff.mp hv
    rwa [length_toList] at hi
  rw [getElem?_toList hi] at hv
  simp only [Width.cellAt]
  rw [Words.load_ofBit d.words h.words_size_lt (h.cell_le hi), Option.some.inj hv]

/-! ## What an operation leaves behind -/

/-- `d'` holds the values, and its padding is what `d` had there. -/
structure Becomes (d d' : Dense w) (values : List Word) : Prop where
  wellFormed : d'.WellFormed
  toList : d'.toList = values
  padding : ∀ p, d'.size * w.bits ≤ p → p < 64 * d'.words.size → d'.words.bit p = d.words.bit p

namespace Becomes

theorem size (h : d.Becomes d' values) : d'.size = values.length := by
  rw [← h.toList, length_toList]

theorem words_size (h : d.Becomes d' values) : d'.words.size = w.wordsFor values.length := by
  rw [h.wellFormed.words_size, h.size]

theorem refl (h : d.WellFormed) : d.Becomes d d.toList := ⟨h, rfl, fun _ _ _ => rfl⟩

/-- Padding survives two steps unless the first drops words that the second brings back. -/
theorem trans (h : d.Becomes d' values) (h' : d'.Becomes d'' values') (hle : d'.size ≤ d''.size)
    (hkeep : d''.size ≤ d'.size ∨ d.WellFormed ∧ d.size ≤ d'.size) : d.Becomes d'' values' where
  wellFormed := h'.wellFormed
  toList := h'.toList
  padding p hp hlt := by
    have hmul : d'.size * w.bits ≤ d''.size * w.bits := Nat.mul_le_mul_right w.bits hle
    rw [h'.padding p hp hlt]
    by_cases hp' : p < 64 * d'.words.size
    · exact h.padding p (by omega) hp'
    · rcases hkeep with hback | ⟨hd, hgrow⟩
      · have hsame : d''.size = d'.size := Nat.le_antisymm hback hle
        rw [h'.wellFormed.words_size, hsame, ← h.wellFormed.words_size] at hlt
        exact absurd hlt hp'
      · have hwords : d.words.size ≤ d'.words.size := by
          rw [hd.words_size, h.wellFormed.words_size]
          exact Width.wordsFor_mono hgrow
        rw [Words.bit_eq_false_of_le (by omega), Words.bit_eq_false_of_le (by omega)]

theorem of_overwrites {words : Words} (h : d.WellFormed) (hfit : i + values.length ≤ d.size)
    (ho : Words.Overwrites d.words words w (i * w.bits) values) :
    d.Becomes { d with words } (d.toList.take i ++ values.map w.truncate ++
      d.toList.drop (i + values.length)) where
  wellFormed := by
    refine wellFormed_iff.mpr ⟨h.countable, ?_⟩
    rw [ho.size]
    exact h.words_size
  toList := by
    obtain ⟨k, hk⟩ := Nat.exists_eq_add_of_le hfit
    have hsplit : i * w.bits + values.length * w.bits = (i + values.length) * w.bits := by
      rw [Nat.add_mul]
    rw [take_toList (by omega), drop_toList hfit, ← ho.fields, hk, Nat.add_sub_cancel_left]
    rw [toList_eq_fields]
    simp only
    rw [Words.fields_add, Words.fields_add, Nat.zero_add, Nat.zero_add]
    rw [ho.fields_apart (t := 0) (by omega), ho.fields_apart (t := (i + values.length) * w.bits)
      (by omega)]
  padding p hp _ := by
    have hend : (i + values.length) * w.bits ≤ d.size * w.bits := Nat.mul_le_mul_right w.bits hfit
    rw [Nat.add_mul] at hend
    simp only at hp
    exact ho.frame p (by omega)

theorem of_resize (d : Dense w) (room : Nat) (hn : w.Countable n) :
    d.Becomes ⟨d.words.resize (w.wordsFor n), n, room⟩
      (d.toList.take n ++ (d.words.resize (w.wordsFor n)).fields w (d.size * w.bits) (n - d.size))
    where
  wellFormed := wellFormed_iff.mpr ⟨hn, Words.size_resize _⟩
  toList := by
    have hbound := w.mul_bits_le_wordsFor n
    have hkeep : ∀ m, m ≤ n → (d.words.resize (w.wordsFor n)).fields w 0 m = d.words.fields w 0 m := by
      intro m hm
      have hmul : m * w.bits ≤ n * w.bits := Nat.mul_le_mul_right w.bits hm
      exact Words.fields_resize (by omega)
    rw [toList_eq_fields]
    simp only
    rcases Nat.le_total n d.size with hle | hle
    · rw [take_toList hle, Nat.sub_eq_zero_of_le hle, Words.fields_zero, List.append_nil]
      exact hkeep n (Nat.le_refl n)
    · obtain ⟨k, rfl⟩ := Nat.exists_eq_add_of_le hle
      rw [List.take_of_length_le (by simp), Nat.add_sub_cancel_left, Words.fields_add, Nat.zero_add,
        hkeep d.size hle, ← toList_eq_fields]
  padding p _ hlt := by
    simp only [Words.size_resize] at hlt
    rw [Words.bit_resize]
    simp [hlt]

end Becomes

/-! ## Cells of a store -/

theorem store_cellAt (h : d.WellFormed) (hi : i < d.size) (value : Word) :
    ∃ words, d.words.store (w.cellAt i) value = .ok words ∧
      d.Becomes { d with words } (d.toList.set i (w.truncate value)) := by
  obtain ⟨words, hstore, ho⟩ := Words.store_ofBit d.words value h.words_size_lt (h.cell_le hi)
  have hbecomes := Becomes.of_overwrites h (by rw [List.length_singleton]; omega) ho
  rw [List.length_singleton, List.map_singleton, List.append_assoc, List.singleton_append]
    at hbecomes
  refine ⟨words, hstore, ?_⟩
  rw [List.set_eq_take_append_cons_drop, if_pos (by rw [length_toList]; exact hi)]
  exact hbecomes

namespace Becomes

theorem truncate_mem {value : Word} (h : d.Becomes d' values) (hv : value ∈ values) :
    w.truncate value = value := by
  rw [← h.toList, ← map_truncate_toList] at hv
  obtain ⟨_, _, rfl⟩ := List.mem_map.mp hv
  exact Width.truncate_truncate _ _

theorem load {value : Word} (h : d.Becomes d' values) (hv : values[i]? = some value) :
    d'.words.load (w.cellAt i) = .ok value :=
  load_cellAt h.wellFormed (by rw [h.toList]; exact hv)

theorem store (h : d.Becomes d' values) (hi : i < values.length) (value : Word) :
    ∃ words, d'.words.store (w.cellAt i) value = .ok words ∧
      d.Becomes { d' with words } (values.set i (w.truncate value)) := by
  obtain ⟨words, hstore, hnext⟩ := store_cellAt h.wellFormed (by rw [h.size]; exact hi) value
  rw [h.toList] at hnext
  exact ⟨words, hstore, h.trans hnext (Nat.le_refl _) (.inl (Nat.le_refl _))⟩

end Becomes

theorem models_words (d : Dense w) :
    Cells.Models w w.cellAt fun (words : Words) values => d.Becomes { d with words } values where
  truncated := Becomes.truncate_mem
  load := Becomes.load
  store value h hi := h.store hi value

theorem models (d : Dense w) : Cells.Models w w.cellAt d.Becomes where
  truncated := Becomes.truncate_mem
  load := Becomes.load
  store value h hi := by
    obtain ⟨words, hstore, hnext⟩ := h.store hi value
    exact ⟨_, bind_of_ok hstore, hnext⟩

end Dense

end NarrowVec
