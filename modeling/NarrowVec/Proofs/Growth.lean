import NarrowVec.Dense.Edit
import NarrowVec.Proofs.Elements

/-!
# Building, growing and shrinking dense storage

Each operation at the end of a store as a fact about its elements.  An operation that asks for a
size whose bits can be counted succeeds, and `Becomes` says with what; any other size is an
overflow.
-/

set_option autoImplicit false

namespace NarrowVec

namespace Words

variable {words : Words} {w : Width} {s n : Nat}

theorem fields_of_bits_zero (h : ∀ p, words.bit p = false) :
    words.fields w s n = List.replicate n 0 := by
  refine List.eq_replicate_iff.mpr ⟨length_fields, ?_⟩
  intro value hv
  simp only [fields] at hv
  obtain ⟨i, _, rfl⟩ := List.mem_map.mp hv
  apply BitVec.eq_of_getLsbD_eq
  intro j _
  rw [getLsbD_slice, h, Bool.and_false]
  simp

end Words

namespace Dense

variable {w : Width} {d d' : Dense w} {i n : Nat} {value : Word} {values : List Word} {feed : Feed}

/-! ## New stores -/

theorem zeros_spec (hn : w.Countable n) :
    ∃ d' : Dense w, zeros n = .ok d' ∧ empty.Becomes d' (List.replicate n 0) := by
  have hwords : Array.replicate (w.wordsFor n) 0 = Words.resize #[] (w.wordsFor n) := by
    simp [Words.resize]
  have hbits : ∀ p, (Words.resize #[] (w.wordsFor n)).bit p = false := by
    intro p
    rw [Words.bit_resize, Words.bit_eq_false_of_le (Nat.zero_le _), Bool.and_false]
  have hbecomes := Becomes.of_resize (empty : Dense w) (w.wordsFor n) hn
  rw [toList_empty, List.take_nil, List.nil_append] at hbecomes
  refine ⟨_, bind_of_ok (Width.wordCount_of_countable hn), ?_⟩
  rw [hwords, ← Words.fields_of_bits_zero (w := w) (s := 0) hbits]
  have hzero : (empty : Dense w).size * w.bits = 0 := Nat.zero_mul w.bits
  rw [hzero] at hbecomes
  exact hbecomes

theorem zeros_overflow (hn : ¬w.Countable n) : (zeros n : Except Fault (Dense w)) =
    .error .overflow :=
  bind_of_error (Width.wordCount_of_not_countable hn)

theorem storeFrom_spec (h : d.WellFormed) (values : List Word) (hfit : i + values.length ≤ d.size) :
    ∃ d', d.storeFrom i values = .ok d' ∧
      d.Becomes d' (d.toList.take i ++ values.map w.truncate ++
        d.toList.drop (i + values.length)) := by
  have hi : i ≤ d.size := Nat.le_trans (Nat.le_add_right i _) hfit
  have hend : (i + values.length) * w.bits ≤ 64 * d.words.size :=
    Nat.le_trans (Nat.mul_le_mul_right w.bits hfit) h.size_mul_le
  obtain ⟨words, hstore, ho⟩ := Words.storeAll_cellAt values d.words i h.words_small hend
  refine ⟨{ d with words }, ?_, Becomes.of_overwrites h hfit ho⟩
  rw [storeFrom, bind_of_ok (h.address hi)]
  exact bind_of_ok hstore

theorem ofList_spec (hn : w.Countable values.length) :
    ∃ d' : Dense w, ofList values = .ok d' ∧ empty.Becomes d' (values.map w.truncate) := by
  obtain ⟨new, hzeros, hnew⟩ := zeros_spec hn
  have hsize : new.size = values.length := by rw [hnew.size, List.length_replicate]
  obtain ⟨d', hstore, hd'⟩ := storeFrom_spec (i := 0) hnew.wellFormed values (by omega)
  refine ⟨d', ?_, ?_⟩
  · rw [ofList, bind_of_ok hzeros, hstore]
  · rw [List.take_zero, List.nil_append, Nat.zero_add, List.drop_of_length_le (by simp [hsize]),
      List.append_nil] at hd'
    have hsame : d'.size = new.size := by rw [hd'.size, List.length_map, hsize]
    exact hnew.trans hd' (by omega) (.inl (by omega))

theorem ofList_overflow (hn : ¬w.Countable values.length) :
    (ofList values : Except Fault (Dense w)) = .error .overflow :=
  bind_of_error (zeros_overflow hn)

theorem replicate_eq_ofList : (replicate n value : Except Fault (Dense w)) =
    ofList (List.replicate n value) := by
  simp only [replicate, ofList, fill]
  rw [List.length_replicate, Nat.sub_zero]

theorem replicate_spec (hn : w.Countable n) (value : Word) :
    ∃ d' : Dense w, replicate n value = .ok d' ∧
      empty.Becomes d' (List.replicate n (w.truncate value)) := by
  rw [← List.length_replicate (n := n) (a := value)] at hn
  rw [replicate_eq_ofList, ← List.map_replicate]
  exact ofList_spec hn

theorem replicate_overflow (hn : ¬w.Countable n) (value : Word) :
    (replicate n value : Except Fault (Dense w)) = .error .overflow :=
  bind_of_error (zeros_overflow hn)

/-! ## One element at the end -/

theorem push_spec (h : d.WellFormed) (hn : w.Countable (d.size + 1)) (value : Word) :
    ∃ d', d.push value = .ok d' ∧ d.Becomes d' (d.toList ++ [w.truncate value]) := by
  have hwords : d.words.padTo (w.wordsFor (d.size + 1)) =
      d.words.resize (w.wordsFor (d.size + 1)) := by
    rw [Words.padTo_eq_resize, h.words_size]
    rw [Nat.max_eq_left (Width.wordsFor_mono (Nat.le_succ d.size))]
  have hgrown := Becomes.of_resize d (max d.room (w.wordsFor (d.size + 1))) hn
  obtain ⟨words, hstore, hset⟩ :=
    store_cellAt (i := d.size) hgrown.wellFormed (Nat.lt_succ_self d.size) value
  rw [hgrown.toList, List.take_of_length_le (by simp), Nat.add_sub_cancel_left,
    List.set_append_right _ _ (by simp), length_toList, Nat.sub_self, Words.fields_succ,
    Words.fields_zero, List.set_cons_zero] at hset
  refine ⟨_, ?_, hgrown.trans hset (Nat.le_refl _) (.inl (Nat.le_refl _))⟩
  rw [push, bind_of_ok (Size.add_of_lt hn.lt), bind_of_ok (Width.wordCount_of_countable hn)]
  simp only [hwords, withWords, Words.size_resize, set, cell, Dense.address, Cells.store]
  rw [bind_of_ok (Size.sub_of_le (Nat.le_add_left 1 d.size)), Nat.add_sub_cancel,
    bind_of_ok (ensure_of (Nat.lt_succ_self d.size)),
    bind_of_ok (Width.address_of_countable h.countable)]
  exact bind_of_ok hstore

theorem push_overflow (hn : ¬w.Countable (d.size + 1)) (value : Word) :
    d.push value = .error .overflow := by
  simp only [push]
  rcases Width.add_or_wordCount_overflow hn with hadd | ⟨hadd, hcount⟩
  · exact bind_of_error hadd
  · rw [bind_of_ok hadd]
    exact bind_of_error hcount

theorem get?_spec (h : d.WellFormed) (i : Nat) : d.get? i = .ok d.toList[i]? := by
  simp only [get?]
  by_cases hi : i < d.size
  · rw [if_pos hi, getElem?_toList hi, bind_of_ok (h.address (Nat.le_of_lt hi)),
      bind_of_ok (load_cellAt h (getElem?_toList hi))]
    rfl
  · rw [if_neg hi, List.getElem?_eq_none (by rw [length_toList]; omega)]
    rfl

theorem last_spec (h : d.WellFormed) : d.last = .ok d.toList.getLast? := by
  simp only [last]
  rw [List.getLast?_eq_getElem?, length_toList]
  split
  · rename_i hzero
    rw [hzero, List.getElem?_eq_none (by rw [length_toList]; omega)]
    rfl
  · rename_i k hk
    rw [hk]
    exact get?_spec h k

theorem pop_spec (h : d.WellFormed) :
    ∃ d', d.pop = .ok (d.toList.getLast?, d') ∧ d.Becomes d' d.toList.dropLast := by
  simp only [pop]
  rw [bind_of_ok (last_spec h)]
  cases hlast : d.toList.getLast? with
  | none =>
      rw [List.getLast?_eq_none_iff] at hlast
      refine ⟨d, rfl, ?_⟩
      have hkeep := Becomes.refl h
      rw [hlast] at hkeep ⊢
      exact hkeep
  | some value =>
      have hone : 1 ≤ d.size := by
        rw [← length_toList d]
        exact List.length_pos_of_mem (List.mem_of_getLast? hlast)
      have hn : w.Countable (d.size - 1) := h.countable.mono (Nat.sub_le _ _)
      have hle : w.wordsFor (d.size - 1) ≤ d.words.size := by
        rw [h.words_size]
        exact Width.wordsFor_mono (Nat.sub_le _ _)
      have hbecomes := Becomes.of_resize d d.room hn
      have hnone : d.size - 1 - d.size = 0 := by omega
      rw [hnone, Words.fields_zero, List.append_nil] at hbecomes
      refine ⟨⟨d.words.resize (w.wordsFor (d.size - 1)), d.size - 1, d.room⟩, ?_, ?_⟩
      · simp only
        rw [bind_of_ok (Size.sub_of_le hone), bind_of_ok (Width.wordCount_of_countable hn),
          Words.take_eq_resize hle]
        rfl
      · rw [List.dropLast_eq_take, length_toList]
        exact hbecomes

/-! ## Other sizes -/

theorem setSize_eq (hn : w.Countable n) : d.setSize n =
    .ok ⟨d.words.resize (w.wordsFor n), n, max d.room (w.wordsFor n)⟩ := by
  simp only [setSize]
  rw [bind_of_ok (Width.wordCount_of_countable hn)]
  simp only [withWords, Words.size_resize]
  rfl

theorem setSize_spec (hn : w.Countable n) : ∃ d' rest, d.setSize n = .ok d' ∧
    rest.length = n - d.size ∧ d.Becomes d' (d.toList.take n ++ rest) :=
  ⟨_, _, setSize_eq hn, Words.length_fields, Becomes.of_resize d _ hn⟩

theorem setSize_overflow (hn : ¬w.Countable n) : d.setSize n = .error .overflow :=
  bind_of_error (Width.wordCount_of_not_countable hn)

theorem resize_spec (hn : w.Countable n) (value : Word) :
    ∃ d', d.resize n value = .ok d' ∧
      d.Becomes d' (d.toList.take n ++ List.replicate (n - d.size) (w.truncate value)) := by
  obtain ⟨grown, rest, hset, hrest, hgrown⟩ := setSize_spec (d := d) hn
  have hsize : grown.size = n := by
    rw [hgrown.size, List.length_append, List.length_take, length_toList, hrest]
    omega
  simp only [resize]
  rw [bind_of_ok hset]
  by_cases hlt : d.size < n
  · obtain ⟨d', hstore, hd'⟩ := storeFrom_spec (i := d.size) hgrown.wellFormed
      (List.replicate (n - d.size) value) (by rw [List.length_replicate]; omega)
    have htake : d.toList.take n = d.toList :=
      List.take_of_length_le (by rw [length_toList]; omega)
    rw [hgrown.toList, htake, List.take_left' (length_toList d), List.map_replicate,
      List.length_replicate, List.drop_of_length_le (by simp [hrest]), List.append_nil]
      at hd'
    refine ⟨d', by rw [if_pos hlt, fill, hstore], ?_⟩
    rw [htake]
    have hsame : d'.size = n := by
      rw [hd'.size, List.length_append, List.length_replicate, length_toList]
      omega
    exact hgrown.trans hd' (by omega) (.inl (by omega))
  · refine ⟨grown, by rw [if_neg hlt]; rfl, ?_⟩
    have hzero : n - d.size = 0 := by omega
    rw [hzero] at hrest ⊢
    rw [List.eq_nil_of_length_eq_zero hrest] at hgrown
    exact hgrown

theorem resize_overflow (hn : ¬w.Countable n) (value : Word) :
    d.resize n value = .error .overflow :=
  bind_of_error (setSize_overflow hn)

theorem truncate_spec (h : d.WellFormed) (n : Nat) :
    ∃ d', d.truncate n = .ok d' ∧ d.Becomes d' (d.toList.take n) := by
  simp only [truncate]
  by_cases hlt : n < d.size
  · have hn : w.Countable n := h.countable.mono (Nat.le_of_lt hlt)
    have hbecomes := Becomes.of_resize d (max d.room (w.wordsFor n)) hn
    have hnone : n - d.size = 0 := by omega
    rw [hnone, Words.fields_zero, List.append_nil] at hbecomes
    exact ⟨_, by rw [if_pos hlt, setSize_eq hn], hbecomes⟩
  · refine ⟨d, by rw [if_neg hlt]; rfl, ?_⟩
    rw [List.take_of_length_le (by rw [length_toList]; omega)]
    exact Becomes.refl h

theorem clear_spec (d : Dense w) : empty.Becomes d.clear [] where
  wellFormed := wellFormed_empty
  toList := rfl
  padding _ _ _ := rfl

/-! ## Many elements at the end -/

theorem reserve_spec (h : d.WellFormed) (hn : w.Countable (d.size + n)) :
    ∃ d', (d.reserve n).result = .ok d' ∧ d'.words = d.words ∧ d.Becomes d' d.toList := by
  simp only [reserve]
  rw [Traced.result_lift_of_ok (Size.add_of_lt hn.lt),
    Traced.result_lift_of_ok (Width.wordCount_of_countable hn)]
  split
  · rename_i hmissing
    rw [Traced.result_lift_of_ok (Size.sub_of_le (Nat.le_of_lt hmissing))]
    exact ⟨_, rfl, rfl, h, rfl, fun _ _ _ => rfl⟩
  · exact ⟨d, rfl, rfl, Becomes.refl h⟩

theorem reserve_overflow (hn : ¬w.Countable (d.size + n)) :
    (d.reserve n).result = .error .overflow := by
  simp only [reserve]
  rcases Width.add_or_wordCount_overflow hn with hadd | ⟨hadd, hcount⟩
  · exact Traced.result_lift_of_error hadd
  · rw [Traced.result_lift_of_ok hadd]
    exact Traced.result_lift_of_error hcount

theorem pushEach_spec (values : List Word) :
    ∀ {d : Dense w}, d.WellFormed → w.Countable (d.size + values.length) →
      ∃ d', Storage.pushEach d values = .ok d' ∧
        d.Becomes d' (d.toList ++ values.map w.truncate) := by
  induction values with
  | nil =>
      intro d h _
      refine ⟨d, rfl, ?_⟩
      rw [List.map_nil, List.append_nil]
      exact Becomes.refl h
  | cons value rest ih =>
      intro d h hn
      rw [List.length_cons] at hn
      obtain ⟨mid, hpush, hmid⟩ := push_spec h (hn.mono (by omega)) value
      have hsize : mid.size = d.size + 1 := by
        rw [hmid.size, List.length_append, length_toList, List.length_singleton]
      obtain ⟨d', hrest, hd'⟩ := ih hmid.wellFormed (hn.mono (by omega))
      rw [hmid.toList, List.append_assoc, List.singleton_append, ← List.map_cons] at hd'
      refine ⟨d', ?_, ?_⟩
      · rw [Storage.pushEach]
        exact (bind_of_ok hpush).trans hrest
      · have hgrow : d'.size = d.size + (rest.length + 1) := by
          rw [hd'.size, List.length_append, length_toList, List.length_map, List.length_cons]
        exact hmid.trans hd' (by omega) (.inr ⟨h, by omega⟩)

theorem pushEach_overflow (values : List Word) :
    ∀ {d : Dense w}, d.WellFormed → ¬w.Countable (d.size + values.length) →
      Storage.pushEach d values = .error .overflow := by
  induction values with
  | nil =>
      intro d h hn
      exact absurd h.countable hn
  | cons value rest ih =>
      intro d h hn
      rw [Storage.pushEach]
      by_cases hone : w.Countable (d.size + 1)
      · obtain ⟨mid, hpush, hmid⟩ := push_spec h hone value
        have hsize : mid.size = d.size + 1 := by
          rw [hmid.size, List.length_append, length_toList, List.length_singleton]
        refine (bind_of_ok hpush).trans (ih hmid.wellFormed ?_)
        rw [hsize, Nat.add_right_comm]
        exact hn
      · exact bind_of_error (push_overflow hone value)

theorem extend_spec (h : d.WellFormed) (hn : w.Countable (d.size + feed.values.length)) :
    ∃ d', (Storage.extend d feed).result = .ok d' ∧
      d.Becomes d' (d.toList ++ feed.values.map w.truncate) := by
  have hannounced := hn.mono (Nat.add_le_add_left feed.announced_le d.size)
  obtain ⟨roomy, hreserve, _, hroomy⟩ := reserve_spec h hannounced
  have hsize : roomy.size = d.size := by rw [hroomy.size, length_toList]
  obtain ⟨d', hpush, hd'⟩ := pushEach_spec feed.values hroomy.wellFormed (by rw [hsize]; exact hn)
  rw [hroomy.toList] at hd'
  refine ⟨d', ?_, ?_⟩
  · rw [Storage.extend]
    exact (Traced.result_bind_of_ok hreserve).trans hpush
  · have hgrow : d'.size = d.size + feed.values.length := by
      rw [hd'.size, List.length_append, length_toList, List.length_map]
    exact hroomy.trans hd' (by omega) (.inr ⟨h, by omega⟩)

theorem extend_overflow (h : d.WellFormed) (hn : ¬w.Countable (d.size + feed.values.length)) :
    (Storage.extend d feed).result = .error .overflow := by
  rw [Storage.extend]
  by_cases hannounced : w.Countable (d.size + feed.announced)
  · obtain ⟨roomy, hreserve, _, hroomy⟩ := reserve_spec h hannounced
    have hsize : roomy.size = d.size := by rw [hroomy.size, length_toList]
    rw [← hsize] at hn
    exact (Traced.result_bind_of_ok hreserve).trans
      (pushEach_overflow feed.values hroomy.wellFormed hn)
  · exact Traced.result_bind_of_error (reserve_overflow hannounced)

/-! ## From nothing -/

/-- A cleared store has no words that could leave bits behind. -/
theorem Becomes.of_clear (h : d.clear.Becomes d' values) : empty.Becomes d' values :=
  (clear_spec d).trans h (Nat.zero_le _) (.inr ⟨wellFormed_empty, Nat.le_refl _⟩)

theorem assign_spec (d : Dense w) (hn : w.Countable feed.values.length) :
    ∃ d', (Storage.assign d feed).result = .ok d' ∧
      empty.Becomes d' (feed.values.map w.truncate) := by
  obtain ⟨d', hextend, hd'⟩ := extend_spec (d := d.clear) wellFormed_empty
    (by simpa [clear] using hn)
  exact ⟨d', hextend, hd'.of_clear⟩

theorem assign_overflow (d : Dense w) (hn : ¬w.Countable feed.values.length) :
    (Storage.assign d feed).result = .error .overflow :=
  extend_overflow (d := d.clear) wellFormed_empty (by simpa [clear] using hn)

theorem assignCopies_spec (d : Dense w) (hn : w.Countable n) (value : Word) :
    ∃ d', Storage.assignCopies d n value = .ok d' ∧
      empty.Becomes d' (List.replicate n (w.truncate value)) := by
  obtain ⟨d', hresize, hd'⟩ := resize_spec (d := d.clear) hn value
  exact ⟨d', hresize, by simpa [clear, toList] using hd'.of_clear⟩

theorem assignCopies_overflow (d : Dense w) (hn : ¬w.Countable n) (value : Word) :
    Storage.assignCopies d n value = .error .overflow :=
  resize_overflow (d := d.clear) hn value

end Dense

end NarrowVec
