import NarrowVec.Proofs.Comparisons
import NarrowVec.Proofs.Moves
import NarrowVec.Proofs.Padding

/-!
# Edits in single steps

An edit of many elements at once leaves the same words, padding included, as the edits of one
element each that it stands for.  `Becomes` carries this: two stores that one store becomes with the
same elements have the same words, so it is enough that the single steps end with the elements of
the edit at once.  Erasing is the exception, since every single removal leaves other old bits behind
the last element.
-/

set_option autoImplicit false

namespace NarrowVec

/-! ## Single steps -/

namespace Storage

variable {σ : Type} [Storage σ]

def popTimes (s : σ) : Nat → Except Fault σ
  | 0 => return s
  | count + 1 => do
    let (_, s) ← pop s
    popTimes s count

def removeTimes (s : σ) (i : Nat) : Nat → Except Fault σ
  | 0 => return s
  | count + 1 => do
    let (_, s) ← remove s i
    removeTimes s i count

end Storage

namespace Container

variable {σ : Type} [Container σ]

/-- Inserts the values one by one, each of them behind the one before. -/
def insertEach (s : σ) (i : Nat) : List Word → Traced σ
  | [] => return s
  | value :: rest => do
    let s ← insert s i value
    insertEach s (i + 1) rest

def insertTimes (s : σ) (i : Nat) (value : Word) : Nat → Traced σ
  | 0 => return s
  | count + 1 => do
    let s ← insert s i value
    insertTimes s i value count

end Container

namespace Dense

variable {w : Width} {d d' d'' mid : Dense w} {i j m n : Nat} {value : Word} {values : List Word}

/-! ## Stores that hold the same -/

theorem Becomes.words_eq (h : d.Becomes d' values) (h' : d.Becomes d'' values) :
    d'.words = d''.words := by
  have hsize : d'.size = d''.size := h.size.trans h'.size.symm
  have hwords : d'.words.size = d''.words.size := by rw [h.words_size, h'.words_size]
  have hlive := (toList_eq_iff hsize).mp (h.toList.trans h'.toList.symm)
  apply Words.eq_of_bit_eq hwords
  intro p hp
  rcases Nat.lt_or_ge p (d'.size * w.bits) with hlt | hge
  · exact hlive p hlt
  · rw [h.padding p hge hp, h'.padding p (hsize ▸ hge) (hwords ▸ hp)]

def SameWords (x y : Except Fault (Dense w)) : Prop :=
  ∃ d d', x = .ok d ∧ y = .ok d' ∧ d.size = d'.size ∧ d.words = d'.words

theorem sameWords_of_becomes {x y : Except Fault (Dense w)}
    (hx : ∃ d', x = .ok d' ∧ d.Becomes d' values) (hy : ∃ d', y = .ok d' ∧ d.Becomes d' values) :
    SameWords x y := by
  obtain ⟨d', hx, hd'⟩ := hx
  obtain ⟨d'', hy, hd''⟩ := hy
  exact ⟨d', d'', hx, hy, hd'.size.trans hd''.size.symm, hd'.words_eq hd''⟩

/-! ## Growing step by step -/

theorem length_take_toList (hi : i ≤ d.size) : (d.toList.take i).length = i := by
  rw [List.length_take, length_toList, Nat.min_eq_left hi]

theorem length_inserted (hi : i ≤ d.size) (run : List Word) :
    (d.toList.take i ++ run ++ d.toList.drop i).length = d.size + run.length := by
  rw [List.length_append, List.length_append, length_take_toList hi, List.length_drop,
    length_toList]
  omega

theorem insert_spec (h : d.WellFormed) (hi : i ≤ d.size) (hn : w.Roomy (d.size + 1))
    (value : Word) : ∃ d', (Container.insert d i value).result = .ok d' ∧
      d.Becomes d' (d.toList.take i ++ [w.truncate value] ++ d.toList.drop i) :=
  insertCopies_spec h hi (hn.mono (Nat.le_succ d.size)) hn.countable value

theorem Becomes.trans_of_insert {run : List Word} (h : d.WellFormed) (hi : i ≤ d.size)
    (hmid : d.Becomes mid (d.toList.take i ++ [value] ++ d.toList.drop i))
    (hd' : mid.Becomes d' (d.toList.take i ++ run ++ d.toList.drop i)) (hrun : run ≠ []) :
    d.Becomes d' (d.toList.take i ++ run ++ d.toList.drop i) := by
  have hpos : 1 ≤ run.length := List.length_pos_iff.mpr hrun
  have hsize : mid.size = d.size + 1 := hmid.size.trans (length_inserted hi _)
  have hsize' : d'.size = d.size + run.length := hd'.size.trans (length_inserted hi _)
  exact hmid.trans hd' (by omega) (.inr ⟨h, by omega⟩)

theorem insertEach_spec (values : List Word) :
    ∀ {d : Dense w} {i : Nat}, d.WellFormed → i ≤ d.size → w.Roomy (d.size + values.length) →
      ∃ d', (Container.insertEach d i values).result = .ok d' ∧
        d.Becomes d' (d.toList.take i ++ values.map w.truncate ++ d.toList.drop i) := by
  induction values with
  | nil =>
      intro d i h _ _
      refine ⟨d, rfl, ?_⟩
      rw [List.map_nil, List.append_nil, List.take_append_drop]
      exact Becomes.refl h
  | cons value rest ih =>
      intro d i h hi hn
      rw [List.length_cons] at hn
      obtain ⟨mid, hinsert, hmid⟩ := insert_spec h hi (hn.mono (by omega)) value
      have hsize : mid.size = d.size + 1 := hmid.size.trans (length_inserted hi _)
      obtain ⟨d', hrest, hd'⟩ := ih (d := mid) (i := i + 1) hmid.wellFormed (by omega)
        (by rw [hsize]; exact hn.mono (by omega))
      -- The rest goes behind this value, which joins the elements before.
      have hlength : (d.toList.take i ++ [w.truncate value]).length = i + 1 := by
        rw [List.length_append, length_take_toList hi, List.length_singleton]
      rw [hmid.toList, List.take_left' hlength, List.drop_left' hlength,
        List.append_assoc (d.toList.take i), List.singleton_append, ← List.map_cons] at hd'
      refine ⟨d', ?_, hmid.trans_of_insert h hi hd' (List.cons_ne_nil _ _)⟩
      rw [Container.insertEach]
      exact (Traced.result_bind_of_ok hinsert).trans hrest

theorem insertTimes_spec (value : Word) (n : Nat) :
    ∀ {d : Dense w}, d.WellFormed → i ≤ d.size → w.Roomy (d.size + n) →
      ∃ d', (Container.insertTimes d i value n).result = .ok d' ∧
        d.Becomes d'
          (d.toList.take i ++ List.replicate n (w.truncate value) ++ d.toList.drop i) := by
  induction n with
  | zero =>
      intro d h _ _
      refine ⟨d, rfl, ?_⟩
      rw [List.replicate_zero, List.append_nil, List.take_append_drop]
      exact Becomes.refl h
  | succ n ih =>
      intro d h hi hn
      obtain ⟨mid, hinsert, hmid⟩ := insert_spec h hi (hn.mono (by omega)) value
      have hsize : mid.size = d.size + 1 := hmid.size.trans (length_inserted hi _)
      obtain ⟨d', hrest, hd'⟩ := ih (d := mid) hmid.wellFormed (by omega)
        (by rw [hsize]; exact hn.mono (by omega))
      -- The other copies go before this one, which joins the elements behind.
      have htake := length_take_toList hi
      rw [hmid.toList, List.append_assoc (d.toList.take i), List.take_left' htake,
        List.drop_left' htake, ← List.append_assoc, List.append_assoc (d.toList.take i),
        ← List.replicate_succ'] at hd'
      refine ⟨d', ?_, hmid.trans_of_insert h hi hd' (List.cons_ne_nil _ _)⟩
      rw [Container.insertTimes]
      exact (Traced.result_bind_of_ok hinsert).trans hrest

/-! ## Shrinking step by step -/

theorem Becomes.bit_of_take (h : d.Becomes d' (d.toList.take n)) (hn : n ≤ d.size) {p : Nat}
    (hp : p < 64 * d'.words.size) : d'.words.bit p = d.words.bit p := by
  have hsize : d'.size = n := h.size.trans (length_take_toList hn)
  have hlist : d'.toList = (⟨d.words, n, d.room⟩ : Dense w).toList := by
    rw [h.toList, take_toList hn, toList_eq_fields ⟨d.words, n, d.room⟩]
  rcases Nat.lt_or_ge p (d'.size * w.bits) with hlt | hge
  · exact (toList_eq_iff hsize).mp hlist p hlt
  · exact h.padding p hge hp

theorem Becomes.take_take (hmid : d.Becomes mid (d.toList.take m))
    (hd' : mid.Becomes d' (mid.toList.take n)) (hnm : n ≤ m) (hm : m ≤ d.size) :
    d.Becomes d' (d.toList.take n) where
  wellFormed := hd'.wellFormed
  toList := by
    rw [hd'.toList, hmid.toList, List.take_take, Nat.min_eq_left hnm]
  padding p hp hlt := by
    have hsize : d'.size ≤ mid.size := by
      rw [hd'.size, List.length_take, length_toList]
      exact Nat.min_le_right _ _
    have hwords : d'.words.size ≤ mid.words.size := by
      rw [hd'.wellFormed.words_size, hmid.wellFormed.words_size]
      exact Width.wordsFor_mono hsize
    rw [hd'.padding p hp hlt]
    exact hmid.bit_of_take hm (by omega)

theorem popTimes_spec (n : Nat) :
    ∀ {d : Dense w}, d.WellFormed → n ≤ d.size →
      ∃ d', Storage.popTimes d n = .ok d' ∧ d.Becomes d' (d.toList.take (d.size - n)) := by
  induction n with
  | zero =>
      intro d h _
      refine ⟨d, rfl, ?_⟩
      rw [Nat.sub_zero, ← length_toList d, List.take_length]
      exact Becomes.refl h
  | succ n ih =>
      intro d h hn
      obtain ⟨mid, hpop, hmid⟩ := pop_spec h
      rw [List.dropLast_eq_take, length_toList] at hmid
      have hsize : mid.size = d.size - 1 :=
        hmid.size.trans (length_take_toList (Nat.sub_le d.size 1))
      obtain ⟨d', hrest, hd'⟩ := ih (d := mid) hmid.wellFormed (by omega)
      have hleft : mid.size - n = d.size - (n + 1) := by omega
      rw [hleft] at hd'
      refine ⟨d', ?_, hmid.take_take hd' (by omega) (Nat.sub_le _ _)⟩
      rw [Storage.popTimes]
      exact (bind_of_ok hpop).trans hrest

/-- Of single removals only the elements and the number of words are said: the bits behind the last
element need not be those that erasing leaves. -/
theorem removeTimes_spec (n : Nat) :
    ∀ {d : Dense w}, d.WellFormed → i + n ≤ d.size →
      ∃ d', Storage.removeTimes d i n = .ok d' ∧ d'.WellFormed ∧
        d'.toList = d.toList.take i ++ d.toList.drop (i + n) := by
  induction n with
  | zero =>
      intro d h _
      refine ⟨d, rfl, h, ?_⟩
      rw [Nat.add_zero, List.take_append_drop]
  | succ n ih =>
      intro d h hn
      obtain ⟨mid, hremove, hmid⟩ := remove_spec (i := i) h (by omega)
      have htake : (d.toList.take i).length = i := length_take_toList (by omega)
      rw [List.eraseIdx_eq_take_drop_succ] at hmid
      have hsize : mid.size = d.size - 1 := by
        rw [hmid.size, List.length_append, htake, List.length_drop, length_toList]
        omega
      obtain ⟨d', hrest, hwf, hd'⟩ := ih (d := mid) hmid.wellFormed (by omega)
      refine ⟨d', ?_, hwf, ?_⟩
      · rw [Storage.removeTimes]
        exact (bind_of_ok hremove).trans hrest
      · rw [hd', hmid.toList, List.take_left' htake, ← List.drop_drop, List.drop_left' htake,
          List.drop_drop]
        congr 2
        omega

theorem erase_eq_removeTimes (h : d.WellFormed) (hij : i ≤ j) (hj : j ≤ d.size)
    (hroom : w.Roomy (d.size - (j - i))) :
    ∃ d' d'', d.erase ⟨.included i, .excluded j⟩ = .ok d' ∧
      Storage.removeTimes d i (j - i) = .ok d'' ∧ d'.equal d'' = .ok true ∧
      d'.toList = d''.toList ∧ d'.words.size = d''.words.size := by
  have hlegal : Extent.refusal ⟨.included i, .excluded j⟩ d.size = none :=
    (Extent.refusal_eq_none_iff h.countable.lt).mpr ⟨hij, hj⟩
  obtain ⟨d', herase, hd'⟩ := erase_spec h hlegal
  have hlist : d'.toList = d.toList.take i ++ d.toList.drop j := hd'.toList
  obtain ⟨d'', hremove, hwf, hd''⟩ := removeTimes_spec (i := i) (j - i) h (by omega)
  rw [Nat.add_sub_of_le hij] at hd''
  have hsame : d'.toList = d''.toList := hlist.trans hd''.symm
  have hsize : d'.size = d.size - (j - i) := by
    rw [← length_toList d', hlist, List.length_append, List.length_take, List.length_drop,
      length_toList]
    omega
  have hsize' : d'.size = d''.size := by
    rw [← length_toList d', hsame, length_toList]
  refine ⟨d', d'', herase, hremove, ?_, hsame, ?_⟩
  · rw [equal_spec hd'.wellFormed hwf (hsize ▸ hroom), hsame, decide_eq_true rfl]
  · rw [hd'.wellFormed.words_size, hwf.words_size, hsize']

/-! ## Edits at once and in single steps -/

/-- What the edits of many elements at once have in common with edits of one element each. -/
structure Stepwise (d : Dense w) : Prop where
  extend : ∀ feed : Feed, w.Roomy (d.size + feed.values.length) →
    SameWords (Storage.extend d feed).result (Storage.pushEach d feed.values)
  append : ∀ values, w.Roomy (d.size + values.length) →
    SameWords (Storage.append d values).result (Storage.pushEach d values)
  insertLast : ∀ values, w.Roomy (d.size + values.length) →
    SameWords (d.insertList d.size values).result (Storage.pushEach d values)
  insertList : ∀ i values, i ≤ d.size → w.Roomy (d.size + values.length) →
    SameWords (d.insertList i values).result (Container.insertEach d i values).result
  insertCopies : ∀ i n value, i ≤ d.size → w.Roomy (d.size + n) →
    SameWords (d.insertCopies i n value).result (Container.insertTimes d i value n).result
  lengthen : ∀ n value, w.Roomy (d.size + n) →
    SameWords (d.resize (d.size + n) value) (Storage.pushEach d (List.replicate n value))
  truncate : ∀ n, n ≤ d.size → SameWords (d.truncate n) (Storage.popTimes d (d.size - n))
  shorten : ∀ n value, n ≤ d.size →
    SameWords (d.resize n value) (Storage.popTimes d (d.size - n))
  /-- Here the stores are equal and have as many words, but may differ behind the last element. -/
  erase : ∀ i j, i ≤ j → j ≤ d.size → w.Roomy (d.size - (j - i)) →
    ∃ d' d'', d.erase ⟨.included i, .excluded j⟩ = .ok d' ∧
      Storage.removeTimes d i (j - i) = .ok d'' ∧ d'.equal d'' = .ok true ∧
      d'.toList = d''.toList ∧ d'.words.size = d''.words.size

theorem insertLast_spec (h : d.WellFormed) (hn : w.Roomy (d.size + values.length)) :
    ∃ d', (d.insertList d.size values).result = .ok d' ∧
      d.Becomes d' (d.toList ++ values.map w.truncate) := by
  obtain ⟨d', hinsert, hd'⟩ := insertList_spec h (Nat.le_refl d.size)
    (.inr ⟨hn.mono (Nat.le_add_right _ _), hn.countable⟩)
  rw [← length_toList d, List.take_length, List.drop_length, List.append_nil] at hd'
  exact ⟨d', hinsert, hd'⟩

theorem shorten_spec (h : d.WellFormed) (hn : n ≤ d.size) (value : Word) :
    ∃ d', d.resize n value = .ok d' ∧ d.Becomes d' (d.toList.take n) := by
  obtain ⟨d', hresize, hd'⟩ := resize_spec (h.countable.mono hn) value
  rw [Nat.sub_eq_zero_of_le hn, List.replicate_zero, List.append_nil] at hd'
  exact ⟨d', hresize, hd'⟩

theorem lengthen_spec (hn : w.Roomy (d.size + n)) (value : Word) :
    ∃ d', d.resize (d.size + n) value = .ok d' ∧
      d.Becomes d' (d.toList ++ (List.replicate n value).map w.truncate) := by
  obtain ⟨d', hresize, hd'⟩ := resize_spec hn.countable value
  have htake : d.toList.take (d.size + n) = d.toList :=
    List.take_of_length_le (by rw [length_toList]; omega)
  rw [htake, Nat.add_sub_cancel_left, ← List.map_replicate] at hd'
  exact ⟨d', hresize, hd'⟩

theorem popTimes_of_le (h : d.WellFormed) (hn : n ≤ d.size) :
    ∃ d', Storage.popTimes d (d.size - n) = .ok d' ∧ d.Becomes d' (d.toList.take n) := by
  obtain ⟨d', hpop, hd'⟩ := popTimes_spec (d.size - n) h (Nat.sub_le _ _)
  rw [Nat.sub_sub_self hn] at hd'
  exact ⟨d', hpop, hd'⟩

/-- Whatever the padding holds, editing many elements at once and one by one leaves the same words;
erasing and removing one by one leaves equal stores. -/
theorem bulk_edits_stepwise (h : d.WellFormed) : d.Stepwise where
  extend feed hn := sameWords_of_becomes (extend_spec h hn.countable)
    (pushEach_spec feed.values h hn.countable)
  append values hn := sameWords_of_becomes (insertLast_spec h hn)
    (pushEach_spec values h hn.countable)
  insertLast values hn := sameWords_of_becomes (insertLast_spec h hn)
    (pushEach_spec values h hn.countable)
  insertList i values hi hn := sameWords_of_becomes
    (insertList_spec h hi (.inr ⟨hn.mono (Nat.le_add_right _ _), hn.countable⟩))
    (insertEach_spec values h hi hn)
  insertCopies i n value hi hn := sameWords_of_becomes
    (insertCopies_spec h hi (hn.mono (Nat.le_add_right _ _)) hn.countable value)
    (insertTimes_spec value n h hi hn)
  lengthen n value hn := sameWords_of_becomes (lengthen_spec hn value)
    (pushEach_spec _ h (by rw [List.length_replicate]; exact hn.countable))
  truncate n hn := sameWords_of_becomes (truncate_spec h n) (popTimes_of_le h hn)
  shorten n value hn := sameWords_of_becomes (shorten_spec h hn value) (popTimes_of_le h hn)
  erase _ _ hij hj hroom := erase_eq_removeTimes h hij hj hroom

theorem bulk_edits_stepwise_of_stale :
    SameWords (stale.insertList 1 [5, 300]).result (Container.insertEach stale 1 [5, 300]).result ∧
      SameWords (stale.truncate 1) (Storage.popTimes stale 2) ∧
      ∃ d' d'', stale.erase ⟨.included 0, .excluded 2⟩ = .ok d' ∧
        Storage.removeTimes stale 0 2 = .ok d'' ∧ d'.equal d'' = .ok true ∧
        d'.toList = d''.toList ∧ d'.words.size = d''.words.size := by
  have hwf : stale.WellFormed := rfl
  have h := bulk_edits_stepwise hwf
  exact ⟨h.insertList 1 [5, 300] (by decide) (by decide), h.truncate 1 (by decide),
    h.erase 0 2 (by decide) (by decide) (by decide)⟩

/-- Single removals shift the last element down each time, so other copies of it stay behind. -/
example : let d : Dense { bits := 32 } := ⟨#[0x2_0000_0001, 3], 3, 2⟩
    (d.erase ⟨.included 0, .excluded 2⟩).map words = .ok #[0x2_0000_0003] ∧
      (Storage.removeTimes d 0 2).map words = .ok #[0x3_0000_0003] := ⟨rfl, rfl⟩

end Dense

end NarrowVec
