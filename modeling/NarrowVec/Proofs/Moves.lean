import NarrowVec.Proofs.Extents
import NarrowVec.Proofs.Growth

/-!
# Moving elements of dense storage

Inserting, erasing, removing and exchanging elements.  Each operation checks its position first and
the room it needs afterwards, and what it does is what the same operation does to the list of
elements.
-/

set_option autoImplicit false

namespace NarrowVec.Dense

variable {w : Width} {d d' : Dense w} {i j n : Nat} {value : Word} {values : List Word}

/-! ## Making room -/

/-- The bits that the padding does not cover, in words, are what the word counts differ by. -/
theorem WellFormed.ceilDiv_missing (h : d.WellFormed) (n : Nat) :
    Size.ceilDiv (n * w.bits - (d.words.size * 64 - d.size * w.bits)) 64 =
      w.wordsFor (d.size + n) - d.words.size := by
  have hle := h.size_mul_le
  have hbits : (d.size + n) * w.bits = d.size * w.bits + n * w.bits := Nat.add_mul _ _ _
  have hwords := h.words_size
  unfold Width.wordsFor Size.ceilDiv at hwords ⊢
  rw [hbits]
  omega

theorem WellFormed.missing_pos_iff (h : d.WellFormed) (n : Nat) :
    0 < w.wordsFor (d.size + n) - d.words.size ↔
      d.words.size * 64 - d.size * w.bits < n * w.bits := by
  rw [← h.ceilDiv_missing]
  unfold Size.ceilDiv
  omega

theorem grow_spec (h : d.WellFormed) (hroom : w.Roomy d.size) (hn : w.Countable (d.size + n)) :
    ∃ d', (d.grow n).result = .ok d' ∧ d'.size = d.size ∧
      d'.words = d.words.resize (w.wordsFor (d.size + n)) := by
  have hneeded : n * w.bits < Size.limit := hn.mono (Nat.le_add_left n d.size)
  have hmono : d.words.size ≤ w.wordsFor (d.size + n) := by
    rw [h.words_size]
    exact Width.wordsFor_mono (Nat.le_add_right d.size n)
  simp only [grow]
  rw [Traced.result_lift_of_ok (Size.mul_of_lt hneeded),
    Traced.result_lift_of_ok (Size.mul_of_lt (h.roomy_iff.mp hroom)),
    Traced.result_lift_of_ok (Size.mul_of_lt h.countable), Traced.result_lift_of_ok h.spare]
  by_cases hmissing : 0 < w.wordsFor (d.size + n) - d.words.size
  · have hspare := (h.missing_pos_iff n).mp hmissing
    have hcount : d.words.size + (w.wordsFor (d.size + n) - d.words.size) =
        w.wordsFor (d.size + n) := Nat.add_sub_of_le hmono
    have htotal : w.wordsFor (d.size + n) < Size.limit :=
      Nat.lt_of_lt_of_le hn.wordsFor_lt (Nat.div_le_self _ _)
    rw [if_pos hspare, Traced.result_lift_of_ok (Size.sub_of_le (Nat.le_of_lt hspare)),
      h.ceilDiv_missing, Traced.result_bind_of_ok (x := Traced.write _) rfl,
      Traced.result_lift_of_ok (Size.add_of_lt (by rw [hcount]; exact htotal)), hcount]
    exact ⟨d.withWords _, rfl, rfl, rfl⟩
  · have hsame : w.wordsFor (d.size + n) = d.words.size := by omega
    rw [if_neg (mt (h.missing_pos_iff n).mpr hmissing), hsame, Words.resize_self]
    exact ⟨d, rfl, rfl, rfl⟩

theorem makeRoom_zero (hi : i ≤ d.size) : (d.makeRoom i 0).result = .ok d := by
  unfold makeRoom
  rw [Traced.result_lift_of_ok (ensure_of hi), if_pos rfl]
  rfl

theorem makeRoom_refused (hi : d.size < i) (n : Nat) :
    (d.makeRoom i n).result = .error (.insertPastEnd i d.size) := by
  simp only [makeRoom]
  exact Traced.result_lift_of_error (ensure_of_not (Nat.not_le.mpr hi))

/-- The elements behind the position move up, and the gap before them holds old bits. -/
theorem makeRoom_spec (h : d.WellFormed) (hi : i ≤ d.size) (hpos : n ≠ 0)
    (hroom : w.Roomy d.size) (hn : w.Countable (d.size + n)) :
    ∃ d' gap, (d.makeRoom i n).result = .ok d' ∧ gap.length = n ∧
      d.Becomes d' (d.toList.take i ++ gap ++ d.toList.drop i) := by
  obtain ⟨grown, hgrow, hsize, hwords⟩ := grow_spec h hroom hn
  have hcell : grown.words.size = w.wordsFor (d.size + n) := by rw [hwords, Words.size_resize]
  have hbound := w.mul_bits_le_wordsFor (d.size + n)
  have hsmall : grown.words.size < Size.limit := by
    rw [hcell]
    exact Nat.lt_of_lt_of_le hn.wordsFor_lt (Nat.div_le_self _ _)
  have hsource : i + (d.size - i) = d.size := by omega
  have htarget : i + n + (d.size - i) = d.size + n := by omega
  have hspan : (i + n) * w.bits + (d.size - i) * w.bits = (d.size + n) * w.bits := by
    rw [← Nat.add_mul, htarget]
  have hlow : i * w.bits ≤ (i + n) * w.bits := Nat.mul_le_mul_right w.bits (Nat.le_add_right i n)
  obtain ⟨words, hcopy, ho⟩ := Words.copyDown_cellAt (w := w) (d.size - i) grown.words i (i + n)
    hsmall (Nat.le_add_right i n) (by rw [hcell, htarget]; exact hbound)
  rw [hsource, htarget] at hcopy
  refine ⟨⟨words, d.size + n, grown.room⟩, words.fields w (i * w.bits) n, ?_, Words.length_fields,
    ?_⟩
  · simp only [makeRoom]
    rw [Traced.result_lift_of_ok (ensure_of hi), if_neg hpos, Traced.result_bind_of_ok hgrow,
      Traced.result_lift_of_ok (Size.add_of_lt hn.lt),
      Traced.result_lift_of_ok (Width.wordCount_of_countable hn),
      Traced.result_lift_of_ok (ensure_of hcell),
      Traced.result_lift_of_ok (h.address (Nat.le_refl _)),
      Traced.result_lift_of_ok (d.address_of_countable hn),
      Traced.result_lift_of_ok hcopy]
    rfl
  · rw [hwords] at ho
    refine ⟨wellFormed_iff.mpr ⟨hn, ?_⟩, ?_, ?_⟩
    · rw [ho.size, Words.size_resize]
    · have hfirst : words.fields w 0 i = d.toList.take i := by
        rw [ho.fields_apart (by omega), Words.fields_resize (by omega), take_toList hi]
      have hlast : words.fields w ((i + n) * w.bits) (d.size - i) = d.toList.drop i := by
        have hmoved := ho.fields
        rw [Words.length_fields, Words.map_truncate_fields, Words.fields_resize (by omega)] at hmoved
        rw [hmoved, drop_toList hi]
      rw [toList_eq_fields]
      simp only
      rw [← htarget, Words.fields_add, Words.fields_add, Nat.zero_add, Nat.zero_add, hfirst, hlast]
    · intro p hp hlt
      simp only at hp hlt
      rw [ho.size, Words.size_resize] at hlt
      rw [ho.frame p (by rw [Words.length_fields]; omega), Words.bit_resize, decide_eq_true hlt,
        Bool.true_and]

theorem grow_overflow_or (h : d.WellFormed) (n : Nat) :
    (d.grow n).result = .error .overflow ∨
      w.Roomy d.size ∧ ∃ d', (d.grow n).result = .ok d' := by
  simp only [grow]
  by_cases hneeded : n * w.bits < Size.limit
  · rw [Traced.result_lift_of_ok (Size.mul_of_lt hneeded)]
    by_cases htotal : d.words.size * 64 < Size.limit
    · right
      rw [Traced.result_lift_of_ok (Size.mul_of_lt htotal),
        Traced.result_lift_of_ok (Size.mul_of_lt h.countable), Traced.result_lift_of_ok h.spare]
      refine ⟨h.roomy_iff.mpr htotal, ?_⟩
      split
      · rename_i hmissing
        have hsmall := h.words_small
        rw [Traced.result_lift_of_ok (Size.sub_of_le (Nat.le_of_lt hmissing)),
          Traced.result_bind_of_ok (x := Traced.write _) rfl,
          Traced.result_lift_of_ok (Size.add_of_lt (by unfold Size.ceilDiv Size.limit at *; omega))]
        exact ⟨_, rfl⟩
      · exact ⟨_, rfl⟩
    · exact .inl (Traced.result_lift_of_error (Size.mul_overflow htotal))
  · exact .inl (Traced.result_lift_of_error (Size.mul_overflow hneeded))

theorem makeRoom_overflow (h : d.WellFormed) (hi : i ≤ d.size) (hpos : n ≠ 0)
    (hover : ¬(w.Roomy d.size ∧ w.Countable (d.size + n))) :
    (d.makeRoom i n).result = .error .overflow := by
  simp only [makeRoom]
  rw [Traced.result_lift_of_ok (ensure_of hi), if_neg hpos]
  rcases grow_overflow_or h n with hgrow | ⟨hroom, d', hgrow⟩
  · exact Traced.result_bind_of_error hgrow
  · have hn : ¬w.Countable (d.size + n) := fun hn => hover ⟨hroom, hn⟩
    rw [Traced.result_bind_of_ok hgrow]
    rcases Width.add_or_wordCount_overflow hn with hadd | ⟨hadd, hcount⟩
    · exact Traced.result_lift_of_error hadd
    · rw [Traced.result_lift_of_ok hadd]
      exact Traced.result_lift_of_error hcount

/-! ## Inserting -/

theorem insertList_spec (h : d.WellFormed) (hi : i ≤ d.size)
    (hroom : values = [] ∨ w.Roomy d.size ∧ w.Countable (d.size + values.length)) :
    ∃ d', (d.insertList i values).result = .ok d' ∧
      d.Becomes d' (d.toList.take i ++ values.map w.truncate ++ d.toList.drop i) := by
  simp only [insertList]
  by_cases hempty : values = []
  · subst hempty
    obtain ⟨d', hstore, hd'⟩ := storeFrom_spec (i := i) h [] hi
    refine ⟨d', ?_, hd'⟩
    rw [List.length_nil, Traced.result_bind_of_ok (makeRoom_zero hi)]
    exact hstore
  · obtain ⟨hroom, hn⟩ := hroom.resolve_left hempty
    have hpos : values.length ≠ 0 := mt List.eq_nil_of_length_eq_zero hempty
    obtain ⟨opened, gap, hopen, hgap, hopened⟩ := makeRoom_spec h hi hpos hroom hn
    have hsize : opened.size = d.size + values.length := by
      rw [hopened.size, List.length_append, List.length_append, List.length_take,
        List.length_drop, length_toList, hgap]
      omega
    obtain ⟨d', hstore, hd'⟩ := storeFrom_spec (i := i) hopened.wellFormed values (by omega)
    have htake : (d.toList.take i).length = i := by
      rw [List.length_take, length_toList]
      omega
    rw [hopened.toList, List.append_assoc (d.toList.take i), List.take_left' htake, ← List.drop_drop,
      List.drop_left' htake, List.drop_left' hgap] at hd'
    refine ⟨d', ?_, ?_⟩
    · rw [Traced.result_bind_of_ok hopen]
      exact hstore
    · have hsame : d'.size = opened.size := by
        rw [hd'.size, List.length_append, List.length_append, List.length_take,
          List.length_drop, length_toList, List.length_map]
        omega
      exact hopened.trans hd' (by omega) (.inl (by omega))

theorem insertList_refused (hi : d.size < i) (values : List Word) :
    (d.insertList i values).result = .error (.insertPastEnd i d.size) := by
  simp only [insertList]
  exact Traced.result_bind_of_error (makeRoom_refused hi _)

theorem insertList_overflow (h : d.WellFormed) (hi : i ≤ d.size) (hne : values ≠ [])
    (hover : ¬(w.Roomy d.size ∧ w.Countable (d.size + values.length))) :
    (d.insertList i values).result = .error .overflow := by
  simp only [insertList]
  exact Traced.result_bind_of_error
    (makeRoom_overflow h hi (mt List.eq_nil_of_length_eq_zero hne) hover)

theorem add_lt_of_makeRoom (hsize : d.size < Size.limit)
    (hrun : (d.makeRoom i n).result = .ok d') : i + n < Size.limit := by
  obtain ⟨_, hi, hrest⟩ := Traced.lift_result_eq_ok_iff.mp hrun
  have hle : i ≤ d.size := ensure_eq_ok_iff.mp hi
  split at hrest
  · rename_i hzero
    omega
  · obtain ⟨_, _, hrest⟩ := Traced.bind_result_eq_ok_iff.mp hrest
    obtain ⟨_, hadd, _⟩ := Traced.lift_result_eq_ok_iff.mp hrest
    have hlt := (Size.add_eq_ok_iff.mp hadd).1
    omega

theorem insertCopies_eq_insertList (hsize : d.size < Size.limit) :
    d.insertCopies i n value = d.insertList i (List.replicate n value) := by
  simp only [insertCopies, insertList]
  rw [List.length_replicate]
  refine Traced.bind_congr_of_ok fun opened hopen => ?_
  rw [Size.add_of_lt (add_lt_of_makeRoom hsize hopen)]
  show liftM (opened.fill i (i + n) value) = _
  rw [fill, Nat.add_sub_cancel_left]

theorem insertCopies_spec (h : d.WellFormed) (hi : i ≤ d.size) (hroom : w.Roomy d.size)
    (hn : w.Countable (d.size + n)) (value : Word) :
    ∃ d', (d.insertCopies i n value).result = .ok d' ∧
      d.Becomes d' (d.toList.take i ++ List.replicate n (w.truncate value) ++ d.toList.drop i) := by
  rw [← List.length_replicate (n := n) (a := value)] at hn
  rw [insertCopies_eq_insertList h.countable.lt, ← List.map_replicate]
  exact insertList_spec h hi (.inr ⟨hroom, hn⟩)

theorem insertCopies_refused (hi : d.size < i) (n : Nat) (value : Word) :
    (d.insertCopies i n value).result = .error (.insertPastEnd i d.size) := by
  simp only [insertCopies]
  exact Traced.result_bind_of_error (makeRoom_refused hi n)

theorem insertCopies_overflow (h : d.WellFormed) (hi : i ≤ d.size)
    (hn : ¬w.Countable (d.size + n)) (value : Word) :
    (d.insertCopies i n value).result = .error .overflow := by
  rw [insertCopies_eq_insertList h.countable.lt]
  apply insertList_overflow h hi
  · intro hnil
    rw [List.replicate_eq_nil_iff] at hnil
    exact hn (hnil ▸ h.countable)
  · intro hroom
    rw [List.length_replicate] at hroom
    exact hn hroom.2

/-! ## Erasing -/

theorem erase_spec {e : Extent} (h : d.WellFormed) (he : e.refusal d.size = none) :
    ∃ d', d.erase e = .ok d' ∧
      d.Becomes d' (d.toList.take e.lower ++ d.toList.drop (e.upper d.size)) := by
  obtain ⟨hle, hstop⟩ := (Extent.refusal_eq_none_iff h.countable.lt).mp he
  simp only [erase]
  rw [bind_of_ok (Extent.resolve_of_not_refusal he)]
  generalize hs : (⟨e.lower, e.upper d.size⟩ : Segment) = s
  have hstart : e.lower = s.start := congrArg Segment.start hs
  have hstop' : e.upper d.size = s.stop := congrArg Segment.stop hs
  rw [hstart, hstop'] at hle ⊢
  rw [hstop'] at hstop
  by_cases hcount : s.count = 0
  · have hsame : s.stop = s.start := by
      simp only [Segment.count] at hcount
      omega
    refine ⟨d, by rw [if_pos hcount]; rfl, ?_⟩
    rw [hsame, List.take_append_drop]
    exact Becomes.refl h
  · have hsize : s.start + (d.size - s.stop) = d.size - s.count := by
      simp only [Segment.count] at hcount ⊢
      omega
    have hremoved : s.count ≤ d.size := by
      simp only [Segment.count]
      omega
    have hend : s.stop + (d.size - s.stop) = d.size := by omega
    have hn : w.Countable (d.size - s.count) := h.countable.mono (Nat.sub_le _ _)
    have hwords : w.wordsFor (d.size - s.count) ≤ d.words.size := by
      rw [h.words_size]
      exact Width.wordsFor_mono (Nat.sub_le _ _)
    have hbound := w.mul_bits_le_wordsFor (d.size - s.count)
    have hspan : s.start * w.bits + (d.size - s.stop) * w.bits = (d.size - s.count) * w.bits := by
      rw [← Nat.add_mul, hsize]
    obtain ⟨words, hcopy, ho⟩ := Words.copyUp_cellAt (w := w) (d.size - s.stop) d.words s.stop
      s.start h.words_small hle (by rw [hend]; exact h.size_mul_le)
    refine ⟨⟨words.resize (w.wordsFor (d.size - s.count)), d.size - s.count, d.room⟩, ?_, ?_⟩
    · rw [if_neg hcount, bind_of_ok (h.address hstop), bind_of_ok (h.address (by omega)),
        bind_of_ok hcopy, bind_of_ok (Size.sub_of_le hremoved),
        bind_of_ok (Width.wordCount_of_countable hn),
        Words.take_eq_resize (by rw [ho.size]; exact hwords)]
      rfl
    · refine ⟨wellFormed_iff.mpr ⟨hn, Words.size_resize _⟩, ?_, ?_⟩
      · have hfirst : words.fields w 0 s.start = d.toList.take s.start := by
          rw [ho.fields_apart (by omega), take_toList (by omega)]
        have hlast : words.fields w (s.start * w.bits) (d.size - s.stop) = d.toList.drop s.stop := by
          have hmoved := ho.fields
          rw [Words.length_fields, Words.map_truncate_fields] at hmoved
          rw [hmoved, drop_toList hstop]
        rw [toList_eq_fields]
        simp only
        rw [Words.fields_resize (by omega), ← hsize, Words.fields_add, Nat.zero_add, hfirst, hlast]
      · intro p hp hlt
        simp only at hp hlt
        rw [Words.size_resize] at hlt
        rw [Words.bit_resize, decide_eq_true hlt, Bool.true_and]
        exact ho.frame p (by rw [Words.length_fields]; omega)

theorem erase_refused {e : Extent} {fault : Fault} (he : e.refusal d.size = some fault) :
    d.erase e = .error fault :=
  bind_of_error (Extent.resolve_of_refusal he)

theorem read_spec (h : d.WellFormed) (hi : i < d.size) : d.read i = .ok (d.toList.getD i 0) := by
  simp only [read]
  rw [bind_of_ok (h.cell hi)]
  apply load_cellAt h
  simp [hi]

theorem read_refused (hi : ¬i < d.size) : d.read i = .error (.indexPastEnd i d.size) :=
  bind_of_error (cell_refused hi)

theorem remove_spec (h : d.WellFormed) (hi : i < d.size) :
    ∃ d', d.remove i = .ok (d.toList.getD i 0, d') ∧ d.Becomes d' (d.toList.eraseIdx i) := by
  have hnext : Size.add i 1 = .ok (i + 1) := Size.add_of_lt (Nat.lt_of_le_of_lt hi h.countable.lt)
  have hsingle : Extent.single i = .ok ⟨.included i, .excluded (i + 1)⟩ := bind_of_ok hnext
  have hlegal : Extent.refusal ⟨.included i, .excluded (i + 1)⟩ d.size = none :=
    (Extent.refusal_eq_none_iff h.countable.lt).mpr ⟨Nat.le_succ i, hi⟩
  obtain ⟨d', herase, hd'⟩ := erase_spec h hlegal
  refine ⟨d', ?_, ?_⟩
  · rw [remove, bind_of_ok (ensure_of hi), bind_of_ok (read_spec h hi), bind_of_ok hsingle,
      bind_of_ok herase]
    rfl
  · rw [List.eraseIdx_eq_take_drop_succ]
    exact hd'

theorem remove_refused (hi : ¬i < d.size) : d.remove i = .error (.removePastEnd i d.size) :=
  bind_of_error (ensure_of_not hi)

/-! ## Single elements -/

theorem set_spec (h : d.WellFormed) (hi : i < d.size) (value : Word) :
    ∃ d', d.set i value = .ok d' ∧ d.Becomes d' (d.toList.set i (w.truncate value)) := by
  obtain ⟨d', hstore, hd'⟩ := d.models.store value (Becomes.refl h) (by rw [length_toList]; exact hi)
  refine ⟨d', ?_, hd'⟩
  simp only [set]
  rw [bind_of_ok (h.cell hi), hstore]

theorem set_refused (hi : ¬i < d.size) (value : Word) :
    d.set i value = .error (.indexPastEnd i d.size) :=
  bind_of_error (cell_refused hi)

theorem swap_spec (h : d.WellFormed) (hi : i < d.size) (hj : j < d.size) :
    ∃ d', d.swap i j = .ok d' ∧
      d.Becomes d' ((d.toList.set i (d.toList.getD j 0)).set j (d.toList.getD i 0)) := by
  obtain ⟨words, hexchange, hd'⟩ := d.models_words.exchange (s := d.words) (Becomes.refl h)
    (by rw [length_toList]; exact hi) (by rw [length_toList]; exact hj)
  refine ⟨{ d with words }, ?_, hd'⟩
  have hwords : d.words.exchange (w.cellAt i) (w.cellAt j) = .ok words :=
    (bind_of_ok (ensure_of rfl)).trans hexchange
  rw [swap, bind_of_ok (ensure_of ⟨hi, hj⟩), bind_of_ok (h.address (Nat.le_of_lt hi)),
    bind_of_ok (h.address (Nat.le_of_lt hj)), bind_of_ok hwords]
  rfl

theorem swap_refused (hij : ¬(i < d.size ∧ j < d.size)) :
    d.swap i j = .error (.swapPastEnd i j d.size) :=
  bind_of_error (ensure_of_not hij)

end NarrowVec.Dense
