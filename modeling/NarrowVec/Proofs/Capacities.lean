import NarrowVec.Proofs.Rooms

/-!
# Conversions between sizes, and capacity

Elements are counted into words and bits into elements by rounding up, and words into elements by
rounding down.  Each rounding is adjoint to a product, so no conversion is off by one: the elements
that fit into some room are exactly those whose words do.  Room that is asked for a number of
elements therefore holds at least that number, however much more memory is granted.
-/

set_option autoImplicit false

namespace NarrowVec

namespace Width

variable {w : Width} {n bits : Nat}

theorem countable_iff_le_maxSize : w.Countable n ↔ n ≤ w.maxSize := by
  unfold Countable maxSize
  rw [Nat.le_div_iff_mul_le w.pos]
  exact Nat.lt_iff_le_pred (by decide)

theorem wordCount_eq_overflow_iff : w.wordCount n = .error .overflow ↔ w.maxSize < n := by
  rw [← Nat.not_le, ← countable_iff_le_maxSize]
  constructor
  · intro hover hn
    cases hover.symm.trans (wordCount_of_countable hn)
  · exact wordCount_of_not_countable

theorem elementCount_le_iff {count : Nat} : w.elementCount bits ≤ count ↔ bits ≤ count * w.bits :=
  Size.ceilDiv_le_iff w.pos

theorem elementCount_lt (h : bits < Size.limit) : w.elementCount bits < Size.limit :=
  Nat.lt_of_le_of_lt (elementCount_le_iff.mpr (w.le_mul_bits bits)) h

theorem wordsFor_le_iff_le_div {room : Nat} : w.wordsFor n ≤ room ↔ n ≤ room * 64 / w.bits := by
  rw [wordsFor_le_iff, Nat.le_div_iff_mul_le w.pos, Nat.mul_comm 64]

/-- Each conversion answers for every size that it can count, and with the one number that is
neither too small nor too large. -/
structure Converts (w : Width) : Prop where
  words_overflow : ∀ count, w.wordCount count = .error .overflow ↔ w.maxSize < count
  words_least : ∀ count, count ≤ w.maxSize → ∃ needed, w.wordCount count = .ok needed ∧
    ∀ words, needed ≤ words ↔ count * w.bits ≤ 64 * words
  elements_fit : ∀ bits, bits < Size.limit → w.elementCount bits < Size.limit
  elements_least : ∀ bits count, w.elementCount bits ≤ count ↔ bits ≤ count * w.bits
  place : ∀ bit, bit = 64 * (Address.split bit).1 + (Address.split bit).2 ∧
    (Address.split bit).2 < 64

theorem converts (w : Width) : w.Converts where
  words_overflow _ := wordCount_eq_overflow_iff
  words_least count hcount :=
    ⟨w.wordsFor count, wordCount_of_countable (countable_iff_le_maxSize.mpr hcount),
      fun _ => wordsFor_le_iff⟩
  elements_fit _ := elementCount_lt
  elements_least _ _ := elementCount_le_iff
  place bit := ⟨(Nat.div_add_mod bit 64).symm, Nat.mod_lt bit (by decide)⟩

end Width

namespace Dense

variable {w : Width} {d d' e : Dense w} {n : Nat}

/-- The bits of all memory that is set aside can be counted. -/
def Measurable (d : Dense w) : Prop := 64 * d.room < Size.limit

instance (d : Dense w) : Decidable d.Measurable :=
  inferInstanceAs (Decidable (64 * d.room < Size.limit))

/-- The store `e` is `d` with the memory that was granted to it, which is no less than was asked
for. -/
structure Granted (d e : Dense w) : Prop where
  words : e.words = d.words
  size : e.size = d.size
  room : d.room ≤ e.room

theorem capacity_of_measurable (h : d.Measurable) : d.capacity = .ok (d.room * 64 / w.bits) :=
  bind_of_ok (Size.mul_of_lt (by rw [Nat.mul_comm]; exact h))

theorem capacity_eq_overflow_iff : d.capacity = .error .overflow ↔ ¬d.Measurable := by
  constructor
  · intro hover h
    cases hover.symm.trans (capacity_of_measurable h)
  · intro h
    exact bind_of_error (Size.mul_overflow (by rw [Nat.mul_comm]; exact h))

example : (⟨#[], 0, 0x400_0000_0000_0000⟩ : Dense { bits := 1 }).capacity = .error .overflow := rfl

theorem capacity_spec (h : d.Measurable) : ∃ c, d.capacity = .ok c ∧
    ∀ n, n ≤ w.maxSize → ∃ needed, w.wordCount n = .ok needed ∧ (needed ≤ d.room ↔ n ≤ c) :=
  ⟨_, capacity_of_measurable h, fun n hn =>
    ⟨w.wordsFor n, Width.wordCount_of_countable (Width.countable_iff_le_maxSize.mpr hn),
      Width.wordsFor_le_iff_le_div⟩⟩

theorem Granted.le_capacity (hgranted : d.Granted e) (h : e.Measurable)
    (hroom : w.wordsFor n ≤ d.room) : ∃ c, e.capacity = .ok c ∧ n ≤ c :=
  ⟨_, capacity_of_measurable h,
    Width.wordsFor_le_iff_le_div.mp (Nat.le_trans hroom hgranted.room)⟩

theorem emptyWithCapacity_of_countable (hn : w.Countable n) :
    emptyWithCapacity n = .ok (⟨#[], 0, w.wordsFor n⟩ : Dense w) :=
  bind_of_ok (Width.wordCount_of_countable hn)

/-- Room is set aside for the words that are missing, and words that are there have theirs. -/
theorem wordsFor_le_room_of_reserve (h : d.Backed) (hrun : (d.reserve n).result = .ok d') :
    w.wordsFor (d.size + n) ≤ d'.room := by
  obtain ⟨total, htotal, hrest⟩ := Traced.lift_result_eq_ok_iff.mp hrun
  obtain ⟨needed, hneeded, hrest⟩ := Traced.lift_result_eq_ok_iff.mp hrest
  obtain ⟨_, rfl⟩ := Size.add_eq_ok_iff.mp htotal
  obtain ⟨_, rfl⟩ := Width.wordCount_eq_ok_iff.mp hneeded
  split at hrest
  · obtain ⟨_, _, hrest⟩ := Traced.lift_result_eq_ok_iff.mp hrest
    cases hrest
    exact Nat.le_max_right _ _
  · rename_i hthere
    cases hrest
    exact Nat.le_trans (Nat.not_lt.mp hthere) h

theorem reserve_ok_iff : (∃ d', (d.reserve n).result = .ok d') ↔ d.size + n ≤ w.maxSize := by
  rw [← Width.countable_iff_le_maxSize]
  constructor
  · rintro ⟨d', hrun⟩
    by_cases hn : w.Countable (d.size + n)
    · exact hn
    · cases hrun.symm.trans (reserve_overflow hn)
  · intro hn
    simp only [reserve]
    rw [Traced.result_lift_of_ok (Size.add_of_lt hn.lt),
      Traced.result_lift_of_ok (Width.wordCount_of_countable hn)]
    split
    · rename_i hmissing
      rw [Traced.result_lift_of_ok (Size.sub_of_le (Nat.le_of_lt hmissing))]
      exact ⟨_, rfl⟩
    · exact ⟨d, rfl⟩

end Dense

/-- The conversions are exact up to their limits.  So the capacity of a store, whose room has bits
that can be counted, bounds a number of elements exactly when the room bounds their words; room that
was asked for holds what it was asked for, whatever is granted beyond it, and a session never comes
to a store with more words than room. -/
theorem sizes_convert_exactly (w : Width) :
    w.Converts ∧
    (∀ d : Dense w, d.Measurable → ∃ c, d.capacity = .ok c ∧
      ∀ n, n ≤ w.maxSize → ∃ needed, w.wordCount n = .ok needed ∧ (needed ≤ d.room ↔ n ≤ c)) ∧
    (∀ n, n ≤ w.maxSize → ∃ d : Dense w, Dense.emptyWithCapacity n = .ok d ∧
      ∀ e, d.Granted e → e.Measurable → ∃ c, e.capacity = .ok c ∧ n ≤ c) ∧
    (∀ (d : Dense w) (n : Nat), d.Backed →
      ((∃ d', (d.reserve n).result = .ok d') ↔ d.size + n ≤ w.maxSize) ∧
      ∀ d', (d.reserve n).result = .ok d' →
        ∀ e, d'.Granted e → e.Measurable → ∃ c, e.capacity = .ok c ∧ d.size + n ≤ c) ∧
    ∀ d : Dense w, d.Reachable → d.Backed := by
  refine ⟨w.converts, fun _ => Dense.capacity_spec, ?_, ?_, fun _ => Dense.Reachable.backed⟩
  · intro n hn
    refine ⟨_, Dense.emptyWithCapacity_of_countable (Width.countable_iff_le_maxSize.mpr hn), ?_⟩
    intro e hgranted he
    exact hgranted.le_capacity he (Nat.le_refl _)
  · intro d n hd
    refine ⟨Dense.reserve_ok_iff, ?_⟩
    intro d' hrun e hgranted he
    exact hgranted.le_capacity he (Dense.wordsFor_le_room_of_reserve hd hrun)

/-- Thirteen elements of seven bits take two words, and four words are granted for them. -/
theorem sizes_convert_exactly_at_stale :
    ∃ c, (⟨Dense.stale.words, 3, 4⟩ : Dense { bits := 7 }).capacity = .ok c ∧ 13 ≤ c := by
  have hrun : (Dense.stale.reserve 10).result = .ok ⟨Dense.stale.words, 3, 2⟩ := rfl
  obtain ⟨_, _, _, hreserve, _⟩ := sizes_convert_exactly { bits := 7 }
  exact (hreserve Dense.stale 10 (by decide)).2 _ hrun _ ⟨rfl, rfl, by decide⟩ (by decide)

end NarrowVec
