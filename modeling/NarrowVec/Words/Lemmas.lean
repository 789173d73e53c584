import NarrowVec.Words.Field

/-!
# Fields in the flattened view

A field can be read and written exactly when all words that it touches exist.  Reading gives the
flattened bits from its position on; writing changes those bits and no others.
-/

set_option autoImplicit false

namespace NarrowVec.Words

variable {words : Words} {a : Address}

/-- All words of the field at `a` exist. -/
def Holds (words : Words) (a : Address) : Prop :=
  a.word < words.size ∧ (a.offset + a.width.bits ≤ 64 ∨ a.word + 1 < words.size)

instance (words : Words) (a : Address) : Decidable (words.Holds a) := by
  unfold Holds
  infer_instance

/-! ## Checks that always pass

No shift is by a whole word, and no position overflows as long as the number of words is a size. -/

theorem load_eq (hsize : words.size < Size.limit) : words.load a = do
    let first ← words.fetch a.word
    let low := first >>> a.offset
    if a.offset + a.width.bits ≤ 64 then
      return low &&& a.width.mask
    else
      let second ← words.fetch (a.word + 1)
      return (low ||| second <<< (64 - a.offset)) &&& a.width.mask := by
  have hoff := a.offset_lt
  have hle := a.width.le
  have hreach : a.offset + a.width.bits < Size.limit := by unfold Size.limit; omega
  rw [load, bind_of_ok (ensure_of hoff)]
  by_cases hword : a.word < words.size
  · rw [bind_of_ok (fetch_of_lt hword), bind_of_ok (fetch_of_lt hword),
      bind_of_ok (Word.shr_of_lt _ hoff), bind_of_ok (Size.add_of_lt hreach), Word.lowMask_eq]
    by_cases hin : a.offset + a.width.bits ≤ 64
    · rw [if_pos hin]
      simp only [hin, if_true]
      rfl
    · rw [if_neg hin, bind_of_ok (Size.add_of_lt (Nat.lt_of_le_of_lt hword hsize))]
      simp only [hin, if_false]
      refine bind_congr fun second => ?_
      rw [bind_of_ok (Size.sub_of_le (Nat.le_of_lt hoff)),
        bind_of_ok (Word.shl_of_lt second (show 64 - a.offset < 64 by omega))]
      rfl
  · rw [bind_of_error (fetch_of_not_lt hword), bind_of_error (fetch_of_not_lt hword)]

theorem store_eq (hsize : words.size < Size.limit) (value : Word) : words.store a value = do
    let first ← words.fetch a.word
    let words ← words.put a.word
      ((first &&& ~~~(a.width.mask <<< a.offset)) ||| a.width.truncate value <<< a.offset)
    if 64 - a.offset < a.width.bits then
      let second ← words.fetch (a.word + 1)
      words.put (a.word + 1) ((second &&& ~~~(a.width.mask >>> (64 - a.offset))) |||
        a.width.truncate value >>> (64 - a.offset))
    else
      return words := by
  have hoff := a.offset_lt
  have hle := a.width.le
  rw [store, bind_of_ok (ensure_of hoff), bind_of_ok (Word.lowMask_eq _)]
  by_cases hword : a.word < words.size
  · rw [bind_of_ok (fetch_of_lt hword), bind_of_ok (fetch_of_lt hword),
      bind_of_ok (Word.shl_of_lt _ hoff), bind_of_ok (Word.shl_of_lt _ hoff)]
    refine bind_congr fun words' => ?_
    rw [bind_of_ok (Size.sub_of_le (Nat.le_of_lt hoff))]
    by_cases hsplit : 64 - a.offset < a.width.bits
    · rw [if_pos hsplit, if_pos hsplit,
        bind_of_ok (Size.add_of_lt (Nat.lt_of_le_of_lt hword hsize))]
      refine bind_congr fun second => ?_
      have hstored : 64 - a.offset < 64 := by omega
      rw [bind_of_ok (Word.shr_of_lt _ hstored), bind_of_ok (Word.shr_of_lt _ hstored)]
      rfl
    · rw [if_neg hsplit, if_neg hsplit]
  · rw [bind_of_error (fetch_of_not_lt hword), bind_of_error (fetch_of_not_lt hword)]

/-! ## Bits of one word -/

/-- Bits of a word with a field written at `offset`. -/
theorem getLsbD_low_field (w : Width) (old value : Word) (offset j : Nat) (hj : j < 64) :
    ((old &&& ~~~(w.mask <<< offset)) ||| w.truncate value <<< offset).getLsbD j =
      if offset ≤ j ∧ j < offset + w.bits then value.getLsbD (j - offset) else old.getLsbD j := by
  unfold Width.mask
  simp only [BitVec.getLsbD_or, BitVec.getLsbD_and, BitVec.getLsbD_not, BitVec.getLsbD_shiftLeft,
    Word.getLsbD_mask, Width.getLsbD_truncate, hj, decide_true, Bool.true_and]
  by_cases hlow : j < offset
  · simp [hlow, Nat.not_le.mpr hlow]
  · by_cases hhigh : j - offset < w.bits
    · simp [hlow, hhigh, show offset ≤ j ∧ j < offset + w.bits by omega,
        show j - offset < 64 by omega]
    · simp [hlow, hhigh, show ¬(offset ≤ j ∧ j < offset + w.bits) by omega]

theorem getLsbD_high_field (w : Width) (old value : Word) (stored j : Nat) (hj : j < 64) :
    ((old &&& ~~~(w.mask >>> stored)) ||| w.truncate value >>> stored).getLsbD j =
      if stored + j < w.bits then value.getLsbD (stored + j) else old.getLsbD j := by
  have := w.le
  unfold Width.mask
  simp only [BitVec.getLsbD_or, BitVec.getLsbD_and, BitVec.getLsbD_not, BitVec.getLsbD_ushiftRight,
    Word.getLsbD_mask, Width.getLsbD_truncate, hj, decide_true, Bool.true_and]
  by_cases h : stored + j < w.bits
  · simp [h, show stored + j < 64 by omega]
  · simp [h]

/-! ## Fields -/

theorem bit_pos_add {j : Nat} (h : a.offset + j < 64) :
    words.bit (a.pos + j) = (words.getD a.word 0).getLsbD (a.offset + j) := by
  have hword : (a.pos + j) / 64 = a.word := by unfold Address.pos; omega
  have hbit : (a.pos + j) % 64 = a.offset + j := by unfold Address.pos; omega
  unfold bit
  rw [hword, hbit]

theorem bit_pos_add_next {j : Nat} (h : 64 ≤ a.offset + j) (hj : j < 64) :
    words.bit (a.pos + j) = (words.getD (a.word + 1) 0).getLsbD (a.offset + j - 64) := by
  have hoff := a.offset_lt
  have hword : (a.pos + j) / 64 = a.word + 1 := by unfold Address.pos; omega
  have hbit : (a.pos + j) % 64 = a.offset + j - 64 := by unfold Address.pos; omega
  unfold bit
  rw [hword, hbit]

/-- Loading a field that exists gives the number that the flattened bits spell. -/
theorem load_of_holds (hsize : words.size < Size.limit) (h : words.Holds a) :
    words.load a = .ok (words.slice a.pos a.width.bits) := by
  obtain ⟨hword, hfit⟩ := h
  have hoff := a.offset_lt
  have hle := a.width.le
  rw [load_eq hsize, fetch_of_lt hword]
  generalize hfirst : words.getD a.word 0 = first
  simp only [bind, Except.bind]
  by_cases hin : a.offset + a.width.bits ≤ 64
  · rw [if_pos hin]
    refine congrArg Except.ok (BitVec.eq_of_getLsbD_eq fun j hj => ?_)
    rw [getLsbD_slice]
    unfold Width.mask
    rw [BitVec.getLsbD_and, Word.getLsbD_mask, BitVec.getLsbD_ushiftRight, Bool.and_comm]
    by_cases hjw : j < a.width.bits
    · rw [bit_pos_add (by omega), hfirst]
    · simp [hjw]
  · rw [if_neg hin, fetch_of_lt (by omega)]
    generalize hsecond : words.getD (a.word + 1) 0 = second
    refine congrArg Except.ok (BitVec.eq_of_getLsbD_eq fun j hj => ?_)
    rw [getLsbD_slice]
    unfold Width.mask
    rw [BitVec.getLsbD_and, Word.getLsbD_mask, BitVec.getLsbD_or, BitVec.getLsbD_ushiftRight,
      BitVec.getLsbD_shiftLeft, Bool.and_comm]
    by_cases hjw : j < a.width.bits
    · by_cases hlow : a.offset + j < 64
      · rw [bit_pos_add hlow, hfirst]
        simp [hjw, hj, show j < 64 - a.offset by omega]
      · rw [bit_pos_add_next (by omega) hj, hsecond]
        have hindex : j - (64 - a.offset) = a.offset + j - 64 := by omega
        have hzero : first.getLsbD (a.offset + j) = false :=
          BitVec.getLsbD_of_ge first (a.offset + j) (by omega)
        simp [hjw, hj, show ¬j < 64 - a.offset by omega, hindex, hzero]
    · simp [hjw]

theorem load_of_not_holds (hsize : words.size < Size.limit) (h : ¬words.Holds a) :
    words.load a = .error .bounds := by
  rw [load_eq hsize]
  unfold fetch
  by_cases hword : a.word < words.size
  · have hnext : ¬a.word + 1 < words.size := fun h' => h ⟨hword, .inr h'⟩
    have hout : ¬a.offset + a.width.bits ≤ 64 := fun h' => h ⟨hword, .inl h'⟩
    simp [hword, hnext, hout, bind, Except.bind]
  · simp [hword, bind, Except.bind]

/-- Storing at a field that exists changes the bits of that field and no others. -/
theorem store_of_holds (hsize : words.size < Size.limit) (h : words.Holds a) (value : Word) :
    ∃ words', words.store a value = .ok words' ∧ words'.size = words.size ∧
      ∀ p, words'.bit p = if a.pos ≤ p ∧ p < a.pos + a.width.bits
        then value.getLsbD (p - a.pos) else words.bit p := by
  obtain ⟨hword, hfit⟩ := h
  have hoff := a.offset_lt
  have hle := a.width.le
  rw [store_eq hsize, fetch_of_lt hword]
  simp only [bind, Except.bind]
  rw [put_of_lt _ hword]
  by_cases hsplit : 64 - a.offset < a.width.bits
  · have hnext : a.word + 1 < words.size := by omega
    simp only [hsplit, if_true]
    rw [fetch_of_lt (by rw [Array.size_set]; exact hnext)]
    simp only
    rw [put_of_lt _ (by rw [Array.size_set]; exact hnext)]
    refine ⟨_, rfl, by simp only [Array.size_set], fun p => ?_⟩
    have hp : p % 64 < 64 := Nat.mod_lt p (by decide)
    rw [bit_set, bit_set, getLsbD_high_field _ _ _ _ _ hp, getLsbD_low_field _ _ _ _ _ hp]
    have hkeep (word : Word) :
        (Array.set words a.word word hword).getD (a.word + 1) 0 = words.getD (a.word + 1) 0 := by
      simp only [Array.getD_eq_getD_getElem?]
      rw [Array.getElem?_set_ne _ (by omega)]
    rw [hkeep]
    unfold Address.pos bit
    by_cases hsecond : p / 64 = a.word + 1
    · rw [if_pos hsecond, hsecond]
      by_cases hin : 64 - a.offset + p % 64 < a.width.bits
      · rw [if_pos hin, if_pos (by omega)]
        congr 1
        omega
      · rw [if_neg hin, if_neg (by omega)]
    · rw [if_neg hsecond]
      by_cases hfirst : p / 64 = a.word
      · rw [if_pos hfirst, hfirst]
        by_cases hin : a.offset ≤ p % 64
        · rw [if_pos (by omega), if_pos (by omega)]
          congr 1
          omega
        · rw [if_neg (by omega), if_neg (by omega)]
      · rw [if_neg hfirst, if_neg (by omega)]
  · simp only [hsplit, if_false]
    refine ⟨_, rfl, by simp only [Array.size_set], fun p => ?_⟩
    have hp : p % 64 < 64 := Nat.mod_lt p (by decide)
    rw [bit_set, getLsbD_low_field _ _ _ _ _ hp]
    unfold Address.pos bit
    by_cases hfirst : p / 64 = a.word
    · rw [if_pos hfirst, hfirst]
      by_cases hin : a.offset ≤ p % 64 ∧ p % 64 < a.offset + a.width.bits
      · rw [if_pos hin, if_pos (by omega)]
        congr 1
        omega
      · rw [if_neg hin, if_neg (by omega)]
    · rw [if_neg hfirst, if_neg (by omega)]

theorem store_of_not_holds (hsize : words.size < Size.limit) (h : ¬words.Holds a) (value : Word) :
    words.store a value = .error .bounds := by
  have hoff := a.offset_lt
  rw [store_eq hsize]
  by_cases hword : a.word < words.size
  · have hnext : ¬a.word + 1 < words.size := fun h' => h ⟨hword, .inr h'⟩
    have hout : ¬a.offset + a.width.bits ≤ 64 := fun h' => h ⟨hword, .inl h'⟩
    rw [fetch_of_lt hword]
    simp only [bind, Except.bind]
    rw [put_of_lt _ hword]
    simp only [show 64 - a.offset < a.width.bits by omega, if_true]
    unfold fetch
    simp [hnext]
  · unfold fetch
    simp [hword, bind, Except.bind]

end NarrowVec.Words
