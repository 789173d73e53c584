import NarrowVec.Width

/-!
# Arrays of words

The backing storage of gapless elements.  Bit `p` of an array is bit `p % 64` of word `p / 64`, and
every bit past the end is zero; `Words.bit` and `Words.slice` are this flattened view.
-/

set_option autoImplicit false

namespace NarrowVec

abbrev Words := Array Word

namespace Words

/-! ## The flattened view -/

/-- Bit `p` of the array, zero past its end. -/
def bit (words : Words) (p : Nat) : Bool :=
  (words.getD (p / 64) 0).getLsbD (p % 64)

/-- The number whose bit `j`, for `j < n`, is bit `start + j` of the array. -/
def slice (words : Words) (start n : Nat) : Word :=
  let low := words.getD (start / 64) 0
  let high := words.getD (start / 64 + 1) 0
  ((high ++ low) >>> (start % 64)).setWidth 64 &&& Word.mask n

/-! ## Whole words -/

def fetch (words : Words) (i : Nat) : Except Fault Word :=
  match words[i]? with
  | some word => .ok word
  | none => .error .bounds

def put (words : Words) (i : Nat) (word : Word) : Except Fault Words :=
  if h : i < words.size then .ok (words.set i word h) else .error .bounds

/-- Exactly `n` words: the last ones are dropped, or zero words are added. -/
def resize (words : Words) (n : Nat) : Words :=
  words.take n ++ Array.replicate (n - words.size) 0

/-- Zero words are added one by one until there are `n`. -/
@[semireducible]
def padTo (words : Words) (n : Nat) : Words :=
  if words.size < n then padTo (words.push 0) n else words
termination_by n - words.size

/-! ## What the operations do to the view -/

variable {words : Words}

theorem fetch_of_lt {i : Nat} (h : i < words.size) : words.fetch i = .ok (words.getD i 0) := by
  unfold fetch
  simp [h]

theorem fetch_of_not_lt {i : Nat} (h : ¬i < words.size) : words.fetch i = .error .bounds := by
  unfold fetch
  simp [h]

theorem put_of_lt {i : Nat} (word : Word) (h : i < words.size) :
    words.put i word = .ok (words.set i word h) := dif_pos h

theorem put_eq_ok_iff {i : Nat} {word : Word} {words' : Words} :
    words.put i word = .ok words' ↔ ∃ h : i < words.size, words.set i word h = words' := by
  unfold put
  split <;> simp [*]

theorem size_of_put {i : Nat} {word : Word} {words' : Words} (h : words.put i word = .ok words') :
    words'.size = words.size := by
  obtain ⟨hi, rfl⟩ := put_eq_ok_iff.mp h
  exact Array.size_set hi

theorem bit_word (words : Words) (i : Nat) {j : Nat} (hj : j < 64) :
    words.bit (64 * i + j) = (words.getD i 0).getLsbD j := by
  have hdiv : (64 * i + j) / 64 = i := by omega
  have hmod : (64 * i + j) % 64 = j := by omega
  unfold bit
  rw [hdiv, hmod]

theorem bit_eq_false_of_le {p : Nat} (h : 64 * words.size ≤ p) : words.bit p = false := by
  have hsize : words.size ≤ p / 64 := by omega
  simp [bit, Array.getD, Nat.not_lt.mpr hsize]

theorem bit_set (i : Nat) (word : Word) (h : i < words.size) (p : Nat) :
    bit (words.set i word h) p = if p / 64 = i then word.getLsbD (p % 64) else words.bit p := by
  unfold bit
  by_cases hp : p / 64 = i
  · subst hp
    simp [h]
  · rw [if_neg hp]
    simp only [Array.getD_eq_getD_getElem?]
    rw [Array.getElem?_set_ne _ (Ne.symm hp)]

theorem size_resize (n : Nat) : (words.resize n).size = n := by
  unfold resize
  rw [Array.size_append, Array.size_replicate, Array.take_eq_extract, Array.size_extract]
  omega

theorem getD_push_zero (i : Nat) : (words.push 0).getD i 0 = words.getD i 0 := by
  simp only [Array.getD_eq_getD_getElem?, Array.getElem?_push]
  split
  · rename_i hi
    simp [hi]
  · rfl

theorem getD_resize (n i : Nat) :
    (words.resize n).getD i 0 = if i < n then words.getD i 0 else 0 := by
  unfold resize
  simp only [Array.getD_eq_getD_getElem?, Array.getElem?_append, Array.take_eq_extract,
    Array.size_extract, Array.getElem?_extract, Array.getElem?_replicate, Nat.sub_zero,
    Nat.zero_add, Nat.lt_min]
  by_cases hn : i < n
  · by_cases hw : i < words.size
    · simp [hn, hw]
    · have hadded : i - min n words.size < n - words.size := by omega
      simp [hn, hw, hadded]
  · have hadded : ¬ i - min n words.size < n - words.size := by omega
    simp [hn, hadded]

theorem bit_resize (n p : Nat) :
    (words.resize n).bit p = (decide (p < 64 * n) && words.bit p) := by
  unfold bit
  rw [getD_resize]
  by_cases h : p / 64 < n
  · simp [h, show p < 64 * n by omega]
  · simp [h, show ¬p < 64 * n by omega]

theorem take_eq_resize {n : Nat} (h : n ≤ words.size) : words.take n = words.resize n := by
  simp only [resize]
  rw [Nat.sub_eq_zero_of_le h]
  simp

theorem resize_self : words.resize words.size = words := by
  rw [← take_eq_resize (Nat.le_refl _)]
  simp

/-- The loop adds all zero words that are missing, and drops none. -/
theorem padTo_eq_resize (n : Nat) : words.padTo n = words.resize (max n words.size) := by
  have hget : ∀ (words' : Words) (i : Nat) (h : i < words'.size), words'[i] = words'.getD i 0 := by
    intro words' i h
    simp [Array.getD, h]
  fun_induction padTo words n with
  | case1 words hlt ih =>
      rw [ih]
      refine Array.ext (by simp only [size_resize, Array.size_push]; omega) fun i hi _ => ?_
      rw [hget, hget, getD_resize, getD_resize, getD_push_zero, Array.size_push]
      congr 1
      rw [Nat.max_eq_left hlt, Nat.max_eq_left (Nat.le_of_lt hlt)]
  | case2 words hlt =>
      rw [Nat.max_eq_right (Nat.le_of_not_lt hlt)]
      exact resize_self.symm

theorem getLsbD_slice (start n j : Nat) :
    (words.slice start n).getLsbD j = (decide (j < n ∧ j < 64) && words.bit (start + j)) := by
  unfold slice
  simp only [BitVec.getLsbD_and, Word.getLsbD_mask, BitVec.getLsbD_setWidth,
    BitVec.getLsbD_ushiftRight, BitVec.getLsbD_append]
  by_cases h : j < n ∧ j < 64
  · obtain ⟨hn, hj⟩ := h
    simp only [hn, hj, decide_true, Bool.true_and, and_self, Bool.and_true]
    unfold bit
    split
    · rename_i hlow
      have hword : (start + j) / 64 = start / 64 := by omega
      have hbit : (start + j) % 64 = start % 64 + j := by omega
      rw [hword, hbit]
    · rename_i hhigh
      have hword : (start + j) / 64 = start / 64 + 1 := by omega
      have hbit : (start + j) % 64 = start % 64 + j - 64 := by omega
      rw [hword, hbit]
  · simp [h]

end Words

end NarrowVec
