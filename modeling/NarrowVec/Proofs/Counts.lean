import Mathlib.Algebra.Group.Nat.Defs
import NarrowVec.Address.Lemmas
import NarrowVec.Dense.Basic

/-!
# Counting elements, bits and words

A number of elements is countable when its bits are, and roomy when the words that hold it have a
countable number of bits too.  A well-formed store has the least number of words that hold its
elements, so both notions turn into bounds on its array of words.
-/

set_option autoImplicit false

namespace NarrowVec

namespace Width

variable {w : Width} {n m : Nat}

theorem toNat_truncate (w : Width) (v : Word) : (w.truncate v).toNat = v.toNat % 2 ^ w.bits := by
  apply Nat.eq_of_testBit_eq
  intro i
  rw [Nat.testBit_mod_two_pow, BitVec.testBit_toNat, getLsbD_truncate, BitVec.testBit_toNat]

/-! ## Counts of elements -/

/-- The bits of `n` elements can be counted. -/
def Countable (w : Width) (n : Nat) : Prop := n * w.bits < Size.limit

/-- The bits of `n` elements can be counted together with the padding behind them. -/
def Roomy (w : Width) (n : Nat) : Prop := n * w.bits ≤ Size.limit - 64

instance (w : Width) (n : Nat) : Decidable (w.Countable n) :=
  inferInstanceAs (Decidable (n * w.bits < Size.limit))

instance (w : Width) (n : Nat) : Decidable (w.Roomy n) :=
  inferInstanceAs (Decidable (n * w.bits ≤ Size.limit - 64))

/-- The least number of words that hold `n` elements. -/
def wordsFor (w : Width) (n : Nat) : Nat := Size.ceilDiv (n * w.bits) 64

theorem Countable.mono (h : w.Countable n) (hm : m ≤ n) : w.Countable m :=
  Nat.lt_of_le_of_lt (Nat.mul_le_mul_right w.bits hm) h

theorem Roomy.mono (h : w.Roomy n) (hm : m ≤ n) : w.Roomy m :=
  Nat.le_trans (Nat.mul_le_mul_right w.bits hm) h

theorem Roomy.countable (h : w.Roomy n) : w.Countable n := by
  have := h
  unfold Roomy Size.limit at this
  unfold Countable Size.limit
  omega

theorem countable_zero (w : Width) : w.Countable 0 := by
  unfold Countable Size.limit
  omega

theorem roomy_zero (w : Width) : w.Roomy 0 := by
  unfold Roomy
  omega

theorem le_mul_bits (w : Width) (n : Nat) : n ≤ n * w.bits := Nat.le_mul_of_pos_right n w.pos

theorem Countable.lt (h : w.Countable n) : n < Size.limit := Nat.lt_of_le_of_lt (w.le_mul_bits n) h

theorem wordCount_of_countable (h : w.Countable n) : w.wordCount n = .ok (w.wordsFor n) := by
  unfold wordCount
  rw [Size.mul_of_lt h]
  rfl

theorem wordCount_of_not_countable (h : ¬w.Countable n) : w.wordCount n = .error .overflow := by
  unfold wordCount
  rw [Size.mul_overflow h]
  rfl

theorem add_or_wordCount_overflow (h : ¬w.Countable (n + m)) :
    Size.add n m = .error .overflow ∨
      Size.add n m = .ok (n + m) ∧ w.wordCount (n + m) = .error .overflow := by
  by_cases hsum : n + m < Size.limit
  · exact .inr ⟨Size.add_of_lt hsum, wordCount_of_not_countable h⟩
  · exact .inl (Size.add_overflow hsum)

theorem wordCount_eq_ok_iff {k : Nat} :
    w.wordCount n = .ok k ↔ w.Countable n ∧ w.wordsFor n = k := by
  by_cases h : w.Countable n
  · rw [wordCount_of_countable h]
    simp [h]
  · rw [wordCount_of_not_countable h]
    simp [h]

theorem mul_bits_le_wordsFor (w : Width) (n : Nat) : n * w.bits ≤ 64 * w.wordsFor n := by
  have := (Size.ceilDiv_le_iff (a := n * w.bits) (b := 64) (c := w.wordsFor n) (by decide)).mp
    (Nat.le_refl _)
  omega

theorem wordsFor_lt (w : Width) (n : Nat) : 64 * w.wordsFor n < n * w.bits + 64 := by
  unfold wordsFor Size.ceilDiv
  omega

theorem wordsFor_le_iff {k : Nat} : w.wordsFor n ≤ k ↔ n * w.bits ≤ 64 * k := by
  unfold wordsFor
  rw [Size.ceilDiv_le_iff (by decide), Nat.mul_comm k]

theorem wordsFor_mono (h : m ≤ n) : w.wordsFor m ≤ w.wordsFor n :=
  wordsFor_le_iff.mpr
    (Nat.le_trans (Nat.mul_le_mul_right w.bits h) (w.mul_bits_le_wordsFor n))

theorem wordsFor_zero (w : Width) : w.wordsFor 0 = 0 :=
  Nat.le_zero.mp (wordsFor_le_iff.mpr (by omega))

theorem Countable.wordsFor_lt (h : w.Countable n) : w.wordsFor n < Size.limit / 32 := by
  have hcount := h
  have := w.wordsFor_lt n
  unfold Countable Size.limit at hcount
  unfold Size.limit
  omega

theorem roomy_iff : w.Roomy n ↔ w.wordsFor n * 64 < Size.limit := by
  have hle := w.mul_bits_le_wordsFor n
  have hlt := w.wordsFor_lt n
  unfold Roomy Size.limit
  constructor
  · intro h
    omega
  · intro h
    omega

end Width

/-! ## Addresses -/

namespace Address

variable {w : Width} {p n : Nat}

theorem advance_ofBit (hbits : p % 64 + n * w.bits < Size.limit)
    (hword : (p + n * w.bits) / 64 < Size.limit) :
    (ofBit p w).advance n = .ok (ofBit (p + n * w.bits) w) := by
  unfold advance ofBit split
  simp only
  have hstep : Size.mul n w.bits = .ok (n * w.bits) := Size.mul_of_lt (by omega)
  have hsum : Size.add (p % 64) (n * w.bits) = .ok (p % 64 + n * w.bits) := Size.add_of_lt hbits
  have hsplit : p / 64 + (p % 64 + n * w.bits) / 64 = (p + n * w.bits) / 64 := by omega
  have hnext : Size.add (p / 64) ((p % 64 + n * w.bits) / 64) =
      .ok ((p + n * w.bits) / 64) :=
    Size.add_eq_ok_iff.mpr ⟨by omega, hsplit⟩
  rw [hstep]
  simp only [bind, Except.bind]
  rw [hsum]
  simp only
  rw [hnext]
  simp only [pure, Except.pure, Except.ok.injEq, mk.injEq, and_true, true_and]
  omega

theorem retreat_ofBit (hbits : n * w.bits < Size.limit) (hle : n * w.bits ≤ p) :
    (ofBit p w).retreat n = .ok (ofBit (p - n * w.bits) w) := by
  refine retreat_eq_ok_iff.mpr ⟨⟨hbits, ?_⟩, rfl, ?_⟩
  · rw [pos_ofBit]
    exact hle
  · rw [pos_ofBit, pos_ofBit]
    exact Nat.sub_add_cancel hle

end Address

def Width.cellAt (w : Width) (i : Nat) : Address := .ofBit (i * w.bits) w

namespace Width

variable {w : Width} {i k n : Nat}

theorem address_of_countable (h : w.Countable i) : w.address i = .ok (w.cellAt i) := by
  unfold address
  rw [bind_of_ok (Size.mul_of_lt h)]
  exact Address.make_split _ w

theorem advance_cellAt (h : w.Roomy (i + k)) :
    (w.cellAt i).advance k = .ok (w.cellAt (i + k)) := by
  have hroom := h
  unfold Roomy Size.limit at hroom
  rw [Nat.add_mul] at hroom
  unfold cellAt
  rw [Address.advance_ofBit, Nat.add_mul]
  · unfold Size.limit
    omega
  · unfold Size.limit
    omega

theorem retreat_cellAt (h : w.Countable i) (hk : k ≤ i) :
    (w.cellAt i).retreat k = .ok (w.cellAt (i - k)) := by
  unfold cellAt
  rw [Address.retreat_ofBit, Nat.sub_mul]
  · exact h.mono hk
  · exact Nat.mul_le_mul_right w.bits hk

end Width

/-! ## Well-formed stores -/

namespace Dense

variable {w : Width} {d : Dense w}

theorem wellFormed_iff : d.WellFormed ↔ w.Countable d.size ∧ d.words.size = w.wordsFor d.size := by
  unfold WellFormed
  rw [Width.wordCount_eq_ok_iff, eq_comm (a := d.words.size)]

theorem WellFormed.countable (h : d.WellFormed) : w.Countable d.size := (wellFormed_iff.mp h).1

theorem WellFormed.words_size (h : d.WellFormed) : d.words.size = w.wordsFor d.size :=
  (wellFormed_iff.mp h).2

theorem WellFormed.size_mul_le (h : d.WellFormed) : d.size * w.bits ≤ 64 * d.words.size := by
  rw [h.words_size]
  exact w.mul_bits_le_wordsFor d.size

theorem WellFormed.words_lt (h : d.WellFormed) : 64 * d.words.size < d.size * w.bits + 64 := by
  rw [h.words_size]
  exact w.wordsFor_lt d.size

theorem WellFormed.roomy_iff (h : d.WellFormed) :
    w.Roomy d.size ↔ d.words.size * 64 < Size.limit := by
  rw [h.words_size]
  exact Width.roomy_iff

theorem WellFormed.spare (h : d.WellFormed) : Size.sub (d.words.size * 64) (d.size * w.bits) =
    .ok (d.words.size * 64 - d.size * w.bits) := by
  have hle := h.size_mul_le
  exact Size.sub_of_le (by omega)

theorem WellFormed.address (h : d.WellFormed) {i : Nat} (hi : i ≤ d.size) :
    d.address i = .ok (w.cellAt i) :=
  Width.address_of_countable (h.countable.mono hi)

theorem WellFormed.cell (h : d.WellFormed) {i : Nat} (hi : i < d.size) :
    d.cell i = .ok (w.cellAt i) := by
  unfold Dense.cell
  rw [bind_of_ok (ensure_of hi)]
  exact h.address (Nat.le_of_lt hi)

theorem cell_refused {i : Nat} (hi : ¬i < d.size) :
    d.cell i = .error (.indexPastEnd i d.size) :=
  bind_of_error (ensure_of_not hi)

theorem WellFormed.words_small (h : d.WellFormed) : d.words.size < Size.limit / 32 := by
  rw [h.words_size]
  exact h.countable.wordsFor_lt

theorem WellFormed.words_size_lt (h : d.WellFormed) : d.words.size < Size.limit :=
  Nat.lt_of_lt_of_le h.words_small (Nat.div_le_self _ _)

theorem wellFormed_empty : (empty : Dense w).WellFormed :=
  wellFormed_iff.mpr ⟨w.countable_zero, w.wordsFor_zero.symm⟩

end Dense

end NarrowVec
