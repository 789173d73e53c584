import NarrowVec.Proofs.SingleSteps

/-!
# Growing back without filling

A store that has only lost elements still has the first words of the old one, down to the last bit.
When it grows again and the new elements are not filled, they show what these words hold: an element
that lies within them is back, the one that reaches past them has its low bits, and all others are
zero.  How the store was shrunk, at once or in steps of any kind, makes no difference.
-/

set_option autoImplicit false

namespace NarrowVec.Dense

variable {w : Width} {d d' : Dense w} {i m n : Nat} {old new : Word}

/-! ## Shrinking -/

theorem setSize_shorter (h : d.WellFormed) (hn : n ≤ d.size) :
    ∃ d', d.setSize n = .ok d' ∧ d.Becomes d' (d.toList.take n) := by
  obtain ⟨d', rest, hset, hrest, hd'⟩ := setSize_spec (d := d) (h.countable.mono hn)
  rw [Nat.sub_eq_zero_of_le hn] at hrest
  rw [List.eq_nil_of_length_eq_zero hrest, List.append_nil] at hd'
  exact ⟨d', hset, hd'⟩

inductive Shrink where
  | truncate (count : Nat)
  | resize (count : Nat) (value : Word)
  | setSize (count : Nat)
  | pop
deriving DecidableEq, Repr

namespace Shrink

def run (d : Dense w) : Shrink → Except Fault (Dense w)
  | truncate count => d.truncate count
  | resize count value => d.resize count value
  | setSize count => d.setSize count
  | pop => Prod.snd <$> d.pop

def runAll (d : Dense w) : List Shrink → Except Fault (Dense w)
  | [] => return d
  | step :: rest => do
    let d ← step.run d
    runAll d rest

def left (size : Nat) : Shrink → Nat
  | truncate count => min count size
  | resize count _ => count
  | setSize count => count
  | pop => size - 1

/-- The steps lead from the first size to the second one and none of them adds an element. -/
def Reaches : Nat → List Shrink → Nat → Prop
  | size, [], last => size = last
  | size, step :: rest, last => step.left size ≤ size ∧ Reaches (step.left size) rest last

theorem reaches_le (steps : List Shrink) : ∀ {n : Nat}, Reaches n steps m → m ≤ n := by
  induction steps with
  | nil =>
      intro n h
      exact Nat.le_of_eq h.symm
  | cons step rest ih =>
      intro n h
      exact Nat.le_trans (ih h.2) h.1

theorem run_spec (h : d.WellFormed) (step : Shrink) (hle : step.left d.size ≤ d.size) :
    ∃ d', step.run d = .ok d' ∧ d.Becomes d' (d.toList.take (step.left d.size)) := by
  cases step with
  | truncate count =>
      obtain ⟨d', htruncate, hd'⟩ := truncate_spec h count
      rw [List.take_eq_take_min, length_toList] at hd'
      exact ⟨d', htruncate, hd'⟩
  | resize count value => exact shorten_spec h hle value
  | setSize count => exact setSize_shorter h hle
  | pop =>
      obtain ⟨d', hpop, hd'⟩ := pop_spec h
      rw [List.dropLast_eq_take, length_toList] at hd'
      exact ⟨d', map_eq_ok_iff.mpr ⟨_, hpop, rfl⟩, hd'⟩

theorem runAll_spec (steps : List Shrink) :
    ∀ {d : Dense w}, d.WellFormed → Reaches d.size steps m →
      ∃ d', runAll d steps = .ok d' ∧ d.Becomes d' (d.toList.take m) := by
  induction steps with
  | nil =>
      intro d h hm
      refine ⟨d, rfl, ?_⟩
      rw [← hm, ← length_toList d, List.take_length]
      exact Becomes.refl h
  | cons step rest ih =>
      intro d h hsteps
      obtain ⟨hle, hrest⟩ := hsteps
      obtain ⟨mid, hstep, hmid⟩ := run_spec h step hle
      have hsize : mid.size = step.left d.size := hmid.size.trans (length_take_toList hle)
      rw [← hsize] at hrest hle hmid
      obtain ⟨d', hrun, hd'⟩ := ih hmid.wellFormed hrest
      exact ⟨d', (bind_of_ok hstep).trans hrun, hmid.take_take hd' (reaches_le rest hrest) hle⟩

end Shrink

/-! ## Growing back -/

/-- The bits of a store that grows back are those of the words that it kept, and zeros. -/
theorem Becomes.bit_regrown (h : d.Becomes d' (d.toList.take m)) (hm : m ≤ d.size) {p : Nat}
    (hp : p < 64 * w.wordsFor n) : (d'.words.resize (w.wordsFor n)).bit p =
      (decide (p < 64 * w.wordsFor m) && d.words.bit p) := by
  have hwords : d'.words.size = w.wordsFor m := by
    rw [h.words_size, length_take_toList hm]
  rw [Words.bit_resize, decide_eq_true hp, Bool.true_and]
  by_cases hkept : p < 64 * w.wordsFor m
  · rw [decide_eq_true hkept, Bool.true_and]
    exact h.bit_of_take hm (hwords ▸ hkept)
  · rw [decide_eq_false hkept, Bool.false_and]
    exact Words.bit_eq_false_of_le (by omega)

/-- Element `i` changed from `old` to `new` when all bits from the flattened position `stop` on
were replaced by zeros. -/
structure Cleared (w : Width) (stop i : Nat) (old new : Word) : Prop where
  bit : ∀ j, new.getLsbD j = (decide (i * w.bits + j < stop) && old.getLsbD j)
  before : (i + 1) * w.bits ≤ stop → new = old
  across : i * w.bits ≤ stop → new.toNat = old.toNat % 2 ^ (stop - i * w.bits)
  behind : stop ≤ i * w.bits → new = 0

theorem cleared_of_bits {stop : Nat} (hfits : w.truncate old = old)
    (hbit : ∀ j, new.getLsbD j = (decide (i * w.bits + j < stop) && old.getLsbD j)) :
    Cleared w stop i old new where
  bit := hbit
  before hle := by
    apply BitVec.eq_of_getLsbD_eq
    intro j _
    rw [Nat.succ_mul] at hle
    rw [hbit, ← hfits, Width.getLsbD_truncate]
    by_cases hj : j < w.bits
    · have hin : i * w.bits + j < stop := by omega
      rw [decide_eq_true hin, Bool.true_and]
    · rw [decide_eq_false hj, Bool.false_and, Bool.and_false]
  across hle := by
    apply Nat.eq_of_testBit_eq
    intro j
    have hiff : i * w.bits + j < stop ↔ j < stop - i * w.bits := by omega
    rw [Nat.testBit_mod_two_pow, BitVec.testBit_toNat, BitVec.testBit_toNat, hbit]
    simp only [hiff]
  behind hle := by
    apply BitVec.eq_of_getLsbD_eq
    intro j _
    have hout : ¬i * w.bits + j < stop := by omega
    rw [hbit, decide_eq_false hout, Bool.false_and]
    simp

/-- A store that is shrunk to `m` elements in any way and then grown to `n` without filling has the
old elements, with zeros for all bits behind the words that `m` elements need. -/
theorem regrown_bits_survive (h : d.WellFormed) (steps : List Shrink)
    (hsteps : Shrink.Reaches d.size steps m) (hmn : m ≤ n) (hn : n ≤ d.size) :
    ∃ k d' d'', w.wordCount m = .ok k ∧ Shrink.runAll d steps = .ok d' ∧ d'.size = m ∧
      d'.setSize n = .ok d'' ∧ d''.size = n ∧
      ∀ i, i < n → ∃ old new, d.get? i = .ok (some old) ∧ d''.get? i = .ok (some new) ∧
        Cleared w (64 * k) i old new := by
  have hm : m ≤ d.size := Nat.le_trans hmn hn
  have hcount : w.Countable n := h.countable.mono hn
  obtain ⟨d', hrun, hd'⟩ := Shrink.runAll_spec steps h hsteps
  have hgrown := (Becomes.of_resize d' (max d'.room (w.wordsFor n)) hcount).wellFormed
  refine ⟨w.wordsFor m, d', _, Width.wordCount_of_countable (hcount.mono hmn), hrun,
    hd'.size.trans (length_take_toList hm), setSize_eq hcount, rfl, ?_⟩
  intro i hi
  have hold := getElem?_toList (Nat.lt_of_lt_of_le hi hn)
  refine ⟨_, _, (get?_spec h i).trans (congrArg Except.ok hold),
    (get?_spec hgrown i).trans (congrArg Except.ok (getElem?_toList hi)), ?_⟩
  apply cleared_of_bits Words.truncate_slice
  intro j
  have hend : (i + 1) * w.bits ≤ 64 * w.wordsFor n :=
    Nat.le_trans (Nat.mul_le_mul_right w.bits hi) (w.mul_bits_le_wordsFor n)
  rw [Nat.succ_mul] at hend
  rw [Words.getLsbD_slice, Words.getLsbD_slice]
  by_cases hj : j < w.bits
  · rw [hd'.bit_regrown hm (by omega), Bool.and_left_comm]
  · simp [hj]

/-- Three elements of 40 bits in two words that have all their bits set. -/
def brimming : Dense { bits := 40 } := ⟨#[BitVec.allOnes 64, BitVec.allOnes 64], 3, 2⟩

theorem regrown_of_straddling : ∃ (k : Nat) (d' d'' : Dense { bits := 40 }),
    Width.wordCount { bits := 40 } 1 = .ok k ∧
    Shrink.runAll brimming [.resize 2 0, .pop] = .ok d' ∧ d'.setSize 3 = .ok d'' ∧
    ∀ i, i < 3 → ∃ old new, brimming.get? i = .ok (some old) ∧ d''.get? i = .ok (some new) ∧
      Cleared { bits := 40 } (64 * k) i old new := by
  have hwf : brimming.WellFormed := rfl
  have hsteps : Shrink.Reaches brimming.size [.resize 2 0, .pop] 1 := ⟨by decide, by decide, rfl⟩
  obtain ⟨k, d', d'', hcount, hrun, _, hset, _, helements⟩ :=
    regrown_bits_survive hwf [.resize 2 0, .pop] hsteps (by decide) (Nat.le_refl 3)
  exact ⟨k, d', d'', hcount, hrun, hset, helements⟩

/-- The first element lies in the word that stays, and 24 bits of the second one do. -/
example : (brimming.truncate 1 >>= fun d => d.setSize 3).map toList =
    .ok [0xff_ffff_ffff, 0xff_ffff, 0] := rfl

end NarrowVec.Dense
