import NarrowVec.Proofs.Counts
import NarrowVec.Words.Lemmas

/-!
# Runs of fields

Consecutive fields of one width, read as a list and overwritten by one.  `Overwrites` says of two
arrays of words that the second is the first with a run of fields replaced: the run reads as the
given values, and every bit outside it is the old one.  Writing a list of values, copying a run
upward and copying a run downward all have this form, also where the two runs overlap.
-/

set_option autoImplicit false

namespace NarrowVec.Words

variable {words old mid new : Words} {w : Width} {p s t n : Nat}

/-! ## The flattened view determines the array -/

theorem eq_of_bit_eq (hsize : old.size = new.size)
    (hbit : ∀ p, p < 64 * old.size → old.bit p = new.bit p) : old = new := by
  refine Array.ext hsize fun i hold hnew => ?_
  apply BitVec.eq_of_getLsbD_eq
  intro j hj
  have h := hbit (64 * i + j) (by omega)
  rw [bit_word old i hj, bit_word new i hj] at h
  simpa [Array.getD, hold, hnew] using h

theorem slice_congr {words' : Words} (h : ∀ j, j < n → words.bit (s + j) = words'.bit (t + j)) :
    words.slice s n = words'.slice t n := by
  apply BitVec.eq_of_getLsbD_eq
  intro j hj
  rw [getLsbD_slice, getLsbD_slice]
  by_cases hn : j < n
  · rw [h j hn]
  · simp [hn]

theorem bit_eq_of_slice_eq {words' : Words} (h : words.slice s n = words'.slice t n) (hn : n ≤ 64)
    {j : Nat} (hj : j < n) : words.bit (s + j) = words'.bit (t + j) := by
  have hslice : ∀ (words : Words) (s : Nat), (words.slice s n).getLsbD j = words.bit (s + j) := by
    intro words s
    have hrange : j < n ∧ j < 64 := ⟨hj, by omega⟩
    rw [getLsbD_slice, decide_eq_true hrange, Bool.true_and]
  rw [← hslice words s, h, hslice]

theorem truncate_slice : w.truncate (words.slice s w.bits) = words.slice s w.bits := by
  apply BitVec.eq_of_getLsbD_eq
  intro j _
  rw [Width.getLsbD_truncate, getLsbD_slice]
  by_cases hj : j < w.bits <;> simp [hj]

/-! ## One field -/

theorem holds_iff {a : Address} : words.Holds a ↔ a.pos + a.width.bits ≤ 64 * words.size := by
  have hoff := a.offset_lt
  have hpos := a.width.pos
  have hle := a.width.le
  simp only [Holds, Address.pos]
  omega

theorem load_ofBit (words : Words) (hsize : words.size < Size.limit)
    (h : p + w.bits ≤ 64 * words.size) : words.load (.ofBit p w) = .ok (words.slice p w.bits) := by
  have hpos := Address.pos_ofBit p w
  have hholds : words.Holds (.ofBit p w) := by
    rw [holds_iff, hpos]
    exact h
  rw [load_of_holds hsize hholds, hpos]
  rfl

/-! ## Runs of fields -/

def fields (words : Words) (w : Width) (s n : Nat) : List Word :=
  (List.range n).map fun i => words.slice (s + i * w.bits) w.bits

@[simp] theorem length_fields : (words.fields w s n).length = n := by
  simp [fields]

@[simp] theorem fields_zero : words.fields w s 0 = [] := rfl

theorem fields_succ :
    words.fields w s (n + 1) = words.slice s w.bits :: words.fields w (s + w.bits) n := by
  simp only [fields]
  rw [List.range_succ_eq_map, List.map_cons, List.map_map, Nat.zero_mul, Nat.add_zero,
    List.cons_inj_right]
  apply List.map_congr_left
  intro i _
  have hpos : s + (i + 1) * w.bits = s + w.bits + i * w.bits := by
    rw [Nat.succ_mul]
    omega
  simp only [Function.comp, hpos]

theorem fields_succ_last :
    words.fields w s (n + 1) = words.fields w s n ++ [words.slice (s + n * w.bits) w.bits] := by
  simp only [fields]
  rw [List.range_succ, List.map_append]
  rfl

theorem fields_add {m : Nat} :
    words.fields w s (m + n) = words.fields w s m ++ words.fields w (s + m * w.bits) n := by
  induction m generalizing s with
  | zero => simp
  | succ m ih =>
      rw [Nat.succ_add_eq_add_succ, Nat.add_succ, fields_succ, fields_succ, ih, List.cons_append]
      congr 3
      rw [Nat.succ_mul]
      omega

theorem getElem?_fields {k : Nat} (h : k < n) :
    (words.fields w s n)[k]? = some (words.slice (s + k * w.bits) w.bits) := by
  simp only [fields]
  rw [List.getElem?_map, List.getElem?_range h]
  rfl

theorem fields_congr {words' : Words}
    (h : ∀ p, s ≤ p → p < s + n * w.bits → words.bit p = words'.bit p) :
    words.fields w s n = words'.fields w s n := by
  simp only [fields]
  apply List.map_congr_left
  intro i hi
  have hi' : i + 1 ≤ n := List.mem_range.mp hi
  have hbound : (i + 1) * w.bits ≤ n * w.bits := Nat.mul_le_mul_right w.bits hi'
  rw [Nat.succ_mul] at hbound
  apply slice_congr
  intro j hj
  exact h _ (by omega) (by omega)

theorem map_truncate_fields :
    (words.fields w s n).map w.truncate = words.fields w s n := by
  simp only [fields]
  rw [List.map_map]
  exact List.map_congr_left fun i _ => truncate_slice

/-! ## Overwriting a run -/

/-- `new` is `old` with the fields from bit `s` on replaced by the values. -/
structure Overwrites (old new : Words) (w : Width) (s : Nat) (values : List Word) : Prop where
  size : new.size = old.size
  fields : new.fields w s values.length = values.map w.truncate
  frame : ∀ p, p < s ∨ s + values.length * w.bits ≤ p → new.bit p = old.bit p

namespace Overwrites

variable {value : Word} {values : List Word}

theorem nil : Overwrites old old w s [] :=
  ⟨rfl, rfl, fun _ _ => rfl⟩

theorem fields_apart (h : Overwrites old new w s values)
    (hapart : t + n * w.bits ≤ s ∨ s + values.length * w.bits ≤ t) :
    new.fields w t n = old.fields w t n :=
  fields_congr fun p hp hlt => h.frame p (by omega)

/-- A field stays overwritten when a run that does not meet it is overwritten next. -/
theorem slice_apart (h : Overwrites old mid w t [value]) (hs : Overwrites mid new w s values)
    (hapart : t + w.bits ≤ s ∨ s + values.length * w.bits ≤ t) :
    new.slice t w.bits = w.truncate value := by
  have hkeep : new.fields w t 1 = mid.fields w t 1 := hs.fields_apart (by omega)
  have hvalue : mid.fields w t 1 = [w.truncate value] := h.fields
  rw [hvalue, fields_succ, fields_zero] at hkeep
  exact List.singleton_inj.mp hkeep

theorem cons (h : Overwrites old mid w s [value]) (hs : Overwrites mid new w (s + w.bits) values) :
    Overwrites old new w s (value :: values) where
  size := hs.size.trans h.size
  fields := by
    have hfirst : new.slice s w.bits = w.truncate value := h.slice_apart hs (.inl (Nat.le_refl _))
    rw [List.length_cons, fields_succ, hs.fields, hfirst, List.map_cons]
  frame p hp := by
    rw [List.length_cons, Nat.succ_mul] at hp
    rw [hs.frame p (by omega), h.frame p (by simp only [List.length_singleton]; omega)]

theorem snoc (h : Overwrites old mid w (s + values.length * w.bits) [value])
    (hs : Overwrites mid new w s values) : Overwrites old new w s (values ++ [value]) where
  size := hs.size.trans h.size
  fields := by
    have hlast : new.slice (s + values.length * w.bits) w.bits = w.truncate value :=
      h.slice_apart hs (.inr (Nat.le_refl _))
    rw [List.length_append, List.length_singleton, fields_succ_last, hs.fields, hlast,
      List.map_append, List.map_singleton]
  frame p hp := by
    rw [List.length_append, List.length_singleton, Nat.succ_mul] at hp
    rw [hs.frame p (by omega), h.frame p (by simp only [List.length_singleton]; omega)]

end Overwrites

theorem store_ofBit (words : Words) (value : Word) (hsize : words.size < Size.limit)
    (h : p + w.bits ≤ 64 * words.size) :
    ∃ words', words.store (.ofBit p w) value = .ok words' ∧ Overwrites words words' w p [value] := by
  have hpos := Address.pos_ofBit p w
  have hwidth : (Address.ofBit p w).width = w := rfl
  have hholds : words.Holds (.ofBit p w) := by
    rw [holds_iff, hpos]
    exact h
  obtain ⟨words', hstore, hkeep, hbit⟩ := store_of_holds hsize hholds value
  rw [hpos, hwidth] at hbit
  refine ⟨words', hstore, hkeep, ?_, ?_⟩
  · simp only [List.length_singleton, fields_succ, fields_zero, List.map_cons, List.map_nil]
    congr 1
    apply BitVec.eq_of_getLsbD_eq
    intro j hj
    rw [getLsbD_slice, Width.getLsbD_truncate, hbit]
    by_cases hjw : j < w.bits
    · simp [hjw, hj]
    · simp [hjw]
  · intro q hq
    rw [hbit, if_neg]
    simp only [List.length_singleton] at hq
    omega

/-! ## Loops over runs -/

theorem next_cellAt (words : Words) {i : Nat} (h : (i + 1) * w.bits ≤ 64 * words.size)
    (hsmall : words.size < Size.limit / 32) : (w.cellAt i).advance 1 = .ok (w.cellAt (i + 1)) := by
  have hpos := w.pos
  have hle := w.le
  rw [Nat.succ_mul] at h
  unfold Size.limit at hsmall
  have hnext := Address.advance_ofBit (p := i * w.bits) (w := w) (n := 1)
    (by unfold Size.limit; omega) (by unfold Size.limit; omega)
  rw [Nat.one_mul, ← Nat.succ_mul] at hnext
  exact hnext

theorem previous_cellAt (w : Width) (i : Nat) : (w.cellAt (i + 1)).retreat 1 = .ok (w.cellAt i) := by
  have hle := w.le
  have hback := Address.retreat_ofBit (p := i * w.bits + w.bits) (w := w) (n := 1)
    (by unfold Size.limit; omega) (by omega)
  rw [Nat.one_mul, Nat.add_sub_cancel, ← Nat.succ_mul] at hback
  exact hback

theorem storeAll_cellAt (values : List Word) :
    ∀ (words : Words) (i : Nat), words.size < Size.limit / 32 →
      (i + values.length) * w.bits ≤ 64 * words.size →
      ∃ words', words.storeAll (w.cellAt i) values = .ok words' ∧
        Overwrites words words' w (i * w.bits) values := by
  induction values with
  | nil =>
      intro words i _ _
      exact ⟨words, rfl, .nil⟩
  | cons value rest ih =>
      intro words i hsmall hfit
      have hcell : (i + 1) * w.bits ≤ 64 * words.size :=
        Nat.le_trans (Nat.mul_le_mul_right w.bits (by simp only [List.length_cons]; omega)) hfit
      have hnext := next_cellAt words hcell hsmall
      rw [Nat.succ_mul] at hcell
      obtain ⟨mid, hstore, hmid⟩ := store_ofBit words value (by omega) hcell
      obtain ⟨words', hrest, hnew⟩ := ih mid (i + 1) (by rw [hmid.size]; exact hsmall)
        (by rw [hmid.size, Nat.add_assoc, Nat.add_comm 1]; exact hfit)
      rw [Nat.succ_mul] at hnew
      refine ⟨words', ?_, hmid.cons hnew⟩
      rw [storeAll, Width.cellAt, bind_of_ok hstore, ← Width.cellAt, bind_of_ok hnext, hrest]

/-- Copying upward reads each field before it is overwritten when the target lies below. -/
theorem copyUp_cellAt (count : Nat) :
    ∀ (words : Words) (i j : Nat), words.size < Size.limit / 32 → j ≤ i →
      (i + count) * w.bits ≤ 64 * words.size →
      ∃ words', words.copyUp (w.cellAt i) (w.cellAt j) count = .ok words' ∧
        Overwrites words words' w (j * w.bits) (words.fields w (i * w.bits) count) := by
  induction count with
  | zero =>
      intro words i j _ _ _
      exact ⟨words, rfl, .nil⟩
  | succ count ih =>
      intro words i j hsmall hji hfit
      have hsource : (i + 1) * w.bits ≤ 64 * words.size :=
        Nat.le_trans (Nat.mul_le_mul_right w.bits (by omega)) hfit
      have hle : (j + 1) * w.bits ≤ (i + 1) * w.bits := Nat.mul_le_mul_right w.bits (by omega)
      have htarget : (j + 1) * w.bits ≤ 64 * words.size := Nat.le_trans hle hsource
      have hnext := next_cellAt words hsource hsmall
      have hnext' := next_cellAt words htarget hsmall
      rw [Nat.succ_mul] at hsource htarget
      have hsize : words.size < Size.limit := by omega
      have hload := load_ofBit words hsize hsource
      obtain ⟨mid, hstore, hmid⟩ :=
        store_ofBit words (words.slice (i * w.bits) w.bits) hsize htarget
      obtain ⟨words', hrest, hnew⟩ := ih mid (i + 1) (j + 1) (by rw [hmid.size]; exact hsmall)
        (by omega) (by rw [hmid.size, Nat.add_assoc, Nat.add_comm 1]; exact hfit)
      rw [Nat.succ_mul, Nat.succ_mul] at hle
      have hkeep : mid.fields w (i * w.bits + w.bits) count =
          words.fields w (i * w.bits + w.bits) count :=
        hmid.fields_apart (by simp only [List.length_singleton]; omega)
      refine ⟨words', ?_, ?_⟩
      · rw [copyUp, Width.cellAt, bind_of_ok hload, Width.cellAt, bind_of_ok hstore,
          ← Width.cellAt, bind_of_ok hnext, ← Width.cellAt, bind_of_ok hnext', hrest]
      · rw [Nat.succ_mul, Nat.succ_mul, hkeep] at hnew
        rw [fields_succ]
        exact hmid.cons hnew

/-- Copying downward reads each field before it is overwritten when the target lies above. -/
theorem copyDown_cellAt (count : Nat) :
    ∀ (words : Words) (i j : Nat), words.size < Size.limit → i ≤ j →
      (j + count) * w.bits ≤ 64 * words.size →
      ∃ words', words.copyDown (w.cellAt (i + count)) (w.cellAt (j + count)) count = .ok words' ∧
        Overwrites words words' w (j * w.bits) (words.fields w (i * w.bits) count) := by
  induction count with
  | zero =>
      intro words i j _ _ _
      exact ⟨words, rfl, .nil⟩
  | succ count ih =>
      intro words i j hsize hij hfit
      have hle : (i + count) * w.bits ≤ (j + count) * w.bits :=
        Nat.mul_le_mul_right w.bits (by omega)
      have htarget : (j + count) * w.bits + w.bits ≤ 64 * words.size := by
        rw [← Nat.succ_mul]
        exact hfit
      have hload : words.load (w.cellAt (i + count)) = _ :=
        load_ofBit words hsize (by omega)
      obtain ⟨mid, hstore, hmid⟩ :=
        store_ofBit words (words.slice ((i + count) * w.bits) w.bits) hsize htarget
      obtain ⟨words', hrest, hnew⟩ := ih mid i j (by rw [hmid.size]; exact hsize) hij
        (by rw [hmid.size]; omega)
      rw [Nat.add_mul, Nat.add_mul] at hle
      have hkeep : mid.fields w (i * w.bits) count = words.fields w (i * w.bits) count :=
        hmid.fields_apart (by rw [Nat.add_mul]; omega)
      refine ⟨words', ?_, ?_⟩
      · rw [copyDown, ← Nat.add_assoc, ← Nat.add_assoc, bind_of_ok (previous_cellAt w _),
          bind_of_ok (previous_cellAt w _), bind_of_ok hload]
        exact (bind_of_ok hstore).trans hrest
      · rw [hkeep] at hnew
        rw [Nat.add_mul, Nat.add_mul] at hmid
        rw [fields_succ_last]
        refine Overwrites.snoc ?_ hnew
        rw [length_fields]
        exact hmid

end NarrowVec.Words
