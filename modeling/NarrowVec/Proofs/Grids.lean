import NarrowVec.Cursor

/-!
# Cursors on a grid

Positions form a grid when they are numbered and stepping adds to the number.  A cursor on a grid
is given by the numbers of its two ends: every move keeps it one, and its count is the distance
between them.  Only a jump over many cells can be refused, and on most grids none is.
-/

set_option autoImplicit false

namespace NarrowVec

variable {ρ : Type} [Position ρ] {cell : Nat → ρ} {size lo hi n : Nat}

/-- The positions `cell 0` to `cell size` are steps apart. -/
structure Position.Grid (cell : Nat → ρ) (size : Nat) : Prop where
  next : ∀ {i}, i < size → Position.advance (cell i) 1 = .ok (cell (i + 1))
  jump : ∀ {i k p}, i + k ≤ size → Position.advance (cell i) k = .ok p → p = cell (i + k)
  retreat : ∀ {i k}, k ≤ i → i ≤ size → Position.retreat (cell i) k = .ok (cell (i - k))

def Position.Reaches (cell : Nat → ρ) (size : Nat) : Prop :=
  ∀ i k, i + k ≤ size → Position.advance (cell i) k = .ok (cell (i + k))

namespace Cursor

def span (cell : Nat → ρ) (lo hi : Nat) : Cursor ρ := ⟨cell lo, cell hi, hi - lo⟩

omit [Position ρ] in
@[simp] theorem count_span : (span cell lo hi).count = hi - lo := rfl

/-! ## Single moves -/

theorem popLow_empty (h : hi ≤ lo) : (span cell lo hi).popLow = .ok (none, span cell lo hi) := by
  have hcount : (span cell lo hi).count = 0 := Nat.sub_eq_zero_of_le h
  rw [popLow, if_pos hcount]
  rfl

theorem popLow_span (g : Position.Grid cell size) (h : lo < hi) (hsize : hi ≤ size) :
    (span cell lo hi).popLow = .ok (some (cell lo), span cell (lo + 1) hi) := by
  have hcount : ¬(span cell lo hi).count = 0 := by
    rw [count_span]
    omega
  have hnext : Position.advance (span cell lo hi).low 1 = .ok (cell (lo + 1)) := g.next (by omega)
  have hrest : hi - lo - 1 = hi - (lo + 1) := by omega
  rw [popLow, if_neg hcount, bind_of_ok hnext,
    bind_of_ok (Size.sub_of_le (Nat.pos_of_ne_zero hcount)), count_span, hrest]
  rfl

theorem popHigh_empty (h : hi ≤ lo) : (span cell lo hi).popHigh = .ok (none, span cell lo hi) := by
  have hcount : (span cell lo hi).count = 0 := Nat.sub_eq_zero_of_le h
  rw [popHigh, if_pos hcount]
  rfl

theorem popHigh_span (g : Position.Grid cell size) (h : lo < hi) (hsize : hi ≤ size) :
    (span cell lo hi).popHigh = .ok (some (cell (hi - 1)), span cell lo (hi - 1)) := by
  have hcount : ¬(span cell lo hi).count = 0 := by
    rw [count_span]
    omega
  have hback : Position.retreat (span cell lo hi).high 1 = .ok (cell (hi - 1)) :=
    g.retreat (by omega) hsize
  have hrest : hi - lo - 1 = hi - 1 - lo := by omega
  rw [popHigh, if_neg hcount, bind_of_ok hback,
    bind_of_ok (Size.sub_of_le (Nat.pos_of_ne_zero hcount)), count_span, hrest]
  rfl

theorem popLowAfter_past (h : hi ≤ lo + n) :
    (span cell lo hi).popLowAfter n = .ok (none, span cell hi hi) := by
  have hcount : (span cell lo hi).count ≤ n := by
    rw [count_span]
    omega
  have hend : (span cell lo hi).exhaust = span cell hi hi := by
    simp only [exhaust, span]
    rw [Nat.sub_self]
  simp only [popLowAfter]
  rw [if_pos hcount, hend]
  rfl

theorem popLowAfter_span (g : Position.Grid cell size)
    (hjump : Position.advance (cell lo) n = .ok (cell (lo + n))) (h : lo + n < hi)
    (hsize : hi ≤ size) :
    (span cell lo hi).popLowAfter n = .ok (some (cell (lo + n)), span cell (lo + n + 1) hi) := by
  have hcount : ¬(span cell lo hi).count ≤ n := by
    rw [count_span]
    omega
  have hmoved : { span cell lo hi with low := cell (lo + n), count := hi - lo - n } =
      span cell (lo + n) hi := by
    simp only [span]
    rw [Nat.sub_sub]
  rw [popLowAfter, if_neg hcount]
  refine (bind_of_ok hjump).trans ?_
  rw [bind_of_ok (Size.sub_of_le (Nat.le_of_not_le hcount)), ← popLow_span g h hsize, ← hmoved]
  rfl

/-- A jump that is refused is the only way to fail. -/
theorem jump_of_popLowAfter (g : Position.Grid cell size) (h : lo + n < hi) (hsize : hi ≤ size)
    {r : Option ρ × Cursor ρ} (hrun : (span cell lo hi).popLowAfter n = .ok r) :
    Position.advance (cell lo) n = .ok (cell (lo + n)) := by
  have hcount : ¬(span cell lo hi).count ≤ n := by
    rw [count_span]
    omega
  simp only [popLowAfter] at hrun
  rw [if_neg hcount] at hrun
  obtain ⟨p, hp, _⟩ := bind_eq_ok_iff.mp hrun
  rw [← g.jump (by omega) hp]
  exact hp

theorem popHighAfter_past (h : hi ≤ lo + n) :
    (span cell lo hi).popHighAfter n = .ok (none, span cell lo lo) := by
  have hcount : (span cell lo hi).count ≤ n := by
    rw [count_span]
    omega
  have hend : { span cell lo hi with high := cell lo, count := 0 } = span cell lo lo := by
    simp only [span]
    rw [Nat.sub_self]
  simp only [popHighAfter]
  rw [if_pos hcount, ← hend]
  rfl

theorem popHighAfter_span (g : Position.Grid cell size) (h : lo + n < hi) (hsize : hi ≤ size) :
    (span cell lo hi).popHighAfter n =
      .ok (some (cell (hi - n - 1)), span cell lo (hi - n - 1)) := by
  have hcount : ¬(span cell lo hi).count ≤ n := by
    rw [count_span]
    omega
  have hmoved : { span cell lo hi with high := cell (hi - n), count := hi - lo - n } =
      span cell lo (hi - n) := by
    simp only [span]
    rw [Nat.sub_right_comm]
  rw [popHighAfter, if_neg hcount]
  refine (bind_of_ok (g.retreat (by omega) hsize)).trans ?_
  rw [bind_of_ok (Size.sub_of_le (Nat.le_of_not_le hcount)),
    ← popHigh_span g (by omega) (by omega), ← hmoved]
  rfl

/-! ## The cells that are left -/

theorem upward_cell (g : Position.Grid cell size) (count : Nat) :
    ∀ i, i + count ≤ size → upward (cell i) count = .ok ((List.range' i count).map cell) := by
  induction count with
  | zero =>
      intro i _
      rfl
  | succ count ih =>
      intro i hsize
      rw [upward, bind_of_ok (g.next (by omega)), bind_of_ok (ih (i + 1) (by omega)),
        List.range'_succ]
      rfl

theorem downward_cell (g : Position.Grid cell size) (count : Nat) :
    ∀ i, i + count ≤ size →
      downward (cell (i + count)) count = .ok ((List.range' i count).reverse.map cell) := by
  induction count with
  | zero =>
      intro i _
      rfl
  | succ count ih =>
      intro i hsize
      have hback : Position.retreat (cell (i + (count + 1))) 1 = .ok (cell (i + count)) :=
        g.retreat (by omega) hsize
      rw [downward, bind_of_ok hback, bind_of_ok (ih i (by omega)), List.range'_concat,
        List.reverse_append, Nat.one_mul]
      rfl

theorem rest_span (g : Position.Grid cell size) (h : lo ≤ hi) (hsize : hi ≤ size) :
    (span cell lo hi).rest = .ok ((List.range' lo (hi - lo)).map cell) :=
  upward_cell g (hi - lo) lo (by omega)

theorem restDown_span (g : Position.Grid cell size) (h : lo ≤ hi) (hsize : hi ≤ size) :
    (span cell lo hi).restDown = .ok ((List.range' lo (hi - lo)).reverse.map cell) := by
  have hdown := downward_cell g (hi - lo) lo (by omega)
  rw [Nat.add_sub_cancel' h] at hdown
  exact hdown

/-- Strides from `lo` on meet every `k`-th cell, the first of them `k - 1` cells ahead. -/
theorem strides_span (g : Position.Grid cell size) (hreach : Position.Reaches cell size)
    {k : Nat} (hk : 0 < k) (hsize : hi ≤ size) (fuel : Nat) :
    ∀ lo, hi ≤ lo + fuel → strides (k - 1) (span cell lo hi) fuel =
      .ok ((List.range ((hi - lo) / k)).map fun i => cell (lo + (k - 1) + i * k)) := by
  induction fuel with
  | zero =>
      intro lo hfuel
      have hzero : hi - lo = 0 := by omega
      rw [hzero, Nat.zero_div]
      rfl
  | succ fuel ih =>
      intro lo hfuel
      rw [strides]
      by_cases hpast : hi ≤ lo + (k - 1)
      · rw [bind_of_ok (popLowAfter_past hpast), Nat.div_eq_of_lt (by omega)]
        rfl
      · have hnext : lo + (k - 1) + 1 = lo + k := by omega
        have hcount : (hi - lo) / k = (hi - (lo + k)) / k + 1 := by
          rw [Nat.div_eq_sub_div hk (by omega), Nat.sub_sub]
        rw [bind_of_ok (popLowAfter_span g (hreach lo (k - 1) (by omega)) (by omega) hsize)]
        simp only
        rw [hnext, bind_of_ok (ih (lo + k) (by omega)), hcount, List.range_succ_eq_map,
          List.map_cons, List.map_map, Nat.zero_mul, Nat.add_zero]
        refine congrArg (fun rest => Except.ok (cell (lo + (k - 1)) :: rest)) ?_
        apply List.map_congr_left
        intro i _
        have hstep : lo + k + (k - 1) + i * k = lo + (k - 1) + (i + 1) * k := by
          rw [Nat.succ_mul]
          omega
        simp only [Function.comp, Nat.succ_eq_add_one, hstep]

theorem everyNth_span (g : Position.Grid cell size) (hreach : Position.Reaches cell size)
    {k : Nat} (hk : 0 < k) (h : lo ≤ hi) (hsize : hi ≤ size) : (span cell lo hi).everyNth k =
      .ok ((List.range (Size.ceilDiv (hi - lo) k)).map fun i => cell (lo + i * k)) := by
  simp only [everyNth]
  rw [bind_of_ok (ensure_of hk)]
  by_cases hempty : hi ≤ lo
  · have hzero : Size.ceilDiv (hi - lo) k = 0 :=
      Nat.le_zero.mp ((Size.ceilDiv_le_iff hk).mpr (by omega))
    rw [bind_of_ok (popLow_empty hempty), hzero]
    rfl
  · have hcount : Size.ceilDiv (hi - lo) k = (hi - (lo + 1)) / k + 1 := by
      unfold Size.ceilDiv
      have hsplit : hi - lo + (k - 1) = hi - (lo + 1) + k := by omega
      rw [hsplit, Nat.add_div_right _ hk]
    rw [bind_of_ok (popLow_span g (by omega) hsize)]
    have hrest : strides (k - 1) (span cell (lo + 1) hi) (span cell (lo + 1) hi).count = _ :=
      strides_span g hreach hk hsize (hi - (lo + 1)) (lo + 1) (by omega)
    simp only
    rw [bind_of_ok hrest, hcount, List.range_succ_eq_map, List.map_cons, List.map_map,
      Nat.zero_mul, Nat.add_zero]
    refine congrArg (fun rest => Except.ok (cell lo :: rest)) ?_
    apply List.map_congr_left
    intro i _
    have hstep : lo + 1 + (k - 1) + i * k = lo + (i + 1) * k := by
      rw [Nat.succ_mul]
      omega
    simp only [Function.comp, Nat.succ_eq_add_one, hstep]

end Cursor

end NarrowVec
