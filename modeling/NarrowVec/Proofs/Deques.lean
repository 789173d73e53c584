import NarrowVec.Proofs.CellModels
import NarrowVec.Proofs.Grids
import NarrowVec.Scan
import NarrowVec.Visit

/-!
# Walks as deques

A scan of cells that model a list answers what a deque of the elements answers, and a visit what a
deque of cells does.  A call is legal when its own argument is: strides are not of length zero, and
cells that are exchanged by number exist.  Legal calls never fail.
-/

set_option autoImplicit false

namespace NarrowVec

/-! ## Windows of a list -/

/-- The elements with indices from `lo` up to but not including `hi`. -/
def window (values : List Word) (lo hi : Nat) : List Word := (values.take hi).drop lo

section Window

variable {values : List Word} {lo hi n : Nat}

theorem length_window (h : hi ≤ values.length) : (window values lo hi).length = hi - lo := by
  simp only [window]
  rw [List.length_drop, List.length_take]
  omega

theorem window_of_le (h : hi ≤ lo) : window values lo hi = [] := by
  simp only [window]
  rw [List.drop_of_length_le]
  rw [List.length_take]
  omega

theorem window_full (values : List Word) : window values 0 values.length = values := by
  simp only [window]
  rw [List.take_length, List.drop_zero]

theorem getElem?_window (h : hi ≤ values.length) (hn : lo + n < hi) :
    (window values lo hi)[n]? = some (values.getD (lo + n) 0) := by
  simp only [window]
  rw [List.getElem?_drop, List.getElem?_take, if_pos hn, List.getD_eq_getElem?_getD,
    List.getElem?_eq_getElem (by omega)]
  rfl

theorem getElem?_window_of_le (hn : hi ≤ lo + n) : (window values lo hi)[n]? = none := by
  simp only [window]
  rw [List.getElem?_drop, List.getElem?_take, if_neg (by omega)]

theorem drop_window : (window values lo hi).drop n = window values (lo + n) hi := by
  simp only [window]
  rw [List.drop_drop]

theorem take_window :
    (window values lo hi).take n = window values lo (min (lo + n) hi) := by
  simp only [window]
  rw [List.take_drop, List.take_take]

theorem map_getD_window (h : hi ≤ values.length) :
    (List.range' lo (hi - lo)).map (fun i => values.getD i 0) = window values lo hi := by
  apply List.ext_getElem?
  intro n
  by_cases hn : lo + n < hi
  · rw [getElem?_window h hn, List.getElem?_map, List.getElem?_range' (by omega), Nat.one_mul]
    rfl
  · rw [getElem?_window_of_le (by omega), List.getElem?_eq_none]
    rw [List.length_map, List.length_range']
    omega

end Window

/-! ## Scans -/

namespace Scan

def strided (k : Nat) (values : List Word) : List Word :=
  (List.range (Size.ceilDiv values.length k)).map fun i => values.getD (i * k) 0

/-- A call as a deque of values answers it, and what is left of the deque. -/
def Call.onDeque (values : List Word) : Call → Answer × List Word
  | .popLow => (.item values.head?, values.tail)
  | .popHigh => (.item values.getLast?, values.dropLast)
  | .popLowAfter n => (.item values[n]?, values.drop (n + 1))
  | .popHighAfter n => (.item values.reverse[n]?, values.take (values.length - (n + 1)))
  | .size => (.size values.length, values)
  | .sizeBounds => (.sizeBounds values.length values.length, values)
  | .rest => (.items values, values)
  | .restDown => (.items values.reverse, values)
  | .count => (.size values.length, values)
  | .last => (.item values.getLast?, values)
  | .everyNth k => (.items (strided k values), values)

def Call.Legal : Call → Prop
  | .everyNth k => 0 < k
  | _ => True

instance (call : Call) : Decidable call.Legal :=
  match call with
  | .everyNth k => inferInstanceAs (Decidable (0 < k))
  | .popLow | .popHigh | .popLowAfter _ | .popHighAfter _ | .size | .sizeBounds | .rest | .restDown
  | .count | .last => .isTrue trivial

def onDeque : List Word → List Call → List Answer
  | _, [] => []
  | values, call :: rest => (call.onDeque values).1 :: onDeque (call.onDeque values).2 rest

variable {σ ρ : Type} [Cells σ ρ] [Position ρ] {w : Width} {cell : Nat → ρ}
  {R : σ → List Word → Prop} {s : σ} {values : List Word} {size lo hi : Nat}

omit [Position ρ] in
theorem item_cell (m : Cells.Models w cell R) (h : R s values) {i : Nat} (hi : i < values.length)
    (c : Cursor ρ) : item s (some (cell i), c) = .ok (.item (some (values.getD i 0)), c) :=
  bind_of_ok (m.load_getD h hi)

theorem loadAll_rest (m : Cells.Models w cell R) (g : Position.Grid cell size) (h : R s values)
    (hle : lo ≤ hi) (hsize : hi ≤ size) (hlen : hi ≤ values.length) :
    (Cursor.span cell lo hi).rest >>= Cells.loadAll s = .ok (window values lo hi) := by
  rw [bind_of_ok (Cursor.rest_span g hle hsize), m.loadAll h, map_getD_window hlen]
  intro i hmem
  have := List.mem_range'_1.mp hmem
  omega

theorem loadAll_restDown (m : Cells.Models w cell R) (g : Position.Grid cell size)
    (h : R s values) (hle : lo ≤ hi) (hsize : hi ≤ size) (hlen : hi ≤ values.length) :
    (Cursor.span cell lo hi).restDown >>= Cells.loadAll s = .ok (window values lo hi).reverse := by
  rw [bind_of_ok (Cursor.restDown_span g hle hsize), m.loadAll h, List.map_reverse,
    map_getD_window hlen]
  intro i hmem
  have := List.mem_range'_1.mp (List.mem_reverse.mp hmem)
  omega

theorem loadAll_everyNth (m : Cells.Models w cell R) (g : Position.Grid cell size)
    (hreach : Position.Reaches cell size) (h : R s values) {k : Nat} (hk : 0 < k) (hle : lo ≤ hi)
    (hsize : hi ≤ size) (hlen : hi ≤ values.length) :
    (Cursor.span cell lo hi).everyNth k >>= Cells.loadAll s =
      .ok (strided k (window values lo hi)) := by
  have hbound : ∀ i, i < Size.ceilDiv (hi - lo) k → lo + i * k < hi := by
    intro i hi'
    have : ¬hi - lo ≤ i * k := fun hle' =>
      Nat.not_lt.mpr ((Size.ceilDiv_le_iff hk).mpr hle') hi'
    omega
  have hmap : (List.range (Size.ceilDiv (hi - lo) k)).map (fun i => cell (lo + i * k)) =
      ((List.range (Size.ceilDiv (hi - lo) k)).map fun i => lo + i * k).map cell := by
    rw [List.map_map]
    rfl
  rw [bind_of_ok (Cursor.everyNth_span g hreach hk hle hsize), hmap, m.loadAll h]
  · rw [List.map_map]
    simp only [strided]
    rw [length_window hlen]
    refine congrArg Except.ok (List.map_congr_left fun i hi' => ?_)
    rw [List.getD_eq_getElem?_getD, getElem?_window hlen (hbound i (List.mem_range.mp hi'))]
    rfl
  · intro j hmem
    obtain ⟨i, hi', rfl⟩ := List.mem_map.mp hmem
    have := hbound i (List.mem_range.mp hi')
    omega

/-- A call on the cells from `lo` up to `hi` answers what the deque of their elements answers, and
leaves the cells of the elements that are left. -/
def Follows (cell : Nat → ρ) (s : σ) (values : List Word) (lo hi : Nat) (call : Call) : Prop :=
  ∃ lo' hi', lo' ≤ hi' ∧ hi' ≤ hi ∧
    step s (Cursor.span cell lo hi) call =
      .ok ((call.onDeque (window values lo hi)).1, Cursor.span cell lo' hi') ∧
    window values lo' hi' = (call.onDeque (window values lo hi)).2

theorem follows_popLow (m : Cells.Models w cell R) (g : Position.Grid cell size) (h : R s values)
    (hle : lo ≤ hi) (hsize : hi ≤ size) (hlen : hi ≤ values.length) :
    Follows cell s values lo hi .popLow := by
  simp only [Follows, Call.onDeque, List.head?_eq_getElem?, ← List.drop_one, drop_window]
  by_cases hlt : lo < hi
  · refine ⟨lo + 1, hi, hlt, Nat.le_refl hi, ?_, rfl⟩
    rw [getElem?_window hlen hlt, ← item_cell m h (by omega)]
    exact bind_of_ok (Cursor.popLow_span g hlt hsize)
  · refine ⟨lo, hi, hle, Nat.le_refl hi, ?_, ?_⟩
    · rw [getElem?_window_of_le (by omega)]
      exact bind_of_ok (Cursor.popLow_empty (by omega))
    · rw [window_of_le (by omega), window_of_le (by omega)]

theorem follows_popHigh (m : Cells.Models w cell R) (g : Position.Grid cell size) (h : R s values)
    (hle : lo ≤ hi) (hsize : hi ≤ size) (hlen : hi ≤ values.length) :
    Follows cell s values lo hi .popHigh := by
  simp only [Follows, Call.onDeque, List.getLast?_eq_getElem?, List.dropLast_eq_take,
    length_window hlen, take_window]
  by_cases hlt : lo < hi
  · refine ⟨lo, hi - 1, by omega, Nat.sub_le hi 1, ?_, ?_⟩
    · have hlast : lo + (hi - lo - 1) = hi - 1 := by omega
      rw [getElem?_window hlen (by omega), hlast, ← item_cell m h (by omega)]
      exact bind_of_ok (Cursor.popHigh_span g hlt hsize)
    · have hlast : min (lo + (hi - lo - 1)) hi = hi - 1 := by omega
      rw [hlast]
  · refine ⟨lo, hi, hle, Nat.le_refl hi, ?_, ?_⟩
    · rw [getElem?_window_of_le (by omega)]
      exact bind_of_ok (Cursor.popHigh_empty (by omega))
    · rw [window_of_le (by omega), window_of_le (by omega)]

theorem follows_popLowAfter (m : Cells.Models w cell R) (g : Position.Grid cell size)
    (hreach : Position.Reaches cell size) (h : R s values) (hsize : hi ≤ size)
    (hlen : hi ≤ values.length) (n : Nat) : Follows cell s values lo hi (.popLowAfter n) := by
  simp only [Follows, Call.onDeque, drop_window]
  by_cases hlt : lo + n < hi
  · refine ⟨lo + n + 1, hi, hlt, Nat.le_refl hi, ?_, rfl⟩
    rw [getElem?_window hlen hlt, ← item_cell m h (by omega)]
    exact bind_of_ok (Cursor.popLowAfter_span g (hreach lo n (by omega)) hlt hsize)
  -- To skip past the last cell leaves nothing.
  · refine ⟨hi, hi, Nat.le_refl hi, Nat.le_refl hi, ?_, ?_⟩
    · rw [getElem?_window_of_le (by omega)]
      exact bind_of_ok (Cursor.popLowAfter_past (by omega))
    · rw [window_of_le (by omega), window_of_le (by omega)]

theorem follows_popHighAfter (m : Cells.Models w cell R) (g : Position.Grid cell size)
    (h : R s values) (hle : lo ≤ hi) (hsize : hi ≤ size) (hlen : hi ≤ values.length) (n : Nat) :
    Follows cell s values lo hi (.popHighAfter n) := by
  have hcount : (window values lo hi).length = hi - lo := length_window hlen
  simp only [Follows, Call.onDeque, hcount, take_window]
  by_cases hlt : lo + n < hi
  · refine ⟨lo, hi - n - 1, by omega, by omega, ?_, ?_⟩
    · have hlast : lo + (hi - lo - 1 - n) = hi - n - 1 := by omega
      rw [List.getElem?_reverse (by omega), hcount, getElem?_window hlen (by omega), hlast,
        ← item_cell m h (by omega)]
      exact bind_of_ok (Cursor.popHighAfter_span g hlt hsize)
    · have hlast : min (lo + (hi - lo - (n + 1))) hi = hi - n - 1 := by omega
      rw [hlast]
  · refine ⟨lo, lo, Nat.le_refl lo, hle, ?_, ?_⟩
    · rw [List.getElem?_eq_none (by rw [List.length_reverse]; omega)]
      exact bind_of_ok (Cursor.popHighAfter_past (by omega))
    · rw [window_of_le (by omega), window_of_le (by omega)]

theorem step_span (m : Cells.Models w cell R) (g : Position.Grid cell size)
    (hreach : Position.Reaches cell size) (h : R s values) (hle : lo ≤ hi) (hsize : hi ≤ size)
    (hlen : hi ≤ values.length) (call : Call) (hlegal : call.Legal) :
    Follows cell s values lo hi call := by
  have hcount : (window values lo hi).length = hi - lo := length_window hlen
  have hrest := loadAll_rest m g h hle hsize hlen
  cases call with
  | popLow => exact follows_popLow m g h hle hsize hlen
  | popHigh => exact follows_popHigh m g h hle hsize hlen
  | popLowAfter n => exact follows_popLowAfter m g hreach h hsize hlen n
  | popHighAfter n => exact follows_popHighAfter m g h hle hsize hlen n
  | size | sizeBounds =>
      refine ⟨lo, hi, hle, Nat.le_refl hi, ?_, rfl⟩
      simp only [Call.onDeque, hcount]
      rfl
  | rest => exact ⟨lo, hi, hle, Nat.le_refl hi, bind_of_ok hrest, rfl⟩
  | restDown =>
      exact ⟨lo, hi, hle, Nat.le_refl hi,
        bind_of_ok (loadAll_restDown m g h hle hsize hlen), rfl⟩
  | count => exact ⟨lo, hi, hle, Nat.le_refl hi, bind_of_ok hrest, rfl⟩
  | last => exact ⟨lo, hi, hle, Nat.le_refl hi, bind_of_ok hrest, rfl⟩
  | everyNth k =>
      exact ⟨lo, hi, hle, Nat.le_refl hi,
        bind_of_ok (loadAll_everyNth m g hreach h hlegal hle hsize hlen), rfl⟩

theorem run_span (m : Cells.Models w cell R) (g : Position.Grid cell size)
    (hreach : Position.Reaches cell size) (h : R s values) (calls : List Call) :
    ∀ lo hi, lo ≤ hi → hi ≤ size → hi ≤ values.length → (∀ call ∈ calls, call.Legal) →
      run s (Cursor.span cell lo hi) calls = .ok (onDeque (window values lo hi) calls) := by
  induction calls with
  | nil =>
      intro lo hi _ _ _ _
      rfl
  | cons call rest ih =>
      intro lo hi hle hsize hlen hlegal
      obtain ⟨lo', hi', hle', hhi, hstep, hwindow⟩ :=
        step_span m g hreach h hle hsize hlen call (hlegal call List.mem_cons_self)
      have hrest := ih lo' hi' hle' (by omega) (by omega)
        fun other hother => hlegal other (List.mem_cons_of_mem call hother)
      rw [hwindow] at hrest
      rw [run, bind_of_ok hstep, onDeque]
      exact bind_of_ok hrest

theorem step_illegal (s : σ) (c : Cursor ρ) {call : Call} (hillegal : ¬call.Legal) :
    step s c call = .error .bounds := by
  cases call with
  | everyNth k => exact bind_of_error (bind_of_error (bind_of_error (ensure_of_not hillegal)))
  | _ => exact absurd trivial hillegal

theorem run_illegal (m : Cells.Models w cell R) (g : Position.Grid cell size)
    (hreach : Position.Reaches cell size) (h : R s values) (calls : List Call) :
    ∀ lo hi, lo ≤ hi → hi ≤ size → hi ≤ values.length → (¬∀ call ∈ calls, call.Legal) →
      run s (Cursor.span cell lo hi) calls = .error .bounds := by
  induction calls with
  | nil =>
      intro lo hi _ _ _ hillegal
      simp at hillegal
  | cons call rest ih =>
      intro lo hi hle hsize hlen hillegal
      by_cases hcall : call.Legal
      · obtain ⟨lo', hi', hle', hhi, hstep, _⟩ := step_span m g hreach h hle hsize hlen call hcall
        have hrest := ih lo' hi' hle' (by omega) (by omega) fun hlegal => hillegal fun other hother =>
          (List.mem_cons.mp hother).elim (fun heq => heq ▸ hcall) (hlegal other)
        rw [run, bind_of_ok hstep]
        exact bind_of_error hrest
      · rw [run]
        exact bind_of_error (step_illegal s _ hcall)

end Scan

/-! ## Visits -/

namespace Visit

/-- The cells of a list, of which those from `lo` up to but not including `hi` are left. -/
structure Deque where
  values : List Word
  lo : Nat
  hi : Nat

def Deque.act (w : Width) (text : Nat → Word → String) (values : List Word) (action : Action)
    (i : Nat) : Reply × List Word :=
  let (reply, new) := action.effect w (text i) (values.getD i 0)
  (reply, values.set i new)

def Deque.exchange (values : List Word) (i j : Nat) : List Word :=
  (values.set i (values.getD j 0)).set j (values.getD i 0)

/-- A call as a deque of cells answers it, and the deque after it. -/
def Call.onDeque (w : Width) (text : Nat → Word → String) (d : Deque) : Call → Answer × Deque
  | .popLow action =>
    if d.lo < d.hi then
      let (reply, values) := Deque.act w text d.values action d.lo
      (.reply (some reply), ⟨values, d.lo + 1, d.hi⟩)
    else (.reply none, d)
  | .popHigh action =>
    if d.lo < d.hi then
      let (reply, values) := Deque.act w text d.values action (d.hi - 1)
      (.reply (some reply), ⟨values, d.lo, d.hi - 1⟩)
    else (.reply none, d)
  | .popLowAfter n action =>
    if d.lo + n < d.hi then
      let (reply, values) := Deque.act w text d.values action (d.lo + n)
      (.reply (some reply), ⟨values, d.lo + n + 1, d.hi⟩)
    else (.reply none, ⟨d.values, d.hi, d.hi⟩)
  | .size => (.size (d.hi - d.lo), d)
  | .sizeBounds => (.sizeBounds (d.hi - d.lo) (d.hi - d.lo), d)
  | .swapEnds =>
    if d.lo + 1 < d.hi then
      (.ends (d.values.getD (d.hi - 1) 0) (d.values.getD d.lo 0),
        ⟨Deque.exchange d.values d.lo (d.hi - 1), d.lo + 1, d.hi - 1⟩)
    else (.noPair (d.lo < d.hi), ⟨d.values, d.hi, d.hi⟩)
  | .each action =>
    let (replies, values) :=
      action.effectAll w text (List.range' d.lo (d.hi - d.lo)) d.values
    (.replies replies, ⟨values, d.hi, d.hi⟩)
  | .eachDown action =>
    let (replies, values) :=
      action.effectAll w text (List.range' d.lo (d.hi - d.lo)).reverse d.values
    (.replies replies, ⟨values, d.hi, d.hi⟩)
  | .pairs i j =>
    let values := Deque.exchange d.values (d.lo + i) (d.lo + j)
    (.items (window values d.lo d.hi), ⟨values, d.hi, d.hi⟩)

/-- With `n` cells left, the cells that the call exchanges by number exist. -/
def Call.Legal (n : Nat) : Call → Prop
  | .pairs i j => i < n ∧ j < n
  | _ => True

instance (n : Nat) (call : Call) : Decidable (call.Legal n) :=
  match call with
  | .pairs i j => inferInstanceAs (Decidable (i < n ∧ j < n))
  | .popLow _ | .popHigh _ | .popLowAfter .. | .size | .sizeBounds | .swapEnds | .each _
  | .eachDown _ => .isTrue trivial

def Call.left (n : Nat) : Call → Nat
  | .popLow _ => n - 1
  | .popHigh _ => n - 1
  | .popLowAfter k _ => n - (k + 1)
  | .size => n
  | .sizeBounds => n
  | .swapEnds => n - 2
  | .each _ => 0
  | .eachDown _ => 0
  | .pairs _ _ => 0

/-- Every call of the run is legal when its turn comes. -/
def Legal : Nat → List Call → Prop
  | _, [] => True
  | n, call :: rest => call.Legal n ∧ Legal (call.left n) rest

instance decidableLegal : ∀ (n : Nat) (calls : List Call), Decidable (Legal n calls)
  | _, [] => .isTrue trivial
  | n, call :: rest =>
    have := decidableLegal (call.left n) rest
    inferInstanceAs (Decidable (call.Legal n ∧ Legal (call.left n) rest))

def onDeque (w : Width) (text : Nat → Word → String) (d : Deque) :
    List Call → List Answer × List Word
  | [] => ([], d.values)
  | call :: rest =>
    let (answer, d) := call.onDeque w text d
    let (answers, values) := onDeque w text d rest
    (answer :: answers, values)

variable {σ ρ : Type} [Cells σ ρ] [Position ρ] {w : Width} {cell : Nat → ρ}
  {R : σ → List Word → Prop} {s : σ} {d : Deque} {size : Nat}

/-- The deque is one of the cells of `s`, on a grid of that size. -/
structure Deque.Describes (R : σ → List Word → Prop) (size : Nat) (d : Deque) (s : σ) : Prop where
  related : R s d.values
  ordered : d.lo ≤ d.hi
  in_grid : d.hi ≤ size
  in_list : d.hi ≤ d.values.length

omit [Position ρ] in
theorem act_cell (m : Cells.Models w cell R) (label : ρ → Word → String)
    (h : d.Describes R size s) (action : Action) {i lo hi : Nat} (hi' : i < d.hi) (hle : lo ≤ hi)
    (hhi : hi ≤ d.hi) :
    ∃ s', act label s action (some (cell i), Cursor.span cell lo hi) =
        .ok (.reply (some (Deque.act w (fun i => label (cell i)) d.values action i).1), s',
          Cursor.span cell lo hi) ∧
      Deque.Describes R size
        ⟨(Deque.act w (fun i => label (cell i)) d.values action i).2, lo, hi⟩ s' := by
  obtain ⟨hrel, _, hsize, hlen⟩ := h
  obtain ⟨s', hrun, hs'⟩ := m.run label action hrel (Nat.lt_of_lt_of_le hi' hlen)
  refine ⟨s', bind_of_ok hrun, hs', hle, Nat.le_trans hhi hsize, ?_⟩
  simp only [Deque.act, List.length_set]
  exact Nat.le_trans hhi hlen

theorem swapEnds_span (m : Cells.Models w cell R) (g : Position.Grid cell size)
    (h : d.Describes R size s) (hlt : d.lo + 1 < d.hi) :
    ∃ s', swapEnds s (Cursor.span cell d.lo d.hi) =
        .ok (.ends (d.values.getD (d.hi - 1) 0) (d.values.getD d.lo 0), s',
          Cursor.span cell (d.lo + 1) (d.hi - 1)) ∧
      R s' (Deque.exchange d.values d.lo (d.hi - 1)) := by
  obtain ⟨hrel, _, hsize, hlen⟩ := h
  obtain ⟨s', hswap, hs'⟩ := m.exchange hrel (i := d.lo) (j := d.hi - 1) (by omega) (by omega)
  refine ⟨s', ?_, hs'⟩
  have hleft : Cells.load s' (cell d.lo) = .ok (d.values.getD (d.hi - 1) 0) := by
    apply m.load hs'
    rw [List.getElem?_set_ne (by omega), List.getElem?_set_self (by omega)]
  have hright : Cells.load s' (cell (d.hi - 1)) = .ok (d.values.getD d.lo 0) := by
    apply m.load hs'
    rw [List.getElem?_set_self (by rw [List.length_set]; omega)]
  rw [swapEnds, bind_of_ok (Cursor.popLow_span g (by omega) hsize)]
  simp only
  rw [bind_of_ok (Cursor.popHigh_span g (by omega) hsize)]
  simp only
  rw [bind_of_ok hswap, bind_of_ok hleft, bind_of_ok hright]
  rfl

theorem swapEnds_short (g : Position.Grid cell size) (h : d.Describes R size s)
    (hlt : ¬d.lo + 1 < d.hi) : swapEnds s (Cursor.span cell d.lo d.hi) =
      .ok (.noPair (d.lo < d.hi), s, Cursor.span cell d.hi d.hi) := by
  obtain ⟨_, hle, hsize, _⟩ := h
  simp only [swapEnds]
  by_cases hone : d.lo < d.hi
  · have hend : d.lo + 1 = d.hi := by omega
    rw [bind_of_ok (Cursor.popLow_span g hone hsize), hend]
    simp only
    rw [bind_of_ok (Cursor.popHigh_empty (Nat.le_refl d.hi)), decide_eq_true hone]
    rfl
  · have hend : d.lo = d.hi := by omega
    rw [hend, bind_of_ok (Cursor.popLow_empty (Nat.le_refl d.hi))]
    simp only
    rw [bind_of_ok (Cursor.popHigh_empty (Nat.le_refl d.hi)), decide_eq_false (Nat.lt_irrefl _)]
    rfl

theorem pairs_span (m : Cells.Models w cell R) (g : Position.Grid cell size)
    (h : d.Describes R size s) {i j : Nat} (hi : i < d.hi - d.lo) (hj : j < d.hi - d.lo) :
    ∃ s', pairs s (Cursor.span cell d.lo d.hi) i j =
        .ok (.items (window (Deque.exchange d.values (d.lo + i) (d.lo + j)) d.lo d.hi), s',
          Cursor.span cell d.hi d.hi) ∧
      R s' (Deque.exchange d.values (d.lo + i) (d.lo + j)) := by
  obtain ⟨hrel, hle, hsize, hlen⟩ := h
  obtain ⟨s', hswap, hs'⟩ := m.exchange hrel (i := d.lo + i) (j := d.lo + j) (by omega) (by omega)
  have hafter : R s' (Deque.exchange d.values (d.lo + i) (d.lo + j)) := hs'
  have hlen' : d.hi ≤ (Deque.exchange d.values (d.lo + i) (d.lo + j)).length := by
    simpa [Deque.exchange] using hlen
  refine ⟨s', ?_, hafter⟩
  have hcell : ∀ k, k < d.hi - d.lo →
      ((List.range' d.lo (d.hi - d.lo)).map cell)[k]? = some (cell (d.lo + k)) := by
    intro k hk
    rw [List.getElem?_map, List.getElem?_range' hk, Nat.one_mul]
    rfl
  have hall : Cells.loadAll s' ((List.range' d.lo (d.hi - d.lo)).map cell) =
      .ok (window (Deque.exchange d.values (d.lo + i) (d.lo + j)) d.lo d.hi) := by
    rw [m.loadAll hafter, map_getD_window hlen']
    intro k hmem
    have := List.mem_range'_1.mp hmem
    omega
  rw [pairs, bind_of_ok (Cursor.rest_span g hle hsize), hcell i hi, hcell j hj]
  simp only
  rw [bind_of_ok hswap, bind_of_ok hall]
  simp only [Cursor.exhaust, Cursor.span]
  rw [Nat.sub_self]
  rfl

theorem pairs_illegal (g : Position.Grid cell size) (h : d.Describes R size s) {i j : Nat}
    (hij : ¬(i < d.hi - d.lo ∧ j < d.hi - d.lo)) :
    pairs s (Cursor.span cell d.lo d.hi) i j = .error .bounds := by
  obtain ⟨_, hle, hsize, _⟩ := h
  have hlength : ((List.range' d.lo (d.hi - d.lo)).map cell).length = d.hi - d.lo := by
    rw [List.length_map, List.length_range']
  rw [pairs, bind_of_ok (Cursor.rest_span g hle hsize)]
  split
  · rename_i hp hq
    obtain ⟨hi, _⟩ := List.getElem?_eq_some_iff.mp hp
    obtain ⟨hj, _⟩ := List.getElem?_eq_some_iff.mp hq
    rw [hlength] at hi hj
    exact absurd ⟨hi, hj⟩ hij
  · rfl

theorem step_illegal (g : Position.Grid cell size) (label : ρ → Word → String)
    (h : d.Describes R size s) {call : Call} (hillegal : ¬call.Legal (d.hi - d.lo)) :
    step label s (Cursor.span cell d.lo d.hi) call = .error .bounds := by
  cases call with
  | pairs i j => exact pairs_illegal g h hillegal
  | _ => exact absurd trivial hillegal

/-- The jump that a call makes over cells, if it makes one, is not refused. -/
def Call.Reaches (cell : Nat → ρ) (d : Deque) : Call → Prop
  | .popLowAfter n _ =>
    d.lo + n < d.hi → Position.advance (cell d.lo) n = .ok (cell (d.lo + n))
  | _ => True

omit [Cells σ ρ] in
theorem reaches_of_grid (hreach : Position.Reaches cell size) (h : d.Describes R size s)
    (call : Call) : call.Reaches cell d := by
  cases call with
  | popLowAfter n action =>
      intro hlt
      exact hreach d.lo n (Nat.le_trans (Nat.le_of_lt hlt) h.in_grid)
  | _ => trivial

theorem reaches_of_step (g : Position.Grid cell size) (label : ρ → Word → String)
    (h : d.Describes R size s) {call : Call} {r : Answer × σ × Cursor ρ}
    (hrun : step label s (Cursor.span cell d.lo d.hi) call = .ok r) : call.Reaches cell d := by
  cases call with
  | popLowAfter n action =>
      intro hlt
      obtain ⟨moved, hmove, _⟩ := bind_eq_ok_iff.mp hrun
      exact Cursor.jump_of_popLowAfter g hlt h.in_grid hmove
  | _ => trivial

theorem step_span (m : Cells.Models w cell R) (g : Position.Grid cell size)
    (label : ρ → Word → String) (h : d.Describes R size s) {call : Call}
    (hreach : call.Reaches cell d) (hlegal : call.Legal (d.hi - d.lo)) :
    ∃ s', step label s (Cursor.span cell d.lo d.hi) call =
        .ok ((call.onDeque w (fun i => label (cell i)) d).1, s',
          Cursor.span cell (call.onDeque w (fun i => label (cell i)) d).2.lo
            (call.onDeque w (fun i => label (cell i)) d).2.hi) ∧
      (call.onDeque w (fun i => label (cell i)) d).2.Describes R size s' ∧
      (call.onDeque w (fun i => label (cell i)) d).2.hi -
        (call.onDeque w (fun i => label (cell i)) d).2.lo = call.left (d.hi - d.lo) := by
  have hdeque := h
  obtain ⟨hrel, hle, hsize, hlen⟩ := h
  cases call with
  | popLow action =>
      by_cases hlt : d.lo < d.hi
      · simp only [Call.onDeque, if_pos hlt]
        obtain ⟨s', hact, hs'⟩ := act_cell m label hdeque action hlt hlt (Nat.le_refl d.hi)
        refine ⟨s', (bind_of_ok (Cursor.popLow_span g hlt hsize)).trans hact, hs', ?_⟩
        simp only [Call.left]
        omega
      · simp only [Call.onDeque, if_neg hlt]
        refine ⟨s, bind_of_ok (Cursor.popLow_empty (by omega)), hdeque, ?_⟩
        simp only [Call.left]
        omega
  | popHigh action =>
      by_cases hlt : d.lo < d.hi
      · have hlast : d.hi - 1 < d.hi := by omega
        have hleft : d.lo ≤ d.hi - 1 := by omega
        simp only [Call.onDeque, if_pos hlt]
        obtain ⟨s', hact, hs'⟩ := act_cell m label hdeque action hlast hleft (Nat.sub_le d.hi 1)
        refine ⟨s', (bind_of_ok (Cursor.popHigh_span g hlt hsize)).trans hact, hs', ?_⟩
        simp only [Call.left]
        omega
      · simp only [Call.onDeque, if_neg hlt]
        refine ⟨s, bind_of_ok (Cursor.popHigh_empty (by omega)), hdeque, ?_⟩
        simp only [Call.left]
        omega
  | popLowAfter n action =>
      by_cases hlt : d.lo + n < d.hi
      · simp only [Call.onDeque, if_pos hlt]
        obtain ⟨s', hact, hs'⟩ := act_cell m label hdeque action hlt hlt (Nat.le_refl d.hi)
        have hmove := Cursor.popLowAfter_span g (hreach hlt) hlt hsize
        refine ⟨s', (bind_of_ok hmove).trans hact, hs', ?_⟩
        simp only [Call.left]
        omega
      · simp only [Call.onDeque, if_neg hlt]
        refine ⟨s, bind_of_ok (Cursor.popLowAfter_past (by omega)),
          ⟨hrel, Nat.le_refl _, hsize, hlen⟩, ?_⟩
        simp only [Call.left]
        omega
  | size | sizeBounds => exact ⟨s, rfl, hdeque, rfl⟩
  | swapEnds =>
      by_cases hlt : d.lo + 1 < d.hi
      · simp only [Call.onDeque, if_pos hlt]
        obtain ⟨s', hswap, hs'⟩ := swapEnds_span m g hdeque hlt
        refine ⟨s', hswap, ⟨hs', by simp only; omega, by simp only; omega, ?_⟩, ?_⟩
        · simp only [Deque.exchange, List.length_set]
          omega
        · simp only [Call.left]
          omega
      · simp only [Call.onDeque, if_neg hlt]
        refine ⟨s, swapEnds_short g hdeque hlt, ⟨hrel, Nat.le_refl _, hsize, hlen⟩, ?_⟩
        simp only [Call.left]
        omega
  | each action =>
      obtain ⟨s', hrun, hs'⟩ := m.runAll label action (List.range' d.lo (d.hi - d.lo)) hrel
        fun i hi => by
          have := List.mem_range'_1.mp hi
          omega
      refine ⟨s', ?_, ⟨hs', Nat.le_refl _, hsize, ?_⟩, Nat.sub_self _⟩
      · refine (bind_of_ok (Cursor.rest_span g hle hsize)).trans ((bind_of_ok hrun).trans ?_)
        simp only [Call.onDeque, Cursor.span, Cursor.exhaust, Nat.sub_self]
        rfl
      · simpa [Call.onDeque, Action.length_effectAll] using hlen
  | eachDown action =>
      obtain ⟨s', hrun, hs'⟩ := m.runAll label action (List.range' d.lo (d.hi - d.lo)).reverse hrel
        fun i hi => by
          have := List.mem_range'_1.mp (List.mem_reverse.mp hi)
          omega
      refine ⟨s', ?_, ⟨hs', Nat.le_refl _, hsize, ?_⟩, Nat.sub_self _⟩
      · refine (bind_of_ok (Cursor.restDown_span g hle hsize)).trans ((bind_of_ok hrun).trans ?_)
        simp only [Call.onDeque, Cursor.span, Cursor.exhaust, Nat.sub_self]
        rfl
      · simpa [Call.onDeque, Action.length_effectAll] using hlen
  | pairs i j =>
      obtain ⟨s', hpairs, hs'⟩ := pairs_span m g hdeque hlegal.1 hlegal.2
      refine ⟨s', hpairs, ⟨hs', Nat.le_refl _, hsize, ?_⟩, Nat.sub_self _⟩
      simpa [Call.onDeque, Deque.exchange] using hlen

theorem run_span (m : Cells.Models w cell R) (g : Position.Grid cell size)
    (hreach : Position.Reaches cell size) (label : ρ → Word → String) (calls : List Call) :
    ∀ {s : σ} {d : Deque}, d.Describes R size s → Legal (d.hi - d.lo) calls →
      ∃ s', run label s (Cursor.span cell d.lo d.hi) calls =
          .ok ((onDeque w (fun i => label (cell i)) d calls).1, s') ∧
        R s' (onDeque w (fun i => label (cell i)) d calls).2 := by
  induction calls with
  | nil =>
      intro s d h _
      exact ⟨s, rfl, h.related⟩
  | cons call rest ih =>
      intro s d h hlegal
      obtain ⟨mid, hstep, hmid, hleft⟩ :=
        step_span m g label h (reaches_of_grid hreach h call) hlegal.1
      obtain ⟨s', hrest, hs'⟩ := ih hmid (by rw [hleft]; exact hlegal.2)
      refine ⟨s', ?_, hs'⟩
      rw [run, bind_of_ok hstep]
      exact bind_of_ok hrest

/-- A run with an illegal call is refused as a whole, for that call alone. -/
theorem run_illegal (m : Cells.Models w cell R) (g : Position.Grid cell size)
    (hreach : Position.Reaches cell size) (label : ρ → Word → String) (calls : List Call) :
    ∀ {s : σ} {d : Deque}, d.Describes R size s → ¬Legal (d.hi - d.lo) calls →
      run label s (Cursor.span cell d.lo d.hi) calls = .error .bounds := by
  induction calls with
  | nil =>
      intro s d _ hillegal
      exact absurd trivial hillegal
  | cons call rest ih =>
      intro s d h hillegal
      by_cases hcall : call.Legal (d.hi - d.lo)
      · obtain ⟨mid, hstep, hmid, hleft⟩ :=
          step_span m g label h (reaches_of_grid hreach h call) hcall
        have hrest := ih hmid fun hlegal => hillegal ⟨hcall, by rw [← hleft]; exact hlegal⟩
        rw [run, bind_of_ok hstep]
        exact bind_of_error hrest
      · rw [run]
        exact bind_of_error (step_illegal g label h hcall)

theorem related_of_run (m : Cells.Models w cell R) (g : Position.Grid cell size)
    (label : ρ → Word → String) (calls : List Call) :
    ∀ {s s' : σ} {d : Deque} {answers : List Answer}, d.Describes R size s →
      run label s (Cursor.span cell d.lo d.hi) calls = .ok (answers, s') →
      ∃ values, R s' values := by
  induction calls with
  | nil =>
      intro s s' d answers h hrun
      cases hrun
      exact ⟨d.values, h.related⟩
  | cons call rest ih =>
      intro s s' d answers h hrun
      obtain ⟨r, hstep, hrest⟩ := bind_eq_ok_iff.mp hrun
      have hlegal : call.Legal (d.hi - d.lo) := by
        by_cases hcall : call.Legal (d.hi - d.lo)
        · exact hcall
        · rw [step_illegal g label h hcall] at hstep
          cases hstep
      obtain ⟨mid, hspan, hmid, _⟩ :=
        step_span m g label h (reaches_of_step g label h hstep) hlegal
      rw [hstep] at hspan
      cases hspan
      obtain ⟨_, hrun', hlast⟩ := bind_eq_ok_iff.mp hrest
      cases hlast
      exact ih hmid hrun'

end Visit

end NarrowVec
