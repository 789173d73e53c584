import Mathlib.Data.List.Nodup
import NarrowVec.Proofs.Deques

/-!
# Cells that are held

A caller of a visit may keep the cells that it was handed and act on them later, in any order and as
often as it likes.  What it sees is what it would see of cells that are kept apart: an action on one
of them reaches no other, and a cell that is handed out holds the element that always was there.
-/

set_option autoImplicit false

namespace NarrowVec.Visit

inductive Take where
  | low
  | high
  | lowAfter (n : Nat)

/-- A step of a caller that keeps every cell it is handed. -/
inductive Hold where
  | take (t : Take)
  | act (k : Nat) (action : Action)

section Program

variable {σ ρ : Type} [Cells σ ρ] [Position ρ]

def Take.move (c : Cursor ρ) : Take → Except Fault (Option ρ × Cursor ρ)
  | low => c.popLow
  | high => c.popHigh
  | lowAfter n => c.popLowAfter n

/-- The replies to the actions of a caller that holds the cells at the listed positions, and the
cells after its last step. -/
def hold (label : ρ → Word → String) (cells : σ) (c : Cursor ρ) (held : List ρ) :
    List Hold → Except Fault (List (Option Reply) × σ)
  | [] => return ([], cells)
  | .take t :: rest => do
    let (p, c) ← t.move c
    hold label cells c (held ++ p.toList) rest
  | .act k action :: rest =>
    match held[k]? with
    | some p => do
      let (reply, cells) ← action.run label cells p
      let (replies, cells) ← hold label cells c held rest
      return (some reply :: replies, cells)
    | none => do
      let (replies, cells) ← hold label cells c held rest
      return (none :: replies, cells)

end Program

/-! ## Cells that are kept apart -/

def Take.onDeque (d : Deque) : Take → Option Nat × Deque
  | low => if d.lo < d.hi then (some d.lo, { d with lo := d.lo + 1 }) else (none, d)
  | high => if d.lo < d.hi then (some (d.hi - 1), { d with hi := d.hi - 1 }) else (none, d)
  | lowAfter n =>
    if d.lo + n < d.hi then (some (d.lo + n), { d with lo := d.lo + n + 1 })
    else (none, { d with lo := d.hi })

def Deque.cell (d : Deque) (i : Nat) : Nat × Word := (i, d.values.getD i 0)

/-- The same steps when every cell that is taken from the deque is kept apart from all others; also
the cells that are held in the end, each with its index. -/
def apart (w : Width) (text : Nat → Word → String) (d : Deque) (held : List (Nat × Word)) :
    List Hold → List (Option Reply) × List (Nat × Word)
  | [] => ([], held)
  | .take t :: rest =>
    let (i, left) := t.onDeque d
    apart w text left (held ++ i.toList.map d.cell) rest
  | .act k action :: rest =>
    match held[k]? with
    | some (i, value) =>
      let (reply, new) := action.effect w (text i) value
      let (replies, held) := apart w text d (held.set k (i, new)) rest
      (some reply :: replies, held)
    | none =>
      let (replies, held) := apart w text d held rest
      (none :: replies, held)

/-- The values are the elements, except where cells are held apart. -/
structure Settled (elements : List Word) (held : List (Nat × Word)) (values : List Word) :
    Prop where
  length : values.length = elements.length
  distinct : (held.map Prod.fst).Nodup
  kept : ∀ {i value}, (i, value) ∈ held → values[i]? = some value
  rest : ∀ {i}, i ∉ held.map Prod.fst → values[i]? = elements[i]?

theorem Take.values_onDeque (d : Deque) (t : Take) : (t.onDeque d).2.values = d.values := by
  cases t <;> (simp only [onDeque]; split <;> rfl)

section Steps

variable {w : Width} {text : Nat → Word → String} {d : Deque} {held : List (Nat × Word)}
  {elements values : List Word}

theorem settled_nil (elements : List Word) : Settled elements [] elements where
  length := rfl
  distinct := List.nodup_nil
  kept h := absurd h List.not_mem_nil
  rest _ := rfl

theorem Settled.take {i : Nat} (h : Settled d.values held values) (hi : i < d.values.length)
    (hnew : i ∉ held.map Prod.fst) : Settled d.values (held ++ [d.cell i]) values where
  length := h.length
  distinct := by
    rw [List.map_append, List.map_singleton, List.nodup_append]
    refine ⟨h.distinct, List.pairwise_singleton _ _, ?_⟩
    intro j hj k hk heq
    rw [heq, List.mem_singleton.mp hk] at hj
    exact hnew hj
  kept {j value} hmem := by
    rcases List.mem_append.mp hmem with hbefore | hlast
    · exact h.kept hbefore
    · obtain ⟨rfl, rfl⟩ := Prod.mk.inj (List.mem_singleton.mp hlast)
      rw [h.rest hnew, List.getD_eq_getElem?_getD, List.getElem?_eq_getElem hi]
      rfl
  rest {j} hmem := by
    rw [List.map_append, List.mem_append, not_or] at hmem
    exact h.rest hmem.1

theorem map_fst_set {k i : Nat} {value : Word} (hk : held[k]? = some (i, value)) (new : Word) :
    (held.set k (i, new)).map Prod.fst = held.map Prod.fst := by
  have hindex : (held.map Prod.fst)[k]? = some i := by rw [List.getElem?_map, hk]; rfl
  obtain ⟨hlt, rfl⟩ := List.getElem?_eq_some_iff.mp hindex
  rw [List.map_set]
  exact List.set_getElem_self hlt

theorem Settled.index_ne {k k' i j : Nat} {value other : Word} (h : Settled elements held values)
    (hk : held[k]? = some (i, value)) (hk' : held[k']? = some (j, other)) (hne : k ≠ k') :
    i ≠ j := by
  have hindex : (held.map Prod.fst)[k]? = some i := by rw [List.getElem?_map, hk]; rfl
  have hindex' : (held.map Prod.fst)[k']? = some j := by rw [List.getElem?_map, hk']; rfl
  have hlt : k < (held.map Prod.fst).length := (List.getElem?_eq_some_iff.mp hindex).1
  rintro rfl
  exact hne ((List.getElem?_inj hlt h.distinct).mp (hindex.trans hindex'.symm))

theorem Settled.act {k i : Nat} {value : Word} (h : Settled elements held values)
    (hk : held[k]? = some (i, value)) (new : Word) :
    Settled elements (held.set k (i, new)) (values.set i new) := by
  obtain ⟨hlt, hget⟩ := List.getElem?_eq_some_iff.mp hk
  have hmem : i ∈ held.map Prod.fst :=
    List.mem_map.mpr ⟨(i, value), hget ▸ List.getElem_mem hlt, rfl⟩
  have hi : i < values.length := by
    have hvalue := h.kept (hget ▸ List.getElem_mem hlt)
    exact (List.getElem?_eq_some_iff.mp hvalue).1
  refine ⟨by rw [List.length_set, h.length], by rw [map_fst_set hk]; exact h.distinct, ?_, ?_⟩
  · intro j other hother
    obtain ⟨k', hk'⟩ := List.mem_iff_getElem?.mp hother
    rw [List.getElem?_set] at hk'
    split at hk'
    · obtain ⟨rfl, rfl⟩ := Prod.mk.inj (Option.some.inj hk')
      exact List.getElem?_set_self hi
    -- Another cell has another index, so the store to this one passes it by.
    · rename_i hne
      rw [List.getElem?_set_ne (h.index_ne hk hk' hne)]
      exact h.kept (List.mem_iff_getElem?.mpr ⟨k', hk'⟩)
  · intro j hj
    rw [map_fst_set hk] at hj
    have hne : i ≠ j := fun heq => hj (heq ▸ hmem)
    rw [List.getElem?_set_ne hne]
    exact h.rest hj

/-- What a call leaves of a deque lies between the old ends, and the cell that it takes does not
lie there any more. -/
structure Take.Shrinks (d d' : Deque) (i? : Option Nat) : Prop where
  lo : d.lo ≤ d'.lo
  hi : d'.hi ≤ d.hi
  ordered : d'.lo ≤ d'.hi
  taken : ∀ i ∈ i?, d.lo ≤ i ∧ i < d.hi ∧ (i < d'.lo ∨ d'.hi ≤ i)

theorem Take.shrinks_onDeque (h : d.lo ≤ d.hi) (t : Take) :
    Shrinks d (t.onDeque d).2 (t.onDeque d).1 := by
  cases t with
  | low | high | lowAfter _ =>
      simp only [onDeque]
      split
      · refine ⟨by simp only; omega, by simp only; omega, by simp only; omega, ?_⟩
        rintro i hi
        cases hi
        simp only
        omega
      · refine ⟨by simp only; omega, by simp only; omega, by simp only; omega, ?_⟩
        rintro i hi
        cases hi

end Steps

section Run

variable {σ ρ : Type} [Cells σ ρ] [Position ρ] {w : Width} {cell : Nat → ρ}
  {R : σ → List Word → Prop} {s : σ} {d : Deque} {held : List (Nat × Word)} {values : List Word}
  {size : Nat}

omit [Cells σ ρ] in
theorem Take.move_span (g : Position.Grid cell size) (hreach : Position.Reaches cell size)
    (hsize : d.hi ≤ size) (t : Take) :
    t.move (Cursor.span cell d.lo d.hi) = .ok ((t.onDeque d).1.map cell,
      Cursor.span cell (t.onDeque d).2.lo (t.onDeque d).2.hi) := by
  cases t with
  | low =>
      simp only [move, onDeque]
      split
      · exact Cursor.popLow_span g ‹_› hsize
      · exact Cursor.popLow_empty (by omega)
  | high =>
      simp only [move, onDeque]
      split
      · exact Cursor.popHigh_span g ‹_› hsize
      · exact Cursor.popHigh_empty (by omega)
  | lowAfter n =>
      simp only [move, onDeque]
      split
      · exact Cursor.popLowAfter_span g (hreach _ _ (by omega)) ‹_› hsize
      · exact Cursor.popLowAfter_past (by omega)

/-- Cells of which some are held and those of the deque are not handed out yet. -/
structure Holding (R : σ → List Word → Prop) (size : Nat) (d : Deque) (held : List (Nat × Word))
    (s : σ) (values : List Word) : Prop where
  related : R s values
  settled : Settled d.values held values
  ordered : d.lo ≤ d.hi
  in_grid : d.hi ≤ size
  in_list : d.hi ≤ d.values.length
  outside : ∀ i ∈ held.map Prod.fst, i < d.lo ∨ d.hi ≤ i

omit [Cells σ ρ] [Position ρ] in
theorem Holding.take (h : Holding R size d held s values) (t : Take) :
    Holding R size (t.onDeque d).2 (held ++ (t.onDeque d).1.toList.map d.cell) s values := by
  obtain ⟨hrel, hsettled, hle, hsize, hlen, hout⟩ := h
  obtain ⟨hlo, hhi, hordered, htaken⟩ := t.shrinks_onDeque hle
  have hvalues := t.values_onDeque d
  cases hi : (t.onDeque d).1 with
  | none =>
      rw [Option.toList_none, List.map_nil, List.append_nil]
      refine ⟨hrel, hvalues ▸ hsettled, hordered, by omega, by rw [hvalues]; omega, ?_⟩
      intro j hj
      have := hout j hj
      omega
  | some i =>
      obtain ⟨hge, hlt, hgone⟩ := htaken i hi
      have hnew : i ∉ held.map Prod.fst := by
        intro hmem
        have := hout i hmem
        omega
      refine ⟨hrel, hvalues ▸ hsettled.take (by omega) hnew, hordered, by omega,
        by rw [hvalues]; omega, ?_⟩
      intro j hj
      rw [Option.toList_some, List.map_append, List.mem_append] at hj
      rcases hj with hbefore | hlast
      · have := hout j hbefore
        omega
      · have hij : j = i := List.mem_singleton.mp hlast
        omega

omit [Cells σ ρ] [Position ρ] in
theorem Holding.act {k i : Nat} {value new : Word} {s' : σ} (h : Holding R size d held s values)
    (hk : held[k]? = some (i, value)) (hs' : R s' (values.set i new)) :
    Holding R size d (held.set k (i, new)) s' (values.set i new) := by
  refine ⟨hs', h.settled.act hk new, h.ordered, h.in_grid, h.in_list, ?_⟩
  rw [map_fst_set hk]
  exact h.outside

/-- A caller that holds on to cells sees what it would see of cells that are kept apart. -/
theorem hold_span (m : Cells.Models w cell R) (g : Position.Grid cell size)
    (hreach : Position.Reaches cell size) (label : ρ → Word → String) (steps : List Hold) :
    ∀ {s : σ} {d : Deque} {held : List (Nat × Word)} {values : List Word},
      Holding R size d held s values → ∃ s' values',
        hold label s (Cursor.span cell d.lo d.hi) (held.map fun item => cell item.1) steps =
          .ok ((apart w (fun i => label (cell i)) d held steps).1, s') ∧
        R s' values' ∧
        Settled d.values (apart w (fun i => label (cell i)) d held steps).2 values' := by
  -- The deque keeps the elements of the start, whatever the cells that are held have become.
  induction steps with
  | nil =>
      intro s d held values h
      exact ⟨s, values, rfl, h.related, h.settled⟩
  | cons step rest ih =>
      intro s d held values h
      cases step with
      | take t =>
          obtain ⟨s', values', hrest, hs', hsettled⟩ := ih (h.take t)
          refine ⟨s', values', ?_, hs', t.values_onDeque d ▸ hsettled⟩
          have hheld : (held ++ (t.onDeque d).1.toList.map d.cell).map (fun item => cell item.1) =
              held.map (fun item => cell item.1) ++ ((t.onDeque d).1.map cell).toList := by
            rw [List.map_append]
            cases (t.onDeque d).1 <;> rfl
          rw [hold, bind_of_ok (Take.move_span g hreach h.in_grid t)]
          rw [hheld] at hrest
          exact hrest
      | act k action =>
          have hcell : (held.map fun item => cell item.1)[k]? =
              held[k]?.map fun item => cell item.1 := List.getElem?_map ..
          rw [hold, hcell, apart]
          cases hk : held[k]? with
          | none =>
              obtain ⟨s', values', hrest, hs', hsettled⟩ := ih h
              exact ⟨s', values', bind_of_ok hrest, hs', hsettled⟩
          | some item =>
              obtain ⟨i, value⟩ := item
              have hvalue := h.settled.kept (List.mem_iff_getElem?.mpr ⟨k, hk⟩)
              have hi := (List.getElem?_eq_some_iff.mp hvalue).1
              obtain ⟨mid, hact, hmid⟩ := m.run label action h.related hi
              rw [List.getD_eq_getElem?_getD, hvalue, Option.getD_some] at hact hmid
              obtain ⟨s', values', hrest, hs', hsettled⟩ := ih (h.act hk hmid)
              refine ⟨s', values', (bind_of_ok hact).trans ?_, hs', hsettled⟩
              have hheld := congrArg (List.map cell) (map_fst_set hk
                (action.effect w (label (cell i)) value).2)
              rw [List.map_map, List.map_map] at hheld
              exact bind_of_ok (hheld ▸ hrest)

end Run

/-! ## What one cell shows of the others -/

section Apart

variable {w : Width} {text : Nat → Word → String}

def Deque.after (d : Deque) : List Hold → Deque
  | [] => d
  | .take t :: rest => (t.onDeque d).2.after rest
  | .act .. :: rest => d.after rest

theorem Deque.values_after (steps : List Hold) :
    ∀ d : Deque, (d.after steps).values = d.values := by
  induction steps with
  | nil =>
      intro d
      rfl
  | cons step rest ih =>
      intro d
      cases step with
      | take t => exact (ih _).trans (t.values_onDeque d)
      | act k action => exact ih d

theorem apart_append (steps later : List Hold) :
    ∀ (d : Deque) (held : List (Nat × Word)), apart w text d held (steps ++ later) =
      ((apart w text d held steps).1 ++
          (apart w text (d.after steps) (apart w text d held steps).2 later).1,
        (apart w text (d.after steps) (apart w text d held steps).2 later).2) := by
  induction steps with
  | nil =>
      intro d held
      rfl
  | cons step rest ih =>
      intro d held
      cases step with
      | take t => simp only [List.cons_append, apart, Deque.after, ih]
      | act k action =>
          simp only [List.cons_append, apart, Deque.after]
          split <;> simp only [ih, List.cons_append]

/-- Whatever is done to one cell, another one shows the same element before and after. -/
theorem apart_get_act_get (w : Width) (text : Nat → Word → String) (d : Deque)
    (held : List (Nat × Word)) {j k : Nat} (hne : j ≠ k) (action : Action) : ∃ seen reply,
      (apart w text d held [.act j .get, .act k action, .act j .get]).1 = [seen, reply, seen] := by
  have hsame : ∀ item, held[j]? = some item → held.set j item = held := by
    intro item hj
    obtain ⟨hlt, rfl⟩ := List.getElem?_eq_some_iff.mp hj
    exact List.set_getElem_self hlt
  cases hj : held[j]? with
  | none =>
      cases hk : held[k]? with
      | none => exact ⟨none, none, by simp only [apart, hj, hk]⟩
      | some item =>
          refine ⟨none, some (action.effect w (text item.1) item.2).1, ?_⟩
          simp only [apart, hj, hk, List.getElem?_set_ne hne.symm]
  | some item =>
      obtain ⟨i, value⟩ := item
      have hget : Action.effect w (text i) value .get = (.word value, value) := rfl
      cases hk : held[k]? with
      | none =>
          refine ⟨some (.word value), none, ?_⟩
          simp only [apart, hj, hk, hget, hsame _ hj]
      | some other =>
          refine ⟨some (.word value), some (action.effect w (text other.1) other.2).1, ?_⟩
          simp only [apart, hj, hk, hget, hsame _ hj, List.getElem?_set_ne hne.symm]

theorem apart_take_get (d : Deque) (held : List (Nat × Word)) {t : Take} {i : Nat}
    (hi : (t.onDeque d).1 = some i) :
    (apart w text d held [.take t, .act held.length .get]).1 =
      [some (.word (d.values.getD i 0))] := by
  have hlast : (held ++ [d.cell i])[held.length]? = some (d.cell i) := by simp
  simp only [apart, hi, Option.toList_some, List.map_singleton, hlast]
  rfl

end Apart

/-! ## Updating every element -/

def Call.Updates (f : Word → Word) : Call → Prop
  | popLow action => action = .update f
  | popHigh action => action = .update f
  | popLowAfter n action => n = 0 ∧ action = .update f
  | each action => action = .update f
  | eachDown action => action = .update f
  | size => True
  | sizeBounds => True
  | swapEnds => False
  | pairs _ _ => False

section Updates

variable {w : Width} {text : Nat → Word → String} {f : Word → Word} {elements : List Word}
  {d : Deque}

/-- The cells that are left hold the elements, and all others their images. -/
structure Deque.Updated (w : Width) (f : Word → Word) (elements : List Word) (d : Deque) :
    Prop where
  ordered : d.lo ≤ d.hi
  values : ∀ i : Nat, d.values[i]? =
    elements[i]?.map fun v => if d.lo ≤ i ∧ i < d.hi then v else w.truncate (f v)

theorem Deque.Updated.act (h : d.Updated w f elements) {i lo hi : Nat} (hle : lo ≤ hi)
    (hin : d.lo ≤ i ∧ i < d.hi)
    (hout : ∀ j, (lo ≤ j ∧ j < hi) ↔ (d.lo ≤ j ∧ j < d.hi) ∧ j ≠ i) :
    Deque.Updated w f elements ⟨(Deque.act w text d.values (.update f) i).2, lo, hi⟩ where
  ordered := hle
  values j := by
    simp only [Deque.act, Action.effect]
    by_cases hj : i = j
    · subst hj
      have hgone : ¬(lo ≤ i ∧ i < hi) := fun hmem => ((hout i).mp hmem).2 rfl
      have hvalue := h.values i
      simp only [if_pos hin, Option.map_id'] at hvalue
      rw [List.getElem?_set_self', hvalue, List.getD_eq_getElem?_getD, hvalue]
      simp only [if_neg hgone]
      cases elements[i]? <;> rfl
    · have hsame : (lo ≤ j ∧ j < hi) ↔ (d.lo ≤ j ∧ j < d.hi) := by
        rw [hout]
        exact and_iff_left (Ne.symm hj)
      rw [List.getElem?_set_ne hj, h.values]
      simp only [hsame]

theorem getElem?_updateAll (w : Width) (text : Nat → Word → String) (f : Word → Word)
    (indices : List Nat) :
    ∀ values : List Word, indices.Nodup → ∀ j : Nat,
      ((Action.update f).effectAll w text indices values).2[j]? =
        values[j]?.map fun v => if j ∈ indices then w.truncate (f v) else v := by
  induction indices with
  | nil =>
      intro values _ j
      simp [Action.effectAll]
  | cons i rest ih =>
      intro values hnodup j
      obtain ⟨hnew, hrest⟩ := List.nodup_cons.mp hnodup
      simp only [Action.effectAll, Action.effect]
      rw [ih _ hrest]
      by_cases hij : i = j
      · subst hij
        simp only [if_neg hnew, Option.map_id', List.mem_cons_self, if_true]
        rw [List.getElem?_set_self', List.getD_eq_getElem?_getD]
        cases values[i]? <;> rfl
      · have hmem : j ∈ i :: rest ↔ j ∈ rest := by
          rw [List.mem_cons]
          exact or_iff_right (Ne.symm hij)
        rw [List.getElem?_set_ne hij]
        simp only [hmem]

theorem Deque.Updated.all (h : d.Updated w f elements) {indices : List Nat}
    (hnodup : indices.Nodup) (hall : ∀ j, j ∈ indices ↔ d.lo ≤ j ∧ j < d.hi) :
    Deque.Updated w f elements
      ⟨((Action.update f).effectAll w text indices d.values).2, d.hi, d.hi⟩ where
  ordered := Nat.le_refl _
  values j := by
    have hgone : ¬(d.hi ≤ j ∧ j < d.hi) := by omega
    simp only
    rw [getElem?_updateAll w text f indices _ hnodup, h.values, Option.map_map]
    simp only [hall, if_neg hgone]
    congr 1
    funext v
    simp only [Function.comp_apply]
    split <;> simp only [*]

theorem mem_range'_window {lo hi j : Nat} (h : lo ≤ hi) :
    j ∈ List.range' lo (hi - lo) ↔ lo ≤ j ∧ j < hi := by
  rw [List.mem_range'_1]
  omega

theorem Call.updated_onDeque (text : Nat → Word → String) (h : d.Updated w f elements) {call : Call}
    (hcall : call.Updates f) :
    (call.onDeque w text d).2.Updated w f elements ∧
      (call.onDeque w text d).2.hi - (call.onDeque w text d).2.lo = call.left (d.hi - d.lo) := by
  have hle := h.ordered
  cases call with
  | popLow action =>
      cases hcall
      simp only [onDeque, left]
      split
      · exact ⟨h.act (by omega) (by omega) (by omega), by simp only; omega⟩
      · exact ⟨h, by simp only; omega⟩
  | popHigh action =>
      cases hcall
      simp only [onDeque, left]
      split
      · exact ⟨h.act (by omega) (by omega) (by omega), by simp only; omega⟩
      · exact ⟨h, by simp only; omega⟩
  | popLowAfter n action =>
      obtain ⟨rfl, rfl⟩ := hcall
      simp only [onDeque, left, Nat.add_zero, Nat.zero_add]
      split
      · exact ⟨h.act (by omega) (by omega) (by omega), by simp only; omega⟩
      · have hempty : d.lo = d.hi := by omega
        refine ⟨⟨Nat.le_refl _, fun i => ?_⟩, by simp only; omega⟩
        rw [h.values, hempty]
  | size | sizeBounds => exact ⟨h, rfl⟩
  | swapEnds | pairs _ _ => exact hcall.elim
  | each action =>
      cases hcall
      exact ⟨h.all (List.nodup_range' ..) fun j => mem_range'_window hle, Nat.sub_self _⟩
  | eachDown action =>
      cases hcall
      refine ⟨h.all (List.nodup_reverse.mpr (List.nodup_range' ..)) fun j => ?_, Nat.sub_self _⟩
      rw [List.mem_reverse]
      exact mem_range'_window hle

theorem updated_onDeque (calls : List Call) :
    ∀ {d : Deque}, d.Updated w f elements → (∀ call ∈ calls, call.Updates f) →
      calls.foldl (fun n call => call.left n) (d.hi - d.lo) = 0 →
      (onDeque w text d calls).2 = elements.map fun v => w.truncate (f v) := by
  -- The count that the calls bring to zero is the number of cells that are left.
  induction calls with
  | nil =>
      intro d h _ hleft
      apply List.ext_getElem?
      intro i
      have hgone : ¬(d.lo ≤ i ∧ i < d.hi) := by
        rw [List.foldl_nil] at hleft
        omega
      rw [onDeque, h.values, List.getElem?_map]
      simp only [if_neg hgone]
  | cons call rest ih =>
      intro d h hcalls hleft
      obtain ⟨hnext, hcount⟩ := Call.updated_onDeque text h (hcalls call List.mem_cons_self)
      rw [List.foldl_cons, ← hcount] at hleft
      exact ih hnext (fun other hother => hcalls other (List.mem_cons_of_mem call hother)) hleft

theorem updated_all (elements : List Word) :
    Deque.Updated w f elements ⟨elements, 0, elements.length⟩ where
  ordered := Nat.zero_le _
  values i := by
    cases hi : elements[i]? with
    | none => rfl
    | some v =>
        have hlt := (List.getElem?_eq_some_iff.mp hi).1
        simp only [Option.map_some, if_pos (And.intro (Nat.zero_le i) hlt)]

theorem legal_of_updates (calls : List Call) :
    ∀ n : Nat, (∀ call ∈ calls, call.Updates f) → Legal n calls := by
  induction calls with
  | nil =>
      intro n _
      trivial
  | cons call rest ih =>
      intro n hcalls
      refine ⟨?_, ih _ fun other hother => hcalls other (List.mem_cons_of_mem call hother)⟩
      have hcall := hcalls call List.mem_cons_self
      cases call with
      | pairs i j => exact hcall.elim
      | _ => trivial

end Updates

end NarrowVec.Visit
