import NarrowVec.Cells

/-!
# Cells that model a list

Cells under the names `cell 0`, `cell 1`, … model a list of elements when loading a cell reads the
element of that index and storing to it replaces this element alone.  What an action does to a cell
is then what it does to an element, whatever the cells are made of.
-/

set_option autoImplicit false

namespace NarrowVec

/-- What an action answers on an element, and the element it leaves; `text` shows the element. -/
def Action.effect (w : Width) (text : Word → String) (value : Word) : Action → Reply × Word
  | get => (.word value, value)
  | set new => (.unit, w.truncate new)
  | replace new => (.word value, w.truncate new)
  | update f => (.word (w.truncate (f value)), w.truncate (f value))
  | exchange new => (.word value, w.truncate new)
  | equals other => (.flag (value == other), value)
  | describe => (.text (text value), value)

def Action.effectAll (w : Width) (text : Nat → Word → String) (action : Action) :
    List Nat → List Word → List Reply × List Word
  | [], values => ([], values)
  | i :: rest, values =>
    let (reply, new) := action.effect w (text i) (values.getD i 0)
    let (replies, values) := effectAll w text action rest (values.set i new)
    (reply :: replies, values)

theorem Action.length_effectAll (w : Width) (text : Nat → Word → String) (action : Action)
    (indices : List Nat) :
    ∀ values : List Word, (action.effectAll w text indices values).2.length = values.length := by
  induction indices with
  | nil =>
      intro values
      rfl
  | cons i rest ih =>
      intro values
      simp only [effectAll, ih, List.length_set]

namespace Cells

variable {σ ρ : Type} [Cells σ ρ] {w : Width} {cell : Nat → ρ} {R : σ → List Word → Prop}
  {s : σ} {values : List Word} {i j : Nat}

/-- `R` relates cells to the elements they hold. -/
structure Models (w : Width) (cell : Nat → ρ) (R : σ → List Word → Prop) : Prop where
  truncated : ∀ {s values value}, R s values → value ∈ values → w.truncate value = value
  load : ∀ {s values i value}, R s values → values[i]? = some value →
    Cells.load s (cell i) = .ok value
  store : ∀ {s values i} (value : Word), R s values → i < values.length →
    ∃ s', Cells.store s (cell i) value = .ok s' ∧ R s' (values.set i (w.truncate value))

namespace Models

theorem load_getD (m : Models w cell R) (h : R s values) (hi : i < values.length) :
    Cells.load s (cell i) = .ok (values.getD i 0) := by
  apply m.load h
  simp [hi]

theorem loadAll (m : Models w cell R) (h : R s values) (indices : List Nat) :
    (∀ i ∈ indices, i < values.length) →
      Cells.loadAll s (indices.map cell) = .ok (indices.map fun i => values.getD i 0) := by
  induction indices with
  | nil =>
      intro _
      rfl
  | cons i rest ih =>
      intro hall
      have hrest := ih fun k hk => hall k (List.mem_cons_of_mem i hk)
      rw [List.map_cons, Cells.loadAll, bind_of_ok (m.load_getD h (hall i List.mem_cons_self)),
        bind_of_ok hrest]
      rfl

theorem run (m : Models w cell R) (label : ρ → Word → String) (action : Action) (h : R s values)
    (hi : i < values.length) :
    ∃ s', action.run label s (cell i) =
        .ok ((action.effect w (label (cell i)) (values.getD i 0)).1, s') ∧
      R s' (values.set i (action.effect w (label (cell i)) (values.getD i 0)).2) := by
  have hload := m.load_getD h hi
  have hkeep : R s (values.set i (values.getD i 0)) := by
    have helement : values.getD i 0 = values[i] := by simp [hi]
    rw [helement, List.set_getElem_self]
    exact h
  cases action with
  | get => exact ⟨s, by rw [Action.run, bind_of_ok hload]; rfl, hkeep⟩
  | set value =>
      obtain ⟨s', hstore, hs'⟩ := m.store value h hi
      exact ⟨s', by rw [Action.run, bind_of_ok hstore]; rfl, hs'⟩
  | replace value =>
      obtain ⟨s', hstore, hs'⟩ := m.store value h hi
      exact ⟨s', by rw [Action.run, bind_of_ok hload, bind_of_ok hstore]; rfl, hs'⟩
  | update f =>
      obtain ⟨s', hstore, hs'⟩ := m.store (f (values.getD i 0)) h hi
      have hagain : Cells.load s' (cell i) = .ok (w.truncate (f (values.getD i 0))) :=
        m.load hs' (List.getElem?_set_self hi)
      refine ⟨s', ?_, hs'⟩
      rw [Action.run, bind_of_ok hload, bind_of_ok hstore, bind_of_ok hagain]
      rfl
  | exchange value =>
      obtain ⟨s', hstore, hs'⟩ := m.store value h hi
      exact ⟨s', by rw [Action.run, bind_of_ok hload, bind_of_ok hstore]; rfl, hs'⟩
  | equals value => exact ⟨s, by rw [Action.run, bind_of_ok hload]; rfl, hkeep⟩
  | describe => exact ⟨s, by rw [Action.run, bind_of_ok hload]; rfl, hkeep⟩

theorem runAll (m : Models w cell R) (label : ρ → Word → String) (action : Action)
    (indices : List Nat) :
    ∀ {s : σ} {values : List Word}, R s values → (∀ i ∈ indices, i < values.length) →
      ∃ s', action.runAll label s (indices.map cell) =
          .ok ((action.effectAll w (fun i => label (cell i)) indices values).1, s') ∧
        R s' (action.effectAll w (fun i => label (cell i)) indices values).2 := by
  induction indices with
  | nil =>
      intro s values h _
      exact ⟨s, rfl, h⟩
  | cons i rest ih =>
      intro s values h hall
      obtain ⟨mid, hfirst, hmid⟩ := m.run label action h (hall i List.mem_cons_self)
      obtain ⟨s', hrest, hs'⟩ := ih hmid fun k hk => by
        rw [List.length_set]
        exact hall k (List.mem_cons_of_mem i hk)
      refine ⟨s', ?_, hs'⟩
      rw [List.map_cons, Action.runAll, bind_of_ok hfirst]
      simp only
      rw [bind_of_ok hrest]
      rfl

/-- Both elements are read first, so the exchange is one also where `i` and `j` are the same. -/
theorem exchange (m : Models w cell R) (h : R s values) (hi : i < values.length)
    (hj : j < values.length) :
    ∃ s', Cells.exchange s (cell i) (cell j) = .ok s' ∧
      R s' ((values.set i (values.getD j 0)).set j (values.getD i 0)) := by
  have helement : ∀ k, k < values.length → w.truncate (values.getD k 0) = values.getD k 0 := by
    intro k hk
    have hget : values.getD k 0 = values[k] := by simp [hk]
    rw [hget]
    exact m.truncated h (List.getElem_mem hk)
  obtain ⟨mid, hfirst, hmid⟩ := m.store (values.getD j 0) h hi
  rw [helement j hj] at hmid
  obtain ⟨s', hsecond, hs'⟩ := m.store (values.getD i 0) hmid (by rw [List.length_set]; exact hj)
  rw [helement i hi] at hs'
  refine ⟨s', ?_, hs'⟩
  rw [Cells.exchange, bind_of_ok (m.load_getD h hi), bind_of_ok (m.load_getD h hj),
    bind_of_ok hfirst, hsecond]

end Models

end Cells

end NarrowVec
