import NarrowVec.Dense.Container
import NarrowVec.Proofs.Deques
import NarrowVec.Proofs.Elements

/-!
# Walking dense storage

The addresses of the elements are a grid, so a walk of a store is a walk of the list of its
elements.  While the bits can be counted together with their padding, every jump reaches; past that
a jump may overflow, and nothing else may.
-/

set_option autoImplicit false

namespace NarrowVec.Dense

variable {w : Width} {d d' : Dense w} {i n : Nat}

theorem reaches_cellAt (hroom : w.Roomy n) : Position.Reaches w.cellAt n := by
  intro i k hik
  exact Width.advance_cellAt (hroom.mono hik)

theorem grid (h : d.WellFormed) : Position.Grid w.cellAt d.size where
  next := by
    intro i hi
    have hcell := h.cell_le hi
    rw [← Nat.succ_mul] at hcell
    exact Words.next_cellAt d.words hcell h.words_small
  jump := by
    intro i k p _ hp
    obtain ⟨_, hwidth, hpos⟩ := Address.advance_eq_ok_iff.mp hp
    have hsum : p.pos = (w.cellAt (i + k)).pos := by
      rw [hpos]
      simp only [Width.cellAt]
      rw [Address.pos_ofBit, Address.pos_ofBit, Nat.add_mul]
      rfl
    exact Address.eq_of_pos_eq hwidth hsum
  retreat := by
    intro i k hk hi
    exact Width.retreat_cellAt (h.countable.mono hi) hk

theorem cursor_spec (h : d.WellFormed) : d.cursor = .ok (Cursor.span w.cellAt 0 d.size) := by
  have hstart : d.startAddress = .ok (w.cellAt 0) := h.address (Nat.zero_le _)
  have hstop : d.stopAddress = .ok (w.cellAt d.size) := h.address (Nat.le_refl _)
  simp only [cursor]
  rw [bind_of_ok hstart, bind_of_ok hstop]
  rfl

theorem window_toList (d : Dense w) : window d.toList 0 d.size = d.toList := by
  rw [← length_toList d]
  exact window_full d.toList

theorem entries_spec (h : d.WellFormed) : d.entries = .ok d.toList := by
  have hload := Scan.loadAll_rest d.models (grid h) (Becomes.refl h) (Nat.zero_le d.size)
    (Nat.le_refl _) (Nat.le_of_eq (length_toList d).symm)
  rw [window_toList] at hload
  simp only [entries]
  rw [bind_of_ok (cursor_spec h)]
  exact hload

/-! ## Scans -/

theorem scan_spec (h : d.WellFormed) (hroom : w.Roomy d.size) {calls : List Scan.Call}
    (hlegal : ∀ call ∈ calls, call.Legal) : d.scan calls = .ok (Scan.onDeque d.toList calls) := by
  have hrun := Scan.run_span d.models (grid h) (reaches_cellAt hroom) (Becomes.refl h) calls 0
    d.size (Nat.zero_le _) (Nat.le_refl _) (Nat.le_of_eq (length_toList d).symm) hlegal
  rw [window_toList] at hrun
  simp only [scan]
  rw [bind_of_ok (cursor_spec h)]
  exact hrun

theorem scan_refused (h : d.WellFormed) (hroom : w.Roomy d.size) {calls : List Scan.Call}
    (hillegal : ¬∀ call ∈ calls, call.Legal) : d.scan calls = .error .bounds := by
  simp only [scan]
  rw [bind_of_ok (cursor_spec h)]
  exact Scan.run_illegal d.models (grid h) (reaches_cellAt hroom) (Becomes.refl h) calls 0 d.size
    (Nat.zero_le _) (Nat.le_refl _) (Nat.le_of_eq (length_toList d).symm) hillegal

/-! ## Actions and visits -/

/-- The text of the element at an index, which shows its address. -/
def text (w : Width) (label : Address → Word → String) (i : Nat) : Word → String :=
  label (w.cellAt i)

def deque (d : Dense w) : Visit.Deque := ⟨d.toList, 0, d.size⟩

theorem describes_deque (h : d.WellFormed) : d.deque.Describes d.Becomes d.size d where
  related := Becomes.refl h
  ordered := Nat.zero_le _
  in_grid := Nat.le_refl _
  in_list := Nat.le_of_eq (length_toList d).symm

variable {label : Address → Word → String}

theorem act_spec (h : d.WellFormed) (hi : i < d.size) (action : Action) :
    ∃ d', d.act label i action =
        .ok ((action.effect w (text w label i) (d.toList.getD i 0)).1, d') ∧
      d.Becomes d' (d.toList.set i (action.effect w (text w label i) (d.toList.getD i 0)).2) := by
  obtain ⟨d', hrun, hd'⟩ := d.models.run label action (Becomes.refl h)
    (by rw [length_toList]; exact hi)
  refine ⟨d', ?_, hd'⟩
  simp only [act]
  rw [bind_of_ok (h.cell hi)]
  exact hrun

theorem act_refused (hi : ¬i < d.size) (action : Action) :
    d.act label i action = .error (.indexPastEnd i d.size) :=
  bind_of_error (cell_refused hi)

theorem visit_spec (h : d.WellFormed) (hroom : w.Roomy d.size) {calls : List Visit.Call}
    (hlegal : Visit.Legal d.size calls) :
    ∃ d', d.visit label calls = .ok ((Visit.onDeque w (text w label) d.deque calls).1, d') ∧
      d.Becomes d' (Visit.onDeque w (text w label) d.deque calls).2 := by
  obtain ⟨d', hrun, hd'⟩ := Visit.run_span d.models (grid h) (reaches_cellAt hroom) label calls
    (describes_deque h) hlegal
  refine ⟨d', ?_, hd'⟩
  simp only [visit]
  rw [bind_of_ok (cursor_spec h)]
  exact hrun

theorem visit_refused (h : d.WellFormed) (hroom : w.Roomy d.size) {calls : List Visit.Call}
    (hillegal : ¬Visit.Legal d.size calls) : d.visit label calls = .error .bounds := by
  simp only [visit]
  rw [bind_of_ok (cursor_spec h)]
  exact Visit.run_illegal d.models (grid h) (reaches_cellAt hroom) label calls (describes_deque h)
    hillegal

theorem becomes_of_visit (h : d.WellFormed) {calls : List Visit.Call}
    {answers : List Visit.Answer} (hrun : d.visit label calls = .ok (answers, d')) :
    ∃ values, d.Becomes d' values := by
  simp only [visit] at hrun
  rw [bind_of_ok (cursor_spec h)] at hrun
  exact Visit.related_of_run d.models (grid h) label calls (describes_deque h) hrun

end NarrowVec.Dense
