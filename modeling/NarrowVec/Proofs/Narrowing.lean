import NarrowVec.Proofs.LowBits
import NarrowVec.Proofs.VectorLaws

/-!
# Narrower vectors

A history that runs on vectors of one width runs on vectors of a smaller width as well, whatever the
backings of the two are: it is refused at the same steps, and its answers and elements are the low
bits of those at the larger width.
-/

set_option autoImplicit false

namespace NarrowVec

variable {n m : Width}

theorem Width.Roomy.of_bits_le {k : Nat} (h : n.bits ≤ m.bits) (hroom : m.Roomy k) : n.Roomy k :=
  Nat.le_trans (Nat.mul_le_mul_left k h) hroom

theorem Container.Op.perform_of_narrows {σ : Type} [Container σ] (p : Pair σ) {op : Container.Op}
    (h : op.Narrows) : op.perform p = op.run p := by
  cases op with
  | storage op => exact Container.Laws.perform_eq_run (Storage.Op.onElements_of_narrows h)
  | _ => rfl

theorem Container.Op.byValue_of_narrows {op : Container.Op} (h : op.Narrows) : op.ByValue := by
  cases op with
  | storage op =>
      cases op with
      | hasCapacity _ | setSize _ | bytes | setByte _ _ => exact h.elim
      | _ => trivial
  | _ => trivial

namespace UIntVec

variable {p : Pair (UIntVec m)} {q : Pair (UIntVec n)} {v : UIntVec m} {u : UIntVec n}

/-- A vector beside one that holds the low bits of its elements. -/
def Beside (n m : Width) : UIntVec m → UIntVec n → Prop :=
  (view m).Beside (view n) (List.map n.truncate)

def Asks (m : Width) (p : Pair (UIntVec m)) (op : Container.Op) : Prop :=
  m.Roomy (op.request (Storage.size p.target) (Storage.size p.other))

instance (p : Pair (UIntVec m)) (op : Container.Op) : Decidable (Asks m p op) :=
  inferInstanceAs (Decidable (m.Roomy _))

theorem beside_empty (n m : Width) : Beside n m Storage.empty Storage.empty where
  left := canonical_empty
  right := canonical_empty
  toList := by
    rw [(storage_laws n).empty.toList, (storage_laws m).empty.toList]
    rfl
  roomy := by
    rw [(storage_laws m).size_of_holds (storage_laws m).empty]
    exact m.roomy_zero

theorem size_of_beside (h : Beside n m v u) : Storage.size u = Storage.size v := by
  rw [← (storage_laws n).length_toList, h.toList, List.length_map, (storage_laws m).length_toList]

theorem run_matches (hbits : n.bits ≤ m.bits) {op : Container.Op}
    (htarget : Beside n m p.target q.target) (hother : Beside n m p.other q.other)
    (hop : op.Narrows) (hasks : Asks m p op) :
    Session.Matches (Answer.narrow n) (Beside n m) (op.run p).result (op.run q).result := by
  have hlists : q.lists = p.lists.narrow n := ListView.lists_of_beside htarget hother
  have hsize := size_of_beside htarget
  have hsize' := size_of_beside hother
  have hwide : (view m).Ready p := ⟨htarget.left, hother.left, htarget.roomy⟩
  have hnarrow : (view n).Ready q :=
    ⟨htarget.right, hother.right, hsize ▸ htarget.roomy.of_bits_le hbits⟩
  rw [← op.perform_of_narrows p hop, ← op.perform_of_narrows q hop]
  cases hr : op.refusal (Storage.size p.target) with
  | some fault =>
      have hp := (laws m).perform_refused hwide hr
      have hq := (laws n).perform_refused hnarrow (hsize ▸ hr)
      exact ListView.matches_of_refuses (recovers m) (recovers n) hp hq
  | none =>
      have hfits : n.Roomy (op.request (Storage.size q.target) (Storage.size q.other)) := by
        rw [hsize, hsize']
        exact Width.Roomy.of_bits_le hbits hasks
      have hvalue := Container.Op.byValue_of_narrows hop
      have hp := (laws m).perform_yields hwide hvalue hr hasks
      have hq := (laws n).perform_yields hnarrow hvalue (hsize ▸ hr) hfits
      -- The effect on the low bits is the low bits of the effect.
      have heffect := Container.Op.effect_narrow hbits hop text text p.lists
      rw [hlists] at hq
      simp only [view] at hq
      rw [heffect] at hq
      have hlength : p.lists.target.length = Storage.size p.target :=
        (storage_laws m).length_toList _
      have hlength' : p.lists.other.length = Storage.size p.other :=
        (storage_laws m).length_toList _
      have hroom := op.roomy_effect (w := m) text
        (ListView.roomy_of_beside (storage_laws m) htarget hother) (hlength ▸ hr)
        (hlength ▸ hlength' ▸ hasks)
      exact ListView.matches_of_yields (storage_laws m) hp hq hroom

/-! ## Histories -/

/-- What is seen after the same step at two widths: the narrow step is refused when the wide one is,
with the same error to recover from, and otherwise all answers and elements are cut to low bits. -/
structure Narrowed (n : Width) (x : Outcome × Session (UIntVec m))
    (y : Outcome × Session (UIntVec n)) : Prop where
  result : y.1.result.mapError Fault.recoverable? =
    (x.1.result.mapError Fault.recoverable?).map (Answer.narrow n)
  left : ∃ values, Container.entries x.2.left = .ok values ∧
    Container.entries y.2.left = .ok (values.map n.truncate)
  right : ∃ values, Container.entries x.2.right = .ok values ∧
    Container.entries y.2.right = .ok (values.map n.truncate)

theorem entries_of_beside (h : Beside n m v u) : ∃ values, Container.entries v = .ok values ∧
    Container.entries u = .ok (values.map n.truncate) :=
  ⟨_, entries_spec h.left, (entries_spec h.right).trans (congrArg Except.ok h.toList)⟩

theorem narrowed_of_inStep {x : Outcome × Session (UIntVec m)} {y : Outcome × Session (UIntVec n)}
    (h : Session.InStep (Answer.narrow n) (Beside n m) x y) : Narrowed n x y where
  result := h.result
  left := entries_of_beside h.left
  right := entries_of_beside h.right

/-- To run a history on narrower vectors is to run it on wide ones and to look at the low bits. -/
theorem run_narrowed (n m : Width) (hbits : n.bits ≤ m.bits) (history : List (Side × Container.Op))
    (hops : ∀ step ∈ history, step.2.Narrows)
    (hasks : Session.Throughout Container.Op.run (Asks m) ⟨Storage.empty, Storage.empty⟩ history) :
    List.Forall₂ (Narrowed n)
      (Session.run Container.Op.run (⟨Storage.empty, Storage.empty⟩ : Session (UIntVec m)) history)
      (Session.run Container.Op.run ⟨Storage.empty, Storage.empty⟩ history) := by
  have hrun := Session.run_inStep (R := Beside n m) (run_matches hbits) history
    (s := ⟨Storage.empty, Storage.empty⟩) (t := ⟨Storage.empty, Storage.empty⟩)
    (beside_empty n m) (beside_empty n m) hops hasks
  exact hrun.imp fun _ _ => narrowed_of_inStep

/-- Values that do not fit, updates that wrap around, a walk that writes, and steps that are
refused. -/
def updates : List (Side × Container.Op) :=
  [(.left, .ofPushes (.exact [255, 3, 0x1_0007])), (.left, .insert 1 32), (.left, .insert 5 1),
    (.left, .act 0 (.update (Change.add 1).apply)),
    (.left, .actLast (.update (Change.mul 5).apply)), (.right, .storage .copyOther),
    (.right, .actFetched 9 .get),
    (.right, .visit [.popHigh (.exchange 200), .each (.update (Change.complement).apply)]),
    (.left, .extendOther), (.left, .scan [.popLowAfter 1, .rest, .popHigh])]

theorem run_narrowed_of_updates :
    List.Forall₂ (Narrowed { bits := 5 })
      (Session.run Container.Op.run
        (⟨Storage.empty, Storage.empty⟩ : Session (UIntVec { bits := 8 })) updates)
      (Session.run Container.Op.run ⟨Storage.empty, Storage.empty⟩ updates) := by
  apply run_narrowed
  · decide
  · have hadd : (Action.update (Change.add 1).apply).Narrows := ⟨.add 1, trivial, rfl⟩
    have hmul : (Action.update (Change.mul 5).apply).Narrows := ⟨.mul 5, trivial, rfl⟩
    have hnot : (Action.update Change.complement.apply).Narrows := ⟨.complement, trivial, rfl⟩
    have hvisit : ∀ call ∈ [Visit.Call.popHigh (.exchange 200),
        .each (.update Change.complement.apply)], call.Narrows :=
      List.forall_mem_cons.mpr ⟨trivial, List.forall_mem_singleton.mpr hnot⟩
    simp only [updates, List.forall_mem_cons]
    exact ⟨trivial, trivial, trivial, hadd, hmul, trivial, trivial, hvisit, trivial, trivial,
      List.forall_mem_nil _⟩
  · decide +kernel

end UIntVec

end NarrowVec
