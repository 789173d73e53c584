import Mathlib.Data.List.Forall2
import NarrowVec.Proofs.ListLaws

/-!
# Sessions side by side

Two sessions of stores of different kinds that take the same steps.  When a step on related pairs
ends the same way on both sides and leaves related stores, whole sessions run in step: each answers
what the other answers, they are refused together, and their stores stay related.  Two kinds of
stores that are read as lists are related by a function between the lists.
-/

set_option autoImplicit false

namespace NarrowVec

def Fault.recoverable? : Fault → Option OutOfRange
  | .outOfRange cause => some cause
  | _ => none

namespace Session

variable {σ τ ω : Type}

def Throughout (exec : Pair σ → ω → Traced (Answer × Pair σ)) (P : Pair σ → ω → Prop) :
    Session σ → List (Side × ω) → Prop
  | _, [] => True
  | s, (side, op) :: rest =>
    P (s.pair side) op ∧ Throughout exec P (step exec s side op).2 rest

instance decidableThroughout (exec : Pair σ → ω → Traced (Answer × Pair σ))
    (P : Pair σ → ω → Prop) [∀ p op, Decidable (P p op)] :
    ∀ (s : Session σ) (history : List (Side × ω)), Decidable (Throughout exec P s history)
  | _, [] => .isTrue trivial
  | s, (side, op) :: rest =>
    have := decidableThroughout exec P (step exec s side op).2 rest
    inferInstanceAs (Decidable (P (s.pair side) op ∧ _))

/-- How one operation ends on two pairs: it is refused on both, with the same recoverable error if
any, or it leaves related stores and the second answer is the image of the first. -/
inductive Matches (f : Answer → Answer) (R : σ → τ → Prop) :
    Except Fault (Answer × Pair σ) → Except Fault (Answer × Pair τ) → Prop where
  | refused {fault fault' : Fault} : fault'.recoverable? = fault.recoverable? →
      Matches f R (.error fault) (.error fault')
  | answered {answer : Answer} {p : Pair σ} {q : Pair τ} : R p.target q.target →
      R p.other q.other → Matches f R (.ok (answer, p)) (.ok (f answer, q))

structure InStep (f : Answer → Answer) (R : σ → τ → Prop) (x : Outcome × Session σ)
    (y : Outcome × Session τ) : Prop where
  result : y.1.result.mapError Fault.recoverable? =
    (x.1.result.mapError Fault.recoverable?).map f
  left : R x.2.left y.2.left
  right : R x.2.right y.2.right

variable {exec : Pair σ → ω → Traced (Answer × Pair σ)}
  {exec' : Pair τ → ω → Traced (Answer × Pair τ)} {f : Answer → Answer} {R : σ → τ → Prop}
  {s : Session σ} {t : Session τ} {side : Side} {op : ω}

theorem pair_related (hleft : R s.left t.left) (hright : R s.right t.right) (side : Side) :
    R (s.pair side).target (t.pair side).target ∧ R (s.pair side).other (t.pair side).other := by
  cases side with
  | left => exact ⟨hleft, hright⟩
  | right => exact ⟨hright, hleft⟩

theorem inStep_of_matches (hleft : R s.left t.left) (hright : R s.right t.right)
    (h : Matches f R (exec (s.pair side) op).result (exec' (t.pair side) op).result) :
    InStep f R (step exec s side op) (step exec' t side op) := by
  generalize hx : (exec (s.pair side) op).result = x at h
  generalize hy : (exec' (t.pair side) op).result = y at h
  cases h with
  | refused herror =>
      rw [step_of_error hx, step_of_error hy]
      exact ⟨congrArg Except.error herror, hleft, hright⟩
  | answered htarget hother =>
      rw [step_of_ok hx, step_of_ok hy]
      cases side with
      | left => exact ⟨rfl, htarget, hother⟩
      | right => exact ⟨rfl, hother, htarget⟩

theorem run_inStep {P : Pair σ → ω → Prop} {Q : ω → Prop}
    (hstep : ∀ {p : Pair σ} {q : Pair τ} {op}, R p.target q.target → R p.other q.other → Q op →
      P p op → Matches f R (exec p op).result (exec' q op).result)
    (history : List (Side × ω)) :
    ∀ {s : Session σ} {t : Session τ}, R s.left t.left → R s.right t.right →
      (∀ step ∈ history, Q step.2) → Throughout exec P s history →
      List.Forall₂ (InStep f R) (run exec s history) (run exec' t history) := by
  -- Both sides stay related after every step, also after one that is refused.
  induction history with
  | nil =>
      intro s t _ _ _ _
      exact .nil
  | cons first rest ih =>
      intro s t hleft hright hops hall
      obtain ⟨side, op⟩ := first
      obtain ⟨htarget, hother⟩ := pair_related hleft hright side
      have hmatch := hstep htarget hother (hops _ List.mem_cons_self) hall.1
      have hfirst := inStep_of_matches hleft hright hmatch
      rw [run_cons, run_cons]
      refine .cons hfirst (ih hfirst.left hfirst.right ?_ hall.2)
      intro step hmem
      exact hops step (List.mem_cons_of_mem _ hmem)

end Session

/-! ## Stores read as lists -/

namespace ListView

variable {σ τ : Type} {U : ListView σ} {V : ListView τ}

/-- The faults of the view keep the error that can be recovered from, if there is one. -/
def Recovers (V : ListView σ) : Prop :=
  ∀ {fault fault' : Fault}, V.Means fault fault' → fault.recoverable? = fault'.recoverable?

theorem matches_of_refuses {f : Answer → Answer} {R : σ → τ → Prop} (hU : U.Recovers)
    (hV : V.Recovers) {x : Except Fault (Answer × Pair σ)} {y : Except Fault (Answer × Pair τ)}
    {fault : Fault} (hx : U.Refuses x fault) (hy : V.Refuses y fault) :
    Session.Matches f R x y := by
  obtain ⟨_, rfl, hmeans⟩ := hx
  obtain ⟨_, rfl, hmeans'⟩ := hy
  exact .refused ((hV hmeans').trans (hU hmeans).symm)

variable [Storage σ] [Storage τ] {f : Answer → Answer} {g : List Word → List Word}

/-- Valid stores of two views, of which the second holds the image of what the first holds. -/
structure Beside (U : ListView σ) (V : ListView τ) (g : List Word → List Word) (s : σ) (t : τ) :
    Prop where
  left : U.Valid s
  right : V.Valid t
  toList : Storage.toList t = g (Storage.toList s)
  roomy : U.width.Roomy (Storage.size s)

theorem beside_of_holds (k : Storage.Laws U) {s : σ} {t : τ} {values : List Word}
    (hs : U.Holds s values) (ht : V.Holds t (g values)) (hroom : U.width.Roomy values.length) :
    U.Beside V g s t where
  left := hs.valid
  right := ht.valid
  toList := by rw [ht.toList, hs.toList]
  roomy := by
    rw [k.size_of_holds hs]
    exact hroom

theorem lists_of_beside {p : Pair σ} {q : Pair τ} (htarget : U.Beside V g p.target q.target)
    (hother : U.Beside V g p.other q.other) :
    q.lists = ⟨g p.lists.target, g p.lists.other⟩ :=
  congrArg₂ Pair.mk htarget.toList hother.toList

theorem roomy_of_beside (k : Storage.Laws U) {p : Pair σ} {q : Pair τ}
    (htarget : U.Beside V g p.target q.target) (hother : U.Beside V g p.other q.other) :
    p.lists.Roomy U.width where
  target := by
    rw [Pair.lists, k.length_toList]
    exact htarget.roomy
  other := by
    rw [Pair.lists, k.length_toList]
    exact hother.roomy

theorem matches_of_yields (k : Storage.Laws U) {x : Traced (Answer × Pair σ)}
    {y : Traced (Answer × Pair τ)} {r : Answer × Pair (List Word)} (hx : U.Yields x r)
    (hy : V.Yields y (f r.1, ⟨g r.2.target, g r.2.other⟩))
    (hroom : r.2.Roomy U.width) :
    Session.Matches f (U.Beside V g) x.result y.result := by
  obtain ⟨p, hx, htarget, hother⟩ := hx
  obtain ⟨q, hy, htarget', hother'⟩ := hy
  rw [hx, hy]
  exact .answered (beside_of_holds k htarget htarget' hroom.target)
    (beside_of_holds k hother hother' hroom.other)

end ListView

end NarrowVec
