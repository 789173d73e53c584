import NarrowVec.Proofs.Buffers
import NarrowVec.Proofs.Refinement

/-!
# The two backings

A buffer of native integers and dense storage of the same width are one store for its caller: as
long as the bits of every size that is asked for can be counted together with padding, the same
history gets the same answers, is refused at the same steps and leaves the same elements.  Only the
faults that nobody can recover from have causes of their own.
-/

set_option autoImplicit false

namespace NarrowVec

theorem Buffer.recovers (lane : Lane) : (Buffer.view lane).Recovers := id

theorem Dense.recovers (w : Width) : (Dense.view w).Recovers := congrArg Fault.recoverable?

namespace Lane

variable {lane : Lane} {p : Pair (Buffer lane)} {q : Pair (Dense lane.width)}

/-- A buffer beside a dense store of the same elements. -/
def Beside (lane : Lane) : Buffer lane → Dense lane.width → Prop :=
  (Buffer.view lane).Beside (Dense.view lane.width) id

def Asks (lane : Lane) (p : Pair (Buffer lane)) (op : Storage.Op) : Prop :=
  lane.width.Roomy (op.request (Storage.size p.target))

instance (p : Pair (Buffer lane)) (op : Storage.Op) : Decidable (lane.Asks p op) :=
  inferInstanceAs (Decidable (lane.width.Roomy _))

theorem beside_empty (lane : Lane) : lane.Beside Storage.empty Storage.empty where
  left := trivial
  right := Dense.wellFormed_empty
  toList := rfl
  roomy := lane.width.roomy_zero

theorem run_matches {op : Storage.Op} (htarget : lane.Beside p.target q.target)
    (hother : lane.Beside p.other q.other) (hop : op.OnElements) (hasks : lane.Asks p op) :
    Session.Matches id lane.Beside (op.run p).result (op.run q).result := by
  have k := Buffer.laws lane
  have l := Dense.storage_laws lane.width
  have hlists : q.lists = p.lists := ListView.lists_of_beside htarget hother
  have hsize : Storage.size q.target = Storage.size p.target := by
    rw [← l.length_toList, ← k.length_toList]
    exact congrArg (fun lists => lists.target.length) hlists
  have hp : (Buffer.view lane).Ready p := ⟨trivial, trivial, htarget.roomy⟩
  have hq : (Dense.view lane.width).Ready q :=
    ⟨htarget.right, hother.right, hsize ▸ htarget.roomy⟩
  cases hr : op.refusal (Storage.size p.target) with
  | some fault =>
      have hbuffer := k.run_refused hp hr
      have hdense := l.run_refused hq (hsize ▸ hr)
      exact ListView.matches_of_refuses (Buffer.recovers lane) (Dense.recovers _) hbuffer hdense
  | none =>
      have hbuffer := k.run_yields hp hop hr hasks
      have hdense := l.run_yields hq hop (hsize ▸ hr) (hsize ▸ hasks.countable)
      rw [hlists] at hdense
      have hlength : p.lists.target.length = Storage.size p.target := k.length_toList _
      have hroom := op.roomy_effect (w := lane.width) (ListView.roomy_of_beside k htarget hother)
        (hlength ▸ hr) (hlength ▸ hasks)
      exact ListView.matches_of_yields k hbuffer hdense hroom

end Lane

/-! ## Histories -/

/-- What a caller sees of a step: its answer or the error that can be recovered from, and a walk
over each store. -/
def observed {σ : Type} [Container σ] (x : Outcome × Session σ) :
    Except (Option OutOfRange) Answer × Except Fault (List Word) × Except Fault (List Word) :=
  (x.1.result.mapError Fault.recoverable?, Container.entries x.2.left, Container.entries x.2.right)

namespace Lane

variable {lane : Lane}

theorem entries_of_beside {b : Buffer lane} {d : Dense lane.width} (h : lane.Beside b d) :
    Container.entries b = Container.entries d :=
  (congrArg Except.ok h.toList.symm).trans (Dense.entries_spec h.right).symm

theorem observed_of_inStep {x : Outcome × Session (Buffer lane)}
    {y : Outcome × Session (Dense lane.width)} (h : Session.InStep id lane.Beside x y) :
    observed x = observed y := by
  have hresult : y.1.result.mapError Fault.recoverable? =
      x.1.result.mapError Fault.recoverable? := by
    rw [h.result]
    cases x.1.result <;> rfl
  simp only [observed, hresult, entries_of_beside h.left, entries_of_beside h.right]

/-- Two sessions that start empty, one on buffers and one on dense stores of the same width, cannot
be told apart by operations on elements that ask for no more than can be counted with padding. -/
theorem backings_agree (lane : Lane) (history : List (Side × Storage.Op))
    (hops : ∀ step ∈ history, step.2.OnElements)
    (hasks : Session.Throughout Storage.Op.run lane.Asks ⟨Storage.empty, Storage.empty⟩ history) :
    (Session.run Storage.Op.run (⟨Storage.empty, Storage.empty⟩ : Session (Buffer lane))
        history).map observed =
      (Session.run Storage.Op.run (⟨Storage.empty, Storage.empty⟩ : Session (Dense lane.width))
        history).map observed := by
  have hrun := Session.run_inStep (R := lane.Beside) run_matches history
    (s := ⟨Storage.empty, Storage.empty⟩) (t := ⟨Storage.empty, Storage.empty⟩)
    lane.beside_empty lane.beside_empty hops hasks
  rw [← List.forall₂_eq_eq_eq, List.forall₂_map_left_iff, List.forall₂_map_right_iff]
  exact hrun.imp fun _ _ => observed_of_inStep

/-- Elements of sixteen bits, with values that do not fit, moves of a tail, and steps that are
refused with and without an error to recover from. -/
def mixture : List (Side × Storage.Op) :=
  [(.left, .ofList [1, 0x1_0002, 0xffff, 4, 5]), (.left, .insertCopies 2 0 7),
    (.left, .insertList 6 []), (.left, .insertList 1 [0x8_0009, 9]),
    (.left, .erase ⟨.included 4, .excluded 3⟩), (.left, .erase ⟨.unbounded, .included 1⟩),
    (.left, .fetch 5), (.left, .remove 0), (.right, .replicate 3 0x1_0000), (.right, .exchange),
    (.left, .swap 0 3), (.right, .bitSize)]

theorem backings_agree_on_mixture :
    (Session.run Storage.Op.run (⟨Storage.empty, Storage.empty⟩ : Session (Buffer .bits16))
        mixture).map observed =
      (Session.run Storage.Op.run (⟨Storage.empty, Storage.empty⟩ : Session (Dense bits16.width))
        mixture).map observed := by
  apply backings_agree
  · simp [mixture, Storage.Op.OnElements]
  · decide +kernel

end Lane

end NarrowVec
