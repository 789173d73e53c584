import NarrowVec.Proofs.ListLaws
import NarrowVec.Proofs.Moves

/-!
# Dense storage refines lists

As long as the bits of a store can be counted together with its padding, an operation on it is
refused exactly when the list model refuses it, with the same fault, and otherwise answers what the
lists answer and leaves stores of exactly their elements.
-/

set_option autoImplicit false

namespace NarrowVec.Dense

variable {w : Width} {d d' : Dense w} {p p' : Pair (Dense w)} {values : List Word}

def lists (p : Pair (Dense w)) : Pair (List Word) := ⟨p.target.toList, p.other.toList⟩

structure Ready (p : Pair (Dense w)) : Prop where
  target : p.target.WellFormed
  other : p.other.WellFormed
  roomy : w.Roomy p.target.size

structure Shows (p : Pair (Dense w)) (l : Pair (List Word)) : Prop where
  target : p.target.WellFormed
  other : p.other.WellFormed
  lists : lists p = l

/-! ## The laws of dense storage -/

/-- Well-formed stores, of every size whose bits can be counted, with the faults of the list
model. -/
def view (w : Width) : ListView (Dense w) where
  width := w
  Valid := WellFormed
  Fits := w.Countable
  Means := Eq

theorem holds_of_becomes (h : d.Becomes d' values) : (view w).Holds d' values :=
  ⟨h.wellFormed, h.toList⟩

theorem makes_of_becomes {x : Except Fault (Dense w)} (h : ∃ d', x = .ok d' ∧ d.Becomes d' values) :
    (view w).Makes x values := by
  obtain ⟨d', hx, hd'⟩ := h
  exact ⟨d', hx, holds_of_becomes hd'⟩

theorem answers_of_becomes {α : Type} {a : α} {x : Except Fault (α × Dense w)}
    (h : ∃ d', x = .ok (a, d') ∧ d.Becomes d' values) : (view w).Answers x a values := by
  obtain ⟨d', hx, hd'⟩ := h
  exact ⟨d', hx, holds_of_becomes hd'⟩

theorem storage_laws (w : Width) : Storage.Laws (view w) where
  means_refl _ := rfl
  fits_mono := Width.Countable.mono
  width := rfl
  length_toList := length_toList
  map_truncate _ := map_truncate_toList _
  empty := ⟨wellFormed_empty, rfl⟩
  emptyWithCapacity hn :=
    ⟨_, bind_of_ok (Width.wordCount_of_countable hn), wellFormed_empty, rfl⟩
  zeros hn := makes_of_becomes (zeros_spec hn)
  replicate hn value := makes_of_becomes (replicate_spec hn value)
  ofList hn := makes_of_becomes (ofList_spec hn)
  copy h := ⟨h, rfl⟩
  reserve h hn := by
    obtain ⟨d', hreserve, _, hd'⟩ := reserve_spec h hn
    exact ⟨d', hreserve, holds_of_becomes hd'⟩
  shrink h := ⟨h, rfl⟩
  get? := get?_spec
  read := read_spec
  read_refused _ hi := ⟨_, read_refused hi, rfl⟩
  set h hi value := makes_of_becomes (set_spec h hi value)
  set_refused _ hi value := ⟨_, set_refused hi value, rfl⟩
  push h hn value := makes_of_becomes (push_spec h hn value)
  pop h := answers_of_becomes (pop_spec h)
  insertCopies h hi hroom hn value := makes_of_becomes (insertCopies_spec h hi hroom hn value)
  insertCopies_refused _ hi n value := ⟨_, insertCopies_refused hi n value, rfl⟩
  insertList h hi hroom hn := makes_of_becomes (insertList_spec h hi (.inr ⟨hroom, hn⟩))
  insertList_refused _ hi values := ⟨_, insertList_refused hi values, rfl⟩
  remove h hi := answers_of_becomes (remove_spec h hi)
  remove_refused _ hi := ⟨_, remove_refused hi, rfl⟩
  erase h he := makes_of_becomes (erase_spec h he)
  erase_refused _ he := ⟨_, erase_refused he, rfl⟩
  resize _ hn value := makes_of_becomes (resize_spec hn value)
  truncate h n := makes_of_becomes (truncate_spec h n)
  clear {d} _ := holds_of_becomes (clear_spec d)
  swap h hi hj := makes_of_becomes (swap_spec h hi hj)
  swap_refused _ hij := ⟨_, swap_refused hij, rfl⟩

theorem laws (w : Width) : Container.Laws (view w) (text w Address.label) where
  toLaws := storage_laws w
  insert h hi hroom hn value := makes_of_becomes (insertCopies_spec h hi hroom hn value)
  insert_refused _ hi value := ⟨_, insertCopies_refused hi 1 value, rfl⟩
  equal := equal_spec
  entries := entries_spec
  describe h := bind_of_ok (entries_spec h)
  act h hi action := answers_of_becomes (act_spec h hi action)
  act_refused _ hi action := ⟨_, act_refused hi action, rfl⟩
  scan h hroom hlegal := scan_spec h hroom hlegal
  scan_refused h hroom hillegal := ⟨_, scan_refused h hroom hillegal, rfl⟩
  visit h hroom hlegal := answers_of_becomes (visit_spec h hroom hlegal)
  visit_refused h hroom hillegal := ⟨_, visit_refused h hroom hillegal, rfl⟩

/-! ## Operations -/

theorem container_refused (h : Ready p) {op : Container.Op} {fault : Fault}
    (hr : op.refusal p.target.size = some fault) : (op.perform p).result = .error fault := by
  obtain ⟨_, hrun, rfl⟩ := (laws w).perform_refused ⟨h.target, h.other, h.roomy⟩ hr
  exact hrun

theorem storage_overflow (h : Ready p) {op : Storage.Op} (hr : op.refusal p.target.size = none)
    (hn : ¬w.Countable (op.request p.target.size)) :
    ((Container.Op.storage op).perform p).result = .error .overflow := by
  cases op with
  | emptyWithCapacity count =>
      exact Traced.result_lift_of_error (bind_of_error (Width.wordCount_of_not_countable hn))
  | zeros count => exact Traced.result_lift_of_error (zeros_overflow hn)
  | replicate count value =>
      exact Traced.result_lift_of_error (replicate_overflow hn value)
  | ofList values => exact Traced.result_lift_of_error (ofList_overflow hn)
  | reserve count => exact Traced.result_bind_of_error (reserve_overflow hn)
  | push value => exact Traced.result_lift_of_error (push_overflow hn value)
  | insertCopies i count value =>
      have hi := refuseUnless_eq_none_iff.mp hr
      exact Traced.result_bind_of_error (insertCopies_overflow h.target hi hn value)
  | insertList i values =>
      have hi := refuseUnless_eq_none_iff.mp hr
      have hne : values ≠ [] := by
        rintro rfl
        exact hn h.target.countable
      exact Traced.result_bind_of_error
        (insertList_overflow h.target hi hne fun hroom => hn hroom.2)
  | resize count value => exact Traced.result_lift_of_error (resize_overflow hn value)
  | setSize count => exact Traced.result_lift_of_error (setSize_overflow hn)
  | _ => exact absurd h.target.countable hn

theorem container_overflow (h : Ready p) {op : Container.Op}
    (hr : op.refusal p.target.size = none)
    (hn : ¬w.Countable (op.request p.target.size p.other.size)) :
    (op.perform p).result = .error .overflow := by
  cases op with
  | storage op => exact storage_overflow h hr hn
  | ofPushes feed => exact Traced.result_bind_of_error (assign_overflow empty hn)
  | insert i value =>
      have hi := refuseUnless_eq_none_iff.mp hr
      exact Traced.result_bind_of_error (insertCopies_overflow h.target hi hn value)
  | append values =>
      have hne : values ≠ [] := by
        rintro rfl
        exact hn h.target.countable
      exact Traced.result_bind_of_error
        (insertList_overflow h.target (Nat.le_refl _) hne fun hroom => hn hroom.2)
  | extend feed => exact Traced.result_bind_of_error (extend_overflow h.target hn)
  | extendOther =>
      have hover : ¬w.Countable (p.target.size +
          (Feed.exact p.other.toList).values.length) := by
        rw [Feed.values_exact, length_toList]
        exact hn
      exact (Traced.result_lift_of_ok (entries_spec h.other)).trans
        (Traced.result_bind_of_error (extend_overflow h.target hover))
  | assign feed => exact Traced.result_bind_of_error (assign_overflow p.target hn)
  | assignCopies count value =>
      exact Traced.result_lift_of_error (assignCopies_overflow p.target hn value)
  | _ => exact absurd h.target.countable hn

theorem container_ok (h : Ready p) {op : Container.Op} (hvalue : op.ByValue)
    (hr : op.refusal p.target.size = none)
    (hn : w.Countable (op.request p.target.size p.other.size)) :
    ∃ p', (op.perform p).result =
        .ok ((op.effect w (text w Address.label) (lists p)).1, p') ∧
      Shows p' (op.effect w (text w Address.label) (lists p)).2 := by
  obtain ⟨p', hrun, htarget, hother⟩ :=
    (laws w).perform_yields ⟨h.target, h.other, h.roomy⟩ hvalue hr hn
  exact ⟨p', hrun, htarget.valid, hother.valid, congrArg₂ Pair.mk htarget.toList hother.toList⟩

/-! ## Whole histories -/

/-- The list model as the steps of a session, with the texts that dense storage shows. -/
def onLists (w : Width) (p : Pair (List Word)) (op : Container.Op) :
    Traced (Answer × Pair (List Word)) :=
  .ofExcept (op.onLists w (text w Address.label) p)

theorem onLists_of_refusal {op : Container.Op} {fault : Fault}
    (hr : op.refusal p.target.size = some fault) :
    (onLists w (lists p) op).result = .error fault := by
  simp only [onLists, Traced.ofExcept, Container.Op.onLists, lists, length_toList, hr]

theorem onLists_of_overflow {op : Container.Op} (hr : op.refusal p.target.size = none)
    (hn : ¬w.Countable (op.request p.target.size p.other.size)) :
    (onLists w (lists p) op).result = .error .overflow := by
  simp only [onLists, Traced.ofExcept, Container.Op.onLists, lists, length_toList, hr, if_neg hn]

theorem onLists_of_countable {op : Container.Op} (hr : op.refusal p.target.size = none)
    (hn : w.Countable (op.request p.target.size p.other.size)) :
    (onLists w (lists p) op).result =
      .ok (op.effect w (text w Address.label) (lists p)) := by
  simp only [onLists, Traced.ofExcept, Container.Op.onLists, lists, length_toList, hr, if_pos hn]

theorem perform_onLists (h : Ready p) {op : Container.Op} (hvalue : op.ByValue) :
    (∃ fault, (op.perform p).result = .error fault ∧
      (onLists w (lists p) op).result = .error fault) ∨
    ∃ answer p' l, (op.perform p).result = .ok (answer, p') ∧
      (onLists w (lists p) op).result = .ok (answer, l) ∧ Shows p' l := by
  cases hr : op.refusal p.target.size with
  | some fault => exact .inl ⟨fault, container_refused h hr, onLists_of_refusal hr⟩
  | none =>
      by_cases hn : w.Countable (op.request p.target.size p.other.size)
      · obtain ⟨p', hrun, hshows⟩ := container_ok h hvalue hr hn
        exact .inr ⟨_, p', _, hrun, onLists_of_countable hr hn, hshows⟩
      · exact .inl ⟨.overflow, container_overflow h hr hn, onLists_of_overflow hr hn⟩

def sessionLists (s : Session (Dense w)) : Session (List Word) := ⟨s.left.toList, s.right.toList⟩

theorem pair_sessionLists (s : Session (Dense w)) (side : Side) :
    (sessionLists s).pair side = lists (s.pair side) := by
  cases side <;> rfl

def SessionReady (s : Session (Dense w)) : Prop := ∀ side, Ready (s.pair side)

theorem Shows.session {l : Pair (List Word)} (h : Shows p l) (side : Side)
    (htarget : w.Roomy p.target.size) (hother : w.Roomy p.other.size) :
    SessionReady (Session.ofPair p side) ∧
      sessionLists (Session.ofPair p side) = Session.ofPair l side := by
  have hready : Ready p := ⟨h.target, h.other, htarget⟩
  have hswap : Ready ⟨p.other, p.target⟩ := ⟨h.other, h.target, hother⟩
  rw [← h.lists]
  constructor
  · intro other
    cases side <;> cases other <;> first | exact hready | exact hswap
  · cases side <;> rfl

/-- What is seen of a step of a session of stores: its result and a walk over each store. -/
def seen (x : Outcome × Session (Dense w)) :
    Except Fault Answer × Except Fault (List Word) × Except Fault (List Word) :=
  (x.1.result, x.2.left.entries, x.2.right.entries)

def seenLists (x : Outcome × Session (List Word)) :
    Except Fault Answer × Except Fault (List Word) × Except Fault (List Word) :=
  (x.1.result, .ok x.2.left, .ok x.2.right)

theorem seen_of_ready {s : Session (Dense w)} (h : SessionReady s) {result : Except Fault Answer}
    {notes notes' : List Note} :
    seen (⟨result, notes⟩, s) = seenLists (⟨result, notes'⟩, sessionLists s) := by
  have hleft : s.left.entries = .ok s.left.toList := entries_spec (h .left).target
  have hright : s.right.entries = .ok s.right.toList := entries_spec (h .left).other
  simp only [seen, seenLists, hleft, hright]
  rfl

theorem run_onLists (history : List (Side × Container.Op)) :
    ∀ {s : Session (Dense w)}, SessionReady s → (∀ step ∈ history, step.2.ByValue) →
      (∀ x ∈ Session.run Container.Op.perform s history, x.1.result.isOk →
        w.Roomy x.2.left.size ∧ w.Roomy x.2.right.size) →
      (Session.run Container.Op.perform s history).map seen =
        (Session.run (onLists w) (sessionLists s) history).map seenLists := by
  induction history with
  | nil =>
      intro s _ _ _
      rfl
  | cons first rest ih =>
      intro s hready hvalue hroom
      obtain ⟨side, op⟩ := first
      have hop : op.ByValue := hvalue (side, op) List.mem_cons_self
      have hrest : ∀ step ∈ rest, step.2.ByValue :=
        fun step hstep => hvalue step (List.mem_cons_of_mem _ hstep)
      rw [Session.run_cons] at hroom
      rw [Session.run_cons, Session.run_cons, List.map_cons, List.map_cons]
      rcases perform_onLists (hready side) hop with
        ⟨fault, hrun, hlists⟩ | ⟨answer, p', l, hrun, hlists, hshows⟩
      · rw [← pair_sessionLists] at hlists
        rw [Session.step_of_error hrun] at hroom ⊢
        rw [Session.step_of_error hlists]
        have htail := ih hready hrest fun x hx => hroom x (List.mem_cons_of_mem _ hx)
        rw [seen_of_ready hready, htail]
      · rw [← pair_sessionLists] at hlists
        rw [Session.step_of_ok hrun] at hroom ⊢
        rw [Session.step_of_ok hlists]
        have hsizes := hroom _ List.mem_cons_self rfl
        obtain ⟨htarget, hother⟩ : w.Roomy p'.target.size ∧ w.Roomy p'.other.size := by
          cases side
          · exact hsizes
          · exact hsizes.symm
        obtain ⟨hready', heq⟩ := hshows.session side htarget hother
        have htail := ih hready' hrest fun x hx => hroom x (List.mem_cons_of_mem _ hx)
        rw [← heq, seen_of_ready hready', htail]

theorem sessionReady_empty : SessionReady (⟨empty, empty⟩ : Session (Dense w)) := by
  have hroomy : w.Roomy 0 := by
    unfold Width.Roomy
    omega
  intro side
  cases side <;> exact ⟨wellFormed_empty, wellFormed_empty, hroomy⟩

/-- Two stores that start empty answer to every history of operations by value what two lists
answer, step by step, with the same faults, and hold the elements of the lists after every step. -/
theorem history_refines_lists (w : Width) (history : List (Side × Container.Op))
    (hvalue : ∀ step ∈ history, step.2.ByValue)
    (hroom : ∀ x ∈ Session.run Container.Op.perform (⟨empty, empty⟩ : Session (Dense w)) history,
      x.1.result.isOk → w.Roomy x.2.left.size ∧ w.Roomy x.2.right.size) :
    (Session.run Container.Op.perform (⟨empty, empty⟩ : Session (Dense w)) history).map seen =
      (Session.run (onLists w) ⟨[], []⟩ history).map seenLists :=
  run_onLists history sessionReady_empty hvalue hroom

/-- Elements of thirteen bits that move across a word boundary, with a step that is refused. -/
def shifts : List (Side × Container.Op) :=
  [(.left, .extend (.exact [1, 2, 3, 4, 8191])), (.left, .insert 1 9000),
    (.right, .storage .copyOther), (.right, .storage (.remove 0)), (.left, .storage (.read 6))]

theorem history_of_shifts :
    (Session.run Container.Op.perform (⟨empty, empty⟩ : Session (Dense { bits := 13 })) shifts).map
        seen =
      (Session.run (onLists { bits := 13 }) ⟨[], []⟩ shifts).map seenLists := by
  apply history_refines_lists
  · simp [shifts, Container.Op.ByValue, Storage.Op.ByValue]
  · decide +kernel

end NarrowVec.Dense
