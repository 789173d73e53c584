import NarrowVec.Dense.Op
import NarrowVec.Proofs.Padding
import NarrowVec.Proofs.Refinement

/-!
# Safety of dense storage

After any history, raw writes to words and bytes included, a store has exactly the words that its
elements need.  From this alone, and as long as bits can be counted, no step inside an operation
fails: what is refused is refused for the caller's own index, position, range or calls.
-/

set_option autoImplicit false

namespace NarrowVec.Dense

variable {w : Width} {d d' : Dense w} {p p' : Pair (Dense w)}

/-! ## The invariant of all histories -/

def Op.perform (p : Pair (Dense w)) : Op → Traced (Answer × Pair (Dense w))
  | .container op => op.perform p
  | op => op.run p

theorem wellFormed_of_setWord {i : Nat} {word : Word} (h : d.WellFormed)
    (hrun : d.setWord i word = .ok d') : d'.WellFormed := by
  obtain ⟨words, hput, hdone⟩ := bind_eq_ok_iff.mp hrun
  cases hdone
  refine wellFormed_iff.mpr ⟨h.countable, ?_⟩
  rw [Words.size_of_put hput]
  exact h.words_size

theorem keeps_of_perform {P : Dense w → Prop} {edit build : Dense w → Dense w → Prop}
    (k : Container.Evolves edit build) (hedit : ∀ {d d'}, P d → edit d d' → P d')
    (hbuild : ∀ {d d'}, P d → build d d' → P d') (hcopy : ∀ {d}, P d → P d.copy)
    (hbyte : ∀ {d d' i byte}, P d → d.setByte i byte = .ok d' → P d')
    (hword : ∀ {d d' i word}, P d → d.setWord i word = .ok d' → P d') (p : Pair (Dense w))
    (op : Op) (answer : Answer) (p' : Pair (Dense w)) (ht : P p.target) (ho : P p.other)
    (hrun : (op.perform p).result = .ok (answer, p')) : P p'.target ∧ P p'.other := by
  cases op with
  | container op => exact (Container.takes_of_perform k hrun).keeps hedit hbuild hcopy hbyte ht ho
  | address _ | startAddress | stopAddress =>
      obtain ⟨_, _, hlast⟩ := Traced.lift_result_eq_ok_iff.mp hrun
      cases hlast
      exact ⟨ht, ho⟩
  | span =>
      obtain ⟨_, _, hlow⟩ := Traced.lift_result_eq_ok_iff.mp hrun
      obtain ⟨_, _, hdistance⟩ := Traced.lift_result_eq_ok_iff.mp hlow
      obtain ⟨_, _, hlast⟩ := Traced.lift_result_eq_ok_iff.mp hdistance
      cases hlast
      exact ⟨ht, ho⟩
  | setWord i word =>
      obtain ⟨_, hset, hlast⟩ := Traced.lift_result_eq_ok_iff.mp hrun
      cases hlast
      exact ⟨hword ht hset, ho⟩

theorem wellFormed_of_perform (p : Pair (Dense w)) (op : Op) (answer : Answer)
    (p' : Pair (Dense w)) (ht : p.target.WellFormed) (ho : p.other.WellFormed)
    (hrun : (op.perform p).result = .ok (answer, p')) :
    p'.target.WellFormed ∧ p'.other.WellFormed :=
  keeps_of_perform evolves (fun h hedit => hedit.wellFormed h) (fun _ hfresh => hfresh.wellFormed)
    id wellFormed_of_setByte wellFormed_of_setWord p op answer p' ht ho hrun

/-- The store is one of the two of some session that started with two empty stores. -/
def Reachable (d : Dense w) : Prop :=
  ∃ history : List (Side × Op),
    ∃ x ∈ Session.run Op.perform ⟨empty, empty⟩ history, d = x.2.left ∨ d = x.2.right

theorem Reachable.wellFormed (h : d.Reachable) : d.WellFormed :=
  Session.keeps_of_reached wellFormed_of_perform wellFormed_empty h

/-! ## What can fail -/

/-- All operations but those that measure room or reach for a byte. -/
def Checked : Container.Op → Prop
  | .storage (.hasCapacity _) => False
  | .storage (.setByte ..) => False
  | _ => True

theorem perform_ok (h : Ready p) {op : Container.Op} (hchecked : Checked op)
    (hr : op.refusal p.target.size = none)
    (hn : w.Countable (op.request p.target.size p.other.size)) :
    ∃ done, (op.perform p).result = .ok done := by
  by_cases hvalue : op.ByValue
  · obtain ⟨p', hrun, _⟩ := container_ok h hvalue hr hn
    exact ⟨_, hrun⟩
  · cases op with
    | storage op =>
        cases op with
        | setSize count =>
            obtain ⟨_, _, hset, _⟩ := setSize_spec (d := p.target) hn
            exact ⟨_, Traced.result_lift_of_ok hset⟩
        | bytes => exact ⟨_, rfl⟩
        | hasCapacity _ | setByte _ _ => exact hchecked.elim
        | _ => exact absurd trivial hvalue
    | _ => exact absurd trivial hvalue

theorem perform_error_iff (h : Ready p) {op : Container.Op} (hchecked : Checked op)
    (hn : w.Countable (op.request p.target.size p.other.size)) {fault : Fault} :
    (op.perform p).result = .error fault ↔ op.refusal p.target.size = some fault := by
  constructor
  · intro hrun
    cases hr : op.refusal p.target.size with
    | some fault' =>
        cases (container_refused h hr).symm.trans hrun
        rfl
    | none =>
        obtain ⟨_, hok⟩ := perform_ok h hchecked hr hn
        cases hok.symm.trans hrun
  · exact container_refused h

/-- The faults that tell a caller what was wrong with the index, position or range of an operation.
A range whose bound has no successor overflows, and the calls of a walk have faults of their own. -/
def Blames (op : Container.Op) : Fault → Prop
  | .outOfRange _ => True
  | .indexPastEnd .. => True
  | .insertPastEnd .. => True
  | .removePastEnd .. => True
  | .swapPastEnd .. => True
  | .extentReversed .. => True
  | .extentPastEnd .. => True
  | .overflow => ∃ e, op = .storage (.erase e) ∧ ¬(e.start.FirstFits ∧ e.stop.PastFits)
  | .bounds => (∃ calls, op = .scan calls) ∨ ∃ calls, op = .visit calls
  | _ => False

theorem blames_of_refusal {op : Container.Op} {n : Nat} {fault : Fault}
    (hr : op.refusal n = some fault) : Blames op fault := by
  cases op with
  | storage op =>
      cases op with
      | fetch _ | read _ | set _ _ | insertCopies _ _ _ | insertList _ _ | remove _ | swap _ _ =>
          obtain ⟨_, rfl⟩ := refuseUnless_eq_some_iff.mp hr
          trivial
      | erase e =>
          simp only [Container.Op.refusal, Storage.Op.refusal, Extent.refusal] at hr
          split at hr
          · rename_i hfits
            cases hr
            exact ⟨e, rfl, hfits⟩
          · split at hr
            · cases hr
              trivial
            · split at hr
              · cases hr
                trivial
              · cases hr
      | _ => cases hr
  | insert _ _ | actFetched _ _ | act _ _ =>
      obtain ⟨_, rfl⟩ := refuseUnless_eq_some_iff.mp hr
      trivial
  | scan calls =>
      obtain ⟨_, rfl⟩ := refuseUnless_eq_some_iff.mp hr
      exact .inl ⟨calls, rfl⟩
  | visit calls =>
      obtain ⟨_, rfl⟩ := refuseUnless_eq_some_iff.mp hr
      exact .inr ⟨calls, rfl⟩
  | _ => cases hr

/-- Whatever was done to two stores that started empty, each has exactly the words that its elements
need, and an operation whose bits can be counted fails for nothing but what its caller asked for. -/
theorem failures_of_callers (w : Width) (history : List (Side × Op)) :
    ∀ x ∈ Session.run Op.perform (⟨empty, empty⟩ : Session (Dense w)) history,
      (x.2.left.WellFormed ∧ x.2.right.WellFormed) ∧
      ∀ (side : Side) (op : Container.Op) (fault : Fault), Checked op →
        w.Roomy (x.2.pair side).target.size →
        w.Countable (op.request (x.2.pair side).target.size (x.2.pair side).other.size) →
        ((op.perform (x.2.pair side)).result = .error fault ↔
          op.refusal (x.2.pair side).target.size = some fault) ∧
        (op.refusal (x.2.pair side).target.size = some fault → Blames op fault) := by
  intro x hx
  have hkeeps := Session.run_keeps wellFormed_of_perform history (s := ⟨empty, empty⟩)
    wellFormed_empty wellFormed_empty x hx
  refine ⟨hkeeps, ?_⟩
  intro side op fault hchecked hroomy hn
  have hready : Ready (x.2.pair side) := by
    cases side with
    | left => exact ⟨hkeeps.1, hkeeps.2, hroomy⟩
    | right => exact ⟨hkeeps.2, hkeeps.1, hroomy⟩
  exact ⟨perform_error_iff hready hchecked hn, blames_of_refusal⟩

theorem failures_of_callers_read :
    ((Container.Op.storage (.read 3)).perform
      (⟨⟨#[5], 1, 1⟩, empty⟩ : Pair (Dense { bits := 7 }))).result =
        .error (.indexPastEnd 3 1) := by
  have hafter := failures_of_callers { bits := 7 } [(.left, .container (.storage (.push 5)))]
    (⟨.ok .done, []⟩, ⟨⟨#[5], 1, 1⟩, empty⟩) (List.mem_singleton_self _)
  exact (hafter.2 .left (.storage (.read 3)) _ trivial (by decide) (by decide)).1.mpr rfl

end NarrowVec.Dense
