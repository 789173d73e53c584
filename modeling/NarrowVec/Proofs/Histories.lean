import NarrowVec.Container.Op

/-!
# Histories

What an operation that is not refused can do to a pair of stores, said once for all containers: it
edits the target, builds it anew, copies the other store, exchanges the two or overwrites a byte.
What every such step keeps, a whole history keeps.
-/

set_option autoImplicit false

namespace NarrowVec

namespace Storage

variable {σ : Type} [Storage σ] {P : σ → Prop}

theorem keeps_of_pushEach (hpush : ∀ {s s' value}, P s → push s value = .ok s' → P s')
    (values : List Word) : ∀ {s s' : σ}, P s → pushEach s values = .ok s' → P s' := by
  induction values with
  | nil =>
      intro s s' h hrun
      cases hrun
      exact h
  | cons value rest ih =>
      intro s s' h hrun
      obtain ⟨next, hnext, hrest⟩ := bind_eq_ok_iff.mp hrun
      exact ih (hpush h hnext) hrest

theorem keeps_of_extend (hpush : ∀ {s s' value}, P s → push s value = .ok s' → P s')
    (hreserve : ∀ {s s' n}, P s → (reserve s n).result = .ok s' → P s') {feed : Feed}
    {s s' : σ} (h : P s) (hrun : (extend s feed).result = .ok s') : P s' := by
  obtain ⟨roomy, hroomy, hpushes⟩ := Traced.bind_result_eq_ok_iff.mp hrun
  exact keeps_of_pushEach hpush feed.values (hreserve h hroomy) hpushes

end Storage

namespace Container

variable {σ : Type} [Container σ]

/-- An operation alone, without the measuring that `run` adds where memory is set aside: the room
can be more than the bits of it can be counted. -/
def Op.perform (p : Pair σ) : Op → Traced (Answer × Pair σ)
  | .storage (.emptyWithCapacity count) => do
    let s : σ ← Storage.emptyWithCapacity (σ := σ) count
    return (.done, p.put s)
  | .storage (.reserve count) => do
    let s ← Storage.reserve p.target count
    return (.done, p.put s)
  | .storage .shrink => return (.done, p.put (Storage.shrink p.target))
  | op => op.run p

theorem Op.perform_of_run {op : Op} {p p' : Pair σ} {answer : Answer}
    (h : (op.run p).result = .ok (answer, p')) :
    ∃ answer', (op.perform p).result = .ok (answer', p') := by
  cases op with
  | storage op =>
      cases op with
      | emptyWithCapacity count =>
          obtain ⟨s, hs, hrest⟩ := Traced.lift_result_eq_ok_iff.mp h
          obtain ⟨_, _, hlast⟩ := Traced.lift_result_eq_ok_iff.mp hrest
          cases hlast
          exact ⟨.done, Traced.result_lift_of_ok hs⟩
      | reserve count =>
          obtain ⟨s, hs, hrest⟩ := Traced.bind_result_eq_ok_iff.mp h
          obtain ⟨_, _, hspare⟩ := Traced.lift_result_eq_ok_iff.mp hrest
          obtain ⟨_, _, hlast⟩ := Traced.lift_result_eq_ok_iff.mp hspare
          cases hlast
          exact ⟨.done, Traced.result_bind_of_ok hs⟩
      | shrink =>
          obtain ⟨_, _, hlast⟩ := Traced.lift_result_eq_ok_iff.mp h
          cases hlast
          exact ⟨.done, rfl⟩
      | _ => exact ⟨answer, h⟩
  | _ => exact ⟨answer, h⟩

theorem Op.run_of_perform_error {op : Op} {p : Pair σ} {fault : Fault}
    (h : (op.perform p).result = .error fault) : (op.run p).result = .error fault := by
  cases op with
  | storage op =>
      cases op with
      | emptyWithCapacity count =>
          cases hmake : (Storage.emptyWithCapacity count : Except Fault σ) with
          | error fault' =>
              cases (Traced.result_lift_of_error hmake).symm.trans h
              exact Traced.result_lift_of_error hmake
          | ok s => cases (Traced.result_lift_of_ok hmake).symm.trans h
      | reserve count =>
          cases hreserve : (Storage.reserve p.target count).result with
          | error fault' =>
              cases (Traced.result_bind_of_error hreserve).symm.trans h
              exact Traced.result_bind_of_error hreserve
          | ok s => cases (Traced.result_bind_of_ok hreserve).symm.trans h
      | shrink => cases h
      | _ => exact h
  | _ => exact h

/-! ## Kinds of operations -/

/-- The elements that were there are no part of what the operation makes. -/
def Op.Builds : Op → Prop
  | .storage .empty => True
  | .storage (.emptyWithCapacity _) => True
  | .storage (.zeros _) => True
  | .storage (.replicate ..) => True
  | .storage (.ofList _) => True
  | .storage .clear => True
  | .ofPushes _ => True
  | .assign _ => True
  | .assignCopies .. => True
  | _ => False

/-- The operation starts from the target and works on its elements. -/
def Op.Edits : Op → Prop
  | .storage .copyOther => False
  | .storage .exchange => False
  | .storage (.setByte ..) => False
  | op => ¬op.Builds

theorem Op.not_builds_of_edits {op : Op} (h : op.Edits) : ¬op.Builds := by
  cases op with
  | storage op =>
      cases op with
      | copyOther | exchange | setByte _ _ => exact h.elim
      | _ => exact h
  | _ => exact h

/-- What the operations of a container do to one store, as relations of the store after them to the
store before. -/
structure Evolves (edit build : σ → σ → Prop) : Prop where
  refl : ∀ s, edit s s
  reserve : ∀ {s s' n}, (Storage.reserve s n).result = .ok s' → edit s s'
  shrink : ∀ s, edit s (Storage.shrink s)
  set : ∀ {s s' i value}, Storage.set s i value = .ok s' → edit s s'
  push : ∀ {s s' value}, Storage.push s value = .ok s' → edit s s'
  pop : ∀ {s s' value}, Storage.pop s = .ok (value, s') → edit s s'
  insertCopies : ∀ {s s' i n value},
    (Storage.insertCopies s i n value).result = .ok s' → edit s s'
  insertList : ∀ {s s' i values}, (Storage.insertList s i values).result = .ok s' → edit s s'
  insert : ∀ {s s' i value}, (Container.insert s i value).result = .ok s' → edit s s'
  extend : ∀ {s s' feed}, (Storage.extend s feed).result = .ok s' → edit s s'
  remove : ∀ {s s' i value}, Storage.remove s i = .ok (value, s') → edit s s'
  erase : ∀ {s s' e}, Storage.erase s e = .ok s' → edit s s'
  resize : ∀ {s s' n value}, Storage.resize s n value = .ok s' → edit s s'
  setSize : ∀ {s s' n}, Storage.setSize s n = .ok s' → edit s s'
  truncate : ∀ {s s' n}, Storage.truncate s n = .ok s' → edit s s'
  swap : ∀ {s s' i j}, Storage.swap s i j = .ok s' → edit s s'
  act : ∀ {s s' i action reply}, Container.act s i action = .ok (reply, s') → edit s s'
  visit : ∀ {s s' calls answers}, Container.visit s calls = .ok (answers, s') → edit s s'
  empty : ∀ s, build s Storage.empty
  emptyWithCapacity : ∀ {s s' n}, Storage.emptyWithCapacity n = .ok s' → build s s'
  zeros : ∀ {s s' n}, Storage.zeros n = .ok s' → build s s'
  replicate : ∀ {s s' n value}, Storage.replicate n value = .ok s' → build s s'
  ofList : ∀ {s s' values}, Storage.ofList values = .ok s' → build s s'
  ofPushes : ∀ {s s' feed}, (Storage.ofPushes feed).result = .ok s' → build s s'
  assign : ∀ {s s' feed}, (Storage.assign s feed).result = .ok s' → build s s'
  assignCopies : ∀ {s s' n value}, Storage.assignCopies s n value = .ok s' → build s s'
  clear : ∀ s, build s (Storage.clear s)

/-- The pairs that an operation can lead to. -/
inductive Op.Takes (edit build : σ → σ → Prop) (p : Pair σ) : Op → Pair σ → Prop where
  | edit {op : Op} {s : σ} : op.Edits → edit p.target s → Takes edit build p op (p.put s)
  | build {op : Op} {s : σ} : op.Builds → build p.target s → Takes edit build p op (p.put s)
  | copy : Takes edit build p (.storage .copyOther) (p.put (Storage.copy p.other))
  | exchange : Takes edit build p (.storage .exchange) ⟨p.other, p.target⟩
  | byte {i : Nat} {byte : Byte} {s : σ} : Storage.setByte p.target i byte = .ok s →
      Takes edit build p (.storage (.setByte i byte)) (p.put s)

variable {edit build : σ → σ → Prop} {p p' : Pair σ} {answer : Answer}

omit [Container σ] in
theorem put_of_lift {x : Except Fault σ} {reply : Answer}
    (h : (do let s ← x; return (reply, p.put s) : Traced (Answer × Pair σ)).result =
      .ok (answer, p')) : ∃ s, x = .ok s ∧ p' = p.put s := by
  obtain ⟨s, hs, hlast⟩ := Traced.lift_result_eq_ok_iff.mp h
  cases hlast
  exact ⟨s, hs, rfl⟩

omit [Container σ] in
theorem put_of_bind {x : Traced σ} {reply : Answer}
    (h : (do let s ← x; return (reply, p.put s) : Traced (Answer × Pair σ)).result =
      .ok (answer, p')) : ∃ s, x.result = .ok s ∧ p' = p.put s := by
  obtain ⟨s, hs, hlast⟩ := Traced.bind_result_eq_ok_iff.mp h
  cases hlast
  exact ⟨s, hs, rfl⟩

theorem takes_of_storage (k : Evolves edit build) {op : Storage.Op}
    (h : ((Op.storage op).perform p).result = .ok (answer, p')) :
    Op.Takes edit build p (.storage op) p' := by
  cases op with
  | empty =>
      cases h
      exact .build trivial (k.empty p.target)
  | emptyWithCapacity count =>
      obtain ⟨s, hs, rfl⟩ := put_of_lift h
      exact .build trivial (k.emptyWithCapacity hs)
  | zeros count =>
      obtain ⟨s, hs, rfl⟩ := put_of_lift h
      exact .build trivial (k.zeros hs)
  | replicate count value =>
      obtain ⟨s, hs, rfl⟩ := put_of_lift h
      exact .build trivial (k.replicate hs)
  | ofList values =>
      obtain ⟨s, hs, rfl⟩ := put_of_lift h
      exact .build trivial (k.ofList hs)
  | copyOther =>
      cases h
      exact .copy
  | reserve count =>
      obtain ⟨s, hs, rfl⟩ := put_of_bind h
      exact .edit id (k.reserve hs)
  | shrink =>
      cases h
      exact .edit id (k.shrink p.target)
  | size | isEmpty | bytes =>
      cases h
      exact .edit id (k.refl p.target)
  | bitSize | hasCapacity _ | get? _ | fetch _ | read _ =>
      obtain ⟨_, _, hlast⟩ := Traced.lift_result_eq_ok_iff.mp h
      cases hlast
      exact .edit id (k.refl p.target)
  | set i value =>
      obtain ⟨s, hs, rfl⟩ := put_of_lift h
      exact .edit id (k.set hs)
  | push value =>
      obtain ⟨s, hs, rfl⟩ := put_of_lift h
      exact .edit id (k.push hs)
  | pop =>
      obtain ⟨⟨value, s⟩, hs, hlast⟩ := Traced.lift_result_eq_ok_iff.mp h
      cases hlast
      exact .edit id (k.pop hs)
  | insertCopies i count value =>
      obtain ⟨s, hs, rfl⟩ := put_of_bind h
      exact .edit id (k.insertCopies hs)
  | insertList i values =>
      obtain ⟨s, hs, rfl⟩ := put_of_bind h
      exact .edit id (k.insertList hs)
  | remove i =>
      obtain ⟨⟨value, s⟩, hs, hlast⟩ := Traced.lift_result_eq_ok_iff.mp h
      cases hlast
      exact .edit id (k.remove hs)
  | erase e =>
      obtain ⟨s, hs, rfl⟩ := put_of_lift h
      exact .edit id (k.erase hs)
  | resize count value =>
      obtain ⟨s, hs, rfl⟩ := put_of_lift h
      exact .edit id (k.resize hs)
  | setSize count =>
      obtain ⟨s, hs, rfl⟩ := put_of_lift h
      exact .edit id (k.setSize hs)
  | truncate count =>
      obtain ⟨s, hs, rfl⟩ := put_of_lift h
      exact .edit id (k.truncate hs)
  | clear =>
      cases h
      exact .build trivial (k.clear p.target)
  | swap i j =>
      obtain ⟨s, hs, rfl⟩ := put_of_lift h
      exact .edit id (k.swap hs)
  | exchange =>
      cases h
      exact .exchange
  | setByte i byte =>
      obtain ⟨s, hs, rfl⟩ := put_of_lift h
      exact .byte hs

theorem takes_of_perform (k : Evolves edit build) {op : Op}
    (h : (op.perform p).result = .ok (answer, p')) : op.Takes edit build p p' := by
  cases op with
  | storage op => exact takes_of_storage k h
  | ofPushes feed =>
      obtain ⟨s, hs, rfl⟩ := put_of_bind h
      exact .build trivial (k.ofPushes hs)
  | insert i value =>
      obtain ⟨s, hs, rfl⟩ := put_of_bind h
      exact .edit id (k.insert hs)
  | append values =>
      obtain ⟨s, hs, rfl⟩ := put_of_bind h
      exact .edit id (k.insertList hs)
  | extend feed =>
      obtain ⟨s, hs, rfl⟩ := put_of_bind h
      exact .edit id (k.extend hs)
  | extendOther =>
      obtain ⟨_, _, hrest⟩ := Traced.lift_result_eq_ok_iff.mp h
      obtain ⟨s, hs, rfl⟩ := put_of_bind hrest
      exact .edit id (k.extend hs)
  | assign feed =>
      obtain ⟨s, hs, rfl⟩ := put_of_bind h
      exact .build trivial (k.assign hs)
  | assignCopies count value =>
      obtain ⟨s, hs, rfl⟩ := put_of_lift h
      exact .build trivial (k.assignCopies hs)
  | actFetched i action =>
      obtain ⟨⟨reply, s⟩, hs, hlast⟩ := Traced.lift_result_eq_ok_iff.mp h
      cases hlast
      obtain ⟨_, _, hact⟩ := bind_eq_ok_iff.mp hs
      exact .edit id (k.act hact)
  | act i action =>
      obtain ⟨⟨reply, s⟩, hs, hlast⟩ := Traced.lift_result_eq_ok_iff.mp h
      cases hlast
      exact .edit id (k.act hs)
  | actFirst action =>
      obtain ⟨⟨reply, s⟩, hs, hlast⟩ := Traced.lift_result_eq_ok_iff.mp h
      cases hlast
      simp only [actFirst] at hs
      split at hs
      · cases hs
        exact .edit id (k.refl p.target)
      · obtain ⟨⟨_, s'⟩, hact, hdone⟩ := bind_eq_ok_iff.mp hs
        cases hdone
        exact .edit id (k.act hact)
  | actLast action =>
      obtain ⟨⟨reply, s⟩, hs, hlast⟩ := Traced.lift_result_eq_ok_iff.mp h
      cases hlast
      simp only [actLast] at hs
      split at hs
      · cases hs
        exact .edit id (k.refl p.target)
      · obtain ⟨⟨_, s'⟩, hact, hdone⟩ := bind_eq_ok_iff.mp hs
        cases hdone
        exact .edit id (k.act hact)
  | first | last | equal | notEqual | compare | less | hashed | describe | entries | scan _ =>
      obtain ⟨_, _, hlast⟩ := Traced.lift_result_eq_ok_iff.mp h
      cases hlast
      exact .edit id (k.refl p.target)
  | visit calls =>
      obtain ⟨⟨answers, s⟩, hs, hlast⟩ := Traced.lift_result_eq_ok_iff.mp h
      cases hlast
      exact .edit id (k.visit hs)

theorem Op.Takes.keeps {P : σ → Prop} {op : Op} (h : op.Takes edit build p p')
    (hedit : ∀ {s s'}, P s → edit s s' → P s') (hbuild : ∀ {s s'}, P s → build s s' → P s')
    (hcopy : ∀ {s}, P s → P (Storage.copy s))
    (hbyte : ∀ {s s' i byte}, P s → Storage.setByte s i byte = .ok s' → P s')
    (ht : P p.target) (ho : P p.other) : P p'.target ∧ P p'.other := by
  cases h with
  | edit _ hs => exact ⟨hedit ht hs, ho⟩
  | build _ hs => exact ⟨hbuild ht hs, ho⟩
  | copy => exact ⟨hcopy ho, ho⟩
  | exchange => exact ⟨ho, ht⟩
  | byte hs => exact ⟨hbyte ht hs, ho⟩

end Container

/-! ## Whole histories -/

namespace Session

variable {σ ω : Type} {exec : Pair σ → ω → Traced (Answer × Pair σ)} {P : σ → Prop}

theorem run_cons (s : Session σ) (side : Side) (op : ω) (rest : List (Side × ω)) :
    run exec s ((side, op) :: rest) =
      step exec s side op :: run exec (step exec s side op).2 rest := rfl

theorem step_of_ok {s : Session σ} {side : Side} {op : ω} {answer : Answer} {p : Pair σ}
    (h : (exec (s.pair side) op).result = .ok (answer, p)) :
    step exec s side op = (⟨.ok answer, (exec (s.pair side) op).notes⟩, ofPair p side) := by
  simp only [step, h]

theorem step_of_error {s : Session σ} {side : Side} {op : ω} {fault : Fault}
    (h : (exec (s.pair side) op).result = .error fault) :
    step exec s side op = (⟨.error fault, (exec (s.pair side) op).notes⟩, s) := by
  simp only [step, h]

theorem step_keeps (hexec : ∀ p op answer p', P p.target → P p.other →
      (exec p op).result = .ok (answer, p') → P p'.target ∧ P p'.other)
    {s : Session σ} (hleft : P s.left) (hright : P s.right) (side : Side) (op : ω) :
    P (step exec s side op).2.left ∧ P (step exec s side op).2.right := by
  cases hrun : (exec (s.pair side) op).result with
  | error fault =>
      rw [step_of_error hrun]
      exact ⟨hleft, hright⟩
  | ok done =>
      obtain ⟨answer, p'⟩ := done
      rw [step_of_ok hrun]
      cases side with
      | left => exact hexec _ op answer p' hleft hright hrun
      | right =>
          obtain ⟨htarget, hother⟩ := hexec _ op answer p' hright hleft hrun
          exact ⟨hother, htarget⟩

theorem run_keeps (hexec : ∀ p op answer p', P p.target → P p.other →
      (exec p op).result = .ok (answer, p') → P p'.target ∧ P p'.other)
    (history : List (Side × ω)) :
    ∀ {s : Session σ}, P s.left → P s.right →
      ∀ x ∈ run exec s history, P x.2.left ∧ P x.2.right := by
  induction history with
  | nil =>
      intro s _ _ x hx
      cases hx
  | cons first rest ih =>
      intro s hleft hright x hx
      obtain ⟨side, op⟩ := first
      obtain ⟨hleft', hright'⟩ := step_keeps hexec hleft hright side op
      rcases List.mem_cons.mp hx with rfl | hx
      · exact ⟨hleft', hright'⟩
      · exact ih hleft' hright' x hx

/-- In a session that starts with the same store twice, either store is one that keeps what holds of
this one. -/
theorem keeps_of_reached (hexec : ∀ p op answer p', P p.target → P p.other →
      (exec p op).result = .ok (answer, p') → P p'.target ∧ P p'.other)
    {s s' : σ} (hs : P s)
    (h : ∃ history, ∃ x ∈ run exec ⟨s, s⟩ history, s' = x.2.left ∨ s' = x.2.right) : P s' := by
  obtain ⟨history, x, hx, hside⟩ := h
  obtain ⟨hleft, hright⟩ := run_keeps hexec history hs hs x hx
  rcases hside with rfl | rfl
  · exact hleft
  · exact hright

end Session

end NarrowVec
