import NarrowVec.Container.Op
import NarrowVec.Proofs.Counts
import NarrowVec.Proofs.Deques
import NarrowVec.Proofs.Extents

/-!
# Containers as lists

What the operations answer and do when a store is nothing but the list of its elements.  An
operation is refused for what its caller asked for, and otherwise only when the list it asks for has
more bits than can be counted.  Operations that look at memory behind the elements are no part of
this.
-/

set_option autoImplicit false

namespace NarrowVec

def refuseUnless (p : Prop) [Decidable p] (fault : Fault) : Option Fault :=
  if p then none else some fault

section RefuseUnless

variable {p : Prop} [Decidable p] {fault fault' : Fault}

theorem refuseUnless_eq_none_iff : refuseUnless p fault = none ↔ p := by
  unfold refuseUnless
  split <;> simp [*]

theorem refuseUnless_eq_some_iff : refuseUnless p fault = some fault' ↔ ¬p ∧ fault = fault' := by
  unfold refuseUnless
  split <;> simp [*]

end RefuseUnless

/-! ## What the caller asks for -/

/-- Whether the elements alone decide what the operation answers and does. -/
def Storage.Op.ByValue : Storage.Op → Prop
  | .hasCapacity _ => False
  | .setSize _ => False
  | .bytes => False
  | .setByte .. => False
  | _ => True

/-- The fault of an operation whose index, position or range does not suit `n` elements. -/
def Storage.Op.refusal (n : Nat) : Storage.Op → Option Fault
  | .fetch i => refuseUnless (i < n) (.outOfRange ⟨i, n⟩)
  | .read i => refuseUnless (i < n) (.indexPastEnd i n)
  | .set i _ => refuseUnless (i < n) (.indexPastEnd i n)
  | .insertCopies i _ _ => refuseUnless (i ≤ n) (.insertPastEnd i n)
  | .insertList i _ => refuseUnless (i ≤ n) (.insertPastEnd i n)
  | .remove i => refuseUnless (i < n) (.removePastEnd i n)
  | .erase e => e.refusal n
  | .swap i j => refuseUnless (i < n ∧ j < n) (.swapPastEnd i j n)
  | _ => none

def Storage.Op.request (n : Nat) : Storage.Op → Nat
  | .emptyWithCapacity count => count
  | .zeros count => count
  | .replicate count _ => count
  | .ofList values => values.length
  | .reserve count => n + count
  | .push _ => n + 1
  | .insertCopies _ count _ => n + count
  | .insertList _ values => n + values.length
  | .resize count _ => count
  | .setSize count => count
  | _ => n

namespace Container.Op

def ByValue : Op → Prop
  | .storage op => op.ByValue
  | _ => True

def refusal (n : Nat) : Op → Option Fault
  | .storage op => op.refusal n
  | .insert i _ => refuseUnless (i ≤ n) (.insertPastEnd i n)
  | .actFetched i _ => refuseUnless (i < n) (.outOfRange ⟨i, n⟩)
  | .act i _ => refuseUnless (i < n) (.indexPastEnd i n)
  | .scan calls => refuseUnless (∀ call ∈ calls, call.Legal) .bounds
  | .visit calls => refuseUnless (Visit.Legal n calls) .bounds
  | _ => none

/-- The number of elements that an operation on `n` elements, beside `m` others, asks for. -/
def request (n m : Nat) : Op → Nat
  | .storage op => op.request n
  | .ofPushes feed => feed.values.length
  | .insert _ _ => n + 1
  | .append values => n + values.length
  | .extend feed => n + feed.values.length
  | .extendOther => n + m
  | .assign feed => feed.values.length
  | .assignCopies count _ => count
  | _ => n

end Container.Op

/-! ## What lists answer -/

def Storage.Op.effect (w : Width) (p : Pair (List Word)) : Storage.Op → Answer × Pair (List Word)
  | .empty => (.done, p.put [])
  | .emptyWithCapacity _ => (.done, p.put [])
  | .zeros count => (.done, p.put (List.replicate count 0))
  | .replicate count value => (.done, p.put (List.replicate count (w.truncate value)))
  | .ofList values => (.done, p.put (values.map w.truncate))
  | .copyOther => (.done, p.put p.other)
  | .size => (.size p.target.length, p)
  | .isEmpty => (.flag p.target.isEmpty, p)
  | .bitSize => (.size (p.target.length * w.bits), p)
  | .get? i => (.word? p.target[i]?, p)
  | .fetch i => (.word (p.target.getD i 0), p)
  | .read i => (.word (p.target.getD i 0), p)
  | .set i value => (.done, p.put (p.target.set i (w.truncate value)))
  | .push value => (.done, p.put (p.target ++ [w.truncate value]))
  | .pop => (.word? p.target.getLast?, p.put p.target.dropLast)
  | .insertCopies i count value =>
    (.done, p.put (p.target.take i ++ List.replicate count (w.truncate value) ++ p.target.drop i))
  | .insertList i values =>
    (.done, p.put (p.target.take i ++ values.map w.truncate ++ p.target.drop i))
  | .remove i => (.word (p.target.getD i 0), p.put (p.target.eraseIdx i))
  | .erase e => (.done, p.put (p.target.take e.lower ++ p.target.drop (e.upper p.target.length)))
  | .resize count value =>
    (.done, p.put (p.target.take count ++
      List.replicate (count - p.target.length) (w.truncate value)))
  | .truncate count => (.done, p.put (p.target.take count))
  | .clear => (.done, p.put [])
  | .swap i j => (.done, p.put (Visit.Deque.exchange p.target i j))
  | .exchange => (.done, ⟨p.other, p.target⟩)
  -- Room alone, or not said by the elements.
  | _ => (.done, p)

namespace Container

/-- The answer of an operation that is not refused, and the lists after it; `text` shows the element
at an index. -/
def Op.effect (w : Width) (text : Nat → Word → String) (p : Pair (List Word)) :
    Op → Answer × Pair (List Word)
  | .storage op => op.effect w p
  | .ofPushes feed => (.done, p.put (feed.values.map w.truncate))
  | .first => (.word? p.target.head?, p)
  | .last => (.word? p.target.getLast?, p)
  | .insert i value =>
    (.done, p.put (p.target.take i ++ [w.truncate value] ++ p.target.drop i))
  | .append values => (.done, p.put (p.target ++ values.map w.truncate))
  | .extend feed => (.done, p.put (p.target ++ feed.values.map w.truncate))
  | .extendOther => (.done, p.put (p.target ++ p.other))
  | .assign feed => (.done, p.put (feed.values.map w.truncate))
  | .assignCopies count value => (.done, p.put (List.replicate count (w.truncate value)))
  | .actFetched i action =>
    let (reply, values) := Visit.Deque.act w text p.target action i
    (.reply reply, p.put values)
  | .act i action =>
    let (reply, values) := Visit.Deque.act w text p.target action i
    (.reply reply, p.put values)
  | .actFirst action =>
    if p.target.isEmpty then (.reply? none, p)
    else
      let (reply, values) := Visit.Deque.act w text p.target action 0
      (.reply? (some reply), p.put values)
  | .actLast action =>
    if p.target.isEmpty then (.reply? none, p)
    else
      let (reply, values) := Visit.Deque.act w text p.target action (p.target.length - 1)
      (.reply? (some reply), p.put values)
  | .equal => (.flag (decide (p.target = p.other)), p)
  | .notEqual => (.flag !decide (p.target = p.other), p)
  | .compare => (.order (Ord.compare p.target p.other), p)
  | .less => (.flag (Ord.compare p.target p.other).isLT, p)
  | .hashed => (.hashed (.size p.target.length :: p.target.map .word), p)
  | .describe => (.text (Word.listText p.target), p)
  | .entries => (.words p.target, p)
  | .scan calls => (.scan (Scan.onDeque p.target calls), p)
  | .visit calls =>
    let (answers, values) := Visit.onDeque w text ⟨p.target, 0, p.target.length⟩ calls
    (.visit answers, p.put values)

def Op.onLists (w : Width) (text : Nat → Word → String) (p : Pair (List Word)) (op : Op) :
    Except Fault (Answer × Pair (List Word)) :=
  match op.refusal p.target.length with
  | some fault => .error fault
  | none =>
    if w.Countable (op.request p.target.length p.other.length) then
      .ok (op.effect w text p)
    else
      .error .overflow

end Container

/-! ## Lengths -/

structure Pair.Roomy (w : Width) (p : Pair (List Word)) : Prop where
  target : w.Roomy p.target.length
  other : w.Roomy p.other.length

namespace Visit

theorem Deque.length_act (w : Width) (text : Nat → Word → String) (values : List Word)
    (action : Action) (i : Nat) : (Deque.act w text values action i).2.length = values.length := by
  simp only [Deque.act, List.length_set]

theorem Call.length_onDeque (w : Width) (text : Nat → Word → String) (d : Deque) (call : Call) :
    (call.onDeque w text d).2.values.length = d.values.length := by
  cases call with
  | size | sizeBounds => rfl
  | each action | eachDown action => simp only [onDeque, Action.length_effectAll]
  | pairs i j => simp only [onDeque, Deque.exchange, List.length_set]
  | popLow action | popHigh action | popLowAfter _ action =>
      simp only [onDeque]
      split
      · exact Deque.length_act w text _ action _
      · rfl
  | swapEnds =>
      simp only [onDeque]
      split
      · simp only [Deque.exchange, List.length_set]
      · rfl

/-- Cells are handed out and put back, and none is made or lost. -/
theorem length_onDeque (w : Width) (text : Nat → Word → String) (calls : List Call) :
    ∀ d : Deque, (onDeque w text d calls).2.length = d.values.length := by
  induction calls with
  | nil =>
      intro d
      rfl
  | cons call rest ih =>
      intro d
      simp only [onDeque, ih, Call.length_onDeque]

end Visit

section Lengths

variable {w v : Width} {p : Pair (List Word)}

/-- No list grows beyond what was asked for and what was there. -/
theorem Storage.Op.roomy_effect {op : Storage.Op} (h : p.Roomy v)
    (hr : op.refusal p.target.length = none) (hrequest : v.Roomy (op.request p.target.length)) :
    (op.effect w p).2.Roomy v := by
  obtain ⟨htarget, hother⟩ := h
  have hlimit := htarget.countable.lt
  cases op with
  | copyOther => exact ⟨hother, hother⟩
  | exchange => exact ⟨hother, htarget⟩
  | insertCopies i count value =>
      have hi := refuseUnless_eq_none_iff.mp hr
      refine ⟨hrequest.mono ?_, hother⟩
      simp only [request, effect, Pair.put, List.length_append, List.length_take, List.length_drop,
        List.length_replicate]
      omega
  | insertList i values =>
      have hi := refuseUnless_eq_none_iff.mp hr
      refine ⟨hrequest.mono ?_, hother⟩
      simp only [request, effect, Pair.put, List.length_append, List.length_take, List.length_drop,
        List.length_map]
      omega
  | erase e =>
      have he := (Extent.refusal_eq_none_iff hlimit).mp hr
      refine ⟨htarget.mono ?_, hother⟩
      simp only [effect, Pair.put, List.length_append, List.length_take, List.length_drop]
      omega
  | remove i =>
      have hi := refuseUnless_eq_none_iff.mp hr
      refine ⟨htarget.mono ?_, hother⟩
      simp only [effect, Pair.put, List.length_eraseIdx_of_lt hi]
      omega
  | empty | emptyWithCapacity _ | clear | set _ _ | pop | truncate _ | swap _ _ =>
      refine ⟨htarget.mono ?_, hother⟩
      simp only [effect, Pair.put, Visit.Deque.exchange, List.length_take, List.length_set,
        List.length_dropLast, List.length_nil]
      omega
  | zeros _ | replicate _ _ | ofList _ | push _ | resize _ _ =>
      refine ⟨hrequest.mono ?_, hother⟩
      simp only [request, effect, Pair.put, List.length_append, List.length_take,
        List.length_replicate, List.length_map, List.length_singleton]
      omega
  | _ => exact ⟨htarget, hother⟩

theorem Container.Op.roomy_effect (text : Nat → Word → String) {op : Container.Op}
    (h : p.Roomy v) (hr : op.refusal p.target.length = none)
    (hrequest : v.Roomy (op.request p.target.length p.other.length)) :
    (op.effect w text p).2.Roomy v := by
  cases op with
  | storage op => exact op.roomy_effect h hr hrequest
  | insert i value =>
      have hi := refuseUnless_eq_none_iff.mp hr
      refine ⟨hrequest.mono ?_, h.other⟩
      simp only [request, effect, Pair.put, List.length_append, List.length_take, List.length_drop,
        List.length_singleton]
      omega
  | ofPushes feed | append values | extend feed | extendOther | assign feed
  | assignCopies _ _ =>
      refine ⟨hrequest.mono ?_, h.other⟩
      simp only [request, effect, Pair.put, List.length_append, List.length_map,
        List.length_replicate]
      exact Nat.le_refl _
  | actFetched i action | act i action =>
      refine ⟨h.target.mono ?_, h.other⟩
      simp only [effect, Pair.put, Visit.Deque.length_act]
      exact Nat.le_refl _
  | actFirst action | actLast action =>
      simp only [effect]
      split
      · exact h
      · refine ⟨h.target.mono ?_, h.other⟩
        simp only [Pair.put, Visit.Deque.length_act]
        exact Nat.le_refl _
  | visit calls =>
      refine ⟨h.target.mono ?_, h.other⟩
      simp only [effect, Pair.put, Visit.length_onDeque]
      exact Nat.le_refl _
  | _ => exact h

end Lengths

end NarrowVec
