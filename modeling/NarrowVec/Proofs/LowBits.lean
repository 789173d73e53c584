import Mathlib.Data.List.InsertIdx
import NarrowVec.Proofs.ListLaws

/-!
# Low bits

To keep only the low bits of every element is a homomorphism of the list model: an operation on the
narrower lists answers the low bits of what it answers on the wider ones, and leaves the low bits of
their elements.  Comparisons, hashes and texts see all bits of an element and are no part of this,
and neither is an update whose low bits depend on the high bits of the element.
-/

set_option autoImplicit false

namespace NarrowVec

variable {n m : Width}

namespace Width

theorem truncate_of_le (h : n.bits ≤ m.bits) (v : Word) :
    n.truncate (m.truncate v) = n.truncate v := by
  apply BitVec.eq_of_getLsbD_eq
  intro i _
  rw [getLsbD_truncate, getLsbD_truncate, getLsbD_truncate, ← Bool.and_assoc]
  by_cases hi : i < n.bits
  · simp [hi, show i < m.bits by omega]
  · simp [hi]

theorem truncate_zero (w : Width) : w.truncate 0 = 0 := BitVec.zero_and

theorem setWidth_truncate (w : Width) (v : Word) :
    (w.truncate v).setWidth w.bits = v.setWidth w.bits := by
  apply BitVec.eq_of_getLsbD_eq
  intro i hi
  rw [BitVec.getLsbD_setWidth, BitVec.getLsbD_setWidth, getLsbD_truncate]
  simp [hi]

theorem truncate_eq_iff {w : Width} {u v : Word} :
    w.truncate u = w.truncate v ↔ u.setWidth w.bits = v.setWidth w.bits := by
  constructor
  · intro h
    rw [← setWidth_truncate w u, h, setWidth_truncate]
  · intro h
    apply BitVec.eq_of_getLsbD_eq
    intro i _
    rw [getLsbD_truncate, getLsbD_truncate]
    by_cases hi : i < w.bits
    · have hbit := congrArg (BitVec.getLsbD · i) h
      simp only [BitVec.getLsbD_setWidth] at hbit
      simpa [hi] using hbit
    · simp [hi]

theorem getD_map_truncate (w : Width) (values : List Word) (i : Nat) :
    (values.map w.truncate).getD i 0 = w.truncate (values.getD i 0) := by
  rw [List.getD_eq_getElem?_getD, List.getD_eq_getElem?_getD, List.getElem?_map]
  cases values[i]? with
  | none => exact w.truncate_zero.symm
  | some value => rfl

theorem map_truncate_of_le (h : n.bits ≤ m.bits) (values : List Word) :
    (values.map m.truncate).map n.truncate = values.map n.truncate := by
  rw [List.map_map]
  exact List.map_congr_left fun value _ => truncate_of_le h value

end Width

/-! ## Actions -/

/-- The change wraps around, so no high bit of an element reaches the low bits. -/
def Change.Wraps : Change → Prop
  | min _ => False
  | _ => True

theorem Change.truncate_apply {change : Change} (h : change.Wraps) (w : Width) (v : Word) :
    w.truncate (change.apply (w.truncate v)) = w.truncate (change.apply v) := by
  rw [Width.truncate_eq_iff]
  cases change with
  | min k => exact h.elim
  | add k => simp only [apply, BitVec.setWidth_add _ _ w.le, Width.setWidth_truncate]
  | sub k =>
      simp only [apply, BitVec.sub_eq_add_neg, BitVec.setWidth_add _ _ w.le,
        Width.setWidth_truncate]
  | mul k => simp only [apply, BitVec.setWidth_mul _ _ w.le, Width.setWidth_truncate]
  | xor k => simp only [apply, BitVec.setWidth_xor, Width.setWidth_truncate]
  | complement => simp only [apply, BitVec.setWidth_not w.le, Width.setWidth_truncate]

/-- Whether the low bits of an element are enough to act on them. -/
def Action.Narrows : Action → Prop
  | update f => ∃ change : Change, change.Wraps ∧ f = change.apply
  | equals _ => False
  | describe => False
  | _ => True

def Reply.narrow (n : Width) : Reply → Reply
  | word value => .word (n.truncate value)
  | reply => reply

theorem Action.effect_narrow (h : n.bits ≤ m.bits) {action : Action} (hact : action.Narrows)
    (text text' : Word → String) (value : Word) :
    action.effect n text' (n.truncate value) =
      ((action.effect m text value).1.narrow n, n.truncate (action.effect m text value).2) := by
  cases action with
  | get => rfl
  | set new => simp only [effect, Reply.narrow, Width.truncate_of_le h]
  | replace new => simp only [effect, Reply.narrow, Width.truncate_of_le h]
  | exchange new => simp only [effect, Reply.narrow, Width.truncate_of_le h]
  | update f =>
      obtain ⟨change, hwraps, rfl⟩ := hact
      simp only [effect, Reply.narrow, Width.truncate_of_le h, Change.truncate_apply hwraps]
  | equals _ | describe => exact hact.elim

theorem Action.effectAll_narrow (h : n.bits ≤ m.bits) {action : Action} (hact : action.Narrows)
    (text text' : Nat → Word → String) (indices : List Nat) :
    ∀ values : List Word, action.effectAll n text' indices (values.map n.truncate) =
      ((action.effectAll m text indices values).1.map (Reply.narrow n),
        (action.effectAll m text indices values).2.map n.truncate) := by
  induction indices with
  | nil =>
      intro values
      rfl
  | cons i rest ih =>
      intro values
      simp only [effectAll, Width.getD_map_truncate,
        effect_narrow h hact (text i) (text' i), ← List.map_set, ih, List.map_cons]

theorem Visit.Deque.act_narrow (h : n.bits ≤ m.bits) {action : Action} (hact : action.Narrows)
    (text text' : Nat → Word → String) (values : List Word) (i : Nat) :
    Deque.act n text' (values.map n.truncate) action i =
      ((Deque.act m text values action i).1.narrow n,
        (Deque.act m text values action i).2.map n.truncate) := by
  simp only [Deque.act, Width.getD_map_truncate, Action.effect_narrow h hact (text i) (text' i),
    List.map_set]

theorem Visit.Deque.exchange_narrow (n : Width) (values : List Word) (i j : Nat) :
    Deque.exchange (values.map n.truncate) i j = (Deque.exchange values i j).map n.truncate := by
  simp only [Deque.exchange, Width.getD_map_truncate, List.map_set]

/-! ## Walks -/

theorem window_map (n : Width) (values : List Word) (lo hi : Nat) :
    window (values.map n.truncate) lo hi = (window values lo hi).map n.truncate := by
  simp only [window, List.map_drop, List.map_take]

namespace Scan

def Answer.narrow (n : Width) : Answer → Answer
  | item value => .item (value.map n.truncate)
  | items values => .items (values.map n.truncate)
  | answer => answer

theorem strided_map (n : Width) (k : Nat) (values : List Word) :
    strided k (values.map n.truncate) = (strided k values).map n.truncate := by
  simp only [strided, List.length_map, List.map_map, Function.comp_def, Width.getD_map_truncate]

theorem Call.onDeque_narrow (n : Width) (values : List Word) (call : Call) :
    call.onDeque (values.map n.truncate) =
      ((call.onDeque values).1.narrow n, (call.onDeque values).2.map n.truncate) := by
  cases call with
  | popLow => simp only [onDeque, Answer.narrow, List.head?_map, List.map_tail]
  | popHigh | last => simp only [onDeque, Answer.narrow, List.getLast?_map, List.map_dropLast]
  | popLowAfter k => simp only [onDeque, Answer.narrow, List.getElem?_map, List.map_drop]
  | popHighAfter k =>
      simp only [onDeque, Answer.narrow, ← List.map_reverse, List.getElem?_map, List.length_map,
        List.map_take]
  | size | sizeBounds | count => simp only [onDeque, Answer.narrow, List.length_map]
  | rest => rfl
  | restDown => simp only [onDeque, Answer.narrow, List.map_reverse]
  | everyNth k => simp only [onDeque, Answer.narrow, strided_map]

theorem onDeque_narrow (n : Width) (calls : List Call) :
    ∀ values : List Word,
      onDeque (values.map n.truncate) calls = (onDeque values calls).map (Answer.narrow n) := by
  induction calls with
  | nil =>
      intro values
      rfl
  | cons call rest ih =>
      intro values
      simp only [onDeque, Call.onDeque_narrow, ih, List.map_cons]

end Scan

namespace Visit

def Answer.narrow (n : Width) : Answer → Answer
  | reply value => .reply (value.map (Reply.narrow n))
  | ends first second => .ends (n.truncate first) (n.truncate second)
  | replies values => .replies (values.map (Reply.narrow n))
  | items values => .items (values.map n.truncate)
  | answer => answer

def Call.Narrows : Call → Prop
  | popLow action => action.Narrows
  | popHigh action => action.Narrows
  | popLowAfter _ action => action.Narrows
  | each action => action.Narrows
  | eachDown action => action.Narrows
  | _ => True

def Deque.narrow (n : Width) (d : Deque) : Deque := { d with values := d.values.map n.truncate }

theorem Call.onDeque_narrow (h : n.bits ≤ m.bits) {call : Call} (hcall : call.Narrows)
    (text text' : Nat → Word → String) (d : Deque) :
    call.onDeque n text' (d.narrow n) =
      ((call.onDeque m text d).1.narrow n, (call.onDeque m text d).2.narrow n) := by
  cases call with
  | popLow action | popHigh action | popLowAfter _ action =>
      simp only [onDeque, Deque.narrow, Deque.act_narrow h hcall text text']
      split <;> rfl
  | size | sizeBounds => rfl
  | swapEnds =>
      simp only [onDeque, Deque.narrow, Deque.exchange_narrow, Width.getD_map_truncate]
      split <;> rfl
  | each action | eachDown action =>
      simp only [onDeque, Deque.narrow, Action.effectAll_narrow h hcall text text', Answer.narrow]
  | pairs i j =>
      simp only [onDeque, Deque.narrow, Deque.exchange_narrow, window_map, Answer.narrow]

theorem onDeque_narrow (h : n.bits ≤ m.bits) (text text' : Nat → Word → String)
    (calls : List Call) :
    ∀ d : Deque, (∀ call ∈ calls, call.Narrows) →
      onDeque n text' (d.narrow n) calls =
        ((onDeque m text d calls).1.map (Answer.narrow n),
          (onDeque m text d calls).2.map n.truncate) := by
  induction calls with
  | nil =>
      intro d _
      rfl
  | cons call rest ih =>
      intro d hcalls
      have hrest : ∀ other ∈ rest, other.Narrows := fun other hother =>
        hcalls other (List.mem_cons_of_mem call hother)
      simp only [onDeque, Call.onDeque_narrow h (hcalls call List.mem_cons_self) text text',
        ih _ hrest, List.map_cons]

end Visit

/-! ## Operations -/

def Answer.narrow (n : Width) : Answer → Answer
  | word value => .word (n.truncate value)
  | word? value => .word? (value.map n.truncate)
  | words values => .words (values.map n.truncate)
  | reply value => .reply (value.narrow n)
  | reply? value => .reply? (value.map (Reply.narrow n))
  | scan answers => .scan (answers.map (Scan.Answer.narrow n))
  | visit answers => .visit (answers.map (Visit.Answer.narrow n))
  | answer => answer

def Pair.narrow (n : Width) (p : Pair (List Word)) : Pair (List Word) :=
  ⟨p.target.map n.truncate, p.other.map n.truncate⟩

/-- Whether the low bits of the elements are enough to answer with low bits.  The number of all bits
depends on the width. -/
def Storage.Op.Narrows : Storage.Op → Prop
  | .bitSize => False
  | op => op.OnElements

def Container.Op.Narrows : Container.Op → Prop
  | .storage op => op.Narrows
  | .actFetched _ action => action.Narrows
  | .act _ action => action.Narrows
  | .actFirst action => action.Narrows
  | .actLast action => action.Narrows
  | .visit calls => ∀ call ∈ calls, call.Narrows
  | .equal => False
  | .notEqual => False
  | .compare => False
  | .less => False
  | .hashed => False
  | .describe => False
  | _ => True

theorem Storage.Op.onElements_of_narrows {op : Storage.Op} (h : op.Narrows) : op.OnElements := by
  cases op with
  | bitSize => exact h.elim
  | _ => exact h

theorem Storage.Op.effect_narrow (h : n.bits ≤ m.bits) {op : Storage.Op} (hop : op.Narrows)
    (p : Pair (List Word)) :
    op.effect n (p.narrow n) = ((op.effect m p).1.narrow n, (op.effect m p).2.narrow n) := by
  cases op with
  | bitSize | emptyWithCapacity _ | hasCapacity _ | reserve _ | shrink | setSize _ | bytes
  | setByte _ _ => exact hop.elim
  | empty | copyOther | clear | exchange => rfl
  | size => simp only [effect, Pair.narrow, Answer.narrow, List.length_map]
  | isEmpty => simp only [effect, Pair.narrow, Answer.narrow, List.isEmpty_map]
  | zeros count =>
      simp only [effect, Pair.narrow, Pair.put, Answer.narrow, List.map_replicate,
        Width.truncate_zero]
  | replicate count value | set i value | push value | resize count value
  | insertCopies i count value =>
      simp [effect, Pair.narrow, Pair.put, Answer.narrow, Width.truncate_of_le h]
  | ofList values | insertList i values =>
      simp [effect, Pair.narrow, Pair.put, Answer.narrow, Width.map_truncate_of_le h]
  | get? i | pop | truncate count | erase e =>
      simp [effect, Pair.narrow, Pair.put, Answer.narrow]
  | fetch i | read i => simp only [effect, Pair.narrow, Answer.narrow, Width.getD_map_truncate]
  | remove i =>
      simp only [effect, Pair.narrow, Pair.put, Answer.narrow, Width.getD_map_truncate,
        List.eraseIdx_map]
  | swap i j =>
      simp only [effect, Pair.narrow, Pair.put, Answer.narrow, Visit.Deque.exchange_narrow]

theorem Container.Op.effect_narrow (h : n.bits ≤ m.bits) {op : Container.Op} (hop : op.Narrows)
    (text text' : Nat → Word → String) (p : Pair (List Word)) :
    op.effect n text' (p.narrow n) =
      ((op.effect m text p).1.narrow n, (op.effect m text p).2.narrow n) := by
  cases op with
  | storage op => exact op.effect_narrow h hop p
  | equal | notEqual | compare | less | hashed | describe => exact hop.elim
  | first => simp only [effect, Pair.narrow, Answer.narrow, List.head?_map]
  | last => simp only [effect, Pair.narrow, Answer.narrow, List.getLast?_map]
  | insert i value =>
      simp only [effect, Pair.narrow, Pair.put, Answer.narrow, List.map_append, List.map_take,
        List.map_drop, List.map_singleton, Width.truncate_of_le h]
  | ofPushes feed | append values | extend feed | assign feed =>
      simp only [effect, Pair.narrow, Pair.put, Answer.narrow, List.map_append,
        Width.map_truncate_of_le h]
  | extendOther => simp only [effect, Pair.narrow, Pair.put, Answer.narrow, List.map_append]
  | assignCopies count value =>
      simp only [effect, Pair.narrow, Pair.put, Answer.narrow, List.map_replicate,
        Width.truncate_of_le h]
  | actFetched i action | act i action =>
      simp only [effect, Pair.narrow, Pair.put, Answer.narrow,
        Visit.Deque.act_narrow h hop text text']
  | actFirst action | actLast action =>
      simp only [effect, Pair.narrow, List.isEmpty_map, List.length_map,
        Visit.Deque.act_narrow h hop text text']
      split <;> rfl
  | entries => rfl
  | scan calls => simp only [effect, Pair.narrow, Answer.narrow, Scan.onDeque_narrow]
  | visit calls =>
      have hdeque := Visit.onDeque_narrow h text text' calls ⟨p.target, 0, p.target.length⟩ hop
      simp only [Visit.Deque.narrow] at hdeque
      simp only [effect, Pair.narrow, Pair.put, Answer.narrow, List.length_map, hdeque]

end NarrowVec
