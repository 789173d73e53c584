import NarrowVec.Size

/-!
# Extents

A run of consecutive indices given by two endpoints, each of which may be included, excluded or
absent.  Resolving it against a sequence gives the half-open segment of indices that it contains.
-/

set_option autoImplicit false

namespace NarrowVec

inductive Endpoint where
  | unbounded
  | included (index : Nat)
  | excluded (index : Nat)
deriving DecidableEq, Repr

structure Extent where
  start : Endpoint
  stop : Endpoint
deriving DecidableEq, Repr

/-- The indices from `start` up to but not including `stop`. -/
structure Segment where
  start : Nat
  stop : Nat
deriving DecidableEq, Repr

namespace Segment

def count (s : Segment) : Nat := s.stop - s.start

end Segment

namespace Endpoint

def first : Endpoint → Except Fault Nat
  | unbounded => return 0
  | included index => return index
  | excluded index => Size.add index 1

/-- The first index past a stop, in a sequence of `size` elements. -/
def past (size : Nat) : Endpoint → Except Fault Nat
  | unbounded => return size
  | included index => Size.add index 1
  | excluded index => return index

def Before (i : Nat) : Endpoint → Prop
  | unbounded => True
  | included index => index ≤ i
  | excluded index => index < i

def After (i : Nat) : Endpoint → Prop
  | unbounded => True
  | included index => i ≤ index
  | excluded index => i < index

instance (i : Nat) (e : Endpoint) : Decidable (e.Before i) := by
  cases e <;> unfold Before <;> infer_instance

instance (i : Nat) (e : Endpoint) : Decidable (e.After i) := by
  cases e <;> unfold After <;> infer_instance

end Endpoint

namespace Extent

/-- An index lies behind the start and before the stop, the ends themselves as given. -/
instance : Membership Nat Extent where
  mem e i := e.start.Before i ∧ e.stop.After i

instance (i : Nat) (e : Extent) : Decidable (i ∈ e) :=
  inferInstanceAs (Decidable (e.start.Before i ∧ e.stop.After i))

/-- The segment of a sequence of `size` elements; it must not be reversed nor end past the end. -/
def resolve (e : Extent) (size : Nat) : Except Fault Segment := do
  let start ← e.start.first
  let stop ← e.stop.past size
  ensure (start ≤ stop) (.extentReversed start stop)
  ensure (stop ≤ size) (.extentPastEnd stop size)
  return ⟨start, stop⟩

def single (index : Nat) : Except Fault Extent := do
  let next ← Size.add index 1
  return ⟨.included index, .excluded next⟩

end Extent

end NarrowVec
