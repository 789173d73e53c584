import NarrowVec.Hashed
import NarrowVec.Scan
import NarrowVec.Storage
import NarrowVec.Visit

/-!
# Containers

Beyond the storage contract a container lets its elements be walked and changed in place, compared,
hashed and shown.
-/

set_option autoImplicit false

namespace NarrowVec

class Container (σ : Type) extends Storage σ where
  insert : σ → Nat → Word → Traced σ
  equal : σ → σ → Except Fault Bool
  /-- The elements in the order in which they are walked. -/
  entries : σ → Except Fault (List Word)
  describe : σ → Except Fault String
  act : σ → Nat → Action → Except Fault (Reply × σ)
  scan : σ → List Scan.Call → Except Fault (List Scan.Answer)
  visit : σ → List Visit.Call → Except Fault (List Visit.Answer × σ)

def Word.listText (values : List Word) : String :=
  "[" ++ ", ".intercalate (values.map fun v => toString v.toNat) ++ "]"

/-- The text of an element that is shown without its position. -/
def Word.label (value : Word) : String := s!"ElementMut({value.toNat})"

namespace Container

variable {σ : Type} [Container σ]

/-- Acts on the element at an index, with a recoverable fault where there is none. -/
def actFetched (s : σ) (i : Nat) (action : Action) : Except Fault (Reply × σ) := do
  let _ ← Storage.fetch s i
  act s i action

def actFirst (s : σ) (action : Action) : Except Fault (Option Reply × σ) :=
  match Storage.size s with
  | 0 => return (none, s)
  | _ + 1 => do
    let (reply, s) ← act s 0 action
    return (some reply, s)

def actLast (s : σ) (action : Action) : Except Fault (Option Reply × σ) :=
  match Storage.size s with
  | 0 => return (none, s)
  | n + 1 => do
    let (reply, s) ← act s n action
    return (some reply, s)

def compare (s t : σ) : Except Fault Ordering := do
  let left ← entries s
  let right ← entries t
  return Ord.compare left right

def hashed (s : σ) : Except Fault (List Hashed) := do
  let values ← entries s
  return .size (Storage.size s) :: values.map .word

end Container

end NarrowVec
