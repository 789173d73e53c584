import NarrowVec.Bytes
import NarrowVec.Hashed
import NarrowVec.Note
import NarrowVec.Scan
import NarrowVec.Visit

/-!
# Sessions

A session works on two stores of one kind, step by step.  Each step has a target and may look at or
exchange with the other store.  A step that is refused changes nothing here, and the session goes
on.
-/

set_option autoImplicit false

namespace NarrowVec

inductive Answer where
  | done
  | flag (value : Bool)
  | size (n : Nat)
  | distance (d : Int)
  | word (value : Word)
  | word? (value : Option Word)
  | words (values : List Word)
  | bytes (values : List Byte)
  | text (value : String)
  | order (value : Ordering)
  | hashed (parts : List Hashed)
  | address (value : Address)
  | reply (value : Reply)
  | reply? (value : Option Reply)
  | scan (answers : List Scan.Answer)
  | visit (answers : List Visit.Answer)

/-- The store that a step works on, and the other one. -/
structure Pair (σ : Type) where
  target : σ
  other : σ

def Pair.put {σ : Type} (p : Pair σ) (target : σ) : Pair σ := { p with target }

inductive Side where
  | left
  | right
deriving DecidableEq, Repr

structure Session (σ : Type) where
  left : σ
  right : σ

/-- What is known of a step: its answer or fault, and the notes that were written. -/
structure Outcome where
  result : Except Fault Answer
  notes : List Note

namespace Session

variable {σ ω : Type}

def get (s : Session σ) : Side → σ
  | .left => s.left
  | .right => s.right

/-- The two stores as a step with this target sees them. -/
def pair (s : Session σ) : Side → Pair σ
  | .left => ⟨s.left, s.right⟩
  | .right => ⟨s.right, s.left⟩

def ofPair (p : Pair σ) : Side → Session σ
  | .left => ⟨p.target, p.other⟩
  | .right => ⟨p.other, p.target⟩

/-- One step; `exec` says what an operation does to a pair.  That a refused step leaves both stores
as they were is a convention.  It holds of itself where an index, a position or a range is refused,
but what overflows may have set the size or dropped the elements by then, and a session that goes on
after that is not described. -/
def step (exec : Pair σ → ω → Traced (Answer × Pair σ)) (s : Session σ) (side : Side) (op : ω) :
    Outcome × Session σ :=
  let run := exec (s.pair side) op
  match run.result with
  | .ok (answer, p) => (⟨.ok answer, run.notes⟩, ofPair p side)
  | .error fault => (⟨.error fault, run.notes⟩, s)

/-- The outcome of every step, each with the session after it. -/
def run (exec : Pair σ → ω → Traced (Answer × Pair σ)) :
    Session σ → List (Side × ω) → List (Outcome × Session σ)
  | _, [] => []
  | s, (side, op) :: rest =>
    let (outcome, s) := step exec s side op
    (outcome, s) :: run exec s rest

end Session

end NarrowVec
