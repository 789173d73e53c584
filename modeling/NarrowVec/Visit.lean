import NarrowVec.Cells
import NarrowVec.Cursor

/-!
# Visits

A visit walks the cells of a sequence through one cursor and acts on them in place.  Each cell is
handed out once, and several cells may be held at the same time.
-/

set_option autoImplicit false

namespace NarrowVec.Visit

inductive Call where
  | popLow (action : Action)
  | popHigh (action : Action)
  | popLowAfter (n : Nat) (action : Action)
  | size
  | sizeBounds
  /-- Takes a cell from each end and exchanges the two. -/
  | swapEnds
  | each (action : Action)
  | eachDown (action : Action)
  /-- Takes every cell that is left, exchanges two of them and reads them all. -/
  | pairs (i j : Nat)

inductive Answer where
  | reply (value : Option Reply)
  | size (n : Nat)
  | sizeBounds (low high : Nat)
  | ends (first second : Word)
  /-- No two cells were left; tells whether there was one. -/
  | noPair (hadFirst : Bool)
  | replies (values : List Reply)
  | items (values : List Word)
deriving DecidableEq, Repr

variable {σ ρ : Type} [Cells σ ρ] [Position ρ]

/-- Acts on the cell at the position a move gave, if it gave one. -/
def act (label : ρ → Word → String) (cells : σ) (action : Action) :
    Option ρ × Cursor ρ → Except Fault (Answer × σ × Cursor ρ)
  | (none, c) => return (.reply none, cells, c)
  | (some p, c) => do
    let (reply, cells) ← action.run label cells p
    return (.reply (some reply), cells, c)

def swapEnds (cells : σ) (c : Cursor ρ) : Except Fault (Answer × σ × Cursor ρ) := do
  let (first, c) ← c.popLow
  let (second, c) ← c.popHigh
  match first, second with
  | some p, some q =>
    let cells ← Cells.exchange cells p q
    let left ← Cells.load cells p
    let right ← Cells.load cells q
    return (.ends left right, cells, c)
  | first, _ => return (.noPair first.isSome, cells, c)

def pairs (cells : σ) (c : Cursor ρ) (i j : Nat) : Except Fault (Answer × σ × Cursor ρ) := do
  let positions ← c.rest
  match positions[i]?, positions[j]? with
  | some p, some q =>
    let cells ← Cells.exchange cells p q
    let values ← Cells.loadAll cells positions
    return (.items values, cells, c.exhaust)
  | _, _ => throw .bounds

def step (label : ρ → Word → String) (cells : σ) (c : Cursor ρ) :
    Call → Except Fault (Answer × σ × Cursor ρ)
  | .popLow action => c.popLow >>= act label cells action
  | .popHigh action => c.popHigh >>= act label cells action
  | .popLowAfter n action => c.popLowAfter n >>= act label cells action
  | .size => return (.size c.count, cells, c)
  | .sizeBounds => return (.sizeBounds c.count c.count, cells, c)
  | .swapEnds => swapEnds cells c
  | .each action => do
    let positions ← c.rest
    let (replies, cells) ← action.runAll label cells positions
    return (.replies replies, cells, c.exhaust)
  | .eachDown action => do
    let positions ← c.restDown
    let (replies, cells) ← action.runAll label cells positions
    return (.replies replies, cells, c.exhaust)
  | .pairs i j => pairs cells c i j

def run (label : ρ → Word → String) (cells : σ) (c : Cursor ρ) :
    List Call → Except Fault (List Answer × σ)
  | [] => return ([], cells)
  | call :: rest => do
    let (answer, cells, c) ← step label cells c call
    let (answers, cells) ← run label cells c rest
    return (answer :: answers, cells)

end NarrowVec.Visit
