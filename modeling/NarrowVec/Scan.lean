import NarrowVec.Cells
import NarrowVec.Cursor

/-!
# Scans

A scan reads a sequence through one cursor.  A call either moves the cursor or looks at what is left
and leaves the cursor where it is.
-/

set_option autoImplicit false

namespace NarrowVec.Scan

inductive Call where
  | popLow
  | popHigh
  | popLowAfter (n : Nat)
  | popHighAfter (n : Nat)
  | size
  | sizeBounds
  | rest
  /-- The elements that are left, last one first. -/
  | restDown
  | count
  | last
  | everyNth (k : Nat)
deriving DecidableEq, Repr

inductive Answer where
  | item (value : Option Word)
  | size (n : Nat)
  | sizeBounds (low high : Nat)
  | items (values : List Word)
deriving DecidableEq, Repr

variable {σ ρ : Type} [Cells σ ρ] [Position ρ]

/-- The element at the position a move gave, if it gave one. -/
def item (cells : σ) : Option ρ × Cursor ρ → Except Fault (Answer × Cursor ρ)
  | (none, c) => return (.item none, c)
  | (some p, c) => do
    let value ← Cells.load cells p
    return (.item (some value), c)

def step (cells : σ) (c : Cursor ρ) : Call → Except Fault (Answer × Cursor ρ)
  | .popLow => c.popLow >>= item cells
  | .popHigh => c.popHigh >>= item cells
  | .popLowAfter n => c.popLowAfter n >>= item cells
  | .popHighAfter n => c.popHighAfter n >>= item cells
  | .size => return (.size c.count, c)
  | .sizeBounds => return (.sizeBounds c.count c.count, c)
  | .rest => do
    let values ← c.rest >>= Cells.loadAll cells
    return (.items values, c)
  | .restDown => do
    let values ← c.restDown >>= Cells.loadAll cells
    return (.items values, c)
  | .count => do
    let values ← c.rest >>= Cells.loadAll cells
    return (.size values.length, c)
  | .last => do
    let values ← c.rest >>= Cells.loadAll cells
    return (.item values.getLast?, c)
  | .everyNth k => do
    let values ← c.everyNth k >>= Cells.loadAll cells
    return (.items values, c)

def run (cells : σ) (c : Cursor ρ) : List Call → Except Fault (List Answer)
  | [] => return []
  | call :: rest => do
    let (answer, c) ← step cells c call
    let answers ← run cells c rest
    return answer :: answers

end NarrowVec.Scan
