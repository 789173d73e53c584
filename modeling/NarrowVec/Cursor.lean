import NarrowVec.Address

/-!
# Cursors

A cursor walks a run of cells from both ends.  It keeps the position of the next cell, the position
just past the last one, and the number of cells between them, which alone decides when it is done.
-/

set_option autoImplicit false

namespace NarrowVec

class Position (ρ : Type) where
  advance : ρ → Nat → Except Fault ρ
  retreat : ρ → Nat → Except Fault ρ

instance : Position Address where
  advance := Address.advance
  retreat := Address.retreat

/-- Positions in an array of native integers are their indices. -/
instance : Position Nat where
  advance := Size.add
  retreat := Size.sub

structure Cursor (ρ : Type) where
  low : ρ
  high : ρ
  count : Nat
deriving DecidableEq, Repr

namespace Cursor

variable {ρ : Type} [Position ρ]

def exhaust (c : Cursor ρ) : Cursor ρ := { c with low := c.high, count := 0 }

def popLow (c : Cursor ρ) : Except Fault (Option ρ × Cursor ρ) :=
  if c.count = 0 then
    return (none, c)
  else do
    let low ← Position.advance c.low 1
    let count ← Size.sub c.count 1
    return (some c.low, { c with low, count })

def popHigh (c : Cursor ρ) : Except Fault (Option ρ × Cursor ρ) :=
  if c.count = 0 then
    return (none, c)
  else do
    let high ← Position.retreat c.high 1
    let count ← Size.sub c.count 1
    return (some high, { c with high, count })

/-- Skips `n` cells; to skip past the last one exhausts the cursor. -/
def popLowAfter (c : Cursor ρ) (n : Nat) : Except Fault (Option ρ × Cursor ρ) :=
  if c.count ≤ n then
    return (none, c.exhaust)
  else do
    let low ← Position.advance c.low n
    let count ← Size.sub c.count n
    { c with low, count }.popLow

def popHighAfter (c : Cursor ρ) (n : Nat) : Except Fault (Option ρ × Cursor ρ) :=
  if c.count ≤ n then
    return (none, { c with high := c.low, count := 0 })
  else do
    let high ← Position.retreat c.high n
    let count ← Size.sub c.count n
    { c with high, count }.popHigh

/-! ## The cells that are left -/

def upward (p : ρ) : Nat → Except Fault (List ρ)
  | 0 => return []
  | count + 1 => do
    let next ← Position.advance p 1
    let rest ← upward next count
    return p :: rest

/-- The `count` positions before `p`, the nearest one first. -/
def downward (p : ρ) : Nat → Except Fault (List ρ)
  | 0 => return []
  | count + 1 => do
    let previous ← Position.retreat p 1
    let rest ← downward previous count
    return previous :: rest

def rest (c : Cursor ρ) : Except Fault (List ρ) := upward c.low c.count

def restDown (c : Cursor ρ) : Except Fault (List ρ) := downward c.high c.count

/-- At most `fuel` cells, each reached by skipping `gap` others. -/
def strides (gap : Nat) (c : Cursor ρ) : Nat → Except Fault (List ρ)
  | 0 => return []
  | fuel + 1 => do
    match ← c.popLowAfter gap with
    | (none, _) => return []
    | (some p, c) =>
      let rest ← strides gap c fuel
      return p :: rest

def everyNth (c : Cursor ρ) (k : Nat) : Except Fault (List ρ) := do
  ensure (0 < k) .bounds
  match ← c.popLow with
  | (none, _) => return []
  | (some p, c) =>
    let rest ← strides (k - 1) c c.count
    return p :: rest

end Cursor

end NarrowVec
