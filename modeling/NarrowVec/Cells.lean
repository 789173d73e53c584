import NarrowVec.Words.Field

/-!
# Cells

A cell is one element that can be read and written where it stands.  Positions name cells; what is
said here holds for fields of bits at addresses and for native integers at indices alike.
-/

set_option autoImplicit false

namespace NarrowVec

/-- Memory `σ` whose cells are named by positions `ρ`. -/
class Cells (σ : Type) (ρ : outParam Type) where
  load : σ → ρ → Except Fault Word
  store : σ → ρ → Word → Except Fault σ

instance : Cells Words Address where
  load := Words.load
  store := Words.store

/-! ## Actions on one cell -/

inductive Change where
  | add (k : Word)
  | sub (k : Word)
  | mul (k : Word)
  | xor (k : Word)
  | min (k : Word)
  | complement
deriving DecidableEq, Repr

def Change.apply : Change → Word → Word
  | add k, v => v + k
  | sub k, v => v - k
  | mul k, v => v * k
  | xor k, v => v ^^^ k
  | min k, v => if v ≤ k then v else k
  | complement, v => ~~~v

inductive Action where
  | get
  | set (value : Word)
  | replace (value : Word)
  /-- Stores the image of the element and answers the element as it was stored. -/
  | update (f : Word → Word)
  /-- Stores `value` and answers what the caller holds in its place, the old element. -/
  | exchange (value : Word)
  /-- Compares the element with `value`, of which no bit is dropped. -/
  | equals (value : Word)
  | describe

inductive Reply where
  | unit
  | word (value : Word)
  | flag (value : Bool)
  | text (value : String)
deriving DecidableEq, Repr

variable {σ ρ : Type} [Cells σ ρ]

/-- Runs an action on the cell at `p`; `label` is the text of a cell and its element. -/
def Action.run (label : ρ → Word → String) (cells : σ) (p : ρ) :
    Action → Except Fault (Reply × σ)
  | get => do
    let value ← Cells.load cells p
    return (.word value, cells)
  | set value => do
    let cells ← Cells.store cells p value
    return (.unit, cells)
  | replace value => do
    let old ← Cells.load cells p
    let cells ← Cells.store cells p value
    return (.word old, cells)
  | update f => do
    let old ← Cells.load cells p
    let cells ← Cells.store cells p (f old)
    let value ← Cells.load cells p
    return (.word value, cells)
  | exchange value => do
    let old ← Cells.load cells p
    let cells ← Cells.store cells p value
    return (.word old, cells)
  | equals value => do
    let element ← Cells.load cells p
    return (.flag (element == value), cells)
  | describe => do
    let value ← Cells.load cells p
    return (.text (label p value), cells)

def Action.runAll (action : Action) (label : ρ → Word → String) (cells : σ) :
    List ρ → Except Fault (List Reply × σ)
  | [] => return ([], cells)
  | p :: rest => do
    let (reply, cells) ← action.run label cells p
    let (replies, cells) ← runAll action label cells rest
    return (reply :: replies, cells)

namespace Cells

def loadAll (cells : σ) : List ρ → Except Fault (List Word)
  | [] => return []
  | p :: rest => do
    let value ← load cells p
    let values ← loadAll cells rest
    return value :: values

/-- Both elements are read before either is written. -/
def exchange (cells : σ) (p q : ρ) : Except Fault σ := do
  let first ← load cells p
  let second ← load cells q
  let cells ← store cells p second
  store cells q first

end Cells

/-- Exchanges two fields of one width. -/
def Words.exchange (words : Words) (a b : Address) : Except Fault Words := do
  ensure (a.width = b.width) .exchangeAcrossWidths
  Cells.exchange words a b

def Address.label (a : Address) (value : Word) : String :=
  s!"ElementProxy \x7b at: {a.describe}, value: {value.toNat} \x7d"

end NarrowVec
