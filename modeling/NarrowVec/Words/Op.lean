import NarrowVec.Session

/-!
# Operations on fields of words

Single fields of an array of words, each named by the numbers of its address.
-/

set_option autoImplicit false

namespace NarrowVec.Words

structure Place where
  word : Nat
  offset : Nat
  width : Nat

def Place.resolve (p : Place) : Except Fault Address := Address.make p.word p.offset p.width

inductive Op where
  | act (action : Action)
  | address
  /-- Exchanges the field with another one and answers both as they then are. -/
  | exchange (other : Place)

def Op.run (words : Words) (place : Place) : Op → Except Fault (Answer × Words)
  | .act action => do
    let a ← place.resolve
    let (reply, words) ← action.run Address.label words a
    return (.reply reply, words)
  | .address => do
    let a ← place.resolve
    return (.address a, words)
  | .exchange other => do
    let a ← place.resolve
    let b ← other.resolve
    let words ← words.exchange a b
    let first ← words.load a
    let second ← words.load b
    return (.words [first, second], words)

/-- The answer to every step, each with the words after it; a refused step changes no word. -/
def run : Words → List (Place × Op) → List (Except Fault Answer × Words)
  | _, [] => []
  | words, (place, op) :: rest =>
    match op.run words place with
    | .ok (answer, words) => (.ok answer, words) :: run words rest
    | .error fault => (.error fault, words) :: run words rest

end NarrowVec.Words
