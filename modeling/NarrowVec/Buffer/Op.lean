import NarrowVec.Buffer.Container
import NarrowVec.Container.Op

/-!
# Operations of buffers

A buffer that is worked on directly writes no notes.  Its items can be replaced one by one, with or
without a recoverable fault, and updated all together.
-/

set_option autoImplicit false

namespace NarrowVec.Buffer

inductive Op where
  | container (op : Container.Op)
  | replace? (i : Nat) (value : Word)
  /-- Stores a value, with a recoverable fault where there is no element. -/
  | replaceFetched (i : Nat) (value : Word)
  | replace (i : Nat) (value : Word)
  | toList
  | updateAll (f : Word → Word)

variable {lane : Lane}

def replace (b : Buffer lane) (i : Nat) (value : Word) :
    Except Fault (Word × Buffer lane) := do
  let old ← b.read i
  let b ← b.set i value
  return (old, b)

def updateAll (b : Buffer lane) (f : Word → Word) : Buffer lane :=
  { b with items := b.items.map fun item => encode lane (f (decode item)) }

def Op.run (p : Pair (Buffer lane)) : Op → Traced (Answer × Pair (Buffer lane))
  | .container op => (op.run p).silent
  | .replace? i value =>
    if i < p.target.size then do
      let (old, b) ← p.target.replace i value
      return (.word? (some old), p.put b)
    else
      return (.word? none, p)
  | .replaceFetched i value => do
    ensure (i < p.target.size) (.outOfRange ⟨i, p.target.size⟩)
    let (old, b) ← p.target.replace i value
    return (.word old, p.put b)
  | .replace i value => do
    let (old, b) ← p.target.replace i value
    return (.word old, p.put b)
  | .toList => return (.words p.target.toList, p)
  | .updateAll f => return (.done, p.put (p.target.updateAll f))

end NarrowVec.Buffer
