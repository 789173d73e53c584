import NarrowVec.Container.Op
import NarrowVec.Dense.Container

/-!
# Operations of dense storage
-/

set_option autoImplicit false

namespace NarrowVec.Dense

inductive Op where
  | container (op : Container.Op)
  | address (i : Nat)
  | startAddress
  | stopAddress
  | span
  | setWord (i : Nat) (word : Word)

variable {w : Width}

def Op.run (p : Pair (Dense w)) : Op → Traced (Answer × Pair (Dense w))
  | .container op => op.run p
  | .address i => do
    let a ← p.target.address i
    return (.address a, p)
  | .startAddress => do
    let a ← p.target.startAddress
    return (.address a, p)
  | .stopAddress => do
    let a ← p.target.stopAddress
    return (.address a, p)
  | .span => do
    let high ← p.target.stopAddress
    let low ← p.target.startAddress
    let d ← high.distance low
    return (.distance d, p)
  | .setWord i word => do
    let d ← p.target.setWord i word
    return (.done, p.put d)

end NarrowVec.Dense
