import NarrowVec.Container.Op
import NarrowVec.UIntVec.Basic

/-!
# Operations of vectors
-/

set_option autoImplicit false

namespace NarrowVec.UIntVec

inductive Op where
  | container (op : Container.Op)
  | isDense
  /-- Pushes through the dense backing and answers whether there is one. -/
  | pushDense (value : Word)

variable {w : Width}

def Op.run (p : Pair (UIntVec w)) : Op → Traced (Answer × Pair (UIntVec w))
  | .container op => op.run p
  | .isDense => return (.flag p.target.isDense, p)
  | .pushDense value =>
    match p.target with
    | .native .. => return (.flag false, p)
    | .dense fields => do
      let fields ← fields.push value
      return (.flag true, p.put (.dense fields))

end NarrowVec.UIntVec
