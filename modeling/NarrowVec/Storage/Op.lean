import NarrowVec.Session
import NarrowVec.Storage

/-!
# Operations of the storage contract

The contract as a language of operations on a pair of stores, so that whole histories can be spoken
of.
-/

set_option autoImplicit false

namespace NarrowVec.Storage

inductive Op where
  | empty
  | emptyWithCapacity (count : Nat)
  | zeros (count : Nat)
  | replicate (count : Nat) (value : Word)
  | ofList (values : List Word)
  | copyOther
  | size
  | isEmpty
  | bitSize
  | hasCapacity (count : Nat)
  | reserve (count : Nat)
  | shrink
  | get? (i : Nat)
  | fetch (i : Nat)
  | read (i : Nat)
  | set (i : Nat) (value : Word)
  | push (value : Word)
  | pop
  | insertCopies (i count : Nat) (value : Word)
  | insertList (i : Nat) (values : List Word)
  | remove (i : Nat)
  | erase (e : Extent)
  | resize (count : Nat) (value : Word)
  | setSize (count : Nat)
  | truncate (count : Nat)
  | clear
  | swap (i j : Nat)
  | exchange
  | bytes
  | setByte (i : Nat) (byte : Byte)

variable {σ : Type} [Storage σ]

/-- What an operation answers and does.  Operations that set memory aside answer whether there is
then at least as much as was asked for. -/
def Op.run (p : Pair σ) : Op → Traced (Answer × Pair σ)
  | .empty => return (.done, p.put Storage.empty)
  | .emptyWithCapacity count => do
    let s : σ ← Storage.emptyWithCapacity (σ := σ) count
    let room ← capacity s
    return (.flag (count ≤ room), p.put s)
  | .zeros count => do
    let s ← Storage.zeros (σ := σ) count
    return (.done, p.put s)
  | .replicate count value => do
    let s ← Storage.replicate (σ := σ) count value
    return (.done, p.put s)
  | .ofList values => do
    let s ← Storage.ofList (σ := σ) values
    return (.done, p.put s)
  | .copyOther => return (.done, p.put (copy p.other))
  | .size => return (.size (Storage.size p.target), p)
  | .isEmpty => return (.flag (Storage.isEmpty p.target), p)
  | .bitSize => do
    let bits ← Storage.bitSize p.target
    return (.size bits, p)
  | .hasCapacity count => do
    let room ← capacity p.target
    return (.flag (count ≤ room), p)
  | .reserve count => do
    let s ← Storage.reserve p.target count
    let room ← capacity s
    let spare ← Size.sub room (Storage.size s)
    return (.flag (count ≤ spare), p.put s)
  | .shrink => do
    let s := Storage.shrink p.target
    let room ← capacity s
    return (.flag (Storage.size s ≤ room), p.put s)
  | .get? i => do
    let value ← Storage.get? p.target i
    return (.word? value, p)
  | .fetch i => do
    let value ← Storage.fetch p.target i
    return (.word value, p)
  | .read i => do
    let value ← Storage.read p.target i
    return (.word value, p)
  | .set i value => do
    let s ← Storage.set p.target i value
    return (.done, p.put s)
  | .push value => do
    let s ← Storage.push p.target value
    return (.done, p.put s)
  | .pop => do
    let (value, s) ← Storage.pop p.target
    return (.word? value, p.put s)
  | .insertCopies i count value => do
    let s ← Storage.insertCopies p.target i count value
    return (.done, p.put s)
  | .insertList i values => do
    let s ← Storage.insertList p.target i values
    return (.done, p.put s)
  | .remove i => do
    let (value, s) ← Storage.remove p.target i
    return (.word value, p.put s)
  | .erase e => do
    let s ← Storage.erase p.target e
    return (.done, p.put s)
  | .resize count value => do
    let s ← Storage.resize p.target count value
    return (.done, p.put s)
  | .setSize count => do
    let s ← Storage.setSize p.target count
    return (.done, p.put s)
  | .truncate count => do
    let s ← Storage.truncate p.target count
    return (.done, p.put s)
  | .clear => return (.done, p.put (Storage.clear p.target))
  | .swap i j => do
    let s ← Storage.swap p.target i j
    return (.done, p.put s)
  | .exchange => return (.done, ⟨p.other, p.target⟩)
  | .bytes => return (.bytes (Storage.bytes p.target), p)
  | .setByte i byte => do
    let s ← Storage.setByte p.target i byte
    return (.done, p.put s)

end NarrowVec.Storage
