import NarrowVec.Container
import NarrowVec.Storage.Op

/-!
# Operations of containers

The operations of the storage contract and those that containers add to it.
-/

set_option autoImplicit false

namespace NarrowVec.Container

inductive Op where
  | storage (op : Storage.Op)
  | ofPushes (feed : Feed)
  | first
  | last
  | insert (i : Nat) (value : Word)
  | append (values : List Word)
  | extend (feed : Feed)
  /-- Pushes the elements of the other container, whose walk announces all of them. -/
  | extendOther
  | assign (feed : Feed)
  | assignCopies (count : Nat) (value : Word)
  | actFetched (i : Nat) (action : Action)
  | act (i : Nat) (action : Action)
  | actFirst (action : Action)
  | actLast (action : Action)
  | equal
  | notEqual
  | compare
  | less
  | hashed
  | describe
  | entries
  | scan (calls : List Scan.Call)
  | visit (calls : List Visit.Call)

variable {σ : Type} [Container σ]

def Op.run (p : Pair σ) : Op → Traced (Answer × Pair σ)
  | .storage op => op.run p
  | .ofPushes feed => do
    let s ← Storage.ofPushes feed
    return (.done, p.put s)
  | .first => do
    let value ← Storage.first p.target
    return (.word? value, p)
  | .last => do
    let value ← Storage.last p.target
    return (.word? value, p)
  | .insert i value => do
    let s ← Container.insert p.target i value
    return (.done, p.put s)
  | .append values => do
    let s ← Storage.append p.target values
    return (.done, p.put s)
  | .extend feed => do
    let s ← Storage.extend p.target feed
    return (.done, p.put s)
  | .extendOther => do
    let values ← Container.entries p.other
    let s ← Storage.extend p.target (.exact values)
    return (.done, p.put s)
  | .assign feed => do
    let s ← Storage.assign p.target feed
    return (.done, p.put s)
  | .assignCopies count value => do
    let s ← Storage.assignCopies p.target count value
    return (.done, p.put s)
  | .actFetched i action => do
    let (reply, s) ← Container.actFetched p.target i action
    return (.reply reply, p.put s)
  | .act i action => do
    let (reply, s) ← Container.act p.target i action
    return (.reply reply, p.put s)
  | .actFirst action => do
    let (reply, s) ← Container.actFirst p.target action
    return (.reply? reply, p.put s)
  | .actLast action => do
    let (reply, s) ← Container.actLast p.target action
    return (.reply? reply, p.put s)
  | .equal => do
    let same ← Container.equal p.target p.other
    return (.flag same, p)
  | .notEqual => do
    let same ← Container.equal p.target p.other
    return (.flag !same, p)
  | .compare => do
    let order ← Container.compare p.target p.other
    return (.order order, p)
  | .less => do
    let order ← Container.compare p.target p.other
    return (.flag order.isLT, p)
  | .hashed => do
    let parts ← Container.hashed p.target
    return (.hashed parts, p)
  | .describe => do
    let text ← Container.describe p.target
    return (.text text, p)
  | .entries => do
    let values ← Container.entries p.target
    return (.words values, p)
  | .scan calls => do
    let answers ← Container.scan p.target calls
    return (.scan answers, p)
  | .visit calls => do
    let (answers, s) ← Container.visit p.target calls
    return (.visit answers, p.put s)

end NarrowVec.Container
