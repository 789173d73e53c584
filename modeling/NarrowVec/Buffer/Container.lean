import NarrowVec.Buffer.Basic
import NarrowVec.Container

/-!
# Buffers as containers

Native integers are compared, walked and shown item by item.
-/

set_option autoImplicit false

namespace NarrowVec.Buffer

variable {lane : Lane}

def act (b : Buffer lane) (i : Nat) (action : Action) : Except Fault (Reply × Buffer lane) := do
  ensure (i < b.size) (.indexPastEnd i b.size)
  action.run (fun _ value => value.label) b i

def describe (b : Buffer lane) : String :=
  s!"AlignedStore \x7b data: {Word.listText b.toList} \x7d"

instance : Container (Buffer lane) where
  insert b i value := b.insert i value
  equal b c := return b.items == c.items
  entries b := return b.toList
  describe b := return b.describe
  act := act
  scan b calls := Scan.run b b.cursor calls
  visit b calls := Visit.run (fun _ value => value.label) b b.cursor calls

end NarrowVec.Buffer
