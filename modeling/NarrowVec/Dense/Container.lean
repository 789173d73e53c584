import NarrowVec.Container
import NarrowVec.Dense.Edit

/-!
# Dense storage as a container

Equality compares whole words and masks the padding of the last one; order, hash and text walk the
elements.
-/

set_option autoImplicit false

namespace NarrowVec.Dense

variable {w : Width}

def equal (d e : Dense w) : Except Fault Bool :=
  if d.size = e.size then do
    let total ← Size.mul d.words.size 64
    let used ← Size.mul d.size w.bits
    let spare ← Size.sub total used
    if spare = 0 then
      return d.words == e.words
    else
      -- The last word is never padding alone, so it exists in both.
      let last ← Size.sub d.words.size 1
      let occupied ← Size.sub 64 spare
      let mask ← Word.lowMask occupied
      let left ← d.words.fetch last
      let right ← e.words.fetch last
      return d.words.take last == e.words.take last && (left ^^^ right) &&& mask == 0
  else
    return false

/-- Acts on the element at `i`; `label` is the text of an address and its element. -/
def act (label : Address → Word → String) (d : Dense w) (i : Nat) (action : Action) :
    Except Fault (Reply × Dense w) := do
  let a ← d.cell i
  action.run label d a

def scan (d : Dense w) (calls : List Scan.Call) : Except Fault (List Scan.Answer) := do
  let c ← d.cursor
  Scan.run d c calls

def visit (label : Address → Word → String) (d : Dense w) (calls : List Visit.Call) :
    Except Fault (List Visit.Answer × Dense w) := do
  let c ← d.cursor
  Visit.run label d c calls

instance : Container (Dense w) where
  insert d i value := d.insertCopies i 1 value
  equal := equal
  entries := entries
  describe d := do
    let values ← d.entries
    return Word.listText values
  act := act Address.label
  scan := scan
  visit := visit Address.label

end NarrowVec.Dense
