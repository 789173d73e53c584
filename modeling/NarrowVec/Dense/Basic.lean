import NarrowVec.Cells
import NarrowVec.Cursor

/-!
# Dense storage

Elements of one width side by side in an array of words, without gaps: element `i` takes the bits
from `i * w.bits` on.  The bits behind the last element are padding.  They are zero in new words and
otherwise whatever was there before, and no element ever depends on them.
-/

set_option autoImplicit false

namespace NarrowVec

/-- Elements of width `w` in an array of words; memory is set aside for `room` words. -/
structure Dense (w : Width) where
  words : Words
  size : Nat
  room : Nat

namespace Dense

variable {w : Width}

/-- There are exactly as many words as the elements need. -/
def WellFormed (d : Dense w) : Prop := w.wordCount d.size = .ok d.words.size

/-- The elements, read off the flattened bits. -/
def toList (d : Dense w) : List Word :=
  (List.range d.size).map fun i => d.words.slice (i * w.bits) w.bits

/-- The store with other words; room once set aside stays. -/
def withWords (d : Dense w) (words : Words) : Dense w :=
  { d with words, room := max d.room words.size }

/-! ## Construction and room -/

def empty : Dense w := ⟨#[], 0, 0⟩

def emptyWithCapacity (count : Nat) : Except Fault (Dense w) := do
  let room ← w.wordCount count
  return ⟨#[], 0, room⟩

def zeros (count : Nat) : Except Fault (Dense w) := do
  let needed ← w.wordCount count
  return ⟨Array.replicate needed 0, count, needed⟩

def copy (d : Dense w) : Dense w := { d with room := d.words.size }

def capacity (d : Dense w) : Except Fault Nat := do
  let bits ← Size.mul d.room 64
  return bits / w.bits

/-- No room is kept beyond the words.  A note would tell how many words were set aside before, which
only the allocator knows, so none is written here. -/
def shrink (d : Dense w) : Dense w := { d with room := d.words.size }

/-! ## Elements -/

def address (_ : Dense w) (index : Nat) : Except Fault Address := w.address index

instance : Cells (Dense w) Address where
  load d := d.words.load
  store d a value := do
    let words ← d.words.store a value
    return { d with words }

def get? (d : Dense w) (i : Nat) : Except Fault (Option Word) :=
  if i < d.size then do
    let a ← d.address i
    let value ← d.words.load a
    return some value
  else
    return none

/-- The address of an element that the caller promises to exist. -/
def cell (d : Dense w) (i : Nat) : Except Fault Address := do
  ensure (i < d.size) (.indexPastEnd i d.size)
  d.address i

def read (d : Dense w) (i : Nat) : Except Fault Word := do
  let a ← d.cell i
  d.words.load a

def set (d : Dense w) (i : Nat) (value : Word) : Except Fault (Dense w) := do
  let a ← d.cell i
  Cells.store d a value

def last (d : Dense w) : Except Fault (Option Word) :=
  match d.size with
  | 0 => return none
  | n + 1 => d.get? n

def storeFrom (d : Dense w) (start : Nat) (values : List Word) : Except Fault (Dense w) := do
  let a ← d.address start
  let words ← d.words.storeAll a values
  return { d with words }

def fill (d : Dense w) (start stop : Nat) (value : Word) : Except Fault (Dense w) :=
  d.storeFrom start (List.replicate (stop - start) value)

def replicate (count : Nat) (value : Word) : Except Fault (Dense w) := do
  let d : Dense w ← zeros count
  d.fill 0 count value

def ofList (values : List Word) : Except Fault (Dense w) := do
  let d : Dense w ← zeros values.length
  d.storeFrom 0 values

/-! ## Walking -/

def startAddress (d : Dense w) : Except Fault Address := d.address 0

def stopAddress (d : Dense w) : Except Fault Address := d.address d.size

def cursor (d : Dense w) : Except Fault (Cursor Address) := do
  let low ← d.startAddress
  let high ← d.stopAddress
  return ⟨low, high, d.size⟩

def entries (d : Dense w) : Except Fault (List Word) := do
  let c ← d.cursor
  let positions ← c.rest
  Cells.loadAll d positions

end Dense

end NarrowVec
