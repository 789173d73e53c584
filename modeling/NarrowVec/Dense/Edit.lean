import NarrowVec.Dense.Basic
import NarrowVec.Storage

/-!
# Editing dense storage

Growing, shrinking and moving elements.  Every operation ends with as many words as its elements
need.  Words that are dropped take their bits with them, new words are zero, and the last word keeps
its padding.
-/

set_option autoImplicit false

namespace NarrowVec.Dense

variable {w : Width}

/-! ## At the end -/

def push (d : Dense w) (value : Word) : Except Fault (Dense w) := do
  let size ← Size.add d.size 1
  let needed ← w.wordCount size
  let pushed := { d.withWords (d.words.padTo needed) with size }
  let last ← Size.sub size 1
  pushed.set last value

def pop (d : Dense w) : Except Fault (Option Word × Dense w) := do
  match ← d.last with
  | none => return (none, d)
  | some value =>
    let size ← Size.sub d.size 1
    let needed ← w.wordCount size
    return (some value, { d with size, words := d.words.take needed })

/-- Changes the size; a new element is what the padding and the new words hold. -/
def setSize (d : Dense w) (count : Nat) : Except Fault (Dense w) := do
  let needed ← w.wordCount count
  return { d.withWords (d.words.resize needed) with size := count }

def resize (d : Dense w) (count : Nat) (value : Word) : Except Fault (Dense w) := do
  let grown ← d.setSize count
  if d.size < count then
    grown.fill d.size count value
  else
    return grown

def truncate (d : Dense w) (count : Nat) : Except Fault (Dense w) :=
  if count < d.size then d.setSize count else return d

def clear (d : Dense w) : Dense w := { d with words := #[], size := 0 }

def reserve (d : Dense w) (count : Nat) : Traced (Dense w) := do
  let total ← Size.add d.size count
  let needed ← w.wordCount total
  if d.words.size < needed then
    let missing ← Size.sub needed d.words.size
    Traced.write (.reservingWords missing count w.bits)
    return { d with room := max d.room needed }
  else
    return d

/-! ## In the middle -/

/-- Adds the words for `count` more elements that the padding does not cover. -/
def grow (d : Dense w) (count : Nat) : Traced (Dense w) := do
  let needed ← Size.mul count w.bits
  let total ← Size.mul d.words.size 64
  let used ← Size.mul d.size w.bits
  let spare ← Size.sub total used
  if spare < needed then
    let missing ← Size.sub needed spare
    let added := Size.ceilDiv missing 64
    Traced.write (.growing w.bits added count)
    let total ← Size.add d.words.size added
    return d.withWords (d.words.resize total)
  else
    return d

/-- Moves the elements from `index` on up by `count` places.  The places between keep old bits. -/
def makeRoom (d : Dense w) (index count : Nat) : Traced (Dense w) := do
  ensure (index ≤ d.size) (.insertPastEnd index d.size)
  if count = 0 then
    return d
  else
    let grown ← d.grow count
    let size ← Size.add d.size count
    let needed ← w.wordCount size
    ensure (grown.words.size = needed) .wordCountMismatch
    let source ← d.address d.size
    let target ← d.address size
    -- Back to front, so no element is overwritten before it is read.
    let words ← grown.words.copyDown source target (d.size - index)
    return { grown with words, size }

def insertCopies (d : Dense w) (index count : Nat) (value : Word) : Traced (Dense w) := do
  let d ← d.makeRoom index count
  let stop ← Size.add index count
  d.fill index stop value

def insertList (d : Dense w) (index : Nat) (values : List Word) : Traced (Dense w) := do
  let d ← d.makeRoom index values.length
  d.storeFrom index values

/-- Moves the elements behind a segment down over it and drops the words that are then spare. -/
def erase (d : Dense w) (e : Extent) : Except Fault (Dense w) := do
  let s ← e.resolve d.size
  if s.count = 0 then
    return d
  else
    let source ← d.address s.stop
    let target ← d.address s.start
    let words ← d.words.copyUp source target (d.size - s.stop)
    let size ← Size.sub d.size s.count
    let needed ← w.wordCount size
    return { d with size, words := words.take needed }

def remove (d : Dense w) (i : Nat) : Except Fault (Word × Dense w) := do
  ensure (i < d.size) (.removePastEnd i d.size)
  let value ← d.read i
  let e ← Extent.single i
  let d ← d.erase e
  return (value, d)

def swap (d : Dense w) (i j : Nat) : Except Fault (Dense w) := do
  ensure (i < d.size ∧ j < d.size) (.swapPastEnd i j d.size)
  let a ← d.address i
  let b ← d.address j
  let words ← d.words.exchange a b
  return { d with words }

/-! ## Raw words and bytes -/

def setWord (d : Dense w) (i : Nat) (word : Word) : Except Fault (Dense w) := do
  let words ← d.words.put i word
  return { d with words }

def bytes (d : Dense w) : List Byte := Bytes.ofArray d.words

def setByte (d : Dense w) (i : Nat) (byte : Byte) : Except Fault (Dense w) := do
  let words ← Bytes.put d.words i byte
  return { d with words }

instance : Storage (Dense w) where
  width := w.bits
  maxSize := w.maxSize
  empty := empty
  emptyWithCapacity := emptyWithCapacity
  zeros := zeros
  replicate := replicate
  ofList := ofList
  copy := copy
  size := size
  toList := toList
  capacity := capacity
  reserve := reserve
  shrink := shrink
  get? := get?
  read := read
  set := set
  push := push
  pop := pop
  insertCopies := insertCopies
  insertList := insertList
  remove := remove
  erase := erase
  resize := resize
  setSize := setSize
  truncate := truncate
  clear := clear
  swap := swap
  bytes := bytes
  setByte := setByte

end NarrowVec.Dense
