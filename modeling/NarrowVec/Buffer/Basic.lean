import NarrowVec.Cells
import NarrowVec.Cursor
import NarrowVec.Storage

/-!
# Buffers of native integers

Storage for the widths that native integers have.  Element boundaries are byte boundaries, so every
operation is one on the array beneath.  `room` is the number of elements that memory is known to be
set aside for; a buffer whose bytes a signed size cannot count is refused.
-/

set_option autoImplicit false

namespace NarrowVec

structure Buffer (lane : Lane) where
  items : Array (BitVec lane.bits)
  room : Nat

namespace Buffer

variable {lane : Lane}

def encode (lane : Lane) (value : Word) : BitVec lane.bits := value.setWidth lane.bits

def decode (item : BitVec lane.bits) : Word := item.setWidth 64

def size (b : Buffer lane) : Nat := b.items.size

def toList (b : Buffer lane) : List Word := b.items.toList.map decode

/-- The buffer with other items; room once set aside stays. -/
def withItems (b : Buffer lane) (items : Array (BitVec lane.bits)) : Buffer lane where
  items := items
  room := max b.room items.size

/-- Passes when `count` items are few enough to be stored. -/
def checkRoom (lane : Lane) (count : Nat) : Except Fault Unit :=
  ensure (count ≤ lane.maxSize) .capacity

/-! ## Construction and room -/

def empty : Buffer lane := ⟨#[], 0⟩

def emptyWithCapacity (count : Nat) : Except Fault (Buffer lane) := do
  checkRoom lane count
  return ⟨#[], count⟩

def replicate (count : Nat) (value : Word) : Except Fault (Buffer lane) := do
  checkRoom lane count
  return ⟨Array.replicate count (encode lane value), count⟩

def ofList (values : List Word) : Buffer lane :=
  empty.withItems (values.map (encode lane)).toArray

def copy (b : Buffer lane) : Buffer lane := ⟨b.items, b.size⟩

def reserve (b : Buffer lane) (count : Nat) : Except Fault (Buffer lane) := do
  checkRoom lane (b.size + count)
  return { b with room := max b.room (b.size + count) }

/-- No room is kept beyond the items; the note that tells of it is left out, as for dense
storage. -/
def shrink (b : Buffer lane) : Buffer lane := { b with room := b.size }

/-! ## Elements -/

def get? (b : Buffer lane) (i : Nat) : Option Word := b.items[i]?.map decode

def read (b : Buffer lane) (i : Nat) : Except Fault Word :=
  match b.get? i with
  | some value => .ok value
  | none => .error .bounds

def set (b : Buffer lane) (i : Nat) (value : Word) : Except Fault (Buffer lane) :=
  if h : i < b.items.size then
    .ok { b with items := b.items.set i (encode lane value) h }
  else
    .error .bounds

instance : Cells (Buffer lane) Nat where
  load := read
  store := set

def cursor (b : Buffer lane) : Cursor Nat := ⟨0, b.size, b.size⟩

/-! ## Growing and shrinking -/

def push (b : Buffer lane) (value : Word) : Buffer lane :=
  b.withItems (b.items.push (encode lane value))

def pop (b : Buffer lane) : Option Word × Buffer lane :=
  (b.items.back?.map decode, b.withItems b.items.pop)

def resize (b : Buffer lane) (count : Nat) (value : Word) : Except Fault (Buffer lane) := do
  checkRoom lane count
  let added := Array.replicate (count - b.size) (encode lane value)
  return b.withItems (b.items.take count ++ added)

def truncate (b : Buffer lane) (count : Nat) : Buffer lane := b.withItems (b.items.take count)

def clear (b : Buffer lane) : Buffer lane := b.withItems #[]

/-! ## Moving elements -/

def checkInsert (b : Buffer lane) (i count : Nat) : Except Fault Unit := do
  ensure (i ≤ b.size) .insertPosition
  checkRoom lane (b.size + count)

def splice (b : Buffer lane) (i : Nat) (items : Array (BitVec lane.bits)) : Buffer lane :=
  b.withItems (b.items.take i ++ items ++ b.items.drop i)

/-- Inserts one element; here a position past the end is a plain bounds fault. -/
def insert (b : Buffer lane) (i : Nat) (value : Word) : Except Fault (Buffer lane) := do
  ensure (i ≤ b.size) .bounds
  return b.splice i #[encode lane value]

def insertCopies (b : Buffer lane) (i count : Nat) (value : Word) :
    Except Fault (Buffer lane) := do
  b.checkInsert i count
  return b.splice i (Array.replicate count (encode lane value))

def overwrite (b : Buffer lane) (i : Nat) : List Word → Except Fault (Buffer lane)
  | [] => return b
  | value :: rest => do
    let b ← b.set i value
    b.overwrite (i + 1) rest

/-- Inserts zeros and overwrites them by the values. -/
def insertList (b : Buffer lane) (i : Nat) (values : List Word) :
    Except Fault (Buffer lane) := do
  let b ← b.insertCopies i values.length 0
  let stop ← Size.add i values.length
  ensure (stop ≤ b.size) .bounds
  b.overwrite i values

def cut (b : Buffer lane) (s : Segment) : Buffer lane :=
  b.withItems (b.items.take s.start ++ b.items.drop s.stop)

def remove (b : Buffer lane) (i : Nat) : Except Fault (Word × Buffer lane) := do
  let value ← b.read i
  return (value, b.cut ⟨i, i + 1⟩)

def erase (b : Buffer lane) (e : Extent) : Except Fault (Buffer lane) := do
  let s ← e.resolve b.size
  return b.cut s

def swap (b : Buffer lane) (i j : Nat) : Except Fault (Buffer lane) :=
  Cells.exchange b i j

/-! ## Bytes and text -/

def bytes (b : Buffer lane) : List Byte := Bytes.ofArray b.items

def setByte (b : Buffer lane) (i : Nat) (byte : Byte) : Except Fault (Buffer lane) := do
  let items ← Bytes.put b.items i byte
  return { b with items }

/-- The contract over native integers.  A reservation is noted before its size is checked. -/
instance : Storage (Buffer lane) where
  width := lane.bits
  maxSize := lane.maxSize
  empty := empty
  emptyWithCapacity := emptyWithCapacity
  zeros count := replicate count 0
  replicate := replicate
  ofList values := return ofList values
  copy := copy
  size := size
  toList := toList
  capacity b := return b.room
  reserve b count := do
    Traced.write (.reservingElements count lane.bits)
    b.reserve count
  shrink := shrink
  get? b i := return b.get? i
  read := read
  set := set
  push b value := return b.push value
  pop b := return b.pop
  insertCopies b i count value := b.insertCopies i count value
  insertList b i values := b.insertList i values
  remove := remove
  erase := erase
  resize := resize
  setSize b count := b.resize count 0
  truncate b count := return b.truncate count
  clear := clear
  swap := swap
  bytes := bytes
  setByte := setByte

end Buffer

end NarrowVec
