import NarrowVec.Bytes
import NarrowVec.Extent
import NarrowVec.Note
import NarrowVec.Width

/-!
# The storage contract

What every store of integers of one width can do, value by value.  Values are 64-bit words, of which
a store keeps the low bits that fit its width.  `toList` is the view of a store as the list of its
elements.
-/

set_option autoImplicit false

namespace NarrowVec

/-- Values that come one by one.  Some number of them is announced before the first one, and no
fewer follow. -/
structure Feed where
  values : List Word
  announced : Nat
  announced_le : announced ≤ values.length

namespace Feed

def exact (values : List Word) : Feed := ⟨values, values.length, Nat.le_refl _⟩

instance : Coe (List Word) Feed := ⟨exact⟩

@[simp] theorem values_exact (values : List Word) : (exact values).values = values := rfl

end Feed

/-- Growable storage of integers of one width. -/
class Storage (σ : Type) where
  width : Nat
  maxSize : Nat
  empty : σ
  emptyWithCapacity : Nat → Except Fault σ
  zeros : Nat → Except Fault σ
  replicate : Nat → Word → Except Fault σ
  ofList : List Word → Except Fault σ
  /-- A store of the same elements with no room beyond them. -/
  copy : σ → σ
  size : σ → Nat
  toList : σ → List Word
  /-- The number of elements that fit without more memory. -/
  capacity : σ → Except Fault Nat
  reserve : σ → Nat → Traced σ
  /-- Gives back the room that no element uses.  What the allocator had set aside is not known, so
  no note tells of it. -/
  shrink : σ → σ
  get? : σ → Nat → Except Fault (Option Word)
  read : σ → Nat → Except Fault Word
  set : σ → Nat → Word → Except Fault σ
  push : σ → Word → Except Fault σ
  pop : σ → Except Fault (Option Word × σ)
  insertCopies : σ → Nat → Nat → Word → Traced σ
  insertList : σ → Nat → List Word → Traced σ
  remove : σ → Nat → Except Fault (Word × σ)
  erase : σ → Extent → Except Fault σ
  resize : σ → Nat → Word → Except Fault σ
  /-- Changes the size and leaves it to the store what the new elements are. -/
  setSize : σ → Nat → Except Fault σ
  truncate : σ → Nat → Except Fault σ
  clear : σ → σ
  swap : σ → Nat → Nat → Except Fault σ
  bytes : σ → List Byte
  setByte : σ → Nat → Byte → Except Fault σ

namespace Storage

variable {σ : Type} [Storage σ]

def isEmpty (s : σ) : Bool := size s == 0

def bitSize (s : σ) : Except Fault Nat := Size.mul (size s) (width σ)

/-- The element at an index, with a recoverable fault where there is none. -/
def fetch (s : σ) (i : Nat) : Except Fault Word := do
  match ← get? s i with
  | some value => return value
  | none => throw (.outOfRange ⟨i, size s⟩)

def first (s : σ) : Except Fault (Option Word) := get? s 0

def last (s : σ) : Except Fault (Option Word) :=
  match size s with
  | 0 => return none
  | n + 1 => get? s n

def pushEach (s : σ) : List Word → Except Fault σ
  | [] => return s
  | value :: rest => do
    let s ← push s value
    pushEach s rest

/-- Makes room for the values that are announced and pushes all of them one by one. -/
def extend (s : σ) (feed : Feed) : Traced σ := do
  let s ← reserve s feed.announced
  pushEach s feed.values

def ofPushes (feed : Feed) : Traced σ := extend empty feed

def assign (s : σ) (feed : Feed) : Traced σ := extend (clear s) feed

def assignCopies (s : σ) (count : Nat) (value : Word) : Except Fault σ :=
  resize (clear s) count value

def append (s : σ) (values : List Word) : Traced σ := insertList s (size s) values

end Storage

end NarrowVec
