import NarrowVec.Fault

/-!
# Byte views

An array of numbers of `n` bits seen as bytes, the low byte of each number first.  This stands for
the memory of the array as it is, on a machine that stores low bytes first; the order is assumed.
-/

set_option autoImplicit false

namespace NarrowVec

abbrev Byte := BitVec 8

namespace Bytes

variable {n : Nat}

/-- The bytes of the numbers, in order. -/
def ofArray (items : Array (BitVec n)) : List Byte :=
  items.toList.flatMap fun item => (List.range (n / 8)).map fun k => item.extractLsb' (8 * k) 8

/-- Replaces byte `i` of the view. -/
def put (items : Array (BitVec n)) (i : Nat) (byte : Byte) :
    Except Fault (Array (BitVec n)) :=
  let k := i / (n / 8)
  let shift := 8 * (i % (n / 8))
  if h : k < items.size then
    let kept := items[k] &&& ~~~((BitVec.allOnes 8).setWidth n <<< shift)
    .ok (items.set k (kept ||| byte.setWidth n <<< shift) h)
  else
    .error .bounds

theorem size_of_put {items items' : Array (BitVec n)} {i : Nat} {byte : Byte}
    (h : put items i byte = .ok items') : items'.size = items.size := by
  simp only [put] at h
  split at h
  · cases h
    exact Array.size_set _
  · cases h

end Bytes

end NarrowVec
