import NarrowVec.Address
import NarrowVec.Words.Basic

/-!
# Bit fields

Reading and writing the field of bits at an address.  A field that reaches past the end of its word
continues in the low bits of the next one; the words it touches must exist.
-/

set_option autoImplicit false

namespace NarrowVec.Words

def load (words : Words) (a : Address) : Except Fault Word := do
  ensure (a.offset < 64) (.offsetOutsideWord a.offset)
  let first ← words.fetch a.word
  let low ← first.shr a.offset
  let reach ← Size.add a.offset a.width.bits
  if reach ≤ 64 then
    let mask ← Word.lowMask a.width.bits
    return low &&& mask
  else
    let next ← Size.add a.word 1
    let second ← words.fetch next
    let loaded ← Size.sub 64 a.offset
    let high ← second.shl loaded
    let mask ← Word.lowMask a.width.bits
    return (low ||| high) &&& mask

/-- Writes the low bits of `value` to the field at `a` and keeps every other bit. -/
def store (words : Words) (a : Address) (value : Word) : Except Fault Words := do
  ensure (a.offset < 64) (.offsetOutsideWord a.offset)
  let mask ← Word.lowMask a.width.bits
  let value := value &&& mask
  let first ← words.fetch a.word
  let hole ← mask.shl a.offset
  let low ← value.shl a.offset
  let words ← words.put a.word ((first &&& ~~~hole) ||| low)
  let stored ← Size.sub 64 a.offset
  if stored < a.width.bits then
    let next ← Size.add a.word 1
    let second ← words.fetch next
    let hole ← mask.shr stored
    let high ← value.shr stored
    words.put next ((second &&& ~~~hole) ||| high)
  else
    return words

/-! ## Runs of fields -/

def storeAll (words : Words) (a : Address) : List Word → Except Fault Words
  | [] => return words
  | value :: rest => do
    let words ← words.store a value
    let next ← a.advance 1
    storeAll words next rest

/-- Copies `count` fields one by one from `source` onward to `target` onward. -/
def copyUp (words : Words) (source target : Address) : Nat → Except Fault Words
  | 0 => return words
  | count + 1 => do
    let value ← words.load source
    let words ← words.store target value
    let source ← source.advance 1
    let target ← target.advance 1
    copyUp words source target count

/-- Copies `count` fields one by one, from the field before `source` backward to the field before
`target` backward. -/
def copyDown (words : Words) (source target : Address) : Nat → Except Fault Words
  | 0 => return words
  | count + 1 => do
    let source ← source.retreat 1
    let target ← target.retreat 1
    let value ← words.load source
    let words ← words.store target value
    copyDown words source target count

end NarrowVec.Words
