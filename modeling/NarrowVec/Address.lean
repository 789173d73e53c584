import NarrowVec.Width

/-!
# Addresses of elements

An address names the field of one element: the word that holds its lowest bit, the offset of that
bit, and the width.  Stepping is exact arithmetic on the position `64 * word + offset`, carried out
on word and offset apart so that no intermediate bit position has to fit in 64 bits.
-/

set_option autoImplicit false

namespace NarrowVec

/-- The place of one field of bits in an array of words. -/
structure Address where
  word : Nat
  offset : Nat
  width : Width
  offset_lt : offset < 64
deriving DecidableEq

namespace Address

def split (bit : Nat) : Nat × Nat := (bit / 64, bit % 64)

/-- The field of width `w` that starts at `bit`. -/
def ofBit (bit : Nat) (w : Width) : Address where
  word := (split bit).1
  offset := (split bit).2
  width := w
  offset_lt := Nat.mod_lt bit (by decide)

/-- The field of `width` bits at `offset` of `word`; the offset is checked before the width. -/
def make (word offset width : Nat) : Except Fault Address :=
  if h : offset < 64 then do
    let w ← Width.ofBits width
    return ⟨word, offset, w, h⟩
  else
    .error (.offsetOutsideWord offset)

/-- The parts of a bit pass both checks. -/
theorem make_split (bit : Nat) (w : Width) :
    make (split bit).1 (split bit).2 w.bits = .ok (ofBit bit w) := by
  have hoffset : (split bit).2 < 64 := Nat.mod_lt bit (by decide)
  have hbits : Width.ofBits w.bits = .ok w := dif_pos ⟨w.pos, w.le⟩
  exact (dif_pos hoffset).trans (bind_of_ok hbits)

/-- The flattened position of the lowest bit, as a number that may not fit in 64 bits. -/
def pos (a : Address) : Nat := 64 * a.word + a.offset

theorem pos_ofBit (bit : Nat) (w : Width) : (ofBit bit w).pos = bit :=
  Nat.div_add_mod bit 64

theorem eq_of_pos_eq {a b : Address} (hw : a.width = b.width) (hp : a.pos = b.pos) : a = b := by
  cases a with
  | mk word offset width offset_lt =>
    cases b with
    | mk word' offset' width' offset_lt' =>
      simp only [pos] at hp hw
      have hword : word = word' := by omega
      have hoffset : offset = offset' := by omega
      subst hword hoffset hw
      rfl

def bit (a : Address) : Except Fault Nat := do
  let base ← Size.mul a.word 64
  Size.add base a.offset

/-! ## Stepping -/

def advance (a : Address) (count : Nat) : Except Fault Address := do
  let step ← Size.mul count a.width.bits
  let bits ← Size.add a.offset step
  let word ← Size.add a.word (bits / 64)
  return ⟨word, bits % 64, a.width, Nat.mod_lt bits (by decide)⟩

/-- The address `count` elements back, with a borrow from the word where the offset is too small. -/
def retreat (a : Address) (count : Nat) : Except Fault Address := do
  let bits ← Size.mul count a.width.bits
  let word ← Size.sub a.word (bits / 64)
  if h : bits % 64 ≤ a.offset then
    return ⟨word, a.offset - bits % 64, a.width, by have := a.offset_lt; omega⟩
  else
    let word ← Size.sub word 1
    return ⟨word, a.offset + 64 - bits % 64, a.width, by omega⟩

def move (a : Address) (d : Int) : Except Fault Address :=
  if 0 ≤ d then a.advance d.natAbs else a.retreat d.natAbs

/-- The number of elements from `origin` to `a`, rounded toward zero.  Word indices are read as
signed numbers before they are subtracted. -/
def distance (a origin : Address) : Except Fault Int := do
  ensure (a.width = origin.width) .distanceAcrossWidths
  let words ← Distance.check (Distance.ofSize a.word - Distance.ofSize origin.word)
  let base ← Distance.check (words * 64)
  let reach ← Distance.check (base + a.offset)
  let bits ← Distance.check (reach - origin.offset)
  return bits.tdiv a.width.bits

/-! ## Order -/

/-- The order by word and then offset, asked only of addresses of one width. -/
def compare (a b : Address) : Except Fault Ordering := do
  ensure (a.width = b.width) .comparisonAcrossWidths
  return (Ord.compare a.word b.word).then (Ord.compare a.offset b.offset)

def equal (a b : Address) : Except Fault Bool := do
  ensure (a.width = b.width) .comparisonAcrossWidths
  return a.word = b.word ∧ a.offset = b.offset

def later (a b : Address) : Except Fault Address := do
  let order ← a.compare b
  return if order.isGT then a else b

def earlier (a b : Address) : Except Fault Address := do
  let order ← a.compare b
  return if order.isGT then b else a

def describe (a : Address) : String :=
  s!"BitHandle \x7b word: {a.word}, offset: {a.offset}, width: {a.width.bits} \x7d"

end Address

/-- The address of the element at `index` in gapless storage of width `w`. -/
def Width.address (w : Width) (index : Nat) : Except Fault Address := do
  let bit ← Size.mul index w.bits
  let (word, offset) := Address.split bit
  Address.make word offset w.bits

end NarrowVec
