import NarrowVec.Size

/-!
# Element widths

An element takes between one and 64 bits.  `Width` carries that bound and converts between counts
of elements, bits and backing words; `Lane` lists the widths that native integers have.
-/

set_option autoImplicit false

namespace NarrowVec

/-- A backing word, and the common type of element values. -/
abbrev Word := BitVec 64

/-- The word whose low `n` bits are set. -/
def Word.mask (n : Nat) : Word := (BitVec.allOnes n).setWidth 64

theorem Word.getLsbD_mask (n i : Nat) : (Word.mask n).getLsbD i = decide (i < n ∧ i < 64) := by
  unfold mask
  simp only [BitVec.getLsbD_setWidth, BitVec.getLsbD_allOnes]
  by_cases h : i < 64 <;> simp [h]

/-- The least number of bits, and at least one, that represent `v`. -/
def Word.bitsNeeded (v : Word) : Nat := if v = 0 then 1 else 64 - v.clz.toNat

/-! ## Checked arithmetic

A shift by a whole word or more, and a difference below zero, are overflows. -/

namespace Word

def shl (v : Word) (n : Nat) : Except Fault Word :=
  if n < 64 then .ok (v <<< n) else .error .overflow

def shr (v : Word) (n : Nat) : Except Fault Word :=
  if n < 64 then .ok (v >>> n) else .error .overflow

def sub (a b : Word) : Except Fault Word :=
  if b ≤ a then .ok (a - b) else .error .overflow

/-- The mask as one bit less one; the bit for a whole word would not fit. -/
def lowMask (n : Nat) : Except Fault Word :=
  if 64 ≤ n then
    return BitVec.allOnes 64
  else do
    let bit ← shl 1 n
    sub bit 1

theorem shl_of_lt (v : Word) {n : Nat} (h : n < 64) : v.shl n = .ok (v <<< n) := if_pos h

theorem shr_of_lt (v : Word) {n : Nat} (h : n < 64) : v.shr n = .ok (v >>> n) := if_pos h

theorem lowMask_eq (n : Nat) : lowMask n = .ok (mask n) := by
  unfold lowMask
  by_cases h : 64 ≤ n
  · rw [if_pos h]
    refine congrArg Except.ok (BitVec.eq_of_getLsbD_eq fun i hi => ?_)
    have hrange : i < n ∧ i < 64 := ⟨by omega, hi⟩
    rw [BitVec.getLsbD_allOnes, getLsbD_mask, decide_eq_true hi, decide_eq_true hrange]
  · have hn : n < 64 := Nat.lt_of_not_le h
    have hlt : 2 ^ n < 2 ^ 64 := Nat.pow_lt_pow_right (by decide) hn
    have hpos := Nat.two_pow_pos n
    have hmask : (mask n).toNat = 2 ^ n - 1 := by
      rw [mask, BitVec.toNat_setWidth, BitVec.toNat_allOnes, Nat.mod_eq_of_lt (by omega)]
    have hunit : (1 : Word).toNat = 1 := rfl
    have hbit : ((1 : Word) <<< n).toNat = 2 ^ n := by
      rw [BitVec.toNat_shiftLeft, hunit, Nat.shiftLeft_eq, Nat.one_mul, Nat.mod_eq_of_lt hlt]
    have hone : (1 : Word) ≤ (1 : Word) <<< n := by
      rw [BitVec.le_def, hbit]
      exact hpos
    rw [if_neg h, bind_of_ok (shl_of_lt 1 hn), sub, if_pos hone]
    refine congrArg Except.ok (BitVec.eq_of_toNat_eq ?_)
    rw [BitVec.toNat_sub_of_le hone, hbit, hmask]
    rfl

end Word

structure Width where
  bits : Nat
  pos : 0 < bits := by decide
  le : bits ≤ 64 := by decide
deriving DecidableEq, Repr

namespace Width

def ofBits (n : Nat) : Except Fault Width :=
  if h : 1 ≤ n ∧ n ≤ 64 then .ok ⟨n, h.1, h.2⟩ else .error (.widthOutsideWord n)

def mask (w : Width) : Word := Word.mask w.bits

/-- The low bits of `v` that an element keeps. -/
def truncate (w : Width) (v : Word) : Word := v &&& w.mask

theorem getLsbD_truncate (w : Width) (v : Word) (i : Nat) :
    (w.truncate v).getLsbD i = (decide (i < w.bits) && v.getLsbD i) := by
  unfold truncate mask
  rw [BitVec.getLsbD_and, Word.getLsbD_mask, Bool.and_comm]
  have := w.le
  by_cases h : i < w.bits
  · simp [h, show i < 64 by omega]
  · simp [h]

theorem truncate_truncate (w : Width) (v : Word) : w.truncate (w.truncate v) = w.truncate v := by
  apply BitVec.eq_of_getLsbD_eq
  intro i _
  rw [getLsbD_truncate, getLsbD_truncate, ← Bool.and_assoc, Bool.and_self]

def wordCount (w : Width) (count : Nat) : Except Fault Nat := do
  let bits ← Size.mul count w.bits
  return Size.ceilDiv bits 64

/-- The number of elements that reach over the first `bits` bits. -/
def elementCount (w : Width) (bits : Nat) : Nat := Size.ceilDiv bits w.bits

/-- The largest number of elements whose bits can be counted. -/
def maxSize (w : Width) : Nat := (Size.limit - 1) / w.bits

end Width

/-! ## Native widths -/

inductive Lane where
  | bits8
  | bits16
  | bits32
  | bits64
deriving DecidableEq, Repr

namespace Lane

def bytes : Lane → Nat
  | bits8 => 1
  | bits16 => 2
  | bits32 => 4
  | bits64 => 8

def bits (lane : Lane) : Nat := 8 * lane.bytes

def width : Lane → Width
  | bits8 => { bits := 8 }
  | bits16 => { bits := 16 }
  | bits32 => { bits := 32 }
  | bits64 => { bits := 64 }

/-- The largest number of integers whose bytes a signed size can count. -/
def maxSize (lane : Lane) : Nat := 0x7fff_ffff_ffff_ffff / lane.bytes

end Lane

def Width.lane? (w : Width) : Option Lane :=
  match w.bits with
  | 8 => some .bits8
  | 16 => some .bits16
  | 32 => some .bits32
  | 64 => some .bits64
  | _ => none

end NarrowVec
