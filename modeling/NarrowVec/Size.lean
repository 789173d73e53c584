import NarrowVec.Fault

/-!
# Sizes

Counts, indices and bit positions are natural numbers below `2 ^ 64`, and distances are integers
of 64 bits.  Arithmetic on them is exact: a result that does not fit is an overflow.
-/

set_option autoImplicit false

namespace NarrowVec

namespace Size

/-- The least number that is no size. -/
def limit : Nat := 0x1_0000_0000_0000_0000

def check (n : Nat) : Except Fault Nat :=
  if n < limit then .ok n else .error .overflow

def add (a b : Nat) : Except Fault Nat := check (a + b)

def mul (a b : Nat) : Except Fault Nat := check (a * b)

def sub (a b : Nat) : Except Fault Nat :=
  if b ≤ a then .ok (a - b) else .error .overflow

/-- The least number of groups of `b` that hold `a` things. -/
def ceilDiv (a b : Nat) : Nat := (a + (b - 1)) / b

theorem check_eq_ok_iff {n m : Nat} : check n = .ok m ↔ n < limit ∧ n = m := by
  unfold check
  split <;> simp [*]

theorem add_eq_ok_iff {a b c : Nat} : add a b = .ok c ↔ a + b < limit ∧ a + b = c :=
  check_eq_ok_iff

theorem add_of_lt {a b : Nat} (h : a + b < limit) : add a b = .ok (a + b) := if_pos h

theorem mul_of_lt {a b : Nat} (h : a * b < limit) : mul a b = .ok (a * b) := if_pos h

theorem sub_of_le {a b : Nat} (h : b ≤ a) : sub a b = .ok (a - b) := if_pos h

theorem add_overflow {a b : Nat} (h : ¬a + b < limit) : add a b = .error .overflow := if_neg h

theorem mul_overflow {a b : Nat} (h : ¬a * b < limit) : mul a b = .error .overflow := if_neg h

theorem ceilDiv_le_iff {a b c : Nat} (hb : 0 < b) : ceilDiv a b ≤ c ↔ a ≤ c * b := by
  unfold ceilDiv
  rw [← Nat.lt_succ_iff, Nat.div_lt_iff_lt_mul hb, Nat.succ_mul]
  omega

end Size

namespace Distance

/-- The 64 bits of a size read as a signed number, so sizes from `2 ^ 63` on become negative. -/
def ofSize (n : Nat) : Int := Int.bmod n Size.limit

def check (d : Int) : Except Fault Int :=
  if -0x8000_0000_0000_0000 ≤ d ∧ d < 0x8000_0000_0000_0000 then .ok d else .error .overflow

end Distance

end NarrowVec
