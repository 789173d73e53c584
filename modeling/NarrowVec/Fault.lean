/-!
# Faults

Why an operation is refused.  A checked access past the end is recoverable and carries its index
and the size it was checked against; the other causes are broken promises of the caller, and each
has a constructor of its own, so that a statement can say which check fires first.
-/

set_option autoImplicit false

namespace NarrowVec

structure OutOfRange where
  index : Nat
  size : Nat
deriving DecidableEq, Repr

namespace OutOfRange

def message (e : OutOfRange) : String :=
  s!"Out-of-range access: index is {e.index}, len is {e.size}"

def describe (e : OutOfRange) : String :=
  s!"OutOfRange \x7b index: {e.index}, len: {e.size} \x7d"

end OutOfRange

inductive Fault where
  | outOfRange (cause : OutOfRange)
  | offsetOutsideWord (offset : Nat)
  | widthOutsideWord (width : Nat)
  | distanceAcrossWidths
  | comparisonAcrossWidths
  | exchangeAcrossWidths
  | indexPastEnd (index size : Nat)
  | insertPastEnd (index size : Nat)
  | insertPosition
  | removePastEnd (index size : Nat)
  | swapPastEnd (i j size : Nat)
  | extentReversed (start stop : Nat)
  | extentPastEnd (stop size : Nat)
  | wordCountMismatch
  | mixedBackings
  /-- A count, position or distance does not fit in 64 bits. -/
  | overflow
  /-- A plain array access past the end. -/
  | bounds
  /-- A buffer would need more bytes than a signed 64-bit size can count. -/
  | capacity
deriving DecidableEq, Repr

def Fault.message? : Fault → Option String
  | .outOfRange cause => some cause.message
  | .offsetOutsideWord offset => some s!"bit offset {offset} outside a word"
  | .widthOutsideWord width => some s!"width {width} not in 1..=64"
  | .distanceAcrossWidths => some "distance between handles of different widths"
  | .comparisonAcrossWidths => some "compared handles of different widths"
  | .exchangeAcrossWidths => some "swapped elements of different widths"
  | .indexPastEnd index size => some s!"index {index} out of range for len {size}"
  | .insertPastEnd index size => some s!"insert position {index} out of range for len {size}"
  | .insertPosition => some "insert position out of range"
  | .removePastEnd index size => some s!"removal index {index} out of range for len {size}"
  | .swapPastEnd i j size => some s!"swap indices ({i}, {j}) out of range for len {size}"
  | .extentReversed start stop => some s!"range start {start} is past its end {stop}"
  | .extentPastEnd stop size => some s!"range end {stop} is past len {size}"
  | .mixedBackings =>
    some "internal error: entered unreachable code: the element width fixes the backing variant"
  | .wordCountMismatch | .overflow | .bounds | .capacity => none

def ensure (p : Prop) [Decidable p] (fault : Fault) : Except Fault Unit :=
  if p then .ok () else .error fault

theorem ensure_of {p : Prop} [Decidable p] {fault : Fault} (h : p) :
    ensure p fault = .ok () := if_pos h

theorem ensure_of_not {p : Prop} [Decidable p] {fault : Fault} (h : ¬p) :
    ensure p fault = .error fault := if_neg h

theorem ensure_eq_ok_iff {p : Prop} [Decidable p] {fault : Fault} :
    ensure p fault = .ok () ↔ p := by
  unfold ensure
  split <;> simp [*]

section Bind

variable {α β : Type} {x : Except Fault α} {f : α → Except Fault β}

theorem bind_of_ok {a : α} (h : x = .ok a) : (x >>= f) = f a := by
  rw [h]
  rfl

theorem bind_of_error {fault : Fault} (h : x = .error fault) : (x >>= f) = .error fault := by
  rw [h]
  rfl

theorem bind_eq_ok_iff {b : β} : (x >>= f) = .ok b ↔ ∃ a, x = .ok a ∧ f a = .ok b := by
  cases x with
  | error fault => simp [bind, Except.bind]
  | ok a => simp [bind, Except.bind]

theorem map_eq_ok_iff {g : α → β} {b : β} : (g <$> x) = .ok b ↔ ∃ a, x = .ok a ∧ g a = b := by
  cases x with
  | error fault => simp [Functor.map, Except.map]
  | ok a => simp [Functor.map, Except.map]

end Bind

end NarrowVec
