import NarrowVec.Extent

/-!
# Extents in unbounded arithmetic

The ends of an extent are numbers that need not be sizes.  An extent is refused when an end is no
size because the index it names is the last one, when the ends are reversed, or when the extent
ends past the sequence, in this order.
-/

set_option autoImplicit false

namespace NarrowVec

namespace Endpoint

def lower : Endpoint → Nat
  | unbounded => 0
  | included index => index
  | excluded index => index + 1

def upper (size : Nat) : Endpoint → Nat
  | unbounded => size
  | included index => index + 1
  | excluded index => index

/-- A start that steps over its index does not step over the last size. -/
def FirstFits : Endpoint → Prop
  | excluded index => index + 1 < Size.limit
  | _ => True

def PastFits : Endpoint → Prop
  | included index => index + 1 < Size.limit
  | _ => True

instance : ∀ e : Endpoint, Decidable e.FirstFits
  | unbounded => .isTrue trivial
  | included _ => .isTrue trivial
  | excluded index => inferInstanceAs (Decidable (index + 1 < Size.limit))

instance : ∀ e : Endpoint, Decidable e.PastFits
  | unbounded => .isTrue trivial
  | included index => inferInstanceAs (Decidable (index + 1 < Size.limit))
  | excluded _ => .isTrue trivial

variable {e : Endpoint} {size : Nat}

theorem first_of_fits (h : e.FirstFits) : e.first = .ok e.lower := by
  cases e with
  | unbounded => rfl
  | included index => rfl
  | excluded index => exact Size.add_of_lt h

theorem first_of_not_fits (h : ¬e.FirstFits) : e.first = .error .overflow := by
  cases e with
  | unbounded => exact absurd trivial h
  | included index => exact absurd trivial h
  | excluded index => exact if_neg h

theorem past_of_fits (h : e.PastFits) : e.past size = .ok (e.upper size) := by
  cases e with
  | unbounded => rfl
  | included index => exact Size.add_of_lt h
  | excluded index => rfl

theorem past_of_not_fits (h : ¬e.PastFits) : e.past size = .error .overflow := by
  cases e with
  | unbounded => exact absurd trivial h
  | included index => exact if_neg h
  | excluded index => exact absurd trivial h

theorem firstFits_of_lower_lt (h : e.lower < Size.limit) : e.FirstFits := by
  cases e with
  | unbounded => trivial
  | included index => trivial
  | excluded index => exact h

theorem pastFits_of_upper_lt (h : e.upper size < Size.limit) : e.PastFits := by
  cases e with
  | unbounded => trivial
  | included index => exact h
  | excluded index => trivial

def Sized : Endpoint → Prop
  | unbounded => True
  | included index => index < Size.limit
  | excluded index => index < Size.limit

instance : ∀ e : Endpoint, Decidable e.Sized
  | unbounded => .isTrue trivial
  | included index => inferInstanceAs (Decidable (index < Size.limit))
  | excluded index => inferInstanceAs (Decidable (index < Size.limit))

theorem not_firstFits_iff (h : e.Sized) : ¬e.FirstFits ↔ e = excluded (Size.limit - 1) := by
  cases e with
  | unbounded | included _ => simp [FirstFits]
  | excluded index =>
      have hlt : index < Size.limit := h
      simp only [FirstFits, excluded.injEq]
      omega

theorem not_pastFits_iff (h : e.Sized) : ¬e.PastFits ↔ e = included (Size.limit - 1) := by
  cases e with
  | unbounded | excluded _ => simp [PastFits]
  | included index =>
      have hlt : index < Size.limit := h
      simp only [PastFits, included.injEq]
      omega

theorem before_iff {i : Nat} : e.Before i ↔ e.lower ≤ i := by
  cases e with
  | unbounded => exact ⟨fun _ => Nat.zero_le i, fun _ => trivial⟩
  | included index => exact Iff.rfl
  | excluded index => exact Nat.succ_le_iff.symm

theorem after_iff {i : Nat} (hi : i < size) : e.After i ↔ i < e.upper size := by
  cases e with
  | unbounded => exact ⟨fun _ => hi, fun _ => trivial⟩
  | included index => exact Nat.lt_succ_iff.symm
  | excluded index => exact Iff.rfl

end Endpoint

namespace Extent

variable {e : Extent} {size : Nat}

def lower (e : Extent) : Nat := e.start.lower

def upper (e : Extent) (size : Nat) : Nat := e.stop.upper size

/-- The fault for which an extent is refused in a sequence of `size` elements. -/
def refusal (e : Extent) (size : Nat) : Option Fault :=
  if ¬(e.start.FirstFits ∧ e.stop.PastFits) then some .overflow
  else if ¬e.lower ≤ e.upper size then some (.extentReversed e.lower (e.upper size))
  else if ¬e.upper size ≤ size then some (.extentPastEnd (e.upper size) size)
  else none

theorem resolve_eq (e : Extent) (size : Nat) : e.resolve size =
    match e.refusal size with
    | some fault => .error fault
    | none => .ok ⟨e.lower, e.upper size⟩ := by
  simp only [resolve, refusal]
  by_cases hfirst : e.start.FirstFits
  · have hstart : e.start.first = .ok e.lower := Endpoint.first_of_fits hfirst
    rw [bind_of_ok hstart]
    by_cases hpast : e.stop.PastFits
    · have hstop : e.stop.past size = .ok (e.upper size) := Endpoint.past_of_fits hpast
      rw [bind_of_ok hstop, if_neg (not_not_intro ⟨hfirst, hpast⟩)]
      by_cases hle : e.lower ≤ e.upper size
      · rw [bind_of_ok (ensure_of hle), if_neg (not_not_intro hle)]
        by_cases hend : e.upper size ≤ size
        · rw [bind_of_ok (ensure_of hend), if_neg (not_not_intro hend)]
          rfl
        · rw [if_pos hend]
          exact bind_of_error (ensure_of_not hend)
      · rw [if_pos hle]
        exact bind_of_error (ensure_of_not hle)
    · rw [if_pos fun h => hpast h.2]
      exact bind_of_error (Endpoint.past_of_not_fits hpast)
  · rw [if_pos fun h => hfirst h.1]
    exact bind_of_error (Endpoint.first_of_not_fits hfirst)

theorem resolve_of_refusal {fault : Fault} (h : e.refusal size = some fault) :
    e.resolve size = .error fault := by
  rw [resolve_eq, h]

theorem resolve_of_not_refusal (h : e.refusal size = none) :
    e.resolve size = .ok ⟨e.lower, e.upper size⟩ := by
  rw [resolve_eq, h]

theorem refusal_eq_none_iff (hsize : size < Size.limit) :
    e.refusal size = none ↔ e.lower ≤ e.upper size ∧ e.upper size ≤ size := by
  simp only [refusal]
  constructor
  · intro h
    split at h
    · cases h
    · split at h
      · cases h
      · split at h
        · cases h
        · rename_i _ hle hend
          exact ⟨Decidable.not_not.mp hle, Decidable.not_not.mp hend⟩
  · rintro ⟨hle, hend⟩
    have hfits : e.start.FirstFits ∧ e.stop.PastFits :=
      ⟨Endpoint.firstFits_of_lower_lt (Nat.lt_of_le_of_lt (Nat.le_trans hle hend) hsize),
        Endpoint.pastFits_of_upper_lt (Nat.lt_of_le_of_lt hend hsize)⟩
    rw [if_neg (not_not_intro hfits), if_neg (not_not_intro hle), if_neg (not_not_intro hend)]

/-- Among the indices of a sequence, those of an extent lie between its ends. -/
theorem mem_iff {i : Nat} (hi : i < size) : i ∈ e ↔ e.lower ≤ i ∧ i < e.upper size :=
  and_congr Endpoint.before_iff (Endpoint.after_iff hi)

/-! ## Refusals of extents of sizes -/

def Sized (e : Extent) : Prop := e.start.Sized ∧ e.stop.Sized

instance (e : Extent) : Decidable e.Sized := inferInstanceAs (Decidable (_ ∧ _))

/-- The extent steps over the last size. -/
def Overflows (e : Extent) : Prop :=
  e.start = .excluded (Size.limit - 1) ∨ e.stop = .included (Size.limit - 1)

instance (e : Extent) : Decidable e.Overflows := inferInstanceAs (Decidable (_ ∨ _))

theorem refusal_of_sized (h : e.Sized) (size : Nat) : e.refusal size =
    if e.Overflows then some .overflow
    else if e.upper size < e.lower then some (.extentReversed e.lower (e.upper size))
    else if size < e.upper size then some (.extentPastEnd (e.upper size) size)
    else none := by
  have hover : ¬(e.start.FirstFits ∧ e.stop.PastFits) ↔ e.Overflows := by
    rw [Overflows, Decidable.not_and_iff_not_or_not, Endpoint.not_firstFits_iff h.1,
      Endpoint.not_pastFits_iff h.2]
  simp only [refusal, hover, Nat.not_le]

end Extent

end NarrowVec
