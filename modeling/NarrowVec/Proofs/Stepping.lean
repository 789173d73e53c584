import NarrowVec.Address.Lemmas

/-!
# Stepping as arithmetic of positions

A step on carries by division and a step back borrows by a case of its own, yet both are plain
arithmetic of positions: a step lands where the position says whenever its numbers fit, and
overflows otherwise.
-/

set_option autoImplicit false

namespace NarrowVec

/-! ## What can only overflow -/

def OnlyOverflows {α : Type} (x : Except Fault α) : Prop :=
  ∀ fault, x = .error fault → fault = .overflow

namespace OnlyOverflows

variable {α β : Type} {x : Except Fault α} {f : α → Except Fault β}

theorem ok {a : α} : OnlyOverflows (.ok a) := by
  intro _ herror
  cases herror

theorem bind (hx : OnlyOverflows x) (hf : ∀ a, OnlyOverflows (f a)) : OnlyOverflows (x >>= f) := by
  cases x with
  | ok a => exact hf a
  | error cause =>
      intro fault herror
      cases herror
      exact hx cause rfl

theorem error_of_not_ok (h : OnlyOverflows x) (hnot : ∀ a, x ≠ .ok a) : x = .error .overflow := by
  cases hx : x with
  | ok a => exact absurd hx (hnot a)
  | error fault => rw [h fault hx]

theorem ite_error {p : Prop} [Decidable p] {a : α} :
    OnlyOverflows (if p then .ok a else .error .overflow) := by
  intro fault herror
  split at herror
  · cases herror
  · cases herror
    rfl

theorem add {m n : Nat} : OnlyOverflows (Size.add m n) := ite_error

theorem mul {m n : Nat} : OnlyOverflows (Size.mul m n) := ite_error

theorem sub {m n : Nat} : OnlyOverflows (Size.sub m n) := ite_error

end OnlyOverflows

namespace Address

variable {a b c : Address} {step : Except Fault Address} {fits : Prop} {target count m n : Nat}

/-! ## Single steps -/

/-- The step goes to the address of the same width at `target` if its numbers fit, and overflows if
they do not. -/
structure Lands (a : Address) (step : Except Fault Address) (fits : Prop) (target : Nat) :
    Prop where
  inside : fits → ∃ b, step = .ok b ∧ b.width = a.width ∧ b.offset < 64 ∧ b.pos = target
  outside : ¬fits → step = .error .overflow

theorem lands_of_ok_iff (hok : ∀ b, step = .ok b ↔ fits ∧ b.width = a.width ∧ b.pos = target)
    (honly : OnlyOverflows step) : Lands a step fits target where
  inside hfits :=
    have hpos := pos_ofBit target a.width
    ⟨ofBit target a.width, (hok _).mpr ⟨hfits, rfl, hpos⟩, rfl, offset_lt _, hpos⟩
  outside hfits := honly.error_of_not_ok fun b hb => hfits ((hok b).mp hb).1

theorem advance_onlyOverflows (a : Address) (count : Nat) : OnlyOverflows (a.advance count) := by
  refine .bind .mul fun step => ?_
  refine .bind .add fun bits => ?_
  exact .bind .add fun _ => .ok

theorem retreat_onlyOverflows (a : Address) (count : Nat) : OnlyOverflows (a.retreat count) := by
  refine .bind .mul fun bits => ?_
  refine .bind .sub fun word => ?_
  split
  · exact .ok
  · exact .bind .sub fun _ => .ok

theorem advance_lands (a : Address) (count : Nat) : Lands a (a.advance count)
    (a.offset + count * a.width.bits < Size.limit ∧
      a.word + (a.offset + count * a.width.bits) / 64 < Size.limit)
    (a.pos + count * a.width.bits) :=
  lands_of_ok_iff (fun _ => advance_eq_ok_iff) (advance_onlyOverflows a count)

theorem retreat_lands (a : Address) (count : Nat) : Lands a (a.retreat count)
    (count * a.width.bits < Size.limit ∧ count * a.width.bits ≤ a.pos)
    (a.pos - count * a.width.bits) := by
  refine lands_of_ok_iff (fun b => ?_) (retreat_onlyOverflows a count)
  rw [retreat_eq_ok_iff]
  refine and_congr_right fun ⟨_, hle⟩ => and_congr_right fun _ => ?_
  omega

theorem move_of_nonneg {d : Int} (hd : 0 ≤ d) : a.move d = a.advance d.toNat := by
  have hcount : d.natAbs = d.toNat := by omega
  rw [move, if_pos hd, hcount]

theorem move_of_neg {d : Int} (hd : d < 0) : a.move d = a.retreat (-d).toNat := by
  have hcount : d.natAbs = (-d).toNat := by omega
  rw [move, if_neg (Int.not_le.mpr hd), hcount]

theorem natCast_neg_mul {d : Int} (hd : d < 0) (n : Nat) :
    (((-d).toNat * n : Nat) : Int) = -(d * n) := by
  rw [Int.natCast_mul, Int.toNat_of_nonneg (by omega), Int.neg_mul]

theorem pos_of_move {d : Int} (h : a.move d = .ok b) :
    b.width = a.width ∧ (b.pos : Int) = a.pos + d * a.width.bits := by
  rcases Int.lt_or_le d 0 with hd | hd
  · rw [move_of_neg hd] at h
    obtain ⟨_, hwidth, hpos⟩ := retreat_eq_ok_iff.mp h
    have hback := natCast_neg_mul hd a.width.bits
    exact ⟨hwidth, by omega⟩
  · rw [move_of_nonneg hd] at h
    obtain ⟨_, hwidth, hpos⟩ := advance_eq_ok_iff.mp h
    refine ⟨hwidth, ?_⟩
    rw [hpos, Int.natCast_add, Int.natCast_mul, Int.toNat_of_nonneg hd]

/-! ## Steps in a row -/

theorem advance_add (h : a.advance (m + n) = .ok c) :
    ∃ b, a.advance m = .ok b ∧ b.advance n = .ok c := by
  obtain ⟨⟨hbits, hword⟩, hwidth, hpos⟩ := advance_eq_ok_iff.mp h
  rw [Nat.add_mul] at hbits hword hpos
  refine ⟨ofBit (a.pos + m * a.width.bits) a.width, ?_, ?_⟩
  · exact advance_eq_ok_iff.mpr ⟨⟨by omega, by omega⟩, rfl, pos_ofBit _ _⟩
  · have hcarry : a.pos + m * a.width.bits = 64 * a.word + (a.offset + m * a.width.bits) := by
      rw [pos, Nat.add_assoc]
    -- The bits that the first step carries into the word have left the offset for the second one.
    refine advance_eq_ok_iff.mpr ⟨⟨?_, ?_⟩, hwidth, ?_⟩
    · simp only [ofBit, split]
      omega
    · simp only [ofBit, split]
      omega
    · rw [pos_ofBit, hpos, Nat.add_assoc]
      rfl

theorem retreat_add (h : a.retreat (m + n) = .ok c) :
    ∃ b, a.retreat m = .ok b ∧ b.retreat n = .ok c := by
  obtain ⟨⟨hbits, hle⟩, hwidth, hpos⟩ := retreat_eq_ok_iff.mp h
  rw [Nat.add_mul] at hbits hle hpos
  have hmid := pos_ofBit (a.pos - m * a.width.bits) a.width
  refine ⟨ofBit (a.pos - m * a.width.bits) a.width, ?_, ?_⟩
  · exact retreat_eq_ok_iff.mpr ⟨⟨by omega, by omega⟩, rfl, by omega⟩
  · have hsame : (ofBit (a.pos - m * a.width.bits) a.width).width = a.width := rfl
    refine retreat_eq_ok_iff.mpr ⟨⟨?_, ?_⟩, hwidth, ?_⟩
    · rw [hsame]
      omega
    · rw [hsame]
      omega
    · rw [hsame]
      omega

theorem retreat_of_advance (h : a.advance count = .ok b) : b.retreat count = .ok a := by
  obtain ⟨⟨hbits, _⟩, hwidth, hpos⟩ := advance_eq_ok_iff.mp h
  refine retreat_eq_ok_iff.mpr ⟨⟨?_, ?_⟩, hwidth.symm, ?_⟩
  · rw [hwidth]
    omega
  · rw [hwidth]
    omega
  · rw [hwidth, hpos]

/-- Steps from any address move its position by whole elements.  A step on fits as long as its bits
and the word it ends in are sizes, a step back as long as its bits are a size and lie before the
address, and a signed step is one of the two.  A step on can be taken in two and be taken back. -/
theorem steps_exact (a : Address) :
    (∀ count, Lands a (a.advance count)
      (a.offset + count * a.width.bits < Size.limit ∧
        a.word + (a.offset + count * a.width.bits) / 64 < Size.limit)
      (a.pos + count * a.width.bits)) ∧
    (∀ count, Lands a (a.retreat count)
      (count * a.width.bits < Size.limit ∧ count * a.width.bits ≤ a.pos)
      (a.pos - count * a.width.bits)) ∧
    (∀ d : Int, (0 ≤ d → a.move d = a.advance d.toNat) ∧
      (d < 0 → a.move d = a.retreat (-d).toNat)) ∧
    (∀ (d : Int) (b : Address), a.move d = .ok b →
      b.width = a.width ∧ (b.pos : Int) = a.pos + d * a.width.bits) ∧
    (∀ (m n : Nat) (c : Address), a.advance (m + n) = .ok c →
      ∃ b, a.advance m = .ok b ∧ b.advance n = .ok c) ∧
    ∀ (count : Nat) (b : Address), a.advance count = .ok b → b.retreat count = .ok a :=
  ⟨a.advance_lands, a.retreat_lands, fun _ => ⟨move_of_nonneg, move_of_neg⟩,
    fun _ _ => pos_of_move, fun _ _ _ => advance_add, fun _ _ => retreat_of_advance⟩

/-- Steps over the ends of words: on within the words, on past the last one, and back before the
first one by the most negative distance. -/
theorem steps_exact_at_ends :
    (∃ b, advance ⟨3, 60, { bits := 10 }, by decide⟩ 1 = .ok b ∧ b.pos = 262 ∧
      b.retreat 1 = .ok ⟨3, 60, { bits := 10 }, by decide⟩) ∧
    advance ⟨Size.limit - 1, 60, { bits := 10 }, by decide⟩ 1 = .error .overflow ∧
    move ⟨3, 60, { bits := 10 }, by decide⟩ (-0x8000_0000_0000_0000) = .error .overflow := by
  obtain ⟨hon, hback, hmove, _, _, hundo⟩ := steps_exact ⟨3, 60, { bits := 10 }, by decide⟩
  obtain ⟨hlast, _⟩ := steps_exact ⟨Size.limit - 1, 60, { bits := 10 }, by decide⟩
  obtain ⟨b, hb, _, _, hpos⟩ := (hon 1).inside (by decide)
  refine ⟨⟨b, hb, hpos, hundo 1 b hb⟩, (hlast 1).outside (by decide), ?_⟩
  rw [(hmove _).2 (by decide)]
  exact (hback _).outside (by decide)

end Address

end NarrowVec
