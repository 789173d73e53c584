import NarrowVec.Address

/-!
# Positions of addresses

Stepping is carried out on words and offsets; seen through `Address.pos` it is plain addition and
subtraction.
-/

set_option autoImplicit false

namespace NarrowVec.Address

/-- Stepping on succeeds as long as the counts fit and moves the position by whole elements. -/
theorem advance_eq_ok_iff {a b : Address} {count : Nat} : a.advance count = .ok b ↔
    (a.offset + count * a.width.bits < Size.limit ∧
      a.word + (a.offset + count * a.width.bits) / 64 < Size.limit) ∧
      b.width = a.width ∧ b.pos = a.pos + count * a.width.bits := by
  unfold advance Size.mul Size.add Size.check
  simp only [bind, Except.bind, pure, Except.pure]
  generalize hstep : count * a.width.bits = step
  have hoff := a.offset_lt
  by_cases hs : step < Size.limit
  · rw [if_pos hs]
    simp only
    by_cases hb : a.offset + step < Size.limit
    · rw [if_pos hb]
      simp only
      by_cases hw : a.word + (a.offset + step) / 64 < Size.limit
      · rw [if_pos hw]
        simp only [hb, hw, and_self, true_and, Except.ok.injEq]
        constructor
        · rintro rfl
          refine ⟨rfl, ?_⟩
          simp only [pos]
          omega
        · rintro ⟨hwidth, hpos⟩
          refine eq_of_pos_eq hwidth.symm ?_
          rw [hpos]
          simp only [pos]
          omega
      · rw [if_neg hw]
        simp [hw]
    · rw [if_neg hb]
      simp [hb]
  · rw [if_neg hs]
    have hb : ¬a.offset + step < Size.limit := by omega
    simp [hb]

/-- Stepping back succeeds as long as there are that many bits before the position. -/
theorem retreat_eq_ok_iff {a b : Address} {count : Nat} : a.retreat count = .ok b ↔
    (count * a.width.bits < Size.limit ∧ count * a.width.bits ≤ a.pos) ∧
      b.width = a.width ∧ b.pos + count * a.width.bits = a.pos := by
  unfold retreat Size.mul Size.sub Size.check
  simp only [bind, Except.bind, pure, Except.pure]
  generalize hstep : count * a.width.bits = step
  have hoff := a.offset_lt
  by_cases hs : step < Size.limit
  · rw [if_pos hs]
    simp only [hs, true_and]
    by_cases hw : step / 64 ≤ a.word
    · rw [if_pos hw]
      simp only
      by_cases hborrow : step % 64 ≤ a.offset
      · rw [dif_pos hborrow]
        simp only [Except.ok.injEq]
        constructor
        · rintro rfl
          refine ⟨?_, rfl, ?_⟩
          · simp only [pos]
            omega
          · simp only [pos]
            omega
        · rintro ⟨_, hwidth, hpos⟩
          refine eq_of_pos_eq hwidth.symm ?_
          simp only [pos] at hpos ⊢
          omega
      · rw [dif_neg hborrow]
        by_cases hone : 1 ≤ a.word - step / 64
        · rw [if_pos hone]
          simp only [Except.ok.injEq]
          constructor
          · rintro rfl
            refine ⟨?_, rfl, ?_⟩
            · simp only [pos]
              omega
            · simp only [pos]
              omega
          · rintro ⟨_, hwidth, hpos⟩
            refine eq_of_pos_eq hwidth.symm ?_
            simp only [pos] at hpos ⊢
            omega
        · rw [if_neg hone]
          simp only [reduceCtorEq, false_iff]
          rintro ⟨hle, _, _⟩
          simp only [pos] at hle
          omega
    · rw [if_neg hw]
      simp only [reduceCtorEq, false_iff]
      rintro ⟨hle, _, _⟩
      simp only [pos] at hle
      omega
  · rw [if_neg hs]
    simp [hs]

end NarrowVec.Address
