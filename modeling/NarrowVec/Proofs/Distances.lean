import NarrowVec.Proofs.Stepping

/-!
# Distances between addresses

A distance is taken between positions whose words are read as signed numbers.  Two words in the
same half of the sizes are read alike and their distance is exact or refused.  Words of different
halves are read `2 ^ 64` closer to each other than they are, on the other side of each other, and
where this makes them near enough, the distance has the wrong sign.
-/

set_option autoImplicit false

namespace NarrowVec

/-! ## Sizes read as signed numbers -/

namespace Distance

variable {n : Nat} {d e : Int}

theorem ofSize_of_lt (h : n < 0x8000_0000_0000_0000) : ofSize n = n := by
  apply Int.bmod_eq_of_le
  · unfold Size.limit
    omega
  · unfold Size.limit
    omega

theorem ofSize_of_ge (hge : 0x8000_0000_0000_0000 ≤ n) (hlt : n < Size.limit) :
    ofSize n = n - Size.limit := by
  unfold Size.limit at hlt
  refine (Int.bmod_eq_iff (by decide)).mpr ⟨?_, ?_, ?_⟩
  · unfold Size.limit
    omega
  · unfold Size.limit
    omega
  · exact ⟨-1, by omega⟩

theorem check_eq_ok_iff : check d = .ok e ↔
    (-0x8000_0000_0000_0000 ≤ d ∧ d < 0x8000_0000_0000_0000) ∧ d = e := by
  unfold check
  split <;> simp [*]

end Distance

theorem OnlyOverflows.check {d : Int} : OnlyOverflows (Distance.check d) := ite_error

namespace Address

variable {a b : Address} {q : Int}

/-! ## Success of a distance -/

/-- The position with the word read as a signed number. -/
def signedPos (a : Address) : Int := 64 * Distance.ofSize a.word + a.offset

/-- The words as they are read, and the bits between the addresses, can be counted. -/
def Near (a b : Address) : Prop :=
  (-0x200_0000_0000_0000 ≤ Distance.ofSize a.word - Distance.ofSize b.word ∧
    Distance.ofSize a.word - Distance.ofSize b.word < 0x200_0000_0000_0000) ∧
  -0x8000_0000_0000_0000 ≤ a.signedPos - b.signedPos

theorem distance_eq_ok_iff (hwidth : a.width = b.width) : a.distance b = .ok q ↔
    Near a b ∧ q = (a.signedPos - b.signedPos).tdiv a.width.bits := by
  have hoff := a.offset_lt
  have hoff' := b.offset_lt
  unfold distance Near signedPos
  rw [bind_of_ok (ensure_of hwidth)]
  -- Only the difference of the words as they are read matters to the checks.
  generalize Distance.ofSize a.word = x
  generalize Distance.ofSize b.word = y
  constructor
  · intro h
    obtain ⟨words, hwords, h⟩ := bind_eq_ok_iff.mp h
    obtain ⟨base, hbase, h⟩ := bind_eq_ok_iff.mp h
    obtain ⟨reach, hreach, h⟩ := bind_eq_ok_iff.mp h
    obtain ⟨bits, hbits, h⟩ := bind_eq_ok_iff.mp h
    obtain ⟨_, hwords⟩ := Distance.check_eq_ok_iff.mp hwords
    obtain ⟨_, hbase⟩ := Distance.check_eq_ok_iff.mp hbase
    obtain ⟨_, hreach⟩ := Distance.check_eq_ok_iff.mp hreach
    obtain ⟨_, hbits⟩ := Distance.check_eq_ok_iff.mp hbits
    have hq : bits.tdiv a.width.bits = q := Except.ok.inj h
    refine ⟨⟨by omega, by omega⟩, ?_⟩
    rw [← hq]
    congr 1
    omega
  · rintro ⟨⟨hwords, hbits⟩, rfl⟩
    refine bind_eq_ok_iff.mpr ⟨_, Distance.check_eq_ok_iff.mpr ⟨by omega, rfl⟩, ?_⟩
    refine bind_eq_ok_iff.mpr ⟨_, Distance.check_eq_ok_iff.mpr ⟨by omega, rfl⟩, ?_⟩
    refine bind_eq_ok_iff.mpr ⟨_, Distance.check_eq_ok_iff.mpr ⟨by omega, rfl⟩, ?_⟩
    refine bind_eq_ok_iff.mpr ⟨_, Distance.check_eq_ok_iff.mpr ⟨by omega, rfl⟩, ?_⟩
    refine congrArg (fun bits : Int => Except.ok (bits.tdiv a.width.bits)) ?_
    omega

theorem distance_onlyOverflows (hwidth : a.width = b.width) : OnlyOverflows (a.distance b) := by
  unfold distance
  rw [bind_of_ok (ensure_of hwidth)]
  refine .bind .check fun words => ?_
  refine .bind .check fun base => ?_
  refine .bind .check fun reach => ?_
  exact .bind .check fun _ => .ok

theorem distance_eq_overflow_iff (hwidth : a.width = b.width) :
    a.distance b = .error .overflow ↔ ¬Near a b := by
  constructor
  · intro herror hnear
    cases herror.symm.trans ((distance_eq_ok_iff hwidth).mpr ⟨hnear, rfl⟩)
  · intro hfar
    exact (distance_onlyOverflows hwidth).error_of_not_ok fun _ hok =>
      hfar ((distance_eq_ok_iff hwidth).mp hok).1

/-! ## Signed positions and positions -/

def SameHalf (a b : Address) : Prop :=
  a.word < 0x8000_0000_0000_0000 ↔ b.word < 0x8000_0000_0000_0000

instance (a b : Address) : Decidable (SameHalf a b) := inferInstanceAs (Decidable (_ ↔ _))

theorem signedPos_of_lt (h : a.word < 0x8000_0000_0000_0000) : a.signedPos = a.pos := by
  rw [signedPos, Distance.ofSize_of_lt h, pos]
  omega

theorem signedPos_of_ge (hge : ¬a.word < 0x8000_0000_0000_0000) (hlt : a.word < Size.limit) :
    a.signedPos = a.pos - 64 * Size.limit := by
  rw [signedPos, Distance.ofSize_of_ge (Nat.not_lt.mp hge) hlt, pos]
  omega

theorem pos_lt (h : a.word < Size.limit) : a.pos < 64 * Size.limit := by
  have hoff := a.offset_lt
  unfold pos
  omega

theorem signedPos_sub_of_sameHalf (h : SameHalf a b) (ha : a.word < Size.limit)
    (hb : b.word < Size.limit) : a.signedPos - b.signedPos = a.pos - b.pos := by
  by_cases hlow : a.word < 0x8000_0000_0000_0000
  · rw [signedPos_of_lt hlow, signedPos_of_lt (h.mp hlow)]
  · rw [signedPos_of_ge hlow ha, signedPos_of_ge (fun hlow' => hlow (h.mpr hlow')) hb]
    omega

/-! ## The sign of a distance -/

theorem compare_eq (hwidth : a.width = b.width) :
    a.compare b = .ok (Ord.compare a.pos b.pos) := by
  have hoff := a.offset_lt
  have hoff' := b.offset_lt
  unfold compare pos
  rw [bind_of_ok (ensure_of hwidth)]
  refine congrArg Except.ok ?_
  rcases Nat.lt_trichotomy a.word b.word with hword | hword | hword
  · have hpos : 64 * a.word + a.offset < 64 * b.word + b.offset := by omega
    rw [Nat.compare_eq_lt.mpr hword, Nat.compare_eq_lt.mpr hpos]
    rfl
  · rw [Nat.compare_eq_eq.mpr hword, hword, Nat.compare_eq_ite_lt, Nat.compare_eq_ite_lt]
    simp only [Nat.add_lt_add_iff_left]
    rfl
  · have hpos : 64 * b.word + b.offset < 64 * a.word + a.offset := by omega
    rw [Nat.compare_eq_gt.mpr hword, Nat.compare_eq_gt.mpr hpos]
    rfl

theorem tdiv_nonpos {d : Int} (w : Width) (h : d ≤ 0) : d.tdiv w.bits ≤ 0 := by
  have hneg := Int.tdiv_nonneg (Int.neg_nonneg_of_nonpos h) (Int.natCast_nonneg w.bits)
  rw [Int.neg_tdiv] at hneg
  omega

theorem tdiv_pos {d : Int} {w : Width} (h : w.bits ≤ d) : 0 < d.tdiv w.bits := by
  have hw : (0 : Int) < w.bits := Int.natCast_pos.mpr w.pos
  rw [Int.tdiv_eq_ediv_of_nonneg (Int.le_trans (Int.le_of_lt hw) h)]
  exact (Int.le_ediv_iff_mul_le hw).mpr (by omega)

/-- The number of elements from `origin` to `a` in unbounded arithmetic, rounded toward zero. -/
def exactDistance (a origin : Address) : Int :=
  ((a.pos : Int) - origin.pos).tdiv a.width.bits

theorem compare_of_exactDistance_neg (hwidth : a.width = b.width) (h : a.exactDistance b < 0) :
    a.compare b = .ok .lt := by
  have hlt : (a.pos : Int) - b.pos < 0 := Int.not_le.mp fun hge =>
    Int.not_lt.mpr (Int.tdiv_nonneg hge (Int.natCast_nonneg _)) h
  rw [compare_eq hwidth, Nat.compare_eq_lt.mpr (by omega)]

theorem compare_of_exactDistance_pos (hwidth : a.width = b.width) (h : 0 < a.exactDistance b) :
    a.compare b = .ok .gt := by
  have hgt : 0 < (a.pos : Int) - b.pos := Int.not_le.mp fun hle =>
    Int.not_lt.mpr (tdiv_nonpos a.width hle) h
  rw [compare_eq hwidth, Nat.compare_eq_gt.mpr (by omega)]

/-! ## Distances within and across the halves -/

theorem distance_eq_exactDistance (hwidth : a.width = b.width) (hhalf : SameHalf a b)
    (ha : a.word < Size.limit) (hb : b.word < Size.limit) (h : a.distance b = .ok q) :
    q = a.exactDistance b := by
  rw [((distance_eq_ok_iff hwidth).mp h).2, signedPos_sub_of_sameHalf hhalf ha hb, exactDistance]

theorem Near.lt (h : Near a b) : a.signedPos - b.signedPos < 0x8000_0000_0000_0040 := by
  have hoff := a.offset_lt
  have hwords := h.1.2
  unfold signedPos
  omega

/-- A distance across the halves has the sign of the way around the last word. -/
theorem distance_across_halves (hwidth : a.width = b.width) (hhalf : ¬SameHalf a b)
    (ha : a.word < Size.limit) (hb : b.word < Size.limit) (h : a.distance b = .ok q) :
    0 < a.exactDistance b ∧ q ≤ 0 ∨ a.exactDistance b < 0 ∧ 0 ≤ q := by
  obtain ⟨hnear, hq⟩ := (distance_eq_ok_iff hwidth).mp h
  have hge := hnear.2
  have hlt := hnear.lt
  have hw := a.width.le
  have hpos := pos_lt ha
  have hpos' := pos_lt hb
  unfold Size.limit at hpos hpos'
  rw [hq, exactDistance]
  by_cases hlow : a.word < 0x8000_0000_0000_0000
  · have hhigh : ¬b.word < 0x8000_0000_0000_0000 := fun hlow' =>
      hhalf ⟨fun _ => hlow', fun _ => hlow⟩
    -- Only the word of `b` is read as a negative number, so `a` seems to come after `b`.
    rw [signedPos_of_lt hlow, signedPos_of_ge hhigh hb] at hge hlt ⊢
    unfold Size.limit at hge hlt ⊢
    right
    constructor
    · have hback : 0 < (-((a.pos : Int) - b.pos)).tdiv a.width.bits := tdiv_pos (by omega)
      rw [Int.neg_tdiv] at hback
      omega
    · exact Int.tdiv_nonneg (by omega) (Int.natCast_nonneg _)
  · have hlow' : b.word < 0x8000_0000_0000_0000 := Decidable.byContradiction fun hhigh =>
      hhalf ⟨fun h => absurd h hlow, fun h => absurd h hhigh⟩
    -- Only the word of `a` is, and `a` seems to come before `b`.
    rw [signedPos_of_ge hlow ha, signedPos_of_lt hlow'] at hge hlt ⊢
    unfold Size.limit at hge hlt ⊢
    left
    constructor
    · exact tdiv_pos (by omega)
    · exact tdiv_nonpos _ (by omega)

def Truthful (a origin : Address) : Prop :=
  a.distance origin = .error .overflow ∨ a.distance origin = .ok (a.exactDistance origin)

theorem truthful_iff (hwidth : a.width = b.width) (ha : a.word < Size.limit)
    (hb : b.word < Size.limit) : Truthful a b ↔ SameHalf a b ∨ ¬Near a b := by
  constructor
  · rintro (herror | hok)
    · exact .inr ((distance_eq_overflow_iff hwidth).mp herror)
    · refine .inl (Decidable.byContradiction fun hhalf => ?_)
      rcases distance_across_halves hwidth hhalf ha hb hok with hsigns | hsigns
      · omega
      · omega
  · by_cases hnear : Near a b
    · intro h
      have hhalf := h.resolve_right (not_not_intro hnear)
      have hok := (distance_eq_ok_iff hwidth).mpr ⟨hnear, rfl⟩
      exact .inr (hok.trans (congrArg _ (distance_eq_exactDistance hwidth hhalf ha hb hok)))
    · exact fun _ => .inl ((distance_eq_overflow_iff hwidth).mpr hnear)

/-- Between words of one half, the distance is the exact number of elements or it is refused, and
its sign agrees with the order.  Across the halves a distance that is not refused is never exact,
and its sign is never the one of the order.  It is refused where the words are not near as they are
read. -/
theorem distance_truthful_within_halves (a b : Address) (hwidth : a.width = b.width)
    (ha : a.word < Size.limit) (hb : b.word < Size.limit) :
    (Truthful a b ↔ SameHalf a b ∨ ¬Near a b) ∧
    (a.distance b = .error .overflow ↔ ¬Near a b) ∧
    (∀ q, a.distance b = .ok q → SameHalf a b →
      (q < 0 → a.compare b = .ok .lt) ∧ (0 < q → a.compare b = .ok .gt)) ∧
    ∀ q, a.distance b = .ok q → ¬SameHalf a b →
      a.compare b = .ok .gt ∧ q ≤ 0 ∨ a.compare b = .ok .lt ∧ 0 ≤ q := by
  refine ⟨truthful_iff hwidth ha hb, distance_eq_overflow_iff hwidth, ?_, ?_⟩
  · intro q hok hhalf
    rw [distance_eq_exactDistance hwidth hhalf ha hb hok]
    exact ⟨compare_of_exactDistance_neg hwidth, compare_of_exactDistance_pos hwidth⟩
  · intro q hok hhalf
    rcases distance_across_halves hwidth hhalf ha hb hok with ⟨hsign, hq⟩ | ⟨hsign, hq⟩
    · exact .inl ⟨compare_of_exactDistance_pos hwidth hsign, hq⟩
    · exact .inr ⟨compare_of_exactDistance_neg hwidth hsign, hq⟩

theorem distance_truthful_in_upper_half :
    Truthful ⟨0x8000_0000_0000_0001, 5, { bits := 5 }, by decide⟩
      ⟨0x8000_0000_0000_0000, 60, { bits := 5 }, by decide⟩ := by
  obtain ⟨htruthful, _⟩ := distance_truthful_within_halves
    ⟨0x8000_0000_0000_0001, 5, { bits := 5 }, by decide⟩
    ⟨0x8000_0000_0000_0000, 60, { bits := 5 }, by decide⟩ rfl (by decide) (by decide)
  exact htruthful.mpr (.inl (by decide))

def inFirstWord : Address := ⟨0, 0, { bits := 5 }, Nat.succ_pos 63⟩

def inLastWord : Address := ⟨Size.limit - 1, 0, { bits := 5 }, Nat.succ_pos 63⟩

/-- The last word is read as `-1`, so its elements seem to come before those of the first word. -/
theorem distance_of_last_word :
    inLastWord.distance inFirstWord = .ok (-12) ∧ inLastWord.compare inFirstWord = .ok .gt ∧
      inFirstWord.distance inLastWord = .ok 12 ∧ inFirstWord.compare inLastWord = .ok .lt ∧
      ¬Truthful inLastWord inFirstWord := by
  have hback : inLastWord.distance inFirstWord = .ok (-12) := by
    unfold inLastWord inFirstWord
    rfl
  have hon : inFirstWord.distance inLastWord = .ok 12 := by
    unfold inLastWord inFirstWord
    rfl
  refine ⟨hback, rfl, hon, rfl, ?_⟩
  rintro (herror | hok)
  · cases hback.symm.trans herror
  · have hexact : -12 = inLastWord.exactDistance inFirstWord :=
      Except.ok.inj (hback.symm.trans hok)
    exact absurd hexact (by decide)

end Address

end NarrowVec
