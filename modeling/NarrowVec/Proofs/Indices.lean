import NarrowVec.Proofs.Counts
import NarrowVec.Proofs.Distances

/-!
# Addresses as indices

Addresses that are whole elements apart lie on one grid, and whatever is asked of two of them is
answered by their indices: which comes first, how far apart they are, and how to get from one to
the other.  This holds for all positions that a signed number can count.  On the grid of a store,
the address that multiplication finds for an index is the one that a loop has reached when it has
taken as many single steps.
-/

set_option autoImplicit false

namespace NarrowVec

namespace Address

variable {a b p q : Address} {d : Int} {i j n : Nat}

/-! ## Single steps -/

/-- The address `count` steps of one element on. -/
def walkUp (a : Address) : Nat → Except Fault Address
  | 0 => return a
  | count + 1 => do
    let next ← a.advance 1
    walkUp next count

def walkDown (a : Address) : Nat → Except Fault Address
  | 0 => return a
  | count + 1 => do
    let previous ← a.retreat 1
    walkDown previous count

theorem walkUp_of_advance (n : Nat) :
    ∀ {a : Address}, a.advance n = .ok b → a.walkUp n = .ok b := by
  induction n with
  | zero =>
      intro a h
      obtain ⟨_, hwidth, hpos⟩ := advance_eq_ok_iff.mp h
      rw [Nat.zero_mul] at hpos
      rw [eq_of_pos_eq hwidth hpos]
      rfl
  | succ n ih =>
      intro a h
      rw [Nat.add_comm] at h
      obtain ⟨next, hnext, hrest⟩ := advance_add h
      exact (bind_of_ok hnext).trans (ih hrest)

theorem walkDown_of_retreat (n : Nat) :
    ∀ {a : Address}, a.retreat n = .ok b → a.walkDown n = .ok b := by
  induction n with
  | zero =>
      intro a h
      obtain ⟨_, hwidth, hpos⟩ := retreat_eq_ok_iff.mp h
      rw [Nat.zero_mul] at hpos
      rw [eq_of_pos_eq hwidth hpos]
      rfl
  | succ n ih =>
      intro a h
      rw [Nat.add_comm] at h
      obtain ⟨previous, hprevious, hrest⟩ := retreat_add h
      exact (bind_of_ok hprevious).trans (ih hrest)

/-! ## Positions that a signed number can count -/

def Signed (a : Address) : Prop := a.pos < 0x8000_0000_0000_0000

theorem Signed.word_lt (h : a.Signed) : a.word < 0x200_0000_0000_0000 := by
  unfold Signed pos at h
  omega

theorem Signed.signedPos (h : a.Signed) : a.signedPos = a.pos := by
  have hword := h.word_lt
  exact signedPos_of_lt (by omega)

theorem Signed.near (ha : a.Signed) (hb : b.Signed) : Near a b := by
  have hword := ha.word_lt
  have hword' := hb.word_lt
  refine ⟨?_, ?_⟩
  · rw [Distance.ofSize_of_lt (by omega), Distance.ofSize_of_lt (by omega)]
    omega
  · rw [ha.signedPos, hb.signedPos]
    unfold Signed at hb
    omega

theorem distance_of_signed (hwidth : a.width = b.width) (ha : a.Signed) (hb : b.Signed) :
    a.distance b = .ok (a.exactDistance b) := by
  refine (distance_eq_ok_iff hwidth).mpr ⟨ha.near hb, ?_⟩
  rw [exactDistance, ha.signedPos, hb.signedPos]

/-- A step on lands as long as its position can be counted: neither the product nor the carry of it
can be larger. -/
theorem advance_of_signed (h : a.pos + n * a.width.bits < 0x8000_0000_0000_0000) :
    ∃ b, a.advance n = .ok b ∧ b.width = a.width ∧ b.pos = a.pos + n * a.width.bits ∧
      b.Signed := by
  have hpos : a.pos = 64 * a.word + a.offset := rfl
  obtain ⟨b, hadvance, hwidth, _, hb⟩ := (a.advance_lands n).inside (by
    unfold Size.limit
    omega)
  refine ⟨b, hadvance, hwidth, hb, ?_⟩
  unfold Signed
  omega

theorem move_of_pos_eq (hwidth : b.width = a.width) (ha : a.Signed) (hb : b.Signed)
    (hpos : (b.pos : Int) = a.pos + d * a.width.bits) : a.move d = .ok b := by
  have hlow := ha.word_lt
  have hoff := a.offset_lt
  unfold Signed at ha hb
  rcases Int.lt_or_le d 0 with hd | hd
  · have hback := natCast_neg_mul hd a.width.bits
    rw [move_of_neg hd]
    refine retreat_eq_ok_iff.mpr ⟨⟨?_, ?_⟩, hwidth, ?_⟩
    · unfold Size.limit
      omega
    · omega
    · omega
  · have hon : ((d.toNat * a.width.bits : Nat) : Int) = d * a.width.bits := by
      rw [Int.natCast_mul, Int.toNat_of_nonneg hd]
    have hsplit : a.pos = 64 * a.word + a.offset := rfl
    rw [move_of_nonneg hd]
    refine advance_eq_ok_iff.mpr ⟨⟨?_, ?_⟩, hwidth, ?_⟩
    · unfold Size.limit
      omega
    · unfold Size.limit
      omega
    · omega

/-! ## Indices -/

theorem equal_eq (hwidth : a.width = b.width) : a.equal b = .ok (decide (a.pos = b.pos)) := by
  have hoff := a.offset_lt
  have hoff' := b.offset_lt
  have hparts : a.word = b.word ∧ a.offset = b.offset ↔ a.pos = b.pos := by
    unfold pos
    omega
  unfold equal
  rw [bind_of_ok (ensure_of hwidth)]
  simp only [hparts]
  rfl

theorem compare_add_mul {k : Nat} (hk : 0 < k) (s i j : Nat) :
    Ord.compare (s + i * k) (s + j * k) = Ord.compare i j := by
  rcases Nat.lt_trichotomy i j with hij | rfl | hij
  · have hmul : i * k < j * k := Nat.mul_lt_mul_of_pos_right hij hk
    rw [Nat.compare_eq_lt.mpr hij, Nat.compare_eq_lt.mpr (by omega)]
  · rw [Nat.compare_eq_eq.mpr rfl, Nat.compare_eq_eq.mpr rfl]
  · have hmul : j * k < i * k := Nat.mul_lt_mul_of_pos_right hij hk
    rw [Nat.compare_eq_gt.mpr hij, Nat.compare_eq_gt.mpr (by omega)]

/-- What is asked of the two addresses is answered by the indices `i` and `j`. -/
structure Indexed (p q : Address) (i j : Nat) : Prop where
  order : p.compare q = .ok (Ord.compare i j)
  equal : p.equal q = .ok (decide (i = j))
  distance : p.distance q = .ok ((i : Int) - j)
  back : (p.distance q >>= q.move) = .ok p

theorem indexed_of_pos_eq {s : Nat} (hwidth : p.width = q.width) (hp : p.Signed) (hq : q.Signed)
    (hi : p.pos = s + i * q.width.bits) (hj : q.pos = s + j * q.width.bits) : Indexed p q i j := by
  have hbits := q.width.pos
  have hreach : (p.pos : Int) - q.pos = (i - j) * q.width.bits := by
    rw [hi, hj, Int.sub_mul, Int.natCast_add, Int.natCast_add, Int.natCast_mul, Int.natCast_mul]
    omega
  have hdistance : p.distance q = .ok ((i : Int) - j) := by
    rw [distance_of_signed hwidth hp hq, exactDistance, hwidth, hreach,
      Int.mul_tdiv_cancel _ (by omega)]
  refine ⟨?_, ?_, hdistance, ?_⟩
  · rw [compare_eq hwidth, hi, hj, compare_add_mul hbits]
  · have hindex : p.pos = q.pos ↔ i = j := by
      rw [hi, hj, Nat.add_left_cancel_iff, Nat.mul_left_inj (by omega)]
    rw [equal_eq hwidth, decide_eq_decide.mpr hindex]
  · rw [bind_of_ok hdistance]
    exact move_of_pos_eq hwidth hq hp (by omega)

end Address

/-! ## Loops -/

/-- A loop that has written some values goes on where as many single steps lead to. -/
theorem Words.storeAll_append (values rest : List Word) :
    ∀ (words : Words) (a : Address), words.storeAll a (values ++ rest) = (do
      let words ← words.storeAll a values
      let next ← a.walkUp values.length
      words.storeAll next rest) := by
  induction values with
  | nil =>
      intro words a
      rfl
  | cons value values ih =>
      intro words a
      rw [List.cons_append, List.length_cons, storeAll, storeAll, Address.walkUp]
      cases hstore : words.store a value with
      | error fault => rfl
      | ok mid =>
          cases hnext : a.advance 1 with
          | error fault =>
              rw [bind_of_ok rfl, bind_of_ok rfl]
              rfl
          | ok next => exact ih mid next

/-! ## The grid of a store -/

namespace Dense

variable {w : Width}

/-- The address of an index is where single steps from the first element lead to, and the elements
are counted by the distance of the two ends. -/
structure Gridded (d : Dense w) : Prop where
  steps : ∀ {i}, i * w.bits < 0x8000_0000_0000_0000 →
    ∃ low p, d.startAddress = .ok low ∧ d.address i = .ok p ∧ low.walkUp i = .ok p ∧
      p.walkDown i = .ok low
  loop : ∀ {values : List Word}, values.length * w.bits < 0x8000_0000_0000_0000 →
    ∃ low p, d.startAddress = .ok low ∧ d.address values.length = .ok p ∧
      ∀ (words : Words) (rest : List Word), words.storeAll low (values ++ rest) =
        words.storeAll low values >>= fun words => words.storeAll p rest
  span : d.size * w.bits < 0x8000_0000_0000_0000 →
    ∃ low high, d.startAddress = .ok low ∧ d.stopAddress = .ok high ∧
      high.distance low = .ok (d.size : Int)

end Dense

namespace Width

variable {w : Width} {i : Nat}

theorem roomy_of_signed (h : i * w.bits < 0x8000_0000_0000_0000) : w.Roomy i := by
  unfold Roomy Size.limit
  omega

theorem signed_cellAt (h : i * w.bits < 0x8000_0000_0000_0000) : (w.cellAt i).Signed := by
  unfold Address.Signed cellAt
  rw [Address.pos_ofBit]
  exact h

theorem walkUp_cellAt (h : w.Roomy i) : (w.cellAt 0).walkUp i = .ok (w.cellAt i) := by
  have hon := advance_cellAt (w := w) (i := 0) (k := i) (by rwa [Nat.zero_add])
  rw [Nat.zero_add] at hon
  exact Address.walkUp_of_advance i hon

theorem walkDown_cellAt (h : w.Countable i) : (w.cellAt i).walkDown i = .ok (w.cellAt 0) := by
  have hback := retreat_cellAt h (Nat.le_refl i)
  rw [Nat.sub_self] at hback
  exact Address.walkDown_of_retreat i hback

theorem distance_cellAt (h : i * w.bits < 0x8000_0000_0000_0000) :
    (w.cellAt i).distance (w.cellAt 0) = .ok (i : Int) := by
  have hzero : 0 * w.bits < 0x8000_0000_0000_0000 := by omega
  have hindexed : Address.Indexed (w.cellAt i) (w.cellAt 0) i 0 :=
    Address.indexed_of_pos_eq (s := 0) rfl (signed_cellAt h) (signed_cellAt hzero)
      (by rw [cellAt, Address.pos_ofBit, Nat.zero_add]; rfl)
      (by rw [cellAt, Address.pos_ofBit, Nat.zero_add]; rfl)
  rw [hindexed.distance]
  simp

end Width

theorem Dense.gridded {w : Width} (d : Dense w) : d.Gridded where
  steps h := ⟨_, _, Width.address_of_countable w.countable_zero,
    Width.address_of_countable (Width.roomy_of_signed h).countable,
    Width.walkUp_cellAt (Width.roomy_of_signed h),
    Width.walkDown_cellAt (Width.roomy_of_signed h).countable⟩
  loop {values} h := by
    have hroom := Width.roomy_of_signed h
    refine ⟨_, _, Width.address_of_countable w.countable_zero,
      Width.address_of_countable hroom.countable, fun words rest => ?_⟩
    rw [Words.storeAll_append, Width.walkUp_cellAt hroom]
    rfl
  span h := ⟨_, _, Width.address_of_countable w.countable_zero,
    Width.address_of_countable (Width.roomy_of_signed h).countable, Width.distance_cellAt h⟩

/-- Addresses whole elements on from a common one compare, differ and lead to each other as their
indices do, and in every store the address of an index is where a loop of single steps arrives. -/
theorem addresses_are_indices :
    (∀ (a : Address) (i j : Nat), a.pos + i * a.width.bits < 0x8000_0000_0000_0000 →
      a.pos + j * a.width.bits < 0x8000_0000_0000_0000 →
      ∃ p q, a.advance i = .ok p ∧ a.advance j = .ok q ∧ Address.Indexed p q i j) ∧
    ∀ (w : Width) (d : Dense w), d.Gridded := by
  refine ⟨?_, fun _ d => d.gridded⟩
  intro a i j hi hj
  obtain ⟨p, hp, hwidth, hpos, hsigned⟩ := Address.advance_of_signed hi
  obtain ⟨q, hq, hwidth', hpos', hsigned'⟩ := Address.advance_of_signed hj
  refine ⟨p, q, hp, hq, ?_⟩
  rw [← hwidth'] at hpos hpos'
  exact Address.indexed_of_pos_eq (hwidth.trans hwidth'.symm) hsigned hsigned' hpos hpos'

/-- The last positions that a signed number can count, and the elements of a full word. -/
theorem addresses_are_indices_at_end :
    (∃ p q, Address.advance ⟨0x1ff_ffff_ffff_ffff, 3, { bits := 5 }, by decide⟩ 2 = .ok p ∧
      Address.advance ⟨0x1ff_ffff_ffff_ffff, 3, { bits := 5 }, by decide⟩ 12 = .ok q ∧
      p.distance q = .ok (-10) ∧ (p.distance q >>= q.move) = .ok p) ∧
    ∃ low high, (Dense.startAddress (w := { bits := 5 }) ⟨#[0], 12, 1⟩) = .ok low ∧
      (Dense.stopAddress (w := { bits := 5 }) ⟨#[0], 12, 1⟩) = .ok high ∧
      high.distance low = .ok 12 := by
  obtain ⟨hindices, hstores⟩ := addresses_are_indices
  obtain ⟨p, q, hp, hq, hindexed⟩ := hindices
    ⟨0x1ff_ffff_ffff_ffff, 3, { bits := 5 }, by decide⟩ 2 12 (by decide) (by decide)
  exact ⟨⟨p, q, hp, hq, hindexed.distance, hindexed.back⟩,
    (hstores { bits := 5 } ⟨#[0], 12, 1⟩).span (by decide)⟩

end NarrowVec
