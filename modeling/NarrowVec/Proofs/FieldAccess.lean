import NarrowVec.Proofs.CellModels
import NarrowVec.Proofs.FieldRuns
import NarrowVec.Words.Op

/-!
# Access to single fields

A field whose words exist is read as the number that its flattened bits spell, and a write replaces
these bits and no others; any other field is refused.  `Stored` says what a write comes to, and what
an action does to a field is to store the value that it leaves.
-/

set_option autoImplicit false

namespace NarrowVec

namespace Address

def Covers (a : Address) (p : Nat) : Prop := a.pos ≤ p ∧ p < a.pos + a.width.bits

instance (a : Address) (p : Nat) : Decidable (a.Covers p) :=
  inferInstanceAs (Decidable (a.pos ≤ p ∧ p < a.pos + a.width.bits))

def Apart (a b : Address) : Prop := a.pos + a.width.bits ≤ b.pos ∨ b.pos + b.width.bits ≤ a.pos

instance (a b : Address) : Decidable (a.Apart b) :=
  inferInstanceAs (Decidable (_ ∨ _))

variable {a b : Address}

theorem Apart.symm (h : a.Apart b) : b.Apart a := Or.symm h

theorem Apart.not_covers (h : a.Apart b) {p : Nat} (hp : b.Covers p) : ¬a.Covers p := by
  rintro ⟨hlow, hhigh⟩
  obtain ⟨hlow', hhigh'⟩ := hp
  rcases h with hle | hle
  · omega
  · omega

theorem covers_add {j : Nat} (hj : j < a.width.bits) : a.Covers (a.pos + j) :=
  ⟨Nat.le_add_right _ _, Nat.add_lt_add_left hj _⟩

end Address

namespace Words

variable {words old mid new : Words} {a b : Address} {value value' : Word}

def field (words : Words) (a : Address) : Word := words.slice a.pos a.width.bits

theorem load_eq_field (hsize : words.size < Size.limit) (h : words.Holds a) :
    words.load a = .ok (words.field a) :=
  load_of_holds hsize h

theorem getLsbD_field {j : Nat} (hj : j < a.width.bits) :
    (words.field a).getLsbD j = words.bit (a.pos + j) := by
  have hle := a.width.le
  have hrange : j < a.width.bits ∧ j < 64 := ⟨hj, by omega⟩
  rw [field, getLsbD_slice, decide_eq_true hrange, Bool.true_and]

theorem holds_of_size (hsize : new.size = old.size) (hb : old.Holds b) : new.Holds b := by
  rw [holds_iff, hsize, ← holds_iff]
  exact hb

theorem truncate_field : a.width.truncate (words.field a) = words.field a := truncate_slice

/-! ## Stored values -/

/-- `new` is `old` with the low bits of `value` in the field at `a`. -/
structure Stored (old new : Words) (a : Address) (value : Word) : Prop where
  size : new.size = old.size
  bit : ∀ p, new.bit p = if a.Covers p then value.getLsbD (p - a.pos) else old.bit p

theorem store_stored (hsize : words.size < Size.limit) (h : words.Holds a) (value : Word) :
    ∃ words', words.store a value = .ok words' ∧ Stored words words' a value := by
  obtain ⟨words', hstore, hkeep, hbit⟩ := store_of_holds hsize h value
  exact ⟨words', hstore, hkeep, hbit⟩

namespace Stored

theorem holds (h : Stored old new a value) (hb : old.Holds b) : new.Holds b :=
  holds_of_size h.size hb

theorem size_lt (h : Stored old new a value) (hsize : old.size < Size.limit) :
    new.size < Size.limit := by
  rw [h.size]
  exact hsize

theorem bit_of_covers (h : Stored old new a value) {p : Nat} (hp : a.Covers p) :
    new.bit p = value.getLsbD (p - a.pos) := by
  rw [h.bit, if_pos hp]

theorem bit_of_not_covers (h : Stored old new a value) {p : Nat} (hp : ¬a.Covers p) :
    new.bit p = old.bit p := by
  rw [h.bit, if_neg hp]

theorem field_self (h : Stored old new a value) : new.field a = a.width.truncate value := by
  apply BitVec.eq_of_getLsbD_eq
  intro j _
  rw [Width.getLsbD_truncate]
  by_cases hj : j < a.width.bits
  · rw [getLsbD_field hj, h.bit_of_covers (Address.covers_add hj), Nat.add_sub_cancel_left]
    simp [hj]
  · rw [field, getLsbD_slice]
    simp [hj]

theorem field_apart (h : Stored old new a value) (hab : a.Apart b) : new.field b = old.field b :=
  slice_congr fun _ hj => h.bit_of_not_covers (hab.not_covers (Address.covers_add hj))

theorem refl (words : Words) (a : Address) : Stored words words a (words.field a) where
  size := rfl
  bit p := by
    by_cases hp : a.Covers p
    · obtain ⟨hlow, hhigh⟩ := hp
      have hj : p - a.pos < a.width.bits := by omega
      rw [if_pos ⟨hlow, hhigh⟩, getLsbD_field hj, Nat.add_sub_of_le hlow]
    · rw [if_neg hp]

theorem trans (h : Stored old mid a value) (h' : Stored mid new a value') :
    Stored old new a value' where
  size := h'.size.trans h.size
  bit p := by
    rw [h'.bit]
    by_cases hp : a.Covers p
    · rw [if_pos hp, if_pos hp]
    · rw [if_neg hp, if_neg hp, h.bit_of_not_covers hp]

theorem truncate (h : Stored old new a value) : Stored old new a (a.width.truncate value) := by
  have hsame := refl new a
  rw [h.field_self] at hsame
  exact h.trans hsame

end Stored

/-! ## Actions on a field -/

/-- The words that differ from `old` in no more than the field at `a` are a cell with one
element. -/
theorem models_field (hsize : old.size < Size.limit) (h : old.Holds a) :
    Cells.Models a.width (fun _ => a) fun (words : Words) values =>
      ∃ value, values = [value] ∧ a.width.truncate value = value ∧ Stored old words a value where
  truncated := by
    rintro words values value ⟨element, rfl, hfits, _⟩ hv
    rw [List.mem_singleton.mp hv]
    exact hfits
  load := by
    rintro words values i value ⟨element, rfl, hfits, hstored⟩ hv
    obtain ⟨hi, rfl⟩ := List.getElem?_eq_some_iff.mp hv
    rw [List.length_singleton, Nat.lt_one_iff] at hi
    subst hi
    refine (load_eq_field (hstored.size_lt hsize) (hstored.holds h)).trans ?_
    rw [hstored.field_self, hfits]
    rfl
  store := by
    rintro words values i value ⟨element, rfl, _, hstored⟩ hi
    rw [List.length_singleton, Nat.lt_one_iff] at hi
    subst hi
    obtain ⟨words', hstore, hnext⟩ := store_stored (hstored.size_lt hsize) (hstored.holds h) value
    exact ⟨words', hstore, a.width.truncate value, rfl, Width.truncate_truncate _ _,
      (hstored.trans hnext).truncate⟩

/-- An action answers from the value of the field and stores the value that it leaves there. -/
theorem act_of_holds (hsize : words.size < Size.limit) (h : words.Holds a) (action : Action) :
    ∃ words', action.run Address.label words a =
        .ok ((action.effect a.width a.label (words.field a)).1, words') ∧
      Stored words words' a (action.effect a.width a.label (words.field a)).2 := by
  have hstart : ∃ value, [words.field a] = [value] ∧ a.width.truncate value = value ∧
      Stored words words a value := ⟨_, rfl, truncate_field, Stored.refl words a⟩
  obtain ⟨words', hrun, value, hvalues, _, hstored⟩ :=
    (models_field hsize h).run Address.label action hstart (i := 0) Nat.one_pos
  refine ⟨words', hrun, ?_⟩
  rw [List.set_cons_zero, List.cons_eq_cons] at hvalues
  rw [← hvalues.1] at hstored
  exact hstored

/-! ## Fields named by numbers -/

namespace Place

variable {p : Place}

def pos (p : Place) : Nat := 64 * p.word + p.offset

def Valid (p : Place) : Prop := p.offset < 64 ∧ 1 ≤ p.width ∧ p.width ≤ 64

/-- The word of the field exists, and the next one too where the field reaches into it. -/
def Within (p : Place) (words : Words) : Prop :=
  p.word < words.size ∧ (p.offset + p.width ≤ 64 ∨ p.word + 1 < words.size)

instance (p : Place) : Decidable p.Valid := inferInstanceAs (Decidable (_ ∧ _))

instance (p : Place) (words : Words) : Decidable (p.Within words) :=
  inferInstanceAs (Decidable (_ ∧ _))

theorem resolve_of_valid (h : p.Valid) : ∃ a, p.resolve = .ok a ∧ a.pos = p.pos ∧
    a.width.bits = p.width ∧ ∀ words : Words, words.Holds a ↔ p.Within words := by
  obtain ⟨hoffset, hwidth⟩ := h
  refine ⟨⟨p.word, p.offset, ⟨p.width, hwidth.1, hwidth.2⟩, hoffset⟩, ?_, rfl, rfl,
    fun _ => Iff.rfl⟩
  have hbits : Width.ofBits p.width = .ok ⟨p.width, hwidth.1, hwidth.2⟩ := dif_pos hwidth
  exact (dif_pos hoffset).trans (bind_of_ok hbits)

end Place

/-- A field can be read and written exactly when its words exist.  Reading gives the number below
`2 ^ width` whose bits are the flattened bits from the position on; writing replaces these bits by
those of the value and leaves every other bit.  The number of words is a size, as it is of every
array that there can be. -/
theorem field_access_exact (words : Words) (hsize : words.size < Size.limit) (p : Place)
    (hp : p.Valid) (value : Word) :
    (p.Within words →
      (∃ element, Op.run words p (.act .get) = .ok (.reply (.word element), words) ∧
        element.toNat < 2 ^ p.width ∧
        ∀ j, j < p.width → element.getLsbD j = words.bit (p.pos + j)) ∧
      ∃ words', Op.run words p (.act (.set value)) = .ok (.reply .unit, words') ∧
        words'.size = words.size ∧
        (∀ j, j < p.width → words'.bit (p.pos + j) = value.getLsbD j) ∧
        ∀ q, q < p.pos ∨ p.pos + p.width ≤ q → words'.bit q = words.bit q) ∧
    (¬p.Within words → Op.run words p (.act .get) = .error .bounds ∧
      Op.run words p (.act (.set value)) = .error .bounds) := by
  obtain ⟨a, hresolve, hpos, hwidth, hholds⟩ := Place.resolve_of_valid hp
  have hget : Op.run words p (.act .get) = _ := bind_of_ok hresolve
  have hset : Op.run words p (.act (.set value)) = _ := bind_of_ok hresolve
  rw [hget, hset, ← hholds, ← hpos, ← hwidth]
  constructor
  · intro h
    constructor
    · have hload : Action.run Address.label words a .get = .ok (.word (words.field a), words) :=
        bind_of_ok (load_eq_field hsize h)
      refine ⟨words.field a, bind_of_ok hload, ?_, fun j hj => getLsbD_field hj⟩
      rw [← truncate_field, Width.toNat_truncate]
      exact Nat.mod_lt _ (Nat.two_pow_pos _)
    · obtain ⟨words', hstore, hstored⟩ := store_stored hsize h value
      have hrun : Action.run Address.label words a (.set value) = .ok (.unit, words') :=
        bind_of_ok hstore
      refine ⟨words', bind_of_ok hrun, hstored.size, ?_, ?_⟩
      · intro j hj
        rw [hstored.bit_of_covers (Address.covers_add hj), Nat.add_sub_cancel_left]
      · intro q hq
        apply hstored.bit_of_not_covers
        rintro ⟨hlow, hhigh⟩
        omega
  · intro h
    have hload : Action.run Address.label words a .get = .error .bounds :=
      bind_of_error (load_of_not_holds hsize h)
    have hstore : Action.run Address.label words a (.set value) = .error .bounds :=
      bind_of_error (store_of_not_holds hsize h value)
    exact ⟨bind_of_error hload, bind_of_error hstore⟩

/-- Ten bits at offset 60 need a second word. -/
theorem field_access_of_straddling :
    (∃ words', Op.run #[0, BitVec.allOnes 64] ⟨0, 60, 10⟩ (.act (.set 0x2a5)) =
        .ok (.reply .unit, words') ∧
      ∀ j, j < 10 → words'.bit (60 + j) = (0x2a5 : Word).getLsbD j) ∧
    Op.run #[0] ⟨0, 60, 10⟩ (.act .get) = .error .bounds := by
  have hvalid : Place.Valid ⟨0, 60, 10⟩ := by decide
  obtain ⟨words', hrun, _, hbits, _⟩ :=
    ((field_access_exact #[0, BitVec.allOnes 64] (by decide) ⟨0, 60, 10⟩ hvalid 0x2a5).1
      (by decide)).2
  exact ⟨⟨words', hrun, hbits⟩,
    ((field_access_exact #[0] (by decide) ⟨0, 60, 10⟩ hvalid 0).2 (by decide)).1⟩

end Words

end NarrowVec
