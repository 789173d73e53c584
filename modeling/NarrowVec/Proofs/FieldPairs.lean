import NarrowVec.Proofs.FieldAccess
import NarrowVec.Proofs.Moves

/-!
# Pairs of fields

Two fields without a common bit are independent cells, also where they share words: actions on them
give the same replies and the same words in either order.  An exchange of two fields of one width
moves the value of the first one to the second one for any position of the two, and is undone by
itself unless they overlap in part.
-/

set_option autoImplicit false

namespace NarrowVec

namespace Words

variable {words old mid mid' new new' : Words} {a b : Address} {value value' : Word}

theorem bit_eq_of_field_eq (h : new.field a = old.field a) {p : Nat} (hp : a.Covers p) :
    new.bit p = old.bit p := by
  obtain ⟨hlow, hhigh⟩ := hp
  obtain ⟨j, rfl⟩ := Nat.exists_eq_add_of_le hlow
  exact bit_eq_of_slice_eq h a.width.le (Nat.lt_of_add_lt_add_left hhigh)

/-! ## Actions in either order -/

/-- Acts on the field at `a` and then on the one at `b`. -/
def actBoth (words : Words) (a : Address) (x : Action) (b : Address) (y : Action) :
    Except Fault ((Reply × Reply) × Words) := do
  let (first, words) ← x.run Address.label words a
  let (second, words) ← y.run Address.label words b
  return ((first, second), words)

/-- Values stored in fields without a common bit may be stored in either order. -/
theorem Stored.comm (hab : a.Apart b) (ha : Stored old mid a value) (hb : Stored mid new b value')
    (hb' : Stored old mid' b value') (ha' : Stored mid' new' a value) : new = new' := by
  have hsize : new.size = new'.size := by rw [hb.size, ha.size, ha'.size, hb'.size]
  apply eq_of_bit_eq hsize
  intro p _
  rw [hb.bit, ha.bit, ha'.bit, hb'.bit]
  -- The fields have no bit in common, so at most one of the writes reaches bit `p`.
  by_cases hp : b.Covers p
  · have hpa : ¬a.Covers p := hab.not_covers hp
    rw [if_pos hp, if_neg hpa, if_pos hp]
  · rw [if_neg hp, if_neg hp]

theorem actBoth_of_holds (hsize : words.size < Size.limit) (ha : words.Holds a)
    (hb : words.Holds b) (hab : a.Apart b) (x y : Action) : ∃ mid words', words.actBoth a x b y =
        .ok (((x.effect a.width a.label (words.field a)).1,
          (y.effect b.width b.label (words.field b)).1), words') ∧
      Stored words mid a (x.effect a.width a.label (words.field a)).2 ∧
      Stored mid words' b (y.effect b.width b.label (words.field b)).2 := by
  obtain ⟨mid, hfirst, hmid⟩ := act_of_holds hsize ha x
  obtain ⟨words', hsecond, hwords'⟩ := act_of_holds (hmid.size_lt hsize) (hmid.holds hb) y
  rw [hmid.field_apart hab] at hsecond hwords'
  refine ⟨mid, words', ?_, hmid, hwords'⟩
  rw [actBoth, bind_of_ok hfirst]
  exact bind_of_ok hsecond

theorem actBoth_comm (hsize : words.size < Size.limit) (ha : words.Holds a) (hb : words.Holds b)
    (hab : a.Apart b) (x y : Action) :
    ∃ first second words', words.actBoth a x b y = .ok ((first, second), words') ∧
      words.actBoth b y a x = .ok ((second, first), words') := by
  obtain ⟨mid, words', hrun, hmid, hwords'⟩ := actBoth_of_holds hsize ha hb hab x y
  obtain ⟨mid', words'', hrun', hmid', hwords''⟩ := actBoth_of_holds hsize hb ha hab.symm y x
  rw [← Stored.comm hab hmid hwords' hmid' hwords''] at hrun'
  exact ⟨_, _, words', hrun, hrun'⟩

/-! ## Exchanges -/

/-- What an exchange of the fields at `a` and `b` does to the words. -/
structure Exchanged (old new : Words) (a b : Address) : Prop where
  size : new.size = old.size
  second : new.field b = old.field a
  first : a.Apart b ∨ a = b → new.field a = old.field b
  frame : ∀ p, ¬a.Covers p → ¬b.Covers p → new.bit p = old.bit p

theorem exchange_of_holds (hsize : words.size < Size.limit) (ha : words.Holds a)
    (hb : words.Holds b) (hw : a.width = b.width) :
    ∃ words', words.exchange a b = .ok words' ∧ Exchanged words words' a b := by
  obtain ⟨mid, hfirst, hmid⟩ := store_stored hsize ha (words.field b)
  obtain ⟨words', hsecond, hwords'⟩ :=
    store_stored (hmid.size_lt hsize) (hmid.holds hb) (words.field a)
  have hfits : b.width.truncate (words.field a) = words.field a := by
    rw [← hw]
    exact truncate_field
  have hlast : words'.field b = words.field a := by rw [hwords'.field_self, hfits]
  refine ⟨words', ?_, hwords'.size.trans hmid.size, hlast, ?_, ?_⟩
  · have hcells : Cells.exchange words a b = .ok words' :=
      (bind_of_ok (load_eq_field hsize ha)).trans
        ((bind_of_ok (load_eq_field hsize hb)).trans ((bind_of_ok hfirst).trans hsecond))
    exact (bind_of_ok (ensure_of hw)).trans hcells
  · rintro (hab | rfl)
    · rw [hwords'.field_apart hab.symm, hmid.field_self, hw]
      exact truncate_field
    · exact hlast
  · intro p hpa hpb
    rw [hwords'.bit_of_not_covers hpb, hmid.bit_of_not_covers hpa]

/-- A second exchange brings back what was there, unless the fields overlap in part. -/
theorem Exchanged.back (h : Exchanged old mid a b) (h' : Exchanged mid new a b)
    (hab : a.Apart b ∨ a = b) : new = old := by
  apply eq_of_bit_eq (h'.size.trans h.size)
  intro p _
  by_cases hpb : b.Covers p
  · exact bit_eq_of_field_eq (h'.second.trans (h.first hab)) hpb
  · by_cases hpa : a.Covers p
    · exact bit_eq_of_field_eq ((h'.first hab).trans h.second) hpa
    · rw [h'.frame p hpa hpb, h.frame p hpa hpb]

end Words

/-! ## Elements of dense storage -/

namespace Dense

variable {w : Width} {d : Dense w} {i j : Nat}

theorem WellFormed.holds_cellAt (h : d.WellFormed) (hi : i < d.size) :
    d.words.Holds (w.cellAt i) := by
  rw [Words.holds_iff, Width.cellAt, Address.pos_ofBit]
  exact h.cell_le hi

theorem getElem?_exchanged {values : List Word} (hi : i < values.length) (hj : j < values.length)
    (k : Nat) : ((values.set i (values.getD j 0)).set j (values.getD i 0))[k]? =
      values[if k = i then j else if k = j then i else k]? := by
  by_cases hkj : k = j
  · subst hkj
    rw [List.getElem?_set_self (by rw [List.length_set]; exact hj)]
    by_cases hki : k = i
    · subst hki
      simp [hi]
    · simp [hki, hi]
  · rw [List.getElem?_set_ne (Ne.symm hkj)]
    by_cases hki : k = i
    · subst hki
      rw [List.getElem?_set_self hi]
      simp [hj]
    · rw [List.getElem?_set_ne (Ne.symm hki), if_neg hki, if_neg hkj]

theorem swap_eq (h : d.WellFormed) (hi : i < d.size) (hj : j < d.size) :
    d.swap i j = do
      let words ← d.words.exchange (w.cellAt i) (w.cellAt j)
      return { d with words } := by
  rw [swap, bind_of_ok (ensure_of ⟨hi, hj⟩), bind_of_ok (h.address (Nat.le_of_lt hi)),
    bind_of_ok (h.address (Nat.le_of_lt hj))]

theorem swap_exchanged (h : d.WellFormed) (hi : i < d.size) (hj : j < d.size) :
    ∃ d', d.swap i j = .ok d' ∧ d'.size = d.size ∧
      (∀ k, d'.get? k = d.get? (if k = i then j else if k = j then i else k)) ∧
      Words.Exchanged d.words d'.words (w.cellAt i) (w.cellAt j) := by
  obtain ⟨words, hexchange, hwords⟩ :=
    Words.exchange_of_holds h.words_size_lt (h.holds_cellAt hi) (h.holds_cellAt hj) rfl
  have hrun : d.swap i j = .ok { d with words } := (swap_eq h hi hj).trans (bind_of_ok hexchange)
  obtain ⟨d', hswap, hd'⟩ := swap_spec h hi hj
  cases hrun.symm.trans hswap
  refine ⟨_, hswap, rfl, ?_, hwords⟩
  intro k
  rw [get?_spec hd'.wellFormed, hd'.toList, get?_spec h, getElem?_exchanged]
  · rw [length_toList]
    exact hi
  · rw [length_toList]
    exact hj

end Dense

/-- Fields without a common bit are independent cells.  An exchange of two fields of one width moves
the first value to the second field and changes no other bit, and it moves the second value to the
first field and is its own inverse unless the fields overlap in part.  A swap in dense storage
exchanges two elements and nothing else.  The number of words is a size throughout. -/
theorem fields_independent :
    (∀ (words : Words) (a b : Address), words.size < Size.limit → words.Holds a → words.Holds b →
      a.Apart b → ∀ x y : Action, ∃ first second words',
        words.actBoth a x b y = .ok ((first, second), words') ∧
        words.actBoth b y a x = .ok ((second, first), words')) ∧
    (∀ (words : Words) (a b : Address), words.size < Size.limit → words.Holds a → words.Holds b →
      a.width = b.width → ∃ first second words',
        words.load a = .ok first ∧ words.load b = .ok second ∧
        words.exchange a b = .ok words' ∧ words'.size = words.size ∧
        words'.load b = .ok first ∧
        (∀ p, ¬a.Covers p → ¬b.Covers p → words'.bit p = words.bit p) ∧
        (a.Apart b ∨ a = b →
          words'.load a = .ok second ∧ words'.exchange a b = .ok words)) ∧
    ∀ (w : Width) (d : Dense w) (i j : Nat), d.WellFormed → i < d.size → j < d.size →
      ∃ d', d.swap i j = .ok d' ∧ d'.size = d.size ∧ d'.words.size = d.words.size ∧
        (∀ k, d'.get? k = d.get? (if k = i then j else if k = j then i else k)) ∧
        ∀ p, ¬(w.cellAt i).Covers p → ¬(w.cellAt j).Covers p → d'.words.bit p = d.words.bit p := by
  refine ⟨fun words a b hsize ha hb hab => Words.actBoth_comm hsize ha hb hab, ?_, ?_⟩
  · intro words a b hsize ha hb hw
    obtain ⟨words', hexchange, h⟩ := Words.exchange_of_holds hsize ha hb hw
    have hsize' : words'.size < Size.limit := by
      rw [h.size]
      exact hsize
    have ha' : words'.Holds a := Words.holds_of_size h.size ha
    have hb' : words'.Holds b := Words.holds_of_size h.size hb
    refine ⟨_, _, words', Words.load_eq_field hsize ha, Words.load_eq_field hsize hb, hexchange,
      h.size, ?_, h.frame, ?_⟩
    · rw [Words.load_eq_field hsize' hb', h.second]
    · intro hab
      obtain ⟨words'', hagain, h'⟩ := Words.exchange_of_holds hsize' ha' hb' hw
      refine ⟨?_, ?_⟩
      · rw [Words.load_eq_field hsize' ha', h.first hab]
      · rw [hagain, h.back h' hab]
  · intro w d i j h hi hj
    obtain ⟨d', hswap, hsize, hget, hwords⟩ := Dense.swap_exchanged h hi hj
    exact ⟨d', hswap, hsize, hwords.size, hget, hwords.frame⟩

/-- Two neighbours of which one reaches into the next word, two fields of seven bits that share
four, and the first two of three elements of 40 bits. -/
theorem fields_independent_of_neighbours :
    (∃ first second words',
      Words.actBoth #[5, 6] ⟨0, 55, { bits := 5 }, by decide⟩ (.update (· + 1))
        ⟨0, 60, { bits := 7 }, by decide⟩ (.exchange 9) = .ok ((first, second), words') ∧
      Words.actBoth #[5, 6] ⟨0, 60, { bits := 7 }, by decide⟩ (.exchange 9)
        ⟨0, 55, { bits := 5 }, by decide⟩ (.update (· + 1)) = .ok ((second, first), words')) ∧
    (∃ first words', Words.load #[5] ⟨0, 0, { bits := 7 }, by decide⟩ = .ok first ∧
      Words.exchange #[5] ⟨0, 0, { bits := 7 }, by decide⟩ ⟨0, 3, { bits := 7 }, by decide⟩ =
        .ok words' ∧ words'.load ⟨0, 3, { bits := 7 }, by decide⟩ = .ok first) ∧
    ∃ d' : Dense { bits := 40 }, Dense.swap ⟨#[5, 6], 3, 2⟩ 0 1 = .ok d' ∧
      d'.get? 1 = Dense.get? (w := { bits := 40 }) ⟨#[5, 6], 3, 2⟩ 0 := by
  obtain ⟨hact, hexchange, hswap⟩ := fields_independent
  refine ⟨hact _ _ _ (by decide) (by decide) (by decide) (by decide) _ _, ?_, ?_⟩
  · obtain ⟨first, _, words', hfirst, _, hrun, _, hmoved, _⟩ :=
      hexchange #[5] ⟨0, 0, { bits := 7 }, by decide⟩ ⟨0, 3, { bits := 7 }, by decide⟩
        (by decide) (by decide) (by decide) rfl
    exact ⟨first, words', hfirst, hrun, hmoved⟩
  · have hwf : (⟨#[5, 6], 3, 2⟩ : Dense { bits := 40 }).WellFormed := rfl
    obtain ⟨d', hrun, _, _, hget, _⟩ := hswap _ _ 0 1 hwf (by decide) (by decide)
    exact ⟨d', hrun, hget 1⟩

end NarrowVec
