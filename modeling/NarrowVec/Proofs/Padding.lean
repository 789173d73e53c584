import NarrowVec.Proofs.Histories
import NarrowVec.Proofs.Moves
import NarrowVec.Proofs.Walks

/-!
# Padding

Every operation of dense storage ends with exactly the words that its elements need.  An edit leaves
in the padding what was there, with zeros where there was no word, and a store that is built anew
has nothing but zeros there.
-/

set_option autoImplicit false

namespace NarrowVec.Dense

variable {w : Width} {d d' : Dense w}

/-- What an edit of a well-formed store comes to. -/
def Edited (d d' : Dense w) : Prop := d.WellFormed → ∃ values, d.Becomes d' values

def Fresh (d : Dense w) : Prop := ∃ values, empty.Becomes d values

theorem Fresh.wellFormed (h : d.Fresh) : d.WellFormed := by
  obtain ⟨_, hbecomes⟩ := h
  exact hbecomes.wellFormed

theorem Edited.wellFormed (hedit : d.Edited d') (h : d.WellFormed) : d'.WellFormed := by
  obtain ⟨_, hbecomes⟩ := hedit h
  exact hbecomes.wellFormed

section Checked

variable {p : Prop} {fault : Fault} {values : List Word}

theorem becomes_of_checked {x : Except Fault (Dense w)}
    (hspec : p → ∃ d', x = .ok d' ∧ d.Becomes d' values) (hcheck : ¬p → x = .error fault)
    (hrun : x = .ok d') : ∃ values, d.Becomes d' values := by
  by_cases hp : p
  · obtain ⟨_, hok, hd'⟩ := hspec hp
    cases hok.symm.trans hrun
    exact ⟨values, hd'⟩
  · cases (hcheck hp).symm.trans hrun

theorem becomes_of_checked_pair {α : Type} {a b : α} {x : Except Fault (α × Dense w)}
    (hspec : p → ∃ d', x = .ok (a, d') ∧ d.Becomes d' values) (hcheck : ¬p → x = .error fault)
    (hrun : x = .ok (b, d')) : ∃ values, d.Becomes d' values := by
  by_cases hp : p
  · obtain ⟨_, hok, hd'⟩ := hspec hp
    cases hok.symm.trans hrun
    exact ⟨values, hd'⟩
  · cases (hcheck hp).symm.trans hrun

end Checked

theorem edited_of_insertList {i : Nat} {values : List Word}
    (hrun : (d.insertList i values).result = .ok d') : d.Edited d' := by
  intro h
  by_cases hi : i ≤ d.size
  · have hover : ¬(values = [] ∨ w.Roomy d.size ∧ w.Countable (d.size + values.length)) →
        (d.insertList i values).result = .error .overflow := by
      intro hroom
      obtain ⟨hne, hover⟩ := not_or.mp hroom
      exact insertList_overflow h hi hne hover
    exact becomes_of_checked (insertList_spec h hi) hover hrun
  · cases (insertList_refused (by omega) values).symm.trans hrun

theorem edited_of_insertCopies {i n : Nat} {value : Word}
    (hrun : (d.insertCopies i n value).result = .ok d') : d.Edited d' := by
  intro h
  rw [insertCopies_eq_insertList h.countable.lt] at hrun
  exact edited_of_insertList hrun h

theorem edited_of_erase {e : Extent} (hrun : d.erase e = .ok d') : d.Edited d' := by
  intro h
  cases he : e.refusal d.size with
  | some fault => cases (erase_refused he).symm.trans hrun
  | none =>
      obtain ⟨_, herase, hd'⟩ := erase_spec h he
      cases herase.symm.trans hrun
      exact ⟨_, hd'⟩

theorem edited_of_act {label : Address → Word → String} {i : Nat} {action : Action}
    {reply : Reply} (hrun : d.act label i action = .ok (reply, d')) : d.Edited d' :=
  fun h => becomes_of_checked_pair (act_spec h · action) (act_refused · action) hrun

theorem fresh_of_assign {feed : Feed}
    (hrun : (Storage.assign d feed).result = .ok d') : d'.Fresh :=
  becomes_of_checked (assign_spec d) (assign_overflow d) hrun

theorem evolves : Container.Evolves (Edited (w := w)) fun _ d' => d'.Fresh where
  refl d h := ⟨_, .refl h⟩
  reserve {d d' n} hrun h := by
    by_cases hn : w.Countable (d.size + n)
    · obtain ⟨_, hreserve, _, hd'⟩ := reserve_spec h hn
      cases hreserve.symm.trans hrun
      exact ⟨_, hd'⟩
    · cases (reserve_overflow hn).symm.trans hrun
  shrink d h := ⟨d.toList, h, rfl, fun _ _ _ => rfl⟩
  set hrun h := becomes_of_checked (set_spec h · _) (set_refused · _) hrun
  push hrun h := becomes_of_checked (push_spec h · _) (push_overflow · _) hrun
  pop {d d' value} hrun h := by
    obtain ⟨_, hpop, hd'⟩ := pop_spec h
    cases hpop.symm.trans hrun
    exact ⟨_, hd'⟩
  insertCopies hrun := edited_of_insertCopies hrun
  insertList hrun := edited_of_insertList hrun
  insert hrun := edited_of_insertCopies hrun
  extend hrun h := becomes_of_checked (extend_spec h) (extend_overflow h) hrun
  remove hrun h := becomes_of_checked_pair (remove_spec h) remove_refused hrun
  erase hrun := edited_of_erase hrun
  resize hrun _ := becomes_of_checked (resize_spec · _) (resize_overflow · _) hrun
  setSize {d d' n} hrun _ := by
    by_cases hn : w.Countable n
    · obtain ⟨_, _, hset, _, hd'⟩ := setSize_spec hn
      cases hset.symm.trans hrun
      exact ⟨_, hd'⟩
    · cases (setSize_overflow hn).symm.trans hrun
  truncate {d d' n} hrun h := by
    obtain ⟨_, htruncate, hd'⟩ := truncate_spec h n
    cases htruncate.symm.trans hrun
    exact ⟨_, hd'⟩
  swap hrun h :=
    becomes_of_checked (fun hij => swap_spec h hij.1 hij.2) swap_refused hrun
  act hrun := edited_of_act hrun
  visit hrun h := becomes_of_visit h hrun
  empty _ := ⟨_, .refl wellFormed_empty⟩
  emptyWithCapacity {_ _ n} hrun := by
    obtain ⟨room, _, hdone⟩ := bind_eq_ok_iff.mp hrun
    cases hdone
    exact ⟨[], wellFormed_empty, rfl, fun _ _ _ => rfl⟩
  zeros hrun := becomes_of_checked zeros_spec zeros_overflow hrun
  replicate hrun := becomes_of_checked (replicate_spec · _) (replicate_overflow · _) hrun
  ofList hrun := becomes_of_checked ofList_spec ofList_overflow hrun
  ofPushes hrun := fresh_of_assign (d := empty) hrun
  assign hrun := fresh_of_assign hrun
  assignCopies {d d' n value} hrun :=
    becomes_of_checked (assignCopies_spec d · value) (assignCopies_overflow d · value) hrun
  clear d := ⟨_, clear_spec d⟩

theorem wellFormed_of_setByte {i : Nat} {byte : Byte} (h : d.WellFormed)
    (hrun : d.setByte i byte = .ok d') : d'.WellFormed := by
  obtain ⟨words, hput, hdone⟩ := bind_eq_ok_iff.mp hrun
  cases hdone
  refine wellFormed_iff.mpr ⟨h.countable, ?_⟩
  rw [Bytes.size_of_put hput]
  exact h.words_size

theorem bit_empty (p : Nat) : (empty : Dense w).words.bit p = false :=
  Words.bit_eq_false_of_le (Nat.zero_le _)

/-- An edit that is not refused leaves at every padding bit what was at that bit before, or zero
where there was no word; an operation that builds its store leaves zeros there. -/
theorem padding_of_perform {p p' : Pair (Dense w)} (h : p.target.WellFormed) {op : Container.Op}
    {answer : Answer} (hrun : (op.perform p).result = .ok (answer, p')) :
    (op.Edits → ∀ q, p'.target.size * w.bits ≤ q → q < 64 * p'.target.words.size →
      p'.target.words.bit q =
        if q < 64 * p.target.words.size then p.target.words.bit q else false) ∧
    (op.Builds → ∀ q, p'.target.size * w.bits ≤ q → q < 64 * p'.target.words.size →
      p'.target.words.bit q = false) := by
  cases Container.takes_of_perform evolves hrun with
  | edit hedits hs =>
      obtain ⟨values, hbecomes⟩ := hs h
      constructor
      · intro _ q hq hlt
        refine (hbecomes.padding q hq hlt).trans ?_
        by_cases hold : q < 64 * p.target.words.size
        · rw [if_pos hold]
        · rw [if_neg hold, Words.bit_eq_false_of_le (by omega)]
      · intro hbuilds
        exact absurd hbuilds (Container.Op.not_builds_of_edits hedits)
  | build hbuilds hs =>
      obtain ⟨values, hbecomes⟩ := hs
      constructor
      · intro hedits
        exact absurd hbuilds (Container.Op.not_builds_of_edits hedits)
      · intro _ q hq hlt
        exact (hbecomes.padding q hq hlt).trans (bit_empty q)
  | copy | exchange | byte _ => exact ⟨fun hedits => hedits.elim, fun hbuilds => hbuilds.elim⟩

/-- Three elements of seven bits in a word that has all its bits set. -/
def stale : Dense { bits := 7 } := ⟨#[BitVec.allOnes 64], 3, 1⟩

theorem padding_of_stale_pop :
    ∃ answer p', ((Container.Op.storage .pop).perform ⟨stale, empty⟩).result = .ok (answer, p') ∧
      ∀ q, 14 ≤ q → q < 64 → p'.target.words.bit q = stale.words.bit q := by
  have hwf : stale.WellFormed := rfl
  have hpop : ((Container.Op.storage .pop).perform ⟨stale, empty⟩).result =
      .ok (.word? (some 127), ⟨⟨#[BitVec.allOnes 64], 2, 1⟩, empty⟩) := rfl
  refine ⟨_, _, hpop, ?_⟩
  intro q hq hlt
  exact ((padding_of_perform hwf hpop).1 id q hq hlt).trans (if_pos hlt)

end NarrowVec.Dense
