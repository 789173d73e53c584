import NarrowVec.Proofs.Padding

/-!
# Notes on growth

An operation that takes more words tells how many.  The number comes about in different ways: an
insertion compares the bits that it needs with the padding, and a reservation compares word counts
before anything is pushed.  Both come to the words that the new elements need beyond those of the
old ones, which is what the operation then adds, and where nothing is added nothing is told.  A feed
that announces fewer values than it brings is told of only as far as it was announced.
-/

set_option autoImplicit false

namespace NarrowVec

/-- One note with a number of words, unless that number is zero. -/
def Note.ofWords (note : Nat → Note) (words : Nat) : List Note :=
  if 0 < words then [note words] else []

theorem Note.level_ofWords {note : Nat → Note} {level : Level}
    (h : ∀ words, (note words).level = level) (words : Nat) :
    ∀ line ∈ Note.ofWords note words, line.level = level := by
  intro line hline
  unfold Note.ofWords at hline
  split at hline
  · rw [List.mem_singleton.mp hline]
    exact h words
  · cases hline

/-! ## Computations without notes -/

namespace Traced

variable {α β : Type} {x : Traced α} {f : α → Traced β}

def Quiet (x : Traced α) : Prop := x.notes = []

theorem Quiet.pure (a : α) : Quiet (Pure.pure a : Traced α) := rfl

theorem Quiet.lift (x : Except Fault α) : Quiet (liftM x : Traced α) := rfl

theorem notes_bind_of_quiet (h : ∀ a, (f a).Quiet) : (x >>= f).notes = x.notes := by
  cases hx : x.result with
  | error fault =>
      rw [notes_bind, hx]
      exact List.append_nil _
  | ok a => rw [notes_bind_of_ok hx, h a, List.append_nil]

theorem Quiet.lift_bind {x : Except Fault α} (h : ∀ a, (f a).Quiet) :
    Quiet ((liftM x : Traced α) >>= f) :=
  (notes_bind_of_quiet h).trans (Quiet.lift x)

end Traced

namespace Dense

variable {w : Width} {d : Dense w} {i n : Nat} {value : Word} {values : List Word} {feed : Feed}

/-! ## Notes of single operations -/

theorem grow_notes (h : d.WellFormed) (hroom : w.Roomy d.size) (hn : w.Countable (d.size + n)) :
    (d.grow n).notes =
      Note.ofWords (.growing w.bits · n) (w.wordsFor (d.size + n) - d.words.size) := by
  have hneeded : n * w.bits < Size.limit := hn.mono (Nat.le_add_left n d.size)
  simp only [grow]
  rw [Traced.notes_lift_of_ok (Size.mul_of_lt hneeded),
    Traced.notes_lift_of_ok (Size.mul_of_lt (h.roomy_iff.mp hroom)),
    Traced.notes_lift_of_ok (Size.mul_of_lt h.countable), Traced.notes_lift_of_ok h.spare]
  unfold Note.ofWords
  by_cases hmissing : 0 < w.wordsFor (d.size + n) - d.words.size
  · have hspare := (h.missing_pos_iff n).mp hmissing
    rw [if_pos hmissing, if_pos hspare,
      Traced.notes_lift_of_ok (Size.sub_of_le (Nat.le_of_lt hspare)), h.ceilDiv_missing]
    exact Traced.notes_bind_of_quiet fun _ => .lift_bind fun total => .pure _
  · rw [if_neg hmissing, if_neg (mt (h.missing_pos_iff n).mpr hmissing)]
    rfl

theorem makeRoom_notes (h : d.WellFormed) (hi : i ≤ d.size) (hroom : w.Roomy d.size)
    (hn : w.Countable (d.size + n)) : (d.makeRoom i n).notes =
      Note.ofWords (.growing w.bits · n) (w.wordsFor (d.size + n) - d.words.size) := by
  simp only [makeRoom]
  rw [Traced.notes_lift_of_ok (ensure_of hi)]
  by_cases hzero : n = 0
  · rw [if_pos hzero, hzero, Nat.add_zero, ← h.words_size, Nat.sub_self]
    rfl
  · rw [if_neg hzero, ← grow_notes h hroom hn]
    -- The words are all there, and what is left moves elements without a note.
    refine Traced.notes_bind_of_quiet fun grown => ?_
    refine .lift_bind fun size => .lift_bind fun needed => .lift_bind fun _ => ?_
    exact .lift_bind fun source => .lift_bind fun target => .lift_bind fun words => .pure _

theorem insertList_notes (h : d.WellFormed) (hi : i ≤ d.size) (hroom : w.Roomy d.size)
    (hn : w.Countable (d.size + values.length)) : (d.insertList i values).notes =
      Note.ofWords (.growing w.bits · values.length)
        (w.wordsFor (d.size + values.length) - d.words.size) := by
  rw [← makeRoom_notes h hi hroom hn]
  exact Traced.notes_bind_of_quiet fun opened => .lift (opened.storeFrom i values)

theorem reserve_notes (hn : w.Countable (d.size + n)) : (d.reserve n).notes =
    Note.ofWords (.reservingWords · n w.bits) (w.wordsFor (d.size + n) - d.words.size) := by
  simp only [reserve]
  rw [Traced.notes_lift_of_ok (Size.add_of_lt hn.lt),
    Traced.notes_lift_of_ok (Width.wordCount_of_countable hn)]
  unfold Note.ofWords
  by_cases hmissing : d.words.size < w.wordsFor (d.size + n)
  · rw [if_pos hmissing, if_pos (Nat.sub_pos_of_lt hmissing),
      Traced.notes_lift_of_ok (Size.sub_of_le (Nat.le_of_lt hmissing))]
    rfl
  · rw [if_neg hmissing, if_neg (by omega)]
    rfl

theorem extend_notes (hn : w.Countable (d.size + feed.announced)) : (Storage.extend d feed).notes =
    Note.ofWords (.reservingWords · feed.announced w.bits)
      (w.wordsFor (d.size + feed.announced) - d.words.size) := by
  rw [← reserve_notes hn]
  exact Traced.notes_bind_of_quiet fun roomy => .lift (Storage.pushEach roomy feed.values)

/-! ## Growth and what is told of it -/

/-- The operation adds `count` elements and the words that they need beyond those of the elements
before, and it writes a note of that number of words, if there are any. -/
def Grows (d : Dense w) (run : Traced (Dense w)) (count : Nat) (level : Level)
    (note : Nat → Note) : Prop :=
  ∃ d' before after, run.result = .ok d' ∧ d'.size = d.size + count ∧
    w.wordCount d.size = .ok before ∧ w.wordCount (d.size + count) = .ok after ∧
    d'.words.size = d.words.size + (after - before) ∧
    run.notes = Note.ofWords note (after - before) ∧ ∀ line ∈ run.notes, line.level = level

theorem grows_of_becomes {run : Traced (Dense w)} {count : Nat} {level : Level}
    {note : Nat → Note} {d' : Dense w} (h : d.WellFormed) (hrun : run.result = .ok d')
    (hd' : d.Becomes d' values) (hlength : values.length = d.size + count)
    (hnotes : run.notes = Note.ofWords note (w.wordsFor (d.size + count) - d.words.size))
    (hlevel : ∀ words, (note words).level = level) : d.Grows run count level note := by
  have hsize : d'.size = d.size + count := hd'.size.trans hlength
  have hcountable := hd'.wellFormed.countable
  have hmono := Width.wordsFor_mono (w := w) (Nat.le_add_right d.size count)
  rw [h.words_size] at hnotes
  refine ⟨d', _, _, hrun, hsize, Width.wordCount_of_countable h.countable,
    Width.wordCount_of_countable (hsize ▸ hcountable), ?_, hnotes, ?_⟩
  · rw [hd'.words_size, hlength, h.words_size]
    omega
  · rw [hnotes]
    exact Note.level_ofWords hlevel _

theorem grows_of_insertList (h : d.WellFormed) (hi : i ≤ d.size)
    (hn : w.Roomy (d.size + values.length)) :
    d.Grows (d.insertList i values) values.length .trace (.growing w.bits · values.length) := by
  have hroom := hn.mono (Nat.le_add_right _ _)
  obtain ⟨d', hrun, hd'⟩ := insertList_spec h hi (.inr ⟨hroom, hn.countable⟩)
  refine grows_of_becomes h hrun hd' ?_ (insertList_notes h hi hroom hn.countable) fun _ => rfl
  rw [List.length_append, List.length_append, List.length_take, List.length_drop, List.length_map,
    length_toList]
  omega

theorem grows_of_insertCopies (h : d.WellFormed) (hi : i ≤ d.size) (hn : w.Roomy (d.size + n))
    (value : Word) : d.Grows (d.insertCopies i n value) n .trace (.growing w.bits · n) := by
  have hlength : (List.replicate n value).length = n := List.length_replicate
  rw [← hlength] at hn
  have hgrows := grows_of_insertList h hi hn
  rw [hlength] at hgrows
  rw [insertCopies_eq_insertList h.countable.lt]
  exact hgrows

/-- The values of a feed are pushed: the words that they need are added, and the note tells of those
that the announced values need, which are all of them if every value was announced. -/
structure Pushes (d : Dense w) (run : Traced (Dense w)) (feed : Feed) : Prop where
  announced : ∃ d' before due after, run.result = .ok d' ∧
    d'.size = d.size + feed.values.length ∧ w.wordCount d.size = .ok before ∧
    w.wordCount (d.size + feed.announced) = .ok due ∧
    w.wordCount (d.size + feed.values.length) = .ok after ∧
    d'.words.size = d.words.size + (after - before) ∧
    run.notes = Note.ofWords (.reservingWords · feed.announced w.bits) (due - before) ∧
    ∀ line ∈ run.notes, line.level = .debug
  exact : feed.announced = feed.values.length →
    d.Grows run feed.values.length .debug (.reservingWords · feed.values.length w.bits)

theorem pushes_of_extend (h : d.WellFormed) (hn : w.Roomy (d.size + feed.values.length)) :
    d.Pushes (Storage.extend d feed) feed := by
  have hannounced := hn.countable.mono (Nat.add_le_add_left feed.announced_le d.size)
  have hnotes := extend_notes hannounced
  obtain ⟨d', hrun, hd'⟩ := extend_spec h hn.countable
  have hlength : (d.toList ++ feed.values.map w.truncate).length = d.size + feed.values.length := by
    rw [List.length_append, List.length_map, length_toList]
  constructor
  · have hmono := Width.wordsFor_mono (w := w) (Nat.le_add_right d.size feed.values.length)
    rw [h.words_size] at hnotes
    refine ⟨d', _, _, _, hrun, hd'.size.trans hlength, Width.wordCount_of_countable h.countable,
      Width.wordCount_of_countable hannounced, Width.wordCount_of_countable hn.countable, ?_,
      hnotes, ?_⟩
    · rw [hd'.words_size, hlength, h.words_size]
      omega
    · rw [hnotes]
      exact Note.level_ofWords (fun _ => rfl) _
  · intro hexact
    rw [hexact] at hnotes
    exact grows_of_becomes h hrun hd' hlength hnotes fun _ => rfl

theorem pushes_from_nothing (h : d.size = 0 ∧ d.words = #[]) (hn : w.Roomy feed.values.length) :
    d.Pushes (Storage.extend d feed) feed := by
  obtain ⟨hsize, hwords⟩ := h
  refine pushes_of_extend (wellFormed_iff.mpr ⟨?_, ?_⟩) ?_
  · rw [hsize]
    exact w.countable_zero
  · rw [hsize, hwords, Width.wordsFor_zero]
    rfl
  · rw [hsize, Nat.zero_add]
    exact hn

/-- Every operation that adds elements adds the words that they need and tells how many. -/
structure ReportsGrowth (d : Dense w) : Prop where
  insert : ∀ i value, i ≤ d.size → w.Roomy (d.size + 1) →
    d.Grows (Container.insert d i value) 1 .trace (.growing w.bits · 1)
  insertCopies : ∀ i count value, i ≤ d.size → w.Roomy (d.size + count) →
    d.Grows (d.insertCopies i count value) count .trace (.growing w.bits · count)
  insertList : ∀ i values, i ≤ d.size → w.Roomy (d.size + values.length) →
    d.Grows (d.insertList i values) values.length .trace (.growing w.bits · values.length)
  append : ∀ values, w.Roomy (d.size + values.length) →
    d.Grows (Storage.append d values) values.length .trace (.growing w.bits · values.length)
  extend : ∀ feed : Feed, w.Roomy (d.size + feed.values.length) →
    d.Pushes (Storage.extend d feed) feed
  ofPushes : ∀ feed : Feed, w.Roomy feed.values.length →
    (empty : Dense w).Pushes (Storage.ofPushes feed) feed
  /-- The words of the elements before are gone, so all words at the end count as added. -/
  assign : ∀ feed : Feed, w.Roomy feed.values.length → d.clear.Pushes (Storage.assign d feed) feed
  /-- Room that is set aside is no part of the store yet. -/
  reserve : ∀ n, w.Countable (d.size + n) → ∃ d' needed, (d.reserve n).result = .ok d' ∧
    w.wordCount (d.size + n) = .ok needed ∧ d'.words = d.words ∧ d'.size = d.size ∧
    d'.toList = d.toList ∧
    (d.reserve n).notes = Note.ofWords (.reservingWords · n w.bits) (needed - d.words.size) ∧
    ∀ line ∈ (d.reserve n).notes, line.level = .debug

theorem growth_reported_exactly (h : d.WellFormed) : d.ReportsGrowth where
  insert _ value hi hn := grows_of_insertCopies h hi hn value
  insertCopies _ _ value hi hn := grows_of_insertCopies h hi hn value
  insertList _ _ hi hn := grows_of_insertList h hi hn
  append _ hn := grows_of_insertList h (Nat.le_refl _) hn
  extend _ hn := pushes_of_extend h hn
  ofPushes _ hn := pushes_from_nothing ⟨rfl, rfl⟩ hn
  assign _ hn := pushes_from_nothing (d := d.clear) ⟨rfl, rfl⟩ hn
  reserve n hn := by
    obtain ⟨d', hrun, hwords, hd'⟩ := reserve_spec h hn
    have hnotes := reserve_notes hn
    refine ⟨d', _, hrun, Width.wordCount_of_countable hn, hwords, ?_, hd'.toList, hnotes, ?_⟩
    · rw [hd'.size, length_toList]
    · rw [hnotes]
      exact Note.level_ofWords (fun _ => rfl) _

/-- Six elements fit into the padding behind three, and a seventh takes a word; a feed that
announces only six of seven values adds that word as well, and nothing is told of it. -/
theorem growth_of_stale :
    (∃ d', (stale.insertList 1 [1, 2, 3, 4, 5, 6]).result = .ok d' ∧ d'.words.size = 1 ∧
      (stale.insertList 1 [1, 2, 3, 4, 5, 6]).notes = []) ∧
    (∃ d', (Storage.extend stale (.exact [1, 2, 3, 4, 5, 6, 7])).result = .ok d' ∧
      d'.words.size = 2 ∧
      (Storage.extend stale (.exact [1, 2, 3, 4, 5, 6, 7])).notes = [.reservingWords 1 7 7]) ∧
    ∃ d', (Storage.extend stale ⟨[1, 2, 3, 4, 5, 6, 7], 6, by decide⟩).result = .ok d' ∧
      d'.words.size = 2 ∧
      (Storage.extend stale ⟨[1, 2, 3, 4, 5, 6, 7], 6, by decide⟩).notes = [] := by
  have hwf : stale.WellFormed := rfl
  have h := growth_reported_exactly hwf
  obtain ⟨d', before, after, hrun, _, hbefore, hafter, hwords, hnotes, _⟩ :=
    h.insertList 1 [1, 2, 3, 4, 5, 6] (by decide) (by decide)
  cases hbefore
  cases hafter
  refine ⟨⟨d', hrun, hwords, hnotes⟩, ?_, ?_⟩
  · obtain ⟨d', before, after, hrun, _, hbefore, hafter, hwords, hnotes, _⟩ :=
      (h.extend (.exact [1, 2, 3, 4, 5, 6, 7]) (by decide)).exact rfl
    cases hbefore
    cases hafter
    exact ⟨d', hrun, hwords, hnotes⟩
  · obtain ⟨d', before, due, after, hrun, _, hbefore, hdue, hafter, hwords, hnotes, _⟩ :=
      (h.extend ⟨[1, 2, 3, 4, 5, 6, 7], 6, by decide⟩ (by decide)).announced
    cases hbefore
    cases hdue
    cases hafter
    exact ⟨d', hrun, hwords, hnotes⟩

/-- Words can be added without a note: here one value is pushed that was not announced. -/
theorem growth_untold_of_unannounced :
    ¬∀ (w : Width) (d : Dense w) (feed : Feed), d.WellFormed →
      w.Roomy (d.size + feed.values.length) →
      d.Grows (Storage.extend d feed) feed.values.length .debug
        (.reservingWords · feed.values.length w.bits) := by
  intro h
  obtain ⟨_, before, after, _, _, hbefore, hafter, _, hnotes, _⟩ :=
    h { bits := 7 } empty ⟨[1], 0, by decide⟩ wellFormed_empty (by decide)
  cases hbefore
  cases hafter
  have hsilent :
      (Storage.extend (empty : Dense { bits := 7 }) ⟨[1], 0, by decide⟩).notes = [] := rfl
  cases hsilent.symm.trans hnotes

end Dense

end NarrowVec
