import NarrowVec.Proofs.Safety

/-!
# Room

Memory is set aside for at least as many words as a store has.  An operation that adds words sets
room aside for them, and writing to cells adds none, so this holds of every store that a session can
come to.
-/

set_option autoImplicit false

namespace NarrowVec

/-! ## What writing to cells keeps -/

/-- Storing to a cell keeps `P`, whichever cell and value. -/
def Cells.Keep {σ ρ : Type} [Cells σ ρ] (P : σ → Prop) : Prop :=
  ∀ {s s' : σ} {p : ρ} {value : Word}, P s → Cells.store s p value = .ok s' → P s'

namespace Cells.Keep

variable {σ ρ : Type} [Cells σ ρ] {P : σ → Prop} {s s' : σ} {p q : ρ} {reply : Reply}
  {label : ρ → Word → String} {action : Action}

theorem exchange (k : Keep P) (hs : P s) (h : Cells.exchange s p q = .ok s') : P s' := by
  obtain ⟨first, _, h⟩ := bind_eq_ok_iff.mp h
  obtain ⟨second, _, h⟩ := bind_eq_ok_iff.mp h
  obtain ⟨mid, hfirst, hsecond⟩ := bind_eq_ok_iff.mp h
  exact k (k hs hfirst) hsecond

theorem run (k : Keep P) (hs : P s) (h : action.run label s p = .ok (reply, s')) : P s' := by
  cases action with
  | get | equals _ | describe =>
      obtain ⟨_, _, hdone⟩ := bind_eq_ok_iff.mp h
      cases hdone
      exact hs
  | set value =>
      obtain ⟨_, hstore, hdone⟩ := bind_eq_ok_iff.mp h
      cases hdone
      exact k hs hstore
  | replace value | exchange value =>
      obtain ⟨_, _, hrest⟩ := bind_eq_ok_iff.mp h
      obtain ⟨_, hstore, hdone⟩ := bind_eq_ok_iff.mp hrest
      cases hdone
      exact k hs hstore
  | update f =>
      obtain ⟨_, _, hrest⟩ := bind_eq_ok_iff.mp h
      obtain ⟨_, hstore, hagain⟩ := bind_eq_ok_iff.mp hrest
      obtain ⟨_, _, hdone⟩ := bind_eq_ok_iff.mp hagain
      cases hdone
      exact k hs hstore

theorem runAll (k : Keep P) (positions : List ρ) :
    ∀ {s : σ} {replies : List Reply}, P s →
      action.runAll label s positions = .ok (replies, s') → P s' := by
  induction positions with
  | nil =>
      intro s replies hs h
      cases h
      exact hs
  | cons p rest ih =>
      intro s replies hs h
      obtain ⟨⟨_, mid⟩, hfirst, hrest⟩ := bind_eq_ok_iff.mp h
      obtain ⟨⟨_, last⟩, hlast, hdone⟩ := bind_eq_ok_iff.mp hrest
      cases hdone
      exact ih (k.run hs hfirst) hlast

variable {c c' : Cursor ρ} {answer : Visit.Answer}

theorem act (k : Keep P) {taken : Option ρ × Cursor ρ} (hs : P s)
    (h : Visit.act label s action taken = .ok (answer, s', c')) : P s' := by
  obtain ⟨cell, c⟩ := taken
  cases cell with
  | none =>
      cases h
      exact hs
  | some p =>
      obtain ⟨⟨_, _⟩, hrun, hdone⟩ := bind_eq_ok_iff.mp h
      cases hdone
      exact k.run hs hrun

variable [Position ρ]

theorem swapEnds (k : Keep P) (hs : P s) (h : Visit.swapEnds s c = .ok (answer, s', c')) :
    P s' := by
  obtain ⟨⟨first, _⟩, _, h⟩ := bind_eq_ok_iff.mp h
  obtain ⟨⟨second, _⟩, _, h⟩ := bind_eq_ok_iff.mp h
  cases first with
  | none =>
      cases h
      exact hs
  | some p =>
      cases second with
      | none =>
          cases h
          exact hs
      | some q =>
          obtain ⟨_, hexchange, h⟩ := bind_eq_ok_iff.mp h
          obtain ⟨_, _, h⟩ := bind_eq_ok_iff.mp h
          obtain ⟨_, _, hdone⟩ := bind_eq_ok_iff.mp h
          cases hdone
          exact k.exchange hs hexchange

theorem pairs {i j : Nat} (k : Keep P) (hs : P s)
    (h : Visit.pairs s c i j = .ok (answer, s', c')) : P s' := by
  obtain ⟨positions, _, h⟩ := bind_eq_ok_iff.mp h
  split at h
  · obtain ⟨_, hexchange, h⟩ := bind_eq_ok_iff.mp h
    obtain ⟨_, _, hdone⟩ := bind_eq_ok_iff.mp h
    cases hdone
    exact k.exchange hs hexchange
  · cases h

theorem step (k : Keep P) {call : Visit.Call} (hs : P s)
    (h : Visit.step label s c call = .ok (answer, s', c')) : P s' := by
  cases call with
  | popLow action | popHigh action | popLowAfter n action =>
      obtain ⟨_, _, hact⟩ := bind_eq_ok_iff.mp h
      exact k.act hs hact
  | size | sizeBounds =>
      cases h
      exact hs
  | swapEnds => exact k.swapEnds hs h
  | each action | eachDown action =>
      obtain ⟨positions, _, hrest⟩ := bind_eq_ok_iff.mp h
      obtain ⟨⟨_, _⟩, hrun, hdone⟩ := bind_eq_ok_iff.mp hrest
      cases hdone
      exact k.runAll positions hs hrun
  | pairs i j => exact k.pairs hs h

theorem visit (k : Keep P) (calls : List Visit.Call) :
    ∀ {s : σ} {c : Cursor ρ} {answers : List Visit.Answer}, P s →
      Visit.run label s c calls = .ok (answers, s') → P s' := by
  induction calls with
  | nil =>
      intro s c answers hs h
      cases h
      exact hs
  | cons call rest ih =>
      intro s c answers hs h
      obtain ⟨⟨_, mid, _⟩, hfirst, hrest⟩ := bind_eq_ok_iff.mp h
      obtain ⟨⟨_, last⟩, hlast, hdone⟩ := bind_eq_ok_iff.mp hrest
      cases hdone
      exact ih (k.step hs hfirst) hlast

end Cells.Keep

/-! ## The number of words -/

namespace Words

variable {words words' : Words} {n : Nat}

theorem size_of_store {a : Address} {value : Word} (h : words.store a value = .ok words') :
    words'.size = words.size := by
  obtain ⟨_, _, h⟩ := bind_eq_ok_iff.mp h
  obtain ⟨mask, _, h⟩ := bind_eq_ok_iff.mp h
  obtain ⟨first, _, h⟩ := bind_eq_ok_iff.mp h
  obtain ⟨hole, _, h⟩ := bind_eq_ok_iff.mp h
  obtain ⟨low, _, h⟩ := bind_eq_ok_iff.mp h
  obtain ⟨mid, hfirst, h⟩ := bind_eq_ok_iff.mp h
  obtain ⟨stored, _, h⟩ := bind_eq_ok_iff.mp h
  split at h
  · obtain ⟨next, _, h⟩ := bind_eq_ok_iff.mp h
    obtain ⟨second, _, h⟩ := bind_eq_ok_iff.mp h
    obtain ⟨hole, _, h⟩ := bind_eq_ok_iff.mp h
    obtain ⟨high, _, hsecond⟩ := bind_eq_ok_iff.mp h
    exact (size_of_put hsecond).trans (size_of_put hfirst)
  · cases h
    exact size_of_put hfirst

theorem keep_size : Cells.Keep fun words : Words => words.size = n :=
  fun hs hstore => (size_of_store hstore).trans hs

theorem size_of_storeAll (values : List Word) :
    ∀ {words : Words} {a : Address}, words.storeAll a values = .ok words' →
      words'.size = words.size := by
  induction values with
  | nil =>
      intro words a h
      cases h
      rfl
  | cons value rest ih =>
      intro words a h
      obtain ⟨mid, hstore, hrest⟩ := bind_eq_ok_iff.mp h
      obtain ⟨next, _, hlast⟩ := bind_eq_ok_iff.mp hrest
      exact (ih hlast).trans (size_of_store hstore)

theorem size_of_copyUp (count : Nat) :
    ∀ {words : Words} {source target : Address},
      words.copyUp source target count = .ok words' → words'.size = words.size := by
  induction count with
  | zero =>
      intro words source target h
      cases h
      rfl
  | succ count ih =>
      intro words source target h
      obtain ⟨value, _, h⟩ := bind_eq_ok_iff.mp h
      obtain ⟨mid, hstore, h⟩ := bind_eq_ok_iff.mp h
      obtain ⟨_, _, h⟩ := bind_eq_ok_iff.mp h
      obtain ⟨_, _, h⟩ := bind_eq_ok_iff.mp h
      exact (ih h).trans (size_of_store hstore)

theorem size_of_copyDown (count : Nat) :
    ∀ {words : Words} {source target : Address},
      words.copyDown source target count = .ok words' → words'.size = words.size := by
  induction count with
  | zero =>
      intro words source target h
      cases h
      rfl
  | succ count ih =>
      intro words source target h
      obtain ⟨_, _, h⟩ := bind_eq_ok_iff.mp h
      obtain ⟨_, _, h⟩ := bind_eq_ok_iff.mp h
      obtain ⟨value, _, h⟩ := bind_eq_ok_iff.mp h
      obtain ⟨mid, hstore, h⟩ := bind_eq_ok_iff.mp h
      exact (ih h).trans (size_of_store hstore)

theorem size_of_exchange {a b : Address} (h : words.exchange a b = .ok words') :
    words'.size = words.size := by
  obtain ⟨_, _, hexchange⟩ := bind_eq_ok_iff.mp h
  exact keep_size.exchange rfl hexchange

theorem size_take_le (words : Words) (n : Nat) : (words.take n).size ≤ words.size := by
  rw [Array.take_eq_extract, Array.size_extract]
  omega

end Words

namespace Dense

variable {w : Width} {d d' : Dense w} {i n : Nat} {value : Word} {values : List Word} {feed : Feed}

/-! ## Room for all words -/

/-- Memory is set aside for all words of the store. -/
def Backed (d : Dense w) : Prop := d.words.size ≤ d.room

instance (d : Dense w) : Decidable d.Backed :=
  inferInstanceAs (Decidable (d.words.size ≤ d.room))

theorem Backed.of_size_eq {words : Words} (h : d.Backed) (hsize : words.size = d.words.size) :
    ({ d with words } : Dense w).Backed :=
  Nat.le_trans (Nat.le_of_eq hsize) h

theorem Backed.of_written {x : Except Fault Words} (h : d.Backed)
    (hsize : ∀ {words}, x = .ok words → words.size = d.words.size)
    (hrun : (do let words ← x; return { d with words } : Except Fault (Dense w)) = .ok d') :
    d'.Backed := by
  obtain ⟨words, hwritten, hdone⟩ := bind_eq_ok_iff.mp hrun
  cases hdone
  exact h.of_size_eq (hsize hwritten)

theorem backed_empty : (empty : Dense w).Backed := Nat.le_refl 0

theorem backed_withWords (words : Words) : (d.withWords words).Backed :=
  Nat.le_max_right d.room words.size

theorem keep_backed : Cells.Keep (Backed (w := w)) :=
  fun h hrun => h.of_written Words.size_of_store hrun

theorem backed_of_set (h : d.Backed) (hrun : d.set i value = .ok d') : d'.Backed := by
  obtain ⟨a, _, hstore⟩ := bind_eq_ok_iff.mp hrun
  exact keep_backed h hstore

theorem backed_of_storeFrom (h : d.Backed) (hrun : d.storeFrom i values = .ok d') :
    d'.Backed := by
  obtain ⟨a, _, hrest⟩ := bind_eq_ok_iff.mp hrun
  exact h.of_written (Words.size_of_storeAll values) hrest

/-! ### At the end -/

theorem backed_of_zeros (hrun : zeros n = .ok d') : d'.Backed := by
  obtain ⟨needed, _, hdone⟩ := bind_eq_ok_iff.mp hrun
  cases hdone
  exact Nat.le_of_eq Array.size_replicate

theorem backed_of_ofList (hrun : ofList values = .ok d') : d'.Backed := by
  obtain ⟨new, hzeros, hstore⟩ := bind_eq_ok_iff.mp hrun
  exact backed_of_storeFrom (backed_of_zeros hzeros) hstore

theorem backed_of_push (hrun : d.push value = .ok d') : d'.Backed := by
  obtain ⟨size, _, hrest⟩ := bind_eq_ok_iff.mp hrun
  obtain ⟨needed, _, hrest⟩ := bind_eq_ok_iff.mp hrest
  obtain ⟨last, _, hset⟩ := bind_eq_ok_iff.mp hrest
  have hgrown : ({ d.withWords (d.words.padTo needed) with size } : Dense w).Backed :=
    backed_withWords _
  exact backed_of_set hgrown hset

theorem backed_of_pop {popped : Option Word} (h : d.Backed) (hrun : d.pop = .ok (popped, d')) :
    d'.Backed := by
  obtain ⟨last, _, hrest⟩ := bind_eq_ok_iff.mp hrun
  cases last with
  | none =>
      cases hrest
      exact h
  | some value =>
      obtain ⟨size, _, hrest⟩ := bind_eq_ok_iff.mp hrest
      obtain ⟨needed, _, hdone⟩ := bind_eq_ok_iff.mp hrest
      cases hdone
      exact Nat.le_trans (Words.size_take_le d.words needed) h

theorem backed_of_setSize (hrun : d.setSize n = .ok d') : d'.Backed := by
  obtain ⟨needed, _, hdone⟩ := bind_eq_ok_iff.mp hrun
  cases hdone
  exact backed_withWords (d := d) _

theorem backed_of_resize (hrun : d.resize n value = .ok d') : d'.Backed := by
  obtain ⟨grown, hset, hrest⟩ := bind_eq_ok_iff.mp hrun
  have hgrown := backed_of_setSize hset
  split at hrest
  · exact backed_of_storeFrom hgrown hrest
  · cases hrest
    exact hgrown

theorem backed_of_truncate (h : d.Backed) (hrun : d.truncate n = .ok d') : d'.Backed := by
  simp only [truncate] at hrun
  split at hrun
  · exact backed_of_setSize hrun
  · cases hrun
    exact h

theorem backed_clear (d : Dense w) : d.clear.Backed := Nat.zero_le d.room

theorem backed_of_reserve (h : d.Backed) (hrun : (d.reserve n).result = .ok d') : d'.Backed := by
  obtain ⟨total, _, hrest⟩ := Traced.lift_result_eq_ok_iff.mp hrun
  obtain ⟨needed, _, hrest⟩ := Traced.lift_result_eq_ok_iff.mp hrest
  split at hrest
  · obtain ⟨_, _, hrest⟩ := Traced.lift_result_eq_ok_iff.mp hrest
    cases hrest
    exact Nat.le_trans h (Nat.le_max_left _ _)
  · cases hrest
    exact h

theorem backed_of_extend (h : d.Backed) (hrun : (Storage.extend d feed).result = .ok d') :
    d'.Backed :=
  Storage.keeps_of_extend (fun _ hpush => backed_of_push hpush) backed_of_reserve h hrun

/-! ### In the middle -/

theorem backed_of_grow (h : d.Backed) (hrun : (d.grow n).result = .ok d') : d'.Backed := by
  obtain ⟨_, _, hrest⟩ := Traced.lift_result_eq_ok_iff.mp hrun
  obtain ⟨_, _, hrest⟩ := Traced.lift_result_eq_ok_iff.mp hrest
  obtain ⟨_, _, hrest⟩ := Traced.lift_result_eq_ok_iff.mp hrest
  obtain ⟨_, _, hrest⟩ := Traced.lift_result_eq_ok_iff.mp hrest
  split at hrest
  · obtain ⟨_, _, hrest⟩ := Traced.lift_result_eq_ok_iff.mp hrest
    obtain ⟨_, _, hrest⟩ := Traced.bind_result_eq_ok_iff.mp hrest
    obtain ⟨_, _, hdone⟩ := Traced.lift_result_eq_ok_iff.mp hrest
    cases hdone
    exact backed_withWords (d := d) _
  · cases hrest
    exact h

theorem backed_of_makeRoom (h : d.Backed) (hrun : (d.makeRoom i n).result = .ok d') :
    d'.Backed := by
  obtain ⟨_, _, hrest⟩ := Traced.lift_result_eq_ok_iff.mp hrun
  split at hrest
  · cases hrest
    exact h
  · obtain ⟨grown, hgrow, hrest⟩ := Traced.bind_result_eq_ok_iff.mp hrest
    obtain ⟨_, _, hrest⟩ := Traced.lift_result_eq_ok_iff.mp hrest
    obtain ⟨_, _, hrest⟩ := Traced.lift_result_eq_ok_iff.mp hrest
    obtain ⟨_, _, hrest⟩ := Traced.lift_result_eq_ok_iff.mp hrest
    obtain ⟨_, _, hrest⟩ := Traced.lift_result_eq_ok_iff.mp hrest
    obtain ⟨_, _, hrest⟩ := Traced.lift_result_eq_ok_iff.mp hrest
    obtain ⟨words, hcopy, hdone⟩ := Traced.lift_result_eq_ok_iff.mp hrest
    cases hdone
    -- The elements move within the words that growing has set room aside for.
    exact (backed_of_grow h hgrow).of_size_eq (Words.size_of_copyDown _ hcopy)

theorem backed_of_insertList (h : d.Backed) (hrun : (d.insertList i values).result = .ok d') :
    d'.Backed := by
  obtain ⟨opened, hopen, hstore⟩ := Traced.bind_result_eq_ok_iff.mp hrun
  exact backed_of_storeFrom (backed_of_makeRoom h hopen) hstore

theorem backed_of_insertCopies (h : d.Backed)
    (hrun : (d.insertCopies i n value).result = .ok d') : d'.Backed := by
  obtain ⟨opened, hopen, hrest⟩ := Traced.bind_result_eq_ok_iff.mp hrun
  obtain ⟨_, _, hstore⟩ := Traced.lift_result_eq_ok_iff.mp hrest
  exact backed_of_storeFrom (backed_of_makeRoom h hopen) hstore

theorem backed_of_erase {e : Extent} (h : d.Backed) (hrun : d.erase e = .ok d') : d'.Backed := by
  obtain ⟨s, _, hrest⟩ := bind_eq_ok_iff.mp hrun
  split at hrest
  · cases hrest
    exact h
  · obtain ⟨_, _, hrest⟩ := bind_eq_ok_iff.mp hrest
    obtain ⟨_, _, hrest⟩ := bind_eq_ok_iff.mp hrest
    obtain ⟨words, hcopy, hrest⟩ := bind_eq_ok_iff.mp hrest
    obtain ⟨_, _, hrest⟩ := bind_eq_ok_iff.mp hrest
    obtain ⟨needed, _, hdone⟩ := bind_eq_ok_iff.mp hrest
    cases hdone
    have hcopied : words.size ≤ d.room := h.of_size_eq (Words.size_of_copyUp _ hcopy)
    exact Nat.le_trans (Words.size_take_le words needed) hcopied

theorem backed_of_remove (h : d.Backed) (hrun : d.remove i = .ok (value, d')) : d'.Backed := by
  obtain ⟨_, _, hrest⟩ := bind_eq_ok_iff.mp hrun
  obtain ⟨_, _, hrest⟩ := bind_eq_ok_iff.mp hrest
  obtain ⟨_, _, hrest⟩ := bind_eq_ok_iff.mp hrest
  obtain ⟨_, herase, hdone⟩ := bind_eq_ok_iff.mp hrest
  cases hdone
  exact backed_of_erase h herase

theorem backed_of_swap {j : Nat} (h : d.Backed) (hrun : d.swap i j = .ok d') : d'.Backed := by
  obtain ⟨_, _, hrest⟩ := bind_eq_ok_iff.mp hrun
  obtain ⟨_, _, hrest⟩ := bind_eq_ok_iff.mp hrest
  obtain ⟨_, _, hrest⟩ := bind_eq_ok_iff.mp hrest
  exact h.of_written Words.size_of_exchange hrest

/-! ### In place -/

variable {label : Address → Word → String}

theorem backed_of_act {action : Action} {reply : Reply} (h : d.Backed)
    (hrun : d.act label i action = .ok (reply, d')) : d'.Backed := by
  obtain ⟨a, _, haction⟩ := bind_eq_ok_iff.mp hrun
  exact keep_backed.run h haction

theorem backed_of_visit {calls : List Visit.Call} {answers : List Visit.Answer} (h : d.Backed)
    (hrun : d.visit label calls = .ok (answers, d')) : d'.Backed := by
  obtain ⟨c, _, hvisit⟩ := bind_eq_ok_iff.mp hrun
  exact keep_backed.visit calls h hvisit

theorem backed_of_setByte {byte : Byte} (h : d.Backed) (hrun : d.setByte i byte = .ok d') :
    d'.Backed :=
  h.of_written Bytes.size_of_put hrun

theorem backed_of_setWord {word : Word} (h : d.Backed) (hrun : d.setWord i word = .ok d') :
    d'.Backed :=
  h.of_written Words.size_of_put hrun

/-! ## Room in all histories -/

theorem evolves_backed : Container.Evolves (fun d d' : Dense w => d.Backed → d'.Backed)
    fun _ d' => d'.Backed where
  refl _ := id
  reserve hrun h := backed_of_reserve h hrun
  shrink d _ := Nat.le_refl d.words.size
  set hrun h := backed_of_set h hrun
  push hrun _ := backed_of_push hrun
  pop hrun h := backed_of_pop h hrun
  insertCopies hrun h := backed_of_insertCopies h hrun
  insertList hrun h := backed_of_insertList h hrun
  insert hrun h := backed_of_insertCopies h hrun
  extend hrun h := backed_of_extend h hrun
  remove hrun h := backed_of_remove h hrun
  erase hrun h := backed_of_erase h hrun
  resize hrun _ := backed_of_resize hrun
  setSize hrun _ := backed_of_setSize hrun
  truncate hrun h := backed_of_truncate h hrun
  swap hrun h := backed_of_swap h hrun
  act hrun h := backed_of_act h hrun
  visit hrun h := backed_of_visit h hrun
  empty _ := backed_empty
  emptyWithCapacity {_ _ n} hrun := by
    obtain ⟨room, _, hdone⟩ := bind_eq_ok_iff.mp hrun
    cases hdone
    exact Nat.zero_le room
  zeros hrun := backed_of_zeros hrun
  replicate hrun := backed_of_ofList (replicate_eq_ofList.symm.trans hrun)
  ofList hrun := backed_of_ofList hrun
  ofPushes hrun := backed_of_extend backed_empty hrun
  assign {d _ _} hrun := backed_of_extend (backed_clear d) hrun
  assignCopies hrun := backed_of_resize hrun
  clear := backed_clear

theorem Reachable.backed (h : d.Reachable) : d.Backed :=
  Session.keeps_of_reached
    (keeps_of_perform evolves_backed (fun hd hedit => hedit hd) (fun _ hd' => hd')
      (fun {d} _ => Nat.le_refl d.words.size) backed_of_setByte backed_of_setWord)
    backed_empty h

end Dense

end NarrowVec
