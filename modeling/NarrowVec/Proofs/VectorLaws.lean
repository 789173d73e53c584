import NarrowVec.Proofs.Backings
import NarrowVec.Proofs.Vectors

/-!
# Vectors as lists

A vector passes its operations on to the backing of its width, so it obeys the laws of containers as
far as both kinds of backing do: for all sizes whose bits can be counted together with padding, and
up to the cause of the faults that nobody can recover from.
-/

set_option autoImplicit false

namespace NarrowVec

theorem Width.eq_of_lane? {w : Width} {lane : Lane} (h : w.lane? = some lane) :
    lane.width = w := by
  obtain ⟨bits, _, _⟩ := w
  simp only [lane?] at h
  split at h
  all_goals
    cases h
    try rfl

namespace UIntVec

variable {w : Width} {v : UIntVec w} {values : List Word} {fault : Fault}

def view (w : Width) : ListView (UIntVec w) where
  width := w
  Valid := Canonical
  Fits := w.Roomy
  Means fault fault' := fault.recoverable? = fault'.recoverable?

theorem recovers (w : Width) : (view w).Recovers := id

theorem embeds_native {lane : Lane} (h : w.lane? = some lane) :
    (Buffer.view lane).Embeds (view w) (native lane) where
  valid _ := h
  toList _ := rfl
  means := id

theorem embeds_dense (h : w.lane? = none) : (Dense.view w).Embeds (view w) dense where
  valid hd := ⟨h, hd⟩
  toList _ := rfl
  means := Dense.recovers w

/-! ## What the backings have in common -/

/-- A view of stores that back the vectors of a width. -/
structure Backs {σ : Type} [Storage σ] (V : ListView σ) (w : Width) : Prop where
  laws : Storage.Laws V
  width : V.width = w
  fits : ∀ {n}, w.Roomy n → V.Fits n

structure Serves {σ : Type} [Storage σ] (V : ListView σ) (s : σ) (v : UIntVec w) : Prop
    extends Backs V w where
  valid : V.Valid s
  toList : Storage.toList s = Storage.toList v
  size : Storage.size s = Storage.size v

theorem backs_native {lane : Lane} (h : w.lane? = some lane) : Backs (Buffer.view lane) w where
  laws := Buffer.laws lane
  width := Width.eq_of_lane? h
  fits hn := by
    have hwidth := Width.eq_of_lane? h
    subst hwidth
    exact hn

theorem backs_dense : Backs (Dense.view w) w where
  laws := Dense.storage_laws w
  width := rfl
  fits hn := hn.countable

theorem serves_native {lane : Lane} {b : Buffer lane} (h : (native lane b : UIntVec w).Canonical) :
    Serves (Buffer.view lane) b (native lane b : UIntVec w) where
  toBacks := backs_native h
  valid := trivial
  toList := rfl
  size := rfl

theorem serves_dense {d : Dense w} (h : (dense d).Canonical) :
    Serves (Dense.view w) d (dense d) where
  toBacks := backs_dense
  valid := h.2
  toList := rfl
  size := rfl

section Backings

variable {σ : Type} [Storage σ] {V : ListView σ} {s : σ}

theorem Serves.roomy (b : Serves V s v) (h : w.Roomy (Storage.size v)) :
    V.width.Roomy (Storage.size s) := by
  rw [b.width, b.size]
  exact h

end Backings

theorem makes_of_build {make : (σ : Type) → [Storage σ] → Except Fault σ}
    (hmake : ∀ {σ : Type} [Storage σ] {V : ListView σ}, Backs V w → V.Makes (make σ) values) :
    (view w).Makes (build make) values := by
  simp only [build]
  split
  · rename_i lane hlane
    exact (embeds_native hlane).makes (hmake (backs_native hlane))
  · rename_i hlane
    exact (embeds_dense hlane).makes (hmake backs_dense)

theorem makes_of_edit {f : {σ : Type} → [Storage σ] → σ → Except Fault σ} (h : v.Canonical)
    (hf : ∀ {σ : Type} [Storage σ] {V : ListView σ} {s : σ}, Serves V s v →
      V.Makes (f s) values) : (view w).Makes (v.edit f) values := by
  cases v with
  | native lane items => exact (embeds_native h).makes (hf (serves_native h))
  | dense fields => exact (embeds_dense h.1).makes (hf (serves_dense h))

theorem makes_of_traced {f : {σ : Type} → [Storage σ] → σ → Traced σ} (h : v.Canonical)
    (hf : ∀ {σ : Type} [Storage σ] {V : ListView σ} {s : σ}, Serves V s v →
      V.Makes (f s).result values) : (view w).Makes (v.edit f).result values := by
  cases v with
  | native lane items => exact (embeds_native h).traced (hf (serves_native h))
  | dense fields => exact (embeds_dense h.1).traced (hf (serves_dense h))

theorem holds_of_edit {f : {σ : Type} → [Storage σ] → σ → σ} (h : v.Canonical)
    (hf : ∀ {σ : Type} [Storage σ] {V : ListView σ} {s : σ}, Serves V s v →
      V.Holds (f s) values) : (view w).Holds (Id.run (v.edit f)) values := by
  cases v with
  | native lane items => exact (embeds_native h).holds (hf (serves_native h))
  | dense fields => exact (embeds_dense h.1).holds (hf (serves_dense h))

theorem answers_of_editWith {α : Type} {a : α}
    {f : {σ : Type} → [Storage σ] → σ → Except Fault (α × σ)} (h : v.Canonical)
    (hf : ∀ {σ : Type} [Storage σ] {V : ListView σ} {s : σ}, Serves V s v →
      V.Answers (f s) a values) : (view w).Answers (v.editWith f) a values := by
  cases v with
  | native lane items => exact (embeds_native h).answers (hf (serves_native h))
  | dense fields => exact (embeds_dense h.1).answers (hf (serves_dense h))

theorem refuses_of_edit {f : {σ : Type} → [Storage σ] → σ → Except Fault σ} (h : v.Canonical)
    (hf : ∀ {σ : Type} [Storage σ] {V : ListView σ} {s : σ}, Serves V s v →
      V.Refuses (f s) fault) : (view w).Refuses (v.edit f) fault := by
  cases v with
  | native lane items => exact (embeds_native h).refuses (hf (serves_native h))
  | dense fields => exact (embeds_dense h.1).refuses (hf (serves_dense h))

theorem refuses_of_traced {f : {σ : Type} → [Storage σ] → σ → Traced σ} (h : v.Canonical)
    (hf : ∀ {σ : Type} [Storage σ] {V : ListView σ} {s : σ}, Serves V s v →
      V.Refuses (f s).result fault) : (view w).Refuses (v.edit f).result fault := by
  cases v with
  | native lane items => exact (embeds_native h).refuses_traced (hf (serves_native h))
  | dense fields => exact (embeds_dense h.1).refuses_traced (hf (serves_dense h))

theorem refuses_of_editWith {α : Type} {f : {σ : Type} → [Storage σ] → σ → Except Fault (α × σ)}
    (h : v.Canonical)
    (hf : ∀ {σ : Type} [Storage σ] {V : ListView σ} {s : σ}, Serves V s v →
      V.Refuses (f s) fault) : (view w).Refuses (v.editWith f) fault := by
  cases v with
  | native lane items => exact (embeds_native h).refuses (hf (serves_native h))
  | dense fields => exact (embeds_dense h.1).refuses (hf (serves_dense h))

/-! ## The laws of vectors -/

theorem storage_laws (w : Width) : Storage.Laws (view w) where
  means_refl _ := rfl
  fits_mono := Width.Roomy.mono
  width := rfl
  length_toList v := by
    cases v with
    | native lane b => exact b.length_toList
    | dense d => exact d.length_toList
  map_truncate {v} h := by
    cases v with
    | native lane b =>
        have hwidth := Width.eq_of_lane? h
        subst hwidth
        exact b.map_truncate_toList
    | dense d => exact d.map_truncate_toList
  empty := by
    show (view w).Holds (Id.run (build fun σ => Storage.empty (σ := σ))) []
    simp only [build]
    split
    · rename_i lane hlane
      exact (embeds_native hlane).holds (Buffer.laws lane).empty
    · rename_i hlane
      exact (embeds_dense hlane).holds (Dense.storage_laws w).empty
  emptyWithCapacity hn := makes_of_build fun b => b.laws.emptyWithCapacity (b.fits hn)
  zeros hn := makes_of_build fun b => b.laws.zeros (b.fits hn)
  replicate hn value := makes_of_build fun b => by
    have hmake := b.laws.replicate (b.fits hn) value
    rwa [b.width] at hmake
  ofList hn := makes_of_build fun b => by
    have hmake := b.laws.ofList (b.fits hn)
    rwa [b.width] at hmake
  copy h := holds_of_edit h fun b => by
    rw [← b.toList]
    exact b.laws.copy b.valid
  reserve h hn := makes_of_traced (f := fun s => Storage.reserve s _) h fun b => by
    rw [← b.size] at hn
    rw [← b.toList]
    exact b.laws.reserve b.valid (b.fits hn)
  shrink h := holds_of_edit h fun b => by
    rw [← b.toList]
    exact b.laws.shrink b.valid
  get? {v} h i := by
    cases v with
    | native lane b => exact (Buffer.laws lane).get? trivial i
    | dense d => exact (Dense.storage_laws w).get? h.2 i
  read {v i} h hi := by
    cases v with
    | native lane b => exact (Buffer.laws lane).read trivial hi
    | dense d => exact (Dense.storage_laws w).read h.2 hi
  read_refused {v i} h hi := by
    cases v with
    | native lane b => exact (Buffer.laws lane).read_refused trivial hi
    | dense d =>
        obtain ⟨fault, hread, hmeans⟩ := (Dense.storage_laws w).read_refused h.2 hi
        exact ⟨fault, hread, Dense.recovers w hmeans⟩
  set h hi value := makes_of_edit (f := fun s => Storage.set s _ value) h fun b => by
    have hset := b.laws.set b.valid (b.size ▸ hi) value
    rwa [b.toList, b.width] at hset
  set_refused h hi value := refuses_of_edit (f := fun s => Storage.set s _ value) h fun b => by
    have hset := b.laws.set_refused b.valid (b.size ▸ hi) value
    rwa [b.size] at hset
  push h hn value := makes_of_edit (f := fun s => Storage.push s value) h fun b => by
    have hpush := b.laws.push b.valid (b.fits (b.size ▸ hn)) value
    rwa [b.toList, b.width] at hpush
  pop h := answers_of_editWith h fun b => by
    have hpop := b.laws.pop b.valid
    rwa [b.toList] at hpop
  insertCopies h hi hroom hn value :=
    makes_of_traced (f := fun s => Storage.insertCopies s _ _ value) h fun b => by
      have hinsert :=
        b.laws.insertCopies b.valid (b.size ▸ hi) (b.roomy hroom) (b.fits (b.size ▸ hn)) value
      rwa [b.toList, b.width] at hinsert
  insertCopies_refused h hi n value :=
    refuses_of_traced (f := fun s => Storage.insertCopies s _ n value) h fun b => by
      have hinsert := b.laws.insertCopies_refused b.valid (b.size ▸ hi) n value
      rwa [b.size] at hinsert
  insertList h hi hroom hn :=
    makes_of_traced (f := fun s => Storage.insertList s _ _) h fun b => by
      have hinsert :=
        b.laws.insertList b.valid (b.size ▸ hi) (b.roomy hroom) (b.fits (b.size ▸ hn))
      rwa [b.toList, b.width] at hinsert
  insertList_refused h hi values :=
    refuses_of_traced (f := fun s => Storage.insertList s _ values) h fun b => by
      have hinsert := b.laws.insertList_refused b.valid (b.size ▸ hi) values
      rwa [b.size] at hinsert
  remove h hi := answers_of_editWith (f := fun s => Storage.remove s _) h fun b => by
    have hremove := b.laws.remove b.valid (b.size ▸ hi)
    rwa [b.toList] at hremove
  remove_refused h hi := refuses_of_editWith (f := fun s => Storage.remove s _) h fun b => by
    have hremove := b.laws.remove_refused b.valid (b.size ▸ hi)
    rwa [b.size] at hremove
  erase h he := makes_of_edit (f := fun s => Storage.erase s _) h fun b => by
    have herase := b.laws.erase b.valid (b.size ▸ he)
    rwa [b.toList, b.size] at herase
  erase_refused h he := refuses_of_edit (f := fun s => Storage.erase s _) h fun b =>
    b.laws.erase_refused b.valid (b.size ▸ he)
  resize h hn value := makes_of_edit (f := fun s => Storage.resize s _ value) h fun b => by
    have hresize := b.laws.resize b.valid (b.fits hn) value
    rwa [b.toList, b.size, b.width] at hresize
  truncate h n := makes_of_edit (f := fun s => Storage.truncate s n) h fun b => by
    have htruncate := b.laws.truncate b.valid n
    rwa [b.toList] at htruncate
  clear h := holds_of_edit h fun b => b.laws.clear b.valid
  swap h hi hj := makes_of_edit (f := fun s => Storage.swap s _ _) h fun b => by
    have hswap := b.laws.swap b.valid (b.size ▸ hi) (b.size ▸ hj)
    rwa [b.toList] at hswap
  swap_refused h hij := refuses_of_edit (f := fun s => Storage.swap s _ _) h fun b => by
    have hswap := b.laws.swap_refused b.valid (b.size ▸ hij)
    rwa [b.size] at hswap

def text (_ : Nat) (value : Word) : String := value.label

theorem act_spec (h : v.Canonical) {i : Nat} (hi : i < Storage.size v) (action : Action) :
    (view w).Answers (v.act i action)
      (Visit.Deque.act w text (Storage.toList v) action i).1
      (Visit.Deque.act w text (Storage.toList v) action i).2 := by
  cases v with
  | native lane b =>
      have hwidth := Width.eq_of_lane? h
      subst hwidth
      obtain ⟨b', hact, hb'⟩ := Buffer.act_spec hi action
      exact (embeds_native h).answers ⟨b', hact, Buffer.holds hb'⟩
  | dense d =>
      exact (embeds_dense h.1).answers (Dense.answers_of_becomes (Dense.act_spec h.2 hi action))

theorem act_refused (h : v.Canonical) {i : Nat} (hi : ¬i < Storage.size v) (action : Action) :
    (view w).Refuses (v.act i action) (.indexPastEnd i (Storage.size v)) := by
  cases v with
  | native lane b => exact (embeds_native h).refuses ⟨_, Buffer.act_refused hi action, rfl⟩
  | dense d => exact (embeds_dense h.1).refuses ⟨_, Dense.act_refused hi action, rfl⟩

theorem entries_spec (h : v.Canonical) : v.entries = .ok (Storage.toList v) := by
  cases v with
  | native lane b => rfl
  | dense d => exact Dense.entries_spec h.2

theorem scan_spec (h : v.Canonical) (hroom : w.Roomy (Storage.size v)) {calls : List Scan.Call}
    (hlegal : ∀ call ∈ calls, call.Legal) :
    v.scan calls = .ok (Scan.onDeque (Storage.toList v) calls) := by
  cases v with
  | native lane b => exact Buffer.scan_spec hroom.countable.lt hlegal
  | dense d => exact Dense.scan_spec h.2 hroom hlegal

theorem scan_refused (h : v.Canonical) (hroom : w.Roomy (Storage.size v))
    {calls : List Scan.Call} (hillegal : ¬∀ call ∈ calls, call.Legal) :
    v.scan calls = .error .bounds := by
  cases v with
  | native lane b => exact Buffer.scan_refused hroom.countable.lt hillegal
  | dense d => exact Dense.scan_refused h.2 hroom hillegal

theorem visit_spec (h : v.Canonical) (hroom : w.Roomy (Storage.size v))
    {calls : List Visit.Call} (hlegal : Visit.Legal (Storage.size v) calls) :
    (view w).Answers (v.visit calls)
      (Visit.onDeque w text ⟨Storage.toList v, 0, Storage.size v⟩ calls).1
      (Visit.onDeque w text ⟨Storage.toList v, 0, Storage.size v⟩ calls).2 := by
  cases v with
  | native lane b =>
      have hwidth := Width.eq_of_lane? h
      subst hwidth
      obtain ⟨b', hvisit, hb'⟩ := Buffer.visit_spec hroom.countable.lt hlegal
      exact (embeds_native h).answers ⟨b', hvisit, Buffer.holds hb'⟩
  | dense d =>
      exact (embeds_dense h.1).answers
        (Dense.answers_of_becomes (Dense.visit_spec h.2 hroom hlegal))

theorem visit_refused (h : v.Canonical) (hroom : w.Roomy (Storage.size v))
    {calls : List Visit.Call} (hillegal : ¬Visit.Legal (Storage.size v) calls) :
    (view w).Refuses (v.visit calls) .bounds := by
  cases v with
  | native lane b =>
      exact (embeds_native h).refuses ⟨_, Buffer.visit_refused hroom.countable.lt hillegal, rfl⟩
  | dense d =>
      exact (embeds_dense h.1).refuses ⟨_, Dense.visit_refused h.2 hroom hillegal, rfl⟩

theorem equal_spec {u : UIntVec w} (hu : u.Canonical) (hv : v.Canonical)
    (hroom : w.Roomy (Storage.size u)) :
    u.equal v = .ok (decide (Storage.toList u = Storage.toList v)) := by
  obtain ⟨same, hequal, hsame⟩ := (compared hu hv hroom).equal
  have hdecide : same = decide (Storage.toList u = Storage.toList v) :=
    Bool.eq_iff_iff.mpr (hsame.trans decide_eq_true_iff.symm)
  rw [← hdecide]
  exact hequal

theorem laws (w : Width) : Container.Laws (view w) text where
  toLaws := storage_laws w
  insert h hi hroom hn value := (storage_laws w).insertCopies h hi hroom hn value
  insert_refused h hi value := (storage_laws w).insertCopies_refused h hi 1 value
  equal := equal_spec
  entries := entries_spec
  describe h := bind_of_ok (entries_spec h)
  act h hi action := act_spec h hi action
  act_refused h hi action := act_refused h hi action
  scan h hroom hlegal := scan_spec h hroom hlegal
  scan_refused h hroom hillegal := ⟨_, scan_refused h hroom hillegal, rfl⟩
  visit h hroom hlegal := visit_spec h hroom hlegal
  visit_refused h hroom hillegal := visit_refused h hroom hillegal

theorem reachable_of_push (value : Word)
    (h : Storage.push (Storage.empty : UIntVec w) value = .ok v) : v.Reachable := by
  have hrun : (Op.perform (w := w) ⟨Storage.empty, Storage.empty⟩
      (.container (.storage (.push value)))).result = .ok (.done, ⟨v, Storage.empty⟩) :=
    Traced.result_lift_of_ok h
  refine ⟨[(.left, .container (.storage (.push value)))],
    Session.step Op.perform ⟨Storage.empty, Storage.empty⟩ .left _, List.mem_cons_self, .inl ?_⟩
  rw [Session.step_of_ok hrun]
  rfl

end UIntVec

end NarrowVec
