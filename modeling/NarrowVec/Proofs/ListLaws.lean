import NarrowVec.Proofs.Comparisons
import NarrowVec.Proofs.Histories
import NarrowVec.Proofs.ListModel

/-!
# Containers that are lists

What has to be known of the methods of a container, one by one, for every operation on it to answer
and to do what the list model says.  The containers differ in which of their values are valid, in
the sizes that they can take and in the faults they name; a `ListView` collects these differences.
-/

set_option autoImplicit false

namespace NarrowVec

/-- How stores are read as lists of elements of one width. -/
structure ListView (σ : Type) where
  width : Width
  Valid : σ → Prop
  /-- A store of that many elements can be asked for. -/
  Fits : Nat → Prop
  /-- A fault of the store stands for a fault of the list model. -/
  Means : Fault → Fault → Prop

namespace ListView

variable {σ τ : Type} {V : ListView σ} {U : ListView τ}

def Refuses (V : ListView σ) {α : Type} (x : Except Fault α) (fault : Fault) : Prop :=
  ∃ fault', x = .error fault' ∧ V.Means fault' fault

theorem Refuses.bind {α β : Type} {x : Except Fault α} {fault : Fault} (h : V.Refuses x fault)
    (f : α → Except Fault β) : V.Refuses (x >>= f) fault := by
  obtain ⟨fault', hx, hmeans⟩ := h
  exact ⟨fault', bind_of_error hx, hmeans⟩

theorem Refuses.traced {α β : Type} {x : Traced α} {fault : Fault} (h : V.Refuses x.result fault)
    (f : α → Traced β) : V.Refuses (x >>= f).result fault := by
  obtain ⟨fault', hx, hmeans⟩ := h
  exact ⟨fault', Traced.result_bind_of_error hx, hmeans⟩

theorem Refuses.lift {α β : Type} {x : Except Fault α} {fault : Fault} (h : V.Refuses x fault)
    (f : α → Traced β) : V.Refuses ((liftM x : Traced α) >>= f).result fault :=
  h.traced f

variable [Storage σ] [Storage τ]

structure Holds (V : ListView σ) (s : σ) (values : List Word) : Prop where
  valid : V.Valid s
  toList : Storage.toList s = values

def Makes (V : ListView σ) (x : Except Fault σ) (values : List Word) : Prop :=
  ∃ s, x = .ok s ∧ V.Holds s values

def Answers (V : ListView σ) {α : Type} (x : Except Fault (α × σ)) (a : α) (values : List Word) :
    Prop :=
  ∃ s, x = .ok (a, s) ∧ V.Holds s values

/-- Stores of one kind are also stores of another, with the same elements. -/
structure Embeds (V : ListView σ) (U : ListView τ) (ι : σ → τ) : Prop where
  valid : ∀ {s}, V.Valid s → U.Valid (ι s)
  toList : ∀ s, Storage.toList (ι s) = Storage.toList s
  means : ∀ {fault fault'}, V.Means fault fault' → U.Means fault fault'

namespace Embeds

variable {ι : σ → τ} {values : List Word}

theorem holds (e : V.Embeds U ι) {s : σ} (h : V.Holds s values) : U.Holds (ι s) values :=
  ⟨e.valid h.valid, (e.toList s).trans h.toList⟩

theorem makes (e : V.Embeds U ι) {x : Except Fault σ} (h : V.Makes x values) :
    U.Makes (ι <$> x) values := by
  obtain ⟨s, rfl, hs⟩ := h
  exact ⟨ι s, rfl, e.holds hs⟩

theorem traced (e : V.Embeds U ι) {x : Traced σ} (h : V.Makes x.result values) :
    U.Makes (ι <$> x).result values := by
  obtain ⟨s, hx, hs⟩ := h
  exact ⟨ι s, Traced.map_result_eq_ok_iff.mpr ⟨s, hx, rfl⟩, e.holds hs⟩

theorem answers {α : Type} {a : α} (e : V.Embeds U ι) {x : Except Fault (α × σ)}
    (h : V.Answers x a values) : U.Answers (Prod.map id ι <$> x) a values := by
  obtain ⟨s, rfl, hs⟩ := h
  exact ⟨ι s, rfl, e.holds hs⟩

theorem refuses {α β : Type} {f : α → β} (e : V.Embeds U ι) {x : Except Fault α} {fault : Fault}
    (h : V.Refuses x fault) : U.Refuses (f <$> x) fault := by
  obtain ⟨fault', rfl, hmeans⟩ := h
  exact ⟨fault', rfl, e.means hmeans⟩

theorem refuses_traced {α β : Type} {f : α → β} (e : V.Embeds U ι) {x : Traced α} {fault : Fault}
    (h : V.Refuses x.result fault) : U.Refuses (f <$> x).result fault := by
  obtain ⟨fault', hx, hmeans⟩ := h
  rw [map_eq_pure_bind]
  exact ⟨fault', Traced.result_bind_of_error hx, e.means hmeans⟩

end Embeds

end ListView

/-! ## The laws of the storage contract -/

/-- The methods of the storage contract, as methods on lists. -/
structure Storage.Laws {σ : Type} [Storage σ] (V : ListView σ) : Prop where
  means_refl : ∀ fault, V.Means fault fault
  fits_mono : ∀ {m n}, V.Fits n → m ≤ n → V.Fits m
  width : Storage.width σ = V.width.bits
  length_toList : ∀ s : σ, (Storage.toList s).length = Storage.size s
  map_truncate : ∀ {s}, V.Valid s →
    (Storage.toList s).map V.width.truncate = Storage.toList s
  empty : V.Holds Storage.empty []
  emptyWithCapacity : ∀ {n}, V.Fits n → V.Makes (Storage.emptyWithCapacity n) []
  zeros : ∀ {n}, V.Fits n → V.Makes (Storage.zeros n) (List.replicate n 0)
  replicate : ∀ {n}, V.Fits n → ∀ value,
    V.Makes (Storage.replicate n value) (List.replicate n (V.width.truncate value))
  ofList : ∀ {values : List Word}, V.Fits values.length →
    V.Makes (Storage.ofList values) (values.map V.width.truncate)
  copy : ∀ {s}, V.Valid s → V.Holds (Storage.copy s) (Storage.toList s)
  reserve : ∀ {s n}, V.Valid s → V.Fits (Storage.size s + n) →
    V.Makes (Storage.reserve s n).result (Storage.toList s)
  shrink : ∀ {s}, V.Valid s → V.Holds (Storage.shrink s) (Storage.toList s)
  get? : ∀ {s}, V.Valid s → ∀ i, Storage.get? s i = .ok (Storage.toList s)[i]?
  read : ∀ {s i}, V.Valid s → i < Storage.size s →
    Storage.read s i = .ok ((Storage.toList s).getD i 0)
  read_refused : ∀ {s i}, V.Valid s → ¬i < Storage.size s →
    V.Refuses (Storage.read s i) (.indexPastEnd i (Storage.size s))
  set : ∀ {s i}, V.Valid s → i < Storage.size s → ∀ value,
    V.Makes (Storage.set s i value) ((Storage.toList s).set i (V.width.truncate value))
  set_refused : ∀ {s i}, V.Valid s → ¬i < Storage.size s → ∀ value,
    V.Refuses (Storage.set s i value) (.indexPastEnd i (Storage.size s))
  push : ∀ {s}, V.Valid s → V.Fits (Storage.size s + 1) → ∀ value,
    V.Makes (Storage.push s value) (Storage.toList s ++ [V.width.truncate value])
  pop : ∀ {s}, V.Valid s →
    V.Answers (Storage.pop s) (Storage.toList s).getLast? (Storage.toList s).dropLast
  insertCopies : ∀ {s i n}, V.Valid s → i ≤ Storage.size s → V.width.Roomy (Storage.size s) →
    V.Fits (Storage.size s + n) → ∀ value,
    V.Makes (Storage.insertCopies s i n value).result ((Storage.toList s).take i ++
      List.replicate n (V.width.truncate value) ++ (Storage.toList s).drop i)
  insertCopies_refused : ∀ {s i}, V.Valid s → Storage.size s < i → ∀ n value,
    V.Refuses (Storage.insertCopies s i n value).result (.insertPastEnd i (Storage.size s))
  insertList : ∀ {s i} {values : List Word}, V.Valid s → i ≤ Storage.size s →
    V.width.Roomy (Storage.size s) → V.Fits (Storage.size s + values.length) →
    V.Makes (Storage.insertList s i values).result ((Storage.toList s).take i ++
      values.map V.width.truncate ++ (Storage.toList s).drop i)
  insertList_refused : ∀ {s i}, V.Valid s → Storage.size s < i → ∀ values,
    V.Refuses (Storage.insertList s i values).result (.insertPastEnd i (Storage.size s))
  remove : ∀ {s i}, V.Valid s → i < Storage.size s →
    V.Answers (Storage.remove s i) ((Storage.toList s).getD i 0) ((Storage.toList s).eraseIdx i)
  remove_refused : ∀ {s i}, V.Valid s → ¬i < Storage.size s →
    V.Refuses (Storage.remove s i) (.removePastEnd i (Storage.size s))
  erase : ∀ {s e}, V.Valid s → Extent.refusal e (Storage.size s) = none →
    V.Makes (Storage.erase s e) ((Storage.toList s).take e.lower ++
      (Storage.toList s).drop (e.upper (Storage.size s)))
  erase_refused : ∀ {s e fault}, V.Valid s → Extent.refusal e (Storage.size s) = some fault →
    V.Refuses (Storage.erase s e) fault
  resize : ∀ {s n}, V.Valid s → V.Fits n → ∀ value,
    V.Makes (Storage.resize s n value) ((Storage.toList s).take n ++
      List.replicate (n - Storage.size s) (V.width.truncate value))
  truncate : ∀ {s}, V.Valid s → ∀ n,
    V.Makes (Storage.truncate s n) ((Storage.toList s).take n)
  clear : ∀ {s}, V.Valid s → V.Holds (Storage.clear s) []
  swap : ∀ {s i j}, V.Valid s → i < Storage.size s → j < Storage.size s →
    V.Makes (Storage.swap s i j) (Visit.Deque.exchange (Storage.toList s) i j)
  swap_refused : ∀ {s i j}, V.Valid s → ¬(i < Storage.size s ∧ j < Storage.size s) →
    V.Refuses (Storage.swap s i j) (.swapPastEnd i j (Storage.size s))

/-! ## Operations on pairs -/

def Pair.lists {σ : Type} [Storage σ] (p : Pair σ) : Pair (List Word) :=
  ⟨Storage.toList p.target, Storage.toList p.other⟩

namespace ListView

variable {σ : Type} [Storage σ] {V : ListView σ} {p p' : Pair σ} {values : List Word}

/-- Two valid stores, of which the target has room to count all its bits. -/
structure Ready (V : ListView σ) (p : Pair σ) : Prop where
  target : V.Valid p.target
  other : V.Valid p.other
  roomy : V.width.Roomy (Storage.size p.target)

structure Shows (V : ListView σ) (p : Pair σ) (l : Pair (List Word)) : Prop where
  target : V.Holds p.target l.target
  other : V.Holds p.other l.other

def Yields (V : ListView σ) (x : Traced (Answer × Pair σ)) (r : Answer × Pair (List Word)) : Prop :=
  ∃ p', x.result = .ok (r.1, p') ∧ V.Shows p' r.2

theorem Ready.shows (h : V.Ready p) : V.Shows p p.lists := ⟨⟨h.target, rfl⟩, ⟨h.other, rfl⟩⟩

theorem Ready.put (h : V.Ready p) {s : σ} (hs : V.Holds s values) :
    V.Shows (p.put s) (p.lists.put values) := ⟨hs, ⟨h.other, rfl⟩⟩

theorem Ready.put_lift (h : V.Ready p) {x : Except Fault σ} {a : Answer} (hx : V.Makes x values) :
    V.Yields (do let s ← x; return (a, p.put s)) (a, p.lists.put values) := by
  obtain ⟨s, hs, hholds⟩ := hx
  exact ⟨p.put s, Traced.result_lift_of_ok hs, h.put hholds⟩

theorem Ready.put_bind (h : V.Ready p) {x : Traced σ} {a : Answer}
    (hx : V.Makes x.result values) :
    V.Yields (do let s ← x; return (a, p.put s)) (a, p.lists.put values) := by
  obtain ⟨s, hs, hholds⟩ := hx
  exact ⟨p.put s, Traced.result_bind_of_ok hs, h.put hholds⟩

theorem Ready.put_pair (h : V.Ready p) {α : Type} {x : Except Fault (α × σ)} {a : α}
    {f : α → Answer} (hx : V.Answers x a values) :
    V.Yields (do let (a, s) ← x; return (f a, p.put s)) (f a, p.lists.put values) := by
  obtain ⟨s, hs, hholds⟩ := hx
  exact ⟨p.put s, Traced.result_lift_of_ok hs, h.put hholds⟩

theorem Ready.ask (h : V.Ready p) {α : Type} {x : Except Fault α} {a : α} {f : α → Answer}
    (hx : x = .ok a) : V.Yields (do let a ← x; return (f a, p)) (f a, p.lists) :=
  ⟨p, Traced.result_lift_of_ok hx, h.shows⟩

end ListView

def Storage.Op.OnElements : Storage.Op → Prop
  | .emptyWithCapacity _ => False
  | .hasCapacity _ => False
  | .reserve _ => False
  | .shrink => False
  | .setSize _ => False
  | .bytes => False
  | .setByte .. => False
  | _ => True

namespace Storage.Laws

variable {σ : Type} [Storage σ] {V : ListView σ} {p : Pair σ} {s : σ} {n : Nat}
  {values : List Word} {feed : Feed}

theorem size_of_holds (k : Laws V) (h : V.Holds s values) : Storage.size s = values.length := by
  rw [← k.length_toList s, h.toList]

theorem isEmpty_toList (k : Laws V) : (Storage.toList s).isEmpty = true ↔ Storage.size s = 0 := by
  rw [List.isEmpty_iff_length_eq_zero, k.length_toList]

/-! ### Many elements at the end -/

theorem pushEach (k : Laws V) (values : List Word) :
    ∀ {s}, V.Valid s → V.Fits (Storage.size s + values.length) →
      V.Makes (Storage.pushEach s values) (Storage.toList s ++ values.map V.width.truncate) := by
  induction values with
  | nil =>
      intro s h _
      refine ⟨s, rfl, h, ?_⟩
      rw [List.map_nil, List.append_nil]
  | cons value rest ih =>
      intro s h hfits
      rw [List.length_cons] at hfits
      obtain ⟨mid, hpush, hmid⟩ := k.push h (k.fits_mono hfits (by omega)) value
      have hsize : Storage.size mid = Storage.size s + 1 := by
        rw [k.size_of_holds hmid, List.length_append, k.length_toList, List.length_singleton]
      obtain ⟨s', hrest, hs'⟩ := ih hmid.valid (k.fits_mono hfits (by omega))
      rw [hmid.toList, List.append_assoc, List.singleton_append, ← List.map_cons] at hs'
      refine ⟨s', ?_, hs'⟩
      rw [Storage.pushEach]
      exact (bind_of_ok hpush).trans hrest

theorem extend (k : Laws V) (h : V.Valid s)
    (hfits : V.Fits (Storage.size s + feed.values.length)) :
    V.Makes (Storage.extend s feed).result
      (Storage.toList s ++ feed.values.map V.width.truncate) := by
  have hannounced := k.fits_mono hfits (Nat.add_le_add_left feed.announced_le _)
  obtain ⟨roomy, hreserve, hroomy⟩ := k.reserve h hannounced
  have hsize : Storage.size roomy = Storage.size s := by
    rw [k.size_of_holds hroomy, k.length_toList]
  obtain ⟨s', hpush, hs'⟩ := k.pushEach feed.values hroomy.valid (by rw [hsize]; exact hfits)
  rw [hroomy.toList] at hs'
  refine ⟨s', ?_, hs'⟩
  rw [Storage.extend]
  exact (Traced.result_bind_of_ok hreserve).trans hpush

theorem ofPushes (k : Laws V) (hfits : V.Fits feed.values.length) :
    V.Makes (Storage.ofPushes feed : Traced σ).result (feed.values.map V.width.truncate) := by
  have hsize : V.Fits (Storage.size (Storage.empty : σ) + feed.values.length) := by
    rw [k.size_of_holds k.empty, List.length_nil, Nat.zero_add]
    exact hfits
  have hextend := k.extend k.empty.valid hsize
  rw [k.empty.toList, List.nil_append] at hextend
  exact hextend

theorem assign (k : Laws V) (h : V.Valid s) (hfits : V.Fits feed.values.length) :
    V.Makes (Storage.assign s feed).result (feed.values.map V.width.truncate) := by
  have hclear := k.clear h
  have hsize : V.Fits (Storage.size (Storage.clear s) + feed.values.length) := by
    rw [k.size_of_holds hclear, List.length_nil, Nat.zero_add]
    exact hfits
  have hextend := k.extend hclear.valid hsize
  rw [hclear.toList, List.nil_append] at hextend
  exact hextend

theorem assignCopies (k : Laws V) (h : V.Valid s) (hfits : V.Fits n) (value : Word) :
    V.Makes (Storage.assignCopies s n value) (List.replicate n (V.width.truncate value)) := by
  have hclear := k.clear h
  have hresize := k.resize hclear.valid hfits value
  rw [hclear.toList, k.size_of_holds hclear, List.take_nil, List.nil_append, List.length_nil,
    Nat.sub_zero] at hresize
  exact hresize

theorem append (k : Laws V) (h : V.Valid s) (hroomy : V.width.Roomy (Storage.size s))
    (hfits : V.Fits (Storage.size s + values.length)) :
    V.Makes (Storage.append s values).result
      (Storage.toList s ++ values.map V.width.truncate) := by
  have hinsert := k.insertList h (Nat.le_refl _) hroomy hfits
  rw [← k.length_toList, List.take_length, List.drop_length, List.append_nil,
    k.length_toList] at hinsert
  exact hinsert

/-! ### One operation -/

theorem fetch (k : Laws V) (h : V.Valid s) {i : Nat} (hi : i < Storage.size s) :
    Storage.fetch s i = .ok ((Storage.toList s).getD i 0) := by
  have hget : Storage.get? s i = .ok (some ((Storage.toList s).getD i 0)) := by
    rw [k.get? h, List.getElem?_eq_getElem (by rw [k.length_toList]; exact hi)]
    simp [k.length_toList, hi]
  simp only [Storage.fetch]
  rw [bind_of_ok hget]
  rfl

theorem fetch_refused (k : Laws V) (h : V.Valid s) {i : Nat} (hi : ¬i < Storage.size s) :
    Storage.fetch s i = .error (.outOfRange ⟨i, Storage.size s⟩) := by
  have hget : Storage.get? s i = .ok none := by
    rw [k.get? h, List.getElem?_eq_none (by rw [k.length_toList]; omega)]
  simp only [Storage.fetch]
  rw [bind_of_ok hget]
  rfl

theorem run_refused (k : Laws V) (h : V.Ready p) {op : Storage.Op} {fault : Fault}
    (hr : op.refusal (Storage.size p.target) = some fault) : V.Refuses (op.run p).result fault := by
  cases op with
  | fetch i =>
      obtain ⟨hi, rfl⟩ := refuseUnless_eq_some_iff.mp hr
      exact ⟨_, Traced.result_lift_of_error (k.fetch_refused h.target hi), k.means_refl _⟩
  | read i =>
      obtain ⟨hi, rfl⟩ := refuseUnless_eq_some_iff.mp hr
      exact (k.read_refused h.target hi).lift _
  | set i value =>
      obtain ⟨hi, rfl⟩ := refuseUnless_eq_some_iff.mp hr
      exact (k.set_refused h.target hi value).lift _
  | insertCopies i count value =>
      obtain ⟨hi, rfl⟩ := refuseUnless_eq_some_iff.mp hr
      exact (k.insertCopies_refused h.target (by omega) count value).traced _
  | insertList i values =>
      obtain ⟨hi, rfl⟩ := refuseUnless_eq_some_iff.mp hr
      exact (k.insertList_refused h.target (by omega) values).traced _
  | remove i =>
      obtain ⟨hi, rfl⟩ := refuseUnless_eq_some_iff.mp hr
      exact (k.remove_refused h.target hi).lift _
  | erase e => exact (k.erase_refused h.target hr).lift _
  | swap i j =>
      obtain ⟨hij, rfl⟩ := refuseUnless_eq_some_iff.mp hr
      exact (k.swap_refused h.target hij).lift _
  | _ => cases hr

theorem run_yields (k : Laws V) (h : V.Ready p) {op : Storage.Op} (hop : op.OnElements)
    (hr : op.refusal (Storage.size p.target) = none)
    (hfits : V.Fits (op.request (Storage.size p.target))) :
    V.Yields (op.run p) (op.effect V.width p.lists) := by
  cases op with
  | empty => exact ⟨_, rfl, h.put k.empty⟩
  | zeros count => exact h.put_lift (k.zeros hfits)
  | replicate count value => exact h.put_lift (k.replicate hfits value)
  | ofList values => exact h.put_lift (k.ofList hfits)
  | copyOther => exact ⟨_, rfl, k.copy h.other, ⟨h.other, rfl⟩⟩
  | size =>
      refine ⟨p, ?_, h.shows⟩
      simp only [Op.effect, Pair.lists, k.length_toList]
      rfl
  | isEmpty =>
      refine ⟨p, ?_, h.shows⟩
      have hempty : (Storage.toList p.target).isEmpty = Storage.isEmpty p.target := by
        rw [Storage.isEmpty, Bool.eq_iff_iff, k.isEmpty_toList, beq_iff_eq]
      simp only [Op.effect, Pair.lists, hempty]
      rfl
  | bitSize =>
      have hbits : Storage.bitSize p.target = .ok (Storage.size p.target * V.width.bits) := by
        rw [Storage.bitSize, k.width]
        exact Size.mul_of_lt h.roomy.countable
      simp only [Op.effect, Pair.lists, k.length_toList]
      exact h.ask (f := .size) hbits
  | get? i => exact h.ask (k.get? h.target i)
  | fetch i => exact h.ask (k.fetch h.target (refuseUnless_eq_none_iff.mp hr))
  | read i => exact h.ask (k.read h.target (refuseUnless_eq_none_iff.mp hr))
  | set i value => exact h.put_lift (k.set h.target (refuseUnless_eq_none_iff.mp hr) value)
  | push value => exact h.put_lift (k.push h.target hfits value)
  | pop => exact h.put_pair (k.pop h.target)
  | insertCopies i count value =>
      have hi := refuseUnless_eq_none_iff.mp hr
      exact h.put_bind (k.insertCopies h.target hi h.roomy hfits value)
  | insertList i values =>
      have hi := refuseUnless_eq_none_iff.mp hr
      exact h.put_bind (k.insertList h.target hi h.roomy hfits)
  | remove i => exact h.put_pair (k.remove h.target (refuseUnless_eq_none_iff.mp hr))
  | erase e =>
      simp only [Op.effect, Pair.lists, k.length_toList]
      exact h.put_lift (k.erase h.target hr)
  | resize count value =>
      simp only [Op.effect, Pair.lists, k.length_toList]
      exact h.put_lift (k.resize h.target hfits value)
  | truncate count => exact h.put_lift (k.truncate h.target count)
  | clear => exact ⟨_, rfl, h.put (k.clear h.target)⟩
  | swap i j =>
      obtain ⟨hi, hj⟩ := refuseUnless_eq_none_iff.mp hr
      exact h.put_lift (k.swap h.target hi hj)
  | exchange => exact ⟨_, rfl, ⟨h.other, rfl⟩, ⟨h.target, rfl⟩⟩
  | emptyWithCapacity _ | hasCapacity _ | reserve _ | shrink | setSize _ | bytes | setByte _ _ =>
      exact hop.elim

end Storage.Laws

/-! ## The laws of containers -/

/-- The methods of a container, as methods on lists; `text` shows the element at an index. -/
structure Container.Laws {σ : Type} [Container σ] (V : ListView σ) (text : Nat → Word → String) :
    Prop extends Storage.Laws V where
  insert : ∀ {s i}, V.Valid s → i ≤ Storage.size s → V.width.Roomy (Storage.size s) →
    V.Fits (Storage.size s + 1) → ∀ value,
    V.Makes (Container.insert s i value).result ((Storage.toList s).take i ++
      [V.width.truncate value] ++ (Storage.toList s).drop i)
  insert_refused : ∀ {s i}, V.Valid s → Storage.size s < i → ∀ value,
    V.Refuses (Container.insert s i value).result (.insertPastEnd i (Storage.size s))
  equal : ∀ {s t}, V.Valid s → V.Valid t → V.width.Roomy (Storage.size s) →
    Container.equal s t = .ok (decide (Storage.toList s = Storage.toList t))
  entries : ∀ {s}, V.Valid s → Container.entries s = .ok (Storage.toList s)
  describe : ∀ {s}, V.Valid s → Container.describe s = .ok (Word.listText (Storage.toList s))
  act : ∀ {s i}, V.Valid s → i < Storage.size s → ∀ action,
    V.Answers (Container.act s i action)
      (Visit.Deque.act V.width text (Storage.toList s) action i).1
      (Visit.Deque.act V.width text (Storage.toList s) action i).2
  act_refused : ∀ {s i}, V.Valid s → ¬i < Storage.size s → ∀ action,
    V.Refuses (Container.act s i action) (.indexPastEnd i (Storage.size s))
  scan : ∀ {s} {calls : List Scan.Call}, V.Valid s → V.width.Roomy (Storage.size s) →
    (∀ call ∈ calls, call.Legal) →
    Container.scan s calls = .ok (Scan.onDeque (Storage.toList s) calls)
  scan_refused : ∀ {s} {calls : List Scan.Call}, V.Valid s → V.width.Roomy (Storage.size s) →
    (¬∀ call ∈ calls, call.Legal) → V.Refuses (Container.scan s calls) .bounds
  visit : ∀ {s} {calls : List Visit.Call}, V.Valid s → V.width.Roomy (Storage.size s) →
    Visit.Legal (Storage.size s) calls →
    V.Answers (Container.visit s calls)
      (Visit.onDeque V.width text ⟨Storage.toList s, 0, Storage.size s⟩ calls).1
      (Visit.onDeque V.width text ⟨Storage.toList s, 0, Storage.size s⟩ calls).2
  visit_refused : ∀ {s} {calls : List Visit.Call}, V.Valid s → V.width.Roomy (Storage.size s) →
    ¬Visit.Legal (Storage.size s) calls → V.Refuses (Container.visit s calls) .bounds

namespace Container.Laws

variable {σ : Type} [Container σ] {V : ListView σ} {text : Nat → Word → String} {p : Pair σ}
  {s : σ}

theorem actFetched (k : Laws V text) (h : V.Valid s) {i : Nat} (hi : i < Storage.size s)
    (action : Action) :
    V.Answers (Container.actFetched s i action)
      (Visit.Deque.act V.width text (Storage.toList s) action i).1
      (Visit.Deque.act V.width text (Storage.toList s) action i).2 := by
  obtain ⟨s', hact, hs'⟩ := k.act h hi action
  exact ⟨s', (bind_of_ok (k.fetch h hi)).trans hact, hs'⟩

theorem actFirst_empty (hzero : Storage.size s = 0) (action : Action) :
    Container.actFirst s action = .ok (none, s) := by
  simp only [Container.actFirst, hzero]
  rfl

theorem actLast_empty (hzero : Storage.size s = 0) (action : Action) :
    Container.actLast s action = .ok (none, s) := by
  simp only [Container.actLast, hzero]
  rfl

theorem actFirst (k : Laws V text) (h : V.Valid s) (hpos : Storage.size s ≠ 0) (action : Action) :
    V.Answers (Container.actFirst s action)
      (some (Visit.Deque.act V.width text (Storage.toList s) action 0).1)
      (Visit.Deque.act V.width text (Storage.toList s) action 0).2 := by
  obtain ⟨n, hn⟩ := Nat.exists_eq_succ_of_ne_zero hpos
  obtain ⟨s', hact, hs'⟩ := k.act h (i := 0) (by omega) action
  refine ⟨s', ?_, hs'⟩
  simp only [Container.actFirst, hn]
  exact bind_of_ok hact

theorem actLast (k : Laws V text) (h : V.Valid s) (hpos : Storage.size s ≠ 0) (action : Action) :
    V.Answers (Container.actLast s action)
      (some (Visit.Deque.act V.width text (Storage.toList s) action (Storage.size s - 1)).1)
      (Visit.Deque.act V.width text (Storage.toList s) action (Storage.size s - 1)).2 := by
  obtain ⟨n, hn⟩ := Nat.exists_eq_succ_of_ne_zero hpos
  obtain ⟨s', hact, hs'⟩ := k.act h (i := Storage.size s - 1) (by omega) action
  refine ⟨s', ?_, hs'⟩
  rw [hn, Nat.succ_sub_one] at hact ⊢
  simp only [Container.actLast, hn]
  exact bind_of_ok hact

theorem perform_eq_run {op : Storage.Op} (hop : op.OnElements) :
    (Op.storage op).perform p = op.run p := by
  cases op with
  | emptyWithCapacity _ | reserve _ | shrink => exact hop.elim
  | _ => rfl

theorem perform_refused (k : Laws V text) (h : V.Ready p) {op : Op} {fault : Fault}
    (hr : op.refusal (Storage.size p.target) = some fault) :
    V.Refuses (op.perform p).result fault := by
  cases op with
  | storage op =>
      have hrun := k.run_refused h hr
      cases op with
      | emptyWithCapacity _ | reserve _ | shrink => cases hr
      | _ => exact hrun
  | insert i value =>
      obtain ⟨hi, rfl⟩ := refuseUnless_eq_some_iff.mp hr
      exact (k.insert_refused h.target (by omega) value).traced _
  | actFetched i action =>
      obtain ⟨hi, rfl⟩ := refuseUnless_eq_some_iff.mp hr
      exact ⟨_, Traced.result_lift_of_error (bind_of_error (k.fetch_refused h.target hi)),
        k.means_refl _⟩
  | act i action =>
      obtain ⟨hi, rfl⟩ := refuseUnless_eq_some_iff.mp hr
      exact (k.act_refused h.target hi action).lift _
  | scan calls =>
      obtain ⟨hillegal, rfl⟩ := refuseUnless_eq_some_iff.mp hr
      exact (k.scan_refused h.target h.roomy hillegal).lift _
  | visit calls =>
      obtain ⟨hillegal, rfl⟩ := refuseUnless_eq_some_iff.mp hr
      exact (k.visit_refused h.target h.roomy hillegal).lift _
  | _ => cases hr

theorem perform_yields (k : Laws V text) (h : V.Ready p) {op : Op} (hvalue : op.ByValue)
    (hr : op.refusal (Storage.size p.target) = none)
    (hfits : V.Fits (op.request (Storage.size p.target) (Storage.size p.other))) :
    V.Yields (op.perform p) (op.effect V.width text p.lists) := by
  have hcompare : Container.compare p.target p.other =
      .ok (Ord.compare (Storage.toList p.target) (Storage.toList p.other)) :=
    Container.compare_of_entries (k.entries h.target) (k.entries h.other)
  have hequal := k.equal h.target h.other h.roomy
  cases op with
  | storage op =>
      cases op with
      | emptyWithCapacity count => exact h.put_lift (k.emptyWithCapacity hfits)
      | reserve count => exact h.put_bind (k.reserve h.target hfits)
      | shrink => exact ⟨_, rfl, h.put (k.shrink h.target)⟩
      | hasCapacity _ | setSize _ | bytes | setByte _ _ => exact hvalue.elim
      | _ => exact k.run_yields h trivial hr hfits
  | ofPushes feed => exact h.put_bind (k.ofPushes hfits)
  | first =>
      simp only [Op.effect, List.head?_eq_getElem?]
      exact h.ask (k.get? h.target 0)
  | last =>
      have hlast : Storage.last p.target = .ok (Storage.toList p.target).getLast? := by
        rw [List.getLast?_eq_getElem?, k.length_toList, Storage.last]
        split
        · rename_i hzero
          rw [hzero, List.getElem?_eq_none (by rw [k.length_toList]; omega)]
          rfl
        · rename_i n hn
          rw [hn]
          exact k.get? h.target n
      exact h.ask hlast
  | insert i value =>
      have hi := refuseUnless_eq_none_iff.mp hr
      exact h.put_bind (k.insert h.target hi h.roomy hfits value)
  | append values => exact h.put_bind (k.append h.target h.roomy hfits)
  | extend feed => exact h.put_bind (k.extend h.target hfits)
  | extendOther =>
      have hboth : V.Fits (Storage.size p.target +
          (Feed.exact (Storage.toList p.other)).values.length) := by
        rw [Feed.values_exact, k.length_toList]
        exact hfits
      have hextend := k.extend h.target hboth
      rw [Feed.values_exact, k.map_truncate h.other] at hextend
      obtain ⟨p', hput, hshows⟩ := h.put_bind (a := .done) hextend
      exact ⟨p', (Traced.result_lift_of_ok (k.entries h.other)).trans hput, hshows⟩
  | assign feed => exact h.put_bind (k.assign h.target hfits)
  | assignCopies count value => exact h.put_lift (k.assignCopies h.target hfits value)
  | actFetched i action =>
      exact h.put_pair (k.actFetched h.target (refuseUnless_eq_none_iff.mp hr) action)
  | act i action => exact h.put_pair (k.act h.target (refuseUnless_eq_none_iff.mp hr) action)
  | actFirst action =>
      by_cases hzero : Storage.size p.target = 0
      · simp only [Op.effect, Pair.lists, k.isEmpty_toList.mpr hzero, if_true]
        exact ⟨p, Traced.result_lift_of_ok (actFirst_empty hzero action), h.shows⟩
      · have hne : ¬p.lists.target.isEmpty = true := mt k.isEmpty_toList.mp hzero
        simp only [Op.effect, if_neg hne]
        exact h.put_pair (f := .reply?) (k.actFirst h.target hzero action)
  | actLast action =>
      by_cases hzero : Storage.size p.target = 0
      · simp only [Op.effect, Pair.lists, k.isEmpty_toList.mpr hzero, if_true]
        exact ⟨p, Traced.result_lift_of_ok (actLast_empty hzero action), h.shows⟩
      · have hne : ¬p.lists.target.isEmpty = true := mt k.isEmpty_toList.mp hzero
        simp only [Op.effect, if_neg hne]
        simp only [Pair.lists, k.length_toList]
        exact h.put_pair (f := .reply?) (k.actLast h.target hzero action)
  | equal => exact h.ask hequal
  | notEqual => exact h.ask (f := fun same => .flag !same) hequal
  | compare => exact h.ask hcompare
  | less => exact h.ask (f := fun order => .flag order.isLT) hcompare
  | hashed =>
      have hhashed := Container.hashed_of_entries (k.entries h.target)
      rw [← k.length_toList] at hhashed
      exact h.ask hhashed
  | describe => exact h.ask (k.describe h.target)
  | entries => exact h.ask (k.entries h.target)
  | scan calls =>
      exact h.ask (k.scan h.target h.roomy (refuseUnless_eq_none_iff.mp hr))
  | visit calls =>
      simp only [Op.effect, Pair.lists, k.length_toList]
      exact h.put_pair (k.visit h.target h.roomy (refuseUnless_eq_none_iff.mp hr))

end Container.Laws

end NarrowVec
