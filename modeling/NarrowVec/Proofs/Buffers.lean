import NarrowVec.Buffer.Container
import NarrowVec.Proofs.ListLaws
import NarrowVec.Proofs.Simulations

/-!
# Buffers as lists

A buffer of native integers is the list of their values.  Its methods obey the laws of the storage
contract at the width of the lane, for all sizes whose bits can be counted together with padding.
The faults have causes of their own, and those that a caller can recover from are the same.
-/

set_option autoImplicit false

namespace NarrowVec

namespace Lane

theorem bits_eq (lane : Lane) : lane.bits = lane.width.bits := by
  cases lane <;> rfl

/-- So many elements as have countable bits have bytes that a signed size can count. -/
theorem le_maxSize {lane : Lane} {n : Nat} (h : lane.width.Roomy n) : n ≤ lane.maxSize := by
  unfold Width.Roomy Size.limit at h
  cases lane <;> simp only [width] at h <;> simp only [maxSize, bytes] <;> omega

end Lane

namespace Buffer

variable {lane : Lane} {b : Buffer lane} {i n : Nat}

theorem decode_encode (value : Word) :
    decode (encode lane value) = lane.width.truncate value := by
  apply BitVec.eq_of_toNat_eq
  have hle : lane.bits ≤ 64 := by
    rw [Lane.bits_eq]
    exact lane.width.le
  rw [Width.toNat_truncate, ← Lane.bits_eq]
  simp only [decode, encode]
  rw [BitVec.toNat_setWidth_of_le hle, BitVec.toNat_setWidth]

theorem truncate_decode (item : BitVec lane.bits) :
    lane.width.truncate (decode item) = decode item := by
  have hencode : encode lane (decode item) = item := by
    have hle : lane.bits ≤ 64 := by
      rw [Lane.bits_eq]
      exact lane.width.le
    simp only [encode, decode]
    rw [BitVec.setWidth_setWidth_of_le _ hle, BitVec.setWidth_eq]
  rw [← decode_encode, hencode]

@[simp] theorem length_toList (b : Buffer lane) : b.toList.length = b.size := by
  simp [toList, size]

theorem map_truncate_toList (b : Buffer lane) : b.toList.map lane.width.truncate = b.toList := by
  simp only [toList, List.map_map]
  exact List.map_congr_left fun item _ => truncate_decode item

theorem toList_withItems (b : Buffer lane) (items : Array (BitVec lane.bits)) :
    (b.withItems items).toList = items.toList.map decode := rfl

theorem map_decode_encode (values : List Word) :
    (values.map (encode lane)).map decode = values.map lane.width.truncate := by
  rw [List.map_map]
  exact List.map_congr_left fun value _ => decode_encode value

/-! ## Elements -/

theorem get?_eq (b : Buffer lane) (i : Nat) : b.get? i = b.toList[i]? := by
  simp [get?, toList]

theorem read_spec (hi : i < b.size) : b.read i = .ok (b.toList.getD i 0) := by
  simp only [read]
  rw [get?_eq, List.getElem?_eq_getElem (by rw [length_toList]; exact hi)]
  simp [hi]

theorem read_refused (hi : ¬i < b.size) : b.read i = .error .bounds := by
  simp only [read]
  rw [get?_eq, List.getElem?_eq_none (by rw [length_toList]; omega)]

theorem set_spec (hi : i < b.size) (value : Word) :
    ∃ b', b.set i value = .ok b' ∧ b'.toList = b.toList.set i (lane.width.truncate value) := by
  have hitem : i < b.items.size := hi
  refine ⟨_, dif_pos hitem, ?_⟩
  simp only [toList]
  rw [Array.toList_set, List.map_set, decode_encode]

theorem set_refused (hi : ¬i < b.size) (value : Word) : b.set i value = .error .bounds :=
  dif_neg hi

theorem models (lane : Lane) :
    Cells.Models lane.width id fun (b : Buffer lane) values => b.toList = values where
  truncated {b values value} h hv := by
    rw [← h, ← map_truncate_toList] at hv
    obtain ⟨_, _, rfl⟩ := List.mem_map.mp hv
    exact Width.truncate_truncate _ _
  load {b values i value} h hv := by
    rw [← h] at hv
    obtain ⟨hi, _⟩ := List.getElem?_eq_some_iff.mp hv
    rw [length_toList] at hi
    refine (read_spec hi).trans ?_
    rw [List.getD_eq_getElem?_getD, hv]
    rfl
  store {b values i} value h hi := by
    subst h
    exact set_spec (by rwa [length_toList] at hi) value

/-! ## Walking -/

theorem grid (h : n < Size.limit) : Position.Grid (id : Nat → Nat) n where
  next hi := Size.add_of_lt (Nat.lt_of_le_of_lt hi h)
  jump _ hp := (Size.add_eq_ok_iff.mp hp).2.symm
  retreat hk _ := Size.sub_of_le hk

theorem reaches (h : n < Size.limit) : Position.Reaches (id : Nat → Nat) n := by
  intro i k hik
  exact Size.add_of_lt (Nat.lt_of_le_of_lt hik h)

theorem window_toList (b : Buffer lane) : window b.toList 0 b.size = b.toList := by
  rw [← length_toList b]
  exact window_full b.toList

theorem scan_spec (h : b.size < Size.limit) {calls : List Scan.Call}
    (hlegal : ∀ call ∈ calls, call.Legal) :
    Scan.run b b.cursor calls = .ok (Scan.onDeque b.toList calls) := by
  have hrun := Scan.run_span (models lane) (grid h) (reaches h) (s := b) rfl calls 0 b.size
    (Nat.zero_le _) (Nat.le_refl _) (Nat.le_of_eq (length_toList b).symm) hlegal
  rw [window_toList] at hrun
  exact hrun

theorem scan_refused (h : b.size < Size.limit) {calls : List Scan.Call}
    (hillegal : ¬∀ call ∈ calls, call.Legal) :
    Scan.run b b.cursor calls = .error .bounds :=
  Scan.run_illegal (models lane) (grid h) (reaches h) (s := b) rfl calls 0 b.size
    (Nat.zero_le _) (Nat.le_refl _) (Nat.le_of_eq (length_toList b).symm) hillegal

/-! ## Actions and visits -/

def text (_ : Nat) (value : Word) : String := value.label

theorem act_spec (hi : i < b.size) (action : Action) :
    ∃ b', b.act i action = .ok ((Visit.Deque.act lane.width text b.toList action i).1, b') ∧
      b'.toList = (Visit.Deque.act lane.width text b.toList action i).2 := by
  obtain ⟨b', hrun, hb'⟩ := (models lane).run text action (s := b) rfl
    (by rw [length_toList]; exact hi)
  exact ⟨b', (bind_of_ok (ensure_of hi)).trans hrun, hb'⟩

theorem act_refused (hi : ¬i < b.size) (action : Action) :
    b.act i action = .error (.indexPastEnd i b.size) :=
  bind_of_error (ensure_of_not hi)

theorem describes_deque (b : Buffer lane) :
    Visit.Deque.Describes (fun (b : Buffer lane) values => b.toList = values) b.size
      ⟨b.toList, 0, b.size⟩ b where
  related := rfl
  ordered := Nat.zero_le _
  in_grid := Nat.le_refl _
  in_list := Nat.le_of_eq (length_toList b).symm

theorem visit_spec (h : b.size < Size.limit) {calls : List Visit.Call}
    (hlegal : Visit.Legal b.size calls) :
    ∃ b', Visit.run text b b.cursor calls =
        .ok ((Visit.onDeque lane.width text ⟨b.toList, 0, b.size⟩ calls).1, b') ∧
      b'.toList = (Visit.onDeque lane.width text ⟨b.toList, 0, b.size⟩ calls).2 :=
  Visit.run_span (models lane) (grid h) (reaches h) text calls (describes_deque b) hlegal

theorem visit_refused (h : b.size < Size.limit) {calls : List Visit.Call}
    (hillegal : ¬Visit.Legal b.size calls) :
    Visit.run text b b.cursor calls = .error .bounds :=
  Visit.run_illegal (models lane) (grid h) (reaches h) text calls (describes_deque b) hillegal

/-! ## Growing, shrinking and moving -/

theorem toList_drop (items : Array (BitVec lane.bits)) (i : Nat) :
    (items.drop i).toList = items.toList.drop i := by
  rw [Array.drop_eq_extract, Array.toList_extract, List.extract_eq_take_drop,
    List.take_of_length_le (by simp)]

theorem map_decode_drop (items : Array (BitVec lane.bits)) (i : Nat) :
    (items.drop i).toList.map decode = (items.toList.map decode).drop i := by
  rw [toList_drop, List.map_drop]

theorem toList_items_splice (b : Buffer lane) (i : Nat) (items : Array (BitVec lane.bits)) :
    (b.splice i items).items.toList =
      b.items.toList.take i ++ items.toList ++ b.items.toList.drop i := by
  simp only [splice, withItems, Array.toList_append, toList_drop]
  simp

theorem toList_splice (b : Buffer lane) (i : Nat) (items : Array (BitVec lane.bits)) :
    (b.splice i items).toList = b.toList.take i ++ items.toList.map decode ++ b.toList.drop i := by
  simp only [toList, toList_items_splice, List.map_append, List.map_take, List.map_drop]

theorem toList_cut (b : Buffer lane) (e : Segment) :
    (b.cut e).toList = b.toList.take e.start ++ b.toList.drop e.stop := by
  simp only [cut, withItems, toList, Array.toList_append, List.map_append, map_decode_drop]
  simp

theorem checkRoom_of_roomy (h : lane.width.Roomy n) : checkRoom lane n = .ok () :=
  ensure_of (Lane.le_maxSize h)

theorem checkInsert_spec (hi : i ≤ b.size) (hn : lane.width.Roomy (b.size + n)) :
    b.checkInsert i n = .ok () :=
  (bind_of_ok (ensure_of hi)).trans (checkRoom_of_roomy hn)

theorem checkInsert_refused (hi : b.size < i) (n : Nat) :
    b.checkInsert i n = .error .insertPosition :=
  bind_of_error (ensure_of_not (Nat.not_le.mpr hi))

theorem insertCopies_spec (hi : i ≤ b.size) (hn : lane.width.Roomy (b.size + n)) (value : Word) :
    ∃ b', b.insertCopies i n value = .ok b' ∧ b'.toList = b.toList.take i ++
      List.replicate n (lane.width.truncate value) ++ b.toList.drop i := by
  refine ⟨_, bind_of_ok (checkInsert_spec hi hn), ?_⟩
  rw [toList_splice, Array.toList_replicate, List.map_replicate, decode_encode]

theorem overwrite_eq (values : List Word) :
    ∀ (b : Buffer lane) (i : Nat), i + values.length ≤ b.size →
      b.overwrite i values = .ok { b with
        items := (b.items.toList.take i ++ values.map (encode lane) ++
          b.items.toList.drop (i + values.length)).toArray } := by
  induction values with
  | nil =>
      intro b i _
      rw [List.map_nil, List.append_nil, List.length_nil, Nat.add_zero, List.take_append_drop]
      rfl
  | cons value rest ih =>
      intro b i hfit
      have hfit : i + (rest.length + 1) ≤ b.items.size := hfit
      have hi : i < b.items.size := by omega
      have hlen : (b.items.toList.take i).length = i := by
        rw [List.length_take, Array.length_toList]
        omega
      have hset : b.set i value = .ok { b with items := b.items.set i (encode lane value) hi } :=
        dif_pos hi
      rw [overwrite, bind_of_ok hset, ih _ _ (by simp only [size, Array.size_set]; omega)]
      -- What is written first is the last item before the rest.
      rw [Array.toList_set, List.set_eq_take_append_cons_drop, if_pos (by simpa using hi)]
      congr 3
      rw [List.append_cons, List.take_left' (by simp [hlen]), List.append_assoc,
        List.drop_append, List.drop_eq_nil_of_le (by simp [hlen])]
      simp [hlen, Nat.add_assoc, Nat.add_comm 1]

theorem size_splice (hi : i ≤ b.size) (items : Array (BitVec lane.bits)) :
    (b.splice i items).size = b.size + items.size := by
  have hlength := congrArg List.length (toList_items_splice b i items)
  simp only [List.length_append, List.length_take, List.length_drop, Array.length_toList]
    at hlength
  unfold size at hi ⊢
  omega

/-- A gap is filled completely, whatever it held. -/
theorem overwrite_splice (hi : i ≤ b.size) (item : BitVec lane.bits) (values : List Word) :
    (b.splice i (Array.replicate values.length item)).overwrite i values =
      .ok (b.splice i (values.map (encode lane)).toArray) := by
  have hlen : (b.items.toList.take i).length = i := by
    rw [List.length_take, Array.length_toList]
    exact Nat.min_eq_left hi
  have hgap : (List.replicate values.length item).length = values.length := List.length_replicate
  have hsize := size_splice hi (Array.replicate values.length item)
  rw [Array.size_replicate] at hsize
  have hitems := toList_items_splice b i (Array.replicate values.length item)
  rw [Array.toList_replicate, List.append_assoc] at hitems
  rw [overwrite_eq values _ i (by omega), hitems, List.take_left' hlen, ← List.drop_drop,
    List.drop_left' hlen, List.drop_left' hgap]
  have hfilled := toList_items_splice b i (values.map (encode lane)).toArray
  rw [List.toList_toArray] at hfilled
  rw [← hfilled]
  simp [splice, withItems]

theorem insertList_eq_splice (b : Buffer lane) (i : Nat) (values : List Word) :
    b.insertList i values = do
      b.checkInsert i values.length
      return b.splice i (values.map (encode lane)).toArray := by
  rw [insertList, insertCopies]
  cases hcheck : b.checkInsert i values.length with
  | error fault => rfl
  | ok _ =>
      obtain ⟨_, hi, hroom⟩ := bind_eq_ok_iff.mp hcheck
      have hi : i ≤ b.size := ensure_eq_ok_iff.mp hi
      have hroom : b.size + values.length ≤ lane.maxSize := ensure_eq_ok_iff.mp hroom
      have hlimit : lane.maxSize < Size.limit := by cases lane <;> decide
      have hsize := size_splice hi (Array.replicate values.length (encode lane 0))
      rw [Array.size_replicate] at hsize
      show (do
        let stop ← Size.add i values.length
        ensure (stop ≤ _) .bounds
        overwrite _ i values) = _
      rw [bind_of_ok (Size.add_of_lt (by omega)), bind_of_ok (ensure_of (by omega)),
        overwrite_splice hi]
      rfl

theorem insertList_spec {values : List Word} (hi : i ≤ b.size)
    (hn : lane.width.Roomy (b.size + values.length)) :
    ∃ b', b.insertList i values = .ok b' ∧ b'.toList = b.toList.take i ++
      values.map lane.width.truncate ++ b.toList.drop i := by
  refine ⟨_, (insertList_eq_splice b i values).trans (bind_of_ok (checkInsert_spec hi hn)), ?_⟩
  rw [toList_splice, List.toList_toArray, map_decode_encode]

theorem resize_spec (b : Buffer lane) (hn : lane.width.Roomy n) (value : Word) :
    ∃ b', b.resize n value = .ok b' ∧ b'.toList = b.toList.take n ++
      List.replicate (n - b.size) (lane.width.truncate value) := by
  refine ⟨_, bind_of_ok (checkRoom_of_roomy hn), ?_⟩
  simp [withItems, toList, decode_encode]

theorem remove_spec (hi : i < b.size) :
    ∃ b', b.remove i = .ok (b.toList.getD i 0, b') ∧ b'.toList = b.toList.eraseIdx i := by
  refine ⟨_, bind_of_ok (read_spec hi), ?_⟩
  rw [toList_cut, List.eraseIdx_eq_take_drop_succ]

theorem swap_refused {j : Nat} (hij : ¬(i < b.size ∧ j < b.size)) :
    b.swap i j = .error .bounds := by
  simp only [swap, Cells.exchange]
  by_cases hi : i < b.size
  · have hj : ¬j < b.size := fun hj => hij ⟨hi, hj⟩
    exact (bind_of_ok (read_spec hi)).trans (bind_of_error (read_refused hj))
  · exact bind_of_error (read_refused hi)

/-! ## The laws of buffers -/

/-- Buffers of all sizes whose bits can be counted together with padding, with any faults as long as
those that can be recovered from are the same. -/
def view (lane : Lane) : ListView (Buffer lane) where
  width := lane.width
  Valid _ := True
  Fits := lane.width.Roomy
  Means fault fault' := fault.recoverable? = fault'.recoverable?

theorem holds {values : List Word} (h : b.toList = values) : (view lane).Holds b values :=
  ⟨trivial, h⟩

theorem laws (lane : Lane) : Storage.Laws (view lane) where
  means_refl _ := rfl
  fits_mono := Width.Roomy.mono
  width := Lane.bits_eq lane
  length_toList := length_toList
  map_truncate _ := map_truncate_toList _
  empty := holds rfl
  emptyWithCapacity hn := ⟨_, bind_of_ok (checkRoom_of_roomy hn), holds rfl⟩
  zeros {n} hn := by
    refine ⟨_, bind_of_ok (checkRoom_of_roomy hn), holds ?_⟩
    simp [toList, decode, encode]
  replicate hn value := by
    refine ⟨_, bind_of_ok (checkRoom_of_roomy hn), holds ?_⟩
    simp only [toList]
    rw [Array.toList_replicate, List.map_replicate, decode_encode]
    rfl
  ofList {values} _ := by
    refine ⟨_, rfl, holds ?_⟩
    rw [Buffer.ofList, toList_withItems, List.toList_toArray, map_decode_encode]
    rfl
  copy _ := holds rfl
  reserve {b n} _ hn := ⟨_, bind_of_ok (checkRoom_of_roomy hn), holds rfl⟩
  shrink _ := holds rfl
  get? {b} _ i := congrArg Except.ok (get?_eq b i)
  read _ hi := read_spec hi
  read_refused _ hi := ⟨_, read_refused hi, rfl⟩
  set _ hi value := by
    obtain ⟨b', hset, hb'⟩ := set_spec hi value
    exact ⟨b', hset, holds hb'⟩
  set_refused _ hi value := ⟨_, set_refused hi value, rfl⟩
  push {b} _ _ value := by
    refine ⟨_, rfl, holds ?_⟩
    simp only [push, withItems, toList]
    rw [Array.toList_push, List.map_append, List.map_singleton, decode_encode]
    rfl
  pop {b} _ := by
    refine ⟨(Buffer.pop b).2, ?_, holds ?_⟩
    · show Except.ok (Buffer.pop b) = _
      simp [pop, Storage.toList, toList]
    · simp [pop, withItems, toList, Storage.toList]
  insertCopies _ hi _ hn value := by
    obtain ⟨b', hinsert, hb'⟩ := insertCopies_spec hi hn value
    exact ⟨b', hinsert, holds hb'⟩
  insertCopies_refused _ hi n _ := ⟨_, bind_of_error (checkInsert_refused hi n), rfl⟩
  insertList _ hi _ hn := by
    obtain ⟨b', hinsert, hb'⟩ := insertList_spec hi hn
    exact ⟨b', hinsert, holds hb'⟩
  insertList_refused {b _} _ hi values := ⟨_, (insertList_eq_splice b _ values).trans
    (bind_of_error (checkInsert_refused hi _)), rfl⟩
  remove _ hi := by
    obtain ⟨b', hremove, hb'⟩ := remove_spec hi
    exact ⟨b', hremove, holds hb'⟩
  remove_refused _ hi := ⟨_, bind_of_error (read_refused hi), rfl⟩
  erase {b e} _ he := ⟨_, bind_of_ok (Extent.resolve_of_not_refusal he), holds (toList_cut b _)⟩
  erase_refused _ he := ⟨_, bind_of_error (Extent.resolve_of_refusal he), rfl⟩
  resize {b n} _ hn value := by
    obtain ⟨b', hresize, hb'⟩ := resize_spec b hn value
    exact ⟨b', hresize, holds hb'⟩
  truncate {b} _ n := by
    refine ⟨_, rfl, holds ?_⟩
    simp [truncate, withItems, toList, Storage.toList]
  clear _ := holds rfl
  swap {b i j} _ hi hj := by
    obtain ⟨b', hswap, hb'⟩ := (models lane).exchange (s := b) rfl
      (by rw [length_toList]; exact hi) (by rw [length_toList]; exact hj)
    exact ⟨b', hswap, holds hb'⟩
  swap_refused _ hij := ⟨_, swap_refused hij, rfl⟩

end Buffer

end NarrowVec
