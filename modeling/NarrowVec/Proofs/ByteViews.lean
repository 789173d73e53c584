import NarrowVec.Proofs.Safety
import NarrowVec.Proofs.VectorLaws

/-!
# Stores seen as bytes

Bytes, words and native integers are all numbers of a fixed width in a row, and their bits are one
row of bits.  The bytes of an array spell the same row as its numbers, whatever the width of those,
so there is one layout for all stores: element `k` of width `w` takes the bits from `k * w` on.
Storing a byte or a word replaces its bits in the row, and an element changes only if it has some of
them.
-/

set_option autoImplicit false

namespace NarrowVec

/-! ## Rows of bits -/

namespace Bytes

variable {n m : Nat}

/-- Bit `p` of a row of numbers of `n` bits each, the low bit of each number first. -/
def bitAt? (items : List (BitVec n)) (p : Nat) : Option Bool :=
  items[p / n]?.map (·.getLsbD (p % n))

theorem bitAt?_mul_add (items : List (BitVec n)) (i : Nat) {j : Nat} (hj : j < n) :
    bitAt? items (n * i + j) = items[i]?.map (·.getLsbD j) := by
  unfold bitAt?
  rw [Nat.mul_add_div (Nat.zero_lt_of_lt hj), Nat.div_eq_of_lt hj, Nat.mul_add_mod,
    Nat.mod_eq_of_lt hj, Nat.add_zero]

theorem bitAt?_set {items : List (BitVec n)} {i : Nat} (hn : 0 < n) (hi : i < items.length)
    (value : BitVec n) (p : Nat) :
    bitAt? (items.set i value) p =
      if n * i ≤ p ∧ p < n * i + n then some (value.getLsbD (p - n * i)) else bitAt? items p := by
  by_cases hp : p / n = i
  · subst hp
    have hsplit := Nat.div_add_mod p n
    have hmod := Nat.mod_lt p hn
    have hbit : p - n * (p / n) = p % n := by omega
    unfold bitAt?
    rw [if_pos (by omega), List.getElem?_set_self hi, hbit]
    rfl
  · have hout : ¬(n * i ≤ p ∧ p < n * i + n) := fun hin =>
      hp (Nat.div_eq_of_lt_le (by rw [Nat.mul_comm]; exact hin.1)
        (by rw [Nat.succ_mul, Nat.mul_comm]; exact hin.2))
    unfold bitAt?
    rw [if_neg hout, List.getElem?_set_ne (Ne.symm hp)]

theorem getElem?_eq_of_bitAt? {items others : List (BitVec n)} {i : Nat} (hn : 0 < n)
    (h : ∀ j, j < n → bitAt? items (n * i + j) = bitAt? others (n * i + j)) :
    items[i]? = others[i]? := by
  have hbits : ∀ j, j < n → items[i]?.map (·.getLsbD j) = others[i]?.map (·.getLsbD j) := by
    intro j hj
    rw [← bitAt?_mul_add items i hj, ← bitAt?_mul_add others i hj]
    exact h j hj
  cases hitem : items[i]? with
  | none =>
      have hfirst := hbits 0 hn
      rw [hitem, Option.map_none] at hfirst
      exact (Option.map_eq_none_iff.mp hfirst.symm).symm
  | some item =>
      obtain ⟨other, hother, _⟩ := Option.map_eq_some_iff.mp
        ((hbits 0 hn).symm.trans (by rw [hitem, Option.map_some]))
      rw [hother]
      refine congrArg some (BitVec.eq_of_getLsbD_eq fun j hj => ?_)
      have hbit := hbits j hj
      rw [hitem, hother, Option.map_some, Option.map_some] at hbit
      exact Option.some.inj hbit

/-! ## The bytes of an array -/

theorem getElem?_flatMap {α β : Type} {f : α → List β} (hm : 0 < m) (hf : ∀ a, (f a).length = m)
    (items : List α) :
    ∀ i, (items.flatMap f)[i]? = items[i / m]?.bind fun a => (f a)[i % m]? := by
  induction items with
  | nil =>
      intro i
      rfl
  | cons a rest ih =>
      intro i
      rw [List.flatMap_cons, List.getElem?_append, hf]
      by_cases hi : i < m
      · rw [if_pos hi, Nat.div_eq_of_lt hi, Nat.mod_eq_of_lt hi]
        rfl
      · have hle : m ≤ i := Nat.le_of_not_lt hi
        rw [if_neg hi, ih, Nat.div_eq_sub_div hm hle, Nat.mod_eq_sub_mod hle,
          List.getElem?_cons_succ]

variable {items : Array (BitVec (8 * m))}

theorem length_ofArray (items : Array (BitVec (8 * m))) :
    (ofArray items).length = items.size * m := by
  simp [ofArray, List.length_flatMap, Nat.mul_div_cancel_left m (show 0 < 8 by decide)]

theorem getElem?_ofArray (hm : 0 < m) (items : Array (BitVec (8 * m))) (i : Nat) :
    (ofArray items)[i]? = items[i / m]?.map (·.extractLsb' (8 * (i % m)) 8) := by
  have hmod := Nat.mod_lt i hm
  unfold ofArray
  rw [Nat.mul_div_cancel_left m (by decide),
    getElem?_flatMap hm (fun _ => by rw [List.length_map, List.length_range]),
    Array.getElem?_toList, Option.map_eq_bind]
  refine congrArg (Option.bind items[i / m]?) (funext fun item => ?_)
  rw [List.getElem?_map, List.getElem?_range hmod]
  rfl

/-- An array and its bytes are the same row of bits. -/
theorem bitAt?_ofArray (hm : 0 < m) (items : Array (BitVec (8 * m))) (p : Nat) :
    bitAt? (ofArray items) p = bitAt? items.toList p := by
  have hbyte : p % 8 < 8 := Nat.mod_lt p (by decide)
  unfold bitAt?
  rw [getElem?_ofArray hm, ← Nat.div_div_eq_div_mul, Nat.mod_mul, Option.map_map,
    Array.getElem?_toList]
  congr 1
  funext item
  simp [hbyte, Nat.add_comm]

theorem extractLsb'_put (item : BitVec (8 * m)) (byte : Byte) {j k : Nat} (hk : k < m) :
    (item &&& ~~~((BitVec.allOnes 8).setWidth (8 * m) <<< (8 * j)) |||
      byte.setWidth (8 * m) <<< (8 * j)).extractLsb' (8 * k) 8 =
        if k = j then byte else item.extractLsb' (8 * k) 8 := by
  apply BitVec.eq_of_getLsbD_eq
  intro b hb
  have hin : 8 * k + b < 8 * m := by omega
  simp only [BitVec.getLsbD_extractLsb', BitVec.getLsbD_or, BitVec.getLsbD_and, BitVec.getLsbD_not,
    BitVec.getLsbD_shiftLeft, BitVec.getLsbD_setWidth, BitVec.getLsbD_allOnes, hb, hin,
    decide_true, Bool.true_and]
  -- The shifted byte and its mask are zero before byte `j` and behind it.
  rcases Nat.lt_trichotomy k j with hlt | rfl | hgt
  · have hbefore : 8 * k + b < 8 * j := by omega
    simp [hbefore, Nat.ne_of_lt hlt, hb]
  · have hwithin : ¬8 * k + b < 8 * k := by omega
    simp [hwithin, hb, show b < 8 * m by omega]
  · have hbehind : ¬8 * k + b < 8 * j := by omega
    have hbyte : ¬8 * k + b - 8 * j < 8 := by omega
    have hzero : byte.getLsbD (8 * k + b - 8 * j) = false :=
      BitVec.getLsbD_of_ge _ _ (Nat.le_of_not_lt hbyte)
    simp [hbehind, hbyte, hzero, Nat.ne_of_gt hgt, hb]

theorem put_of_lt (hm : 0 < m) {i : Nat} (hi : i < (ofArray items).length) (byte : Byte) :
    ∃ items', put items i byte = .ok items' ∧ items'.size = items.size ∧
      ofArray items' = (ofArray items).set i byte := by
  have hk : i / m < items.size := by
    rw [length_ofArray] at hi
    exact (Nat.div_lt_iff_lt_mul hm).mpr hi
  unfold put
  rw [Nat.mul_div_cancel_left m (by decide), dif_pos hk]
  refine ⟨_, rfl, Array.size_set _, ?_⟩
  apply List.ext_getElem?
  intro q
  rw [getElem?_ofArray hm, List.getElem?_set, getElem?_ofArray hm, Array.getElem?_set]
  have hq := Nat.mod_lt q hm
  -- Another byte is one of another number or another one of the same number.
  by_cases hword : i / m = q / m
  · rw [if_pos hword, Option.map_some, extractLsb'_put _ _ hq]
    by_cases hbyte : i = q
    · subst hbyte
      rw [if_pos rfl, if_pos rfl, if_pos hi]
    · have hmod : ¬q % m = i % m := fun h => hbyte <| by
        rw [← Nat.div_add_mod i m, ← Nat.div_add_mod q m, hword, h]
      rw [if_neg hmod, if_neg hbyte, ← hword, Array.getElem?_eq_getElem hk, Option.map_some]
  · have hne : i ≠ q := fun h => hword (h ▸ rfl)
    rw [if_neg hword, if_neg hne]

theorem put_of_le (hm : 0 < m) {i : Nat} (hi : (ofArray items).length ≤ i) (byte : Byte) :
    put items i byte = .error .bounds := by
  have hk : ¬i / m < items.size := by
    rw [length_ofArray] at hi
    exact fun hlt => Nat.not_lt.mpr hi ((Nat.div_lt_iff_lt_mul hm).mp hlt)
  unfold put
  rw [Nat.mul_div_cancel_left m (by decide), dif_neg hk]

end Bytes

/-! ## The layout of stores -/

namespace Storage

open Bytes (bitAt?)

variable {σ τ : Type} [Storage σ] [Storage τ] {s s' : σ} {t : τ} {n : Nat}

/-- Bit `j` of element `k` is bit `k * w + j` of the bytes, and an element has no further bits. -/
def Laid (s : σ) : Prop :=
  ∀ k, k < size s → ∃ value, get? s k = .ok (some value) ∧ (toList s)[k]? = some value ∧
    (∀ j, j < width σ → bitAt? (bytes s) (k * width σ + j) = some (value.getLsbD j)) ∧
    ∀ j, width σ ≤ j → value.getLsbD j = false

/-- Storing a number of `n` bits at bit `start` of the bytes replaced its bits and no others. -/
structure Overwritten (s s' : σ) (start : Nat) (value : BitVec n) : Prop where
  size : size s' = size s
  length : (bytes s').length = (bytes s).length
  bit : ∀ p, bitAt? (bytes s') p =
    if start ≤ p ∧ p < start + n then some (value.getLsbD (p - start)) else bitAt? (bytes s) p

/-- An overwritten store in which only elements with replaced bits have changed. -/
structure Patched (s s' : σ) (start : Nat) (value : BitVec n) : Prop
    extends Overwritten s s' start value where
  apart : ∀ k, k < Storage.size s →
    (k + 1) * width σ ≤ start ∨ start + n ≤ k * width σ → get? s' k = get? s k
  past : Storage.size s * width σ ≤ start → toList s' = toList s

/-- Storing a number at an index succeeds where there is one already and is refused elsewhere. -/
structure Writes (s : σ) (write : Nat → BitVec n → Except Fault σ) (count : Nat) : Prop where
  inside : ∀ i value, i < count → ∃ s', write i value = .ok s' ∧ Patched s s' (n * i) value
  outside : ∀ i value, count ≤ i → write i value = .error .bounds

theorem laid_of_laws {V : ListView σ} (laws : Laws V) (h : V.Valid s)
    (hflat : ∀ k value, (toList s)[k]? = some value → ∀ j, j < width σ →
      bitAt? (bytes s) (k * width σ + j) = some (value.getLsbD j)) : Laid s := by
  intro k hk
  rw [← laws.length_toList] at hk
  have hvalue := List.getElem?_eq_getElem hk
  refine ⟨(toList s)[k], ?_, hvalue, hflat k _ hvalue, ?_⟩
  · rw [laws.get? h, hvalue]
  · intro j hj
    have hmem : (toList s)[k] ∈ (toList s).map V.width.truncate := by
      rw [laws.map_truncate h]
      exact List.getElem_mem hk
    obtain ⟨value, _, htruncate⟩ := List.mem_map.mp hmem
    rw [← htruncate, Width.getLsbD_truncate, ← laws.width, decide_eq_false (Nat.not_lt.mpr hj),
      Bool.false_and]

theorem Laid.element_eq (hs : Laid s) (hs' : Laid s') {k : Nat} (hk : k < size s)
    (hk' : k < size s')
    (hbits : ∀ j, j < width σ →
      bitAt? (bytes s') (k * width σ + j) = bitAt? (bytes s) (k * width σ + j)) :
    get? s' k = get? s k ∧ (toList s')[k]? = (toList s)[k]? := by
  obtain ⟨value, hget, hlist, hbit, hzero⟩ := hs k hk
  obtain ⟨value', hget', hlist', hbit', hzero'⟩ := hs' k hk'
  have heq : value' = value := by
    apply BitVec.eq_of_getLsbD_eq
    intro j _
    rcases Nat.lt_or_ge j (width σ) with hj | hj
    · exact Option.some.inj ((hbit' j hj).symm.trans ((hbits j hj).trans (hbit j hj)))
    · rw [hzero j hj, hzero' j hj]
  rw [hget, hget', hlist, hlist', heq]
  exact ⟨rfl, rfl⟩

theorem overwritten_of_bytes {i : Nat} {byte : Byte} (hi : i < (bytes s).length)
    (hsize : size s' = size s) (hbytes : bytes s' = (bytes s).set i byte) :
    Overwritten s s' (8 * i) byte where
  size := hsize
  length := by rw [hbytes, List.length_set]
  bit p := by rw [hbytes, Bytes.bitAt?_set (by decide) hi]

theorem Overwritten.patched {start : Nat} {value : BitVec n} (h : Overwritten s s' start value)
    (hs : Laid s) (hs' : Laid s') (hlength : ∀ s : σ, (toList s).length = Storage.size s) :
    Patched s s' start value := by
  have helement : ∀ k, k < Storage.size s →
      (k + 1) * width σ ≤ start ∨ start + n ≤ k * width σ →
      get? s' k = get? s k ∧ (toList s')[k]? = (toList s)[k]? := by
    intro k hk hapart
    refine hs.element_eq hs' hk (h.size ▸ hk) fun j hj => ?_
    rw [Nat.succ_mul] at hapart
    rw [h.bit, if_neg (by omega)]
  refine ⟨h, fun k hk hapart => (helement k hk hapart).1, fun hpast => ?_⟩
  apply List.ext_getElem?
  intro k
  rcases Nat.lt_or_ge k (Storage.size s) with hk | hk
  · exact (helement k hk (.inl (Nat.le_trans (Nat.mul_le_mul_right _ hk) hpast))).2
  · rw [List.getElem?_eq_none (by rw [hlength, h.size]; exact hk),
      List.getElem?_eq_none (by rw [hlength]; exact hk)]

theorem Laid.leading_bytes (hs : Laid s) (ht : Laid t) (hwidth : width τ = width σ)
    (hsize : size t = size s) (hlist : toList s = toList t)
    (hlength : 8 * (bytes s).length ≤ size s * width σ) : bytes s <+: bytes t := by
  have hbits : ∀ p, p < size s * width σ → bitAt? (bytes t) p = bitAt? (bytes s) p := by
    intro p hp
    have hpos : 0 < width σ := Nat.pos_of_ne_zero fun h => by
      rw [h, Nat.mul_zero] at hp
      exact Nat.not_lt_zero p hp
    have hk : p / width σ < size s := (Nat.div_lt_iff_lt_mul hpos).mpr hp
    have hj : p % width σ < width σ := Nat.mod_lt p hpos
    obtain ⟨value, _, hvalue, hbit, _⟩ := hs _ hk
    obtain ⟨value', _, hvalue', hbit', _⟩ := ht (p / width σ) (hsize ▸ hk)
    rw [hwidth] at hbit'
    have hpart := hbit _ hj
    have hpart' := hbit' _ hj
    rw [Nat.mul_comm, Nat.div_add_mod] at hpart hpart'
    rw [← hlist, hvalue] at hvalue'
    rw [hpart, hpart', Option.some.inj hvalue']
  rw [List.prefix_iff_getElem?]
  intro i hi
  rw [← List.getElem?_eq_getElem hi]
  exact Bytes.getElem?_eq_of_bitAt? (by decide) fun j hj => hbits _ (by omega)

end Storage

/-! ## Dense storage -/

namespace Dense

open Bytes (bitAt?)
open Storage (Laid Overwritten Writes)

variable {w : Width} {d : Dense w}

theorem bitAt?_words (words : Words) {p : Nat} (hp : p < 64 * words.size) :
    bitAt? words.toList p = some (words.bit p) := by
  have hword : p / 64 < words.size := by omega
  unfold bitAt? Words.bit
  rw [Array.getElem?_toList, Array.getD_eq_getD_getElem?, Array.getElem?_eq_getElem hword]
  rfl

theorem bitAt?_bytes (d : Dense w) (p : Nat) : bitAt? d.bytes p = bitAt? d.words.toList p :=
  Bytes.bitAt?_ofArray (m := 8) (by decide) d.words p

theorem length_bytes (d : Dense w) : d.bytes.length = 8 * d.words.size :=
  (Bytes.length_ofArray (m := 8) d.words).trans (Nat.mul_comm _ _)

theorem bit_of_toList (h : d.WellFormed) {k : Nat} {value : Word} (hk : d.toList[k]? = some value)
    {j : Nat} (hj : j < w.bits) :
    bitAt? d.bytes (k * w.bits + j) = some (value.getLsbD j) := by
  have hsize : k < d.size := by
    rw [← length_toList d]
    exact (List.getElem?_eq_some_iff.mp hk).1
  have hcell := h.cell_le hsize
  have hvalue := Option.some.inj ((getElem?_toList hsize).symm.trans hk)
  have hword : j < 64 := Nat.lt_of_lt_of_le hj w.le
  rw [bitAt?_bytes, bitAt?_words _ (by omega), ← hvalue, Words.getLsbD_slice,
    decide_eq_true ⟨hj, hword⟩, Bool.true_and]

theorem laid (h : d.WellFormed) : Laid d :=
  Storage.laid_of_laws (storage_laws w) h fun _ _ hk _ hj => bit_of_toList h hk hj

theorem setByte_overwritten {i : Nat} (hi : i < d.bytes.length) (byte : Byte) :
    ∃ d', d.setByte i byte = .ok d' ∧ Overwritten d d' (8 * i) byte := by
  obtain ⟨words, hput, _, hbytes⟩ := Bytes.put_of_lt (m := 8) (by decide) hi byte
  exact ⟨{ d with words }, bind_of_ok hput, Storage.overwritten_of_bytes hi rfl hbytes⟩

theorem setByte_refused {i : Nat} (hi : d.bytes.length ≤ i) (byte : Byte) :
    d.setByte i byte = .error .bounds :=
  bind_of_error (Bytes.put_of_le (m := 8) (by decide) hi byte)

theorem setByte_writes (h : d.WellFormed) : Writes d d.setByte d.bytes.length where
  inside i byte hi := by
    obtain ⟨d', hset, hover⟩ := setByte_overwritten hi byte
    exact ⟨d', hset, hover.patched (laid h) (laid (wellFormed_of_setByte h hset)) length_toList⟩
  outside i byte hi := setByte_refused hi byte

theorem setWord_overwritten {i : Nat} (hi : i < d.words.size) (word : Word) :
    ∃ d', d.setWord i word = .ok d' ∧ Overwritten d d' (64 * i) word := by
  refine ⟨{ d with words := d.words.set i word hi }, bind_of_ok (Words.put_of_lt word hi), rfl,
    ?_, fun p => ?_⟩
  · show (bytes _).length = d.bytes.length
    rw [length_bytes, length_bytes, Array.size_set]
  · show bitAt? (bytes _) p = if _ then _ else bitAt? d.bytes p
    rw [bitAt?_bytes, bitAt?_bytes, Array.toList_set]
    exact Bytes.bitAt?_set (by decide) hi word p

theorem setWord_writes (h : d.WellFormed) : Writes d d.setWord d.words.size where
  inside i word hi := by
    obtain ⟨d', hset, hover⟩ := setWord_overwritten hi word
    exact ⟨d', hset, hover.patched (laid h) (laid (wellFormed_of_setWord h hset)) length_toList⟩
  outside i word hi := bind_of_error (dif_neg (Nat.not_lt.mpr hi))

end Dense

/-! ## Native integers -/

theorem Lane.bytes_pos (lane : Lane) : 0 < lane.bytes := by
  cases lane <;> decide

namespace Buffer

open Bytes (bitAt?)
open Storage (Laid Overwritten)

variable {lane : Lane} {b : Buffer lane}

theorem length_bytes (b : Buffer lane) : b.bytes.length = b.size * lane.bytes :=
  Bytes.length_ofArray (m := lane.bytes) b.items

theorem bit_of_toList {k : Nat} {value : Word} (hk : b.toList[k]? = some value)
    {j : Nat} (hj : j < lane.bits) :
    bitAt? b.bytes (k * lane.bits + j) = some (value.getLsbD j) := by
  have hword : j < 64 := by
    have hle := lane.width.le
    rw [← Lane.bits_eq] at hle
    exact Nat.lt_of_lt_of_le hj hle
  unfold toList at hk
  rw [List.getElem?_map, Option.map_eq_some_iff] at hk
  obtain ⟨item, hitem, rfl⟩ := hk
  have hrow : bitAt? b.bytes (k * lane.bits + j) = bitAt? b.items.toList (k * lane.bits + j) :=
    Bytes.bitAt?_ofArray lane.bytes_pos b.items _
  rw [hrow, Nat.mul_comm, Bytes.bitAt?_mul_add _ _ hj, hitem, Option.map_some]
  simp [decode, hword]

theorem laid (b : Buffer lane) : Laid b :=
  Storage.laid_of_laws (laws lane) trivial fun _ _ hk _ hj => bit_of_toList hk hj

theorem setByte_overwritten {i : Nat} (hi : i < b.bytes.length) (byte : Byte) :
    ∃ b', b.setByte i byte = .ok b' ∧ Overwritten b b' (8 * i) byte := by
  obtain ⟨items, hput, hsize, hbytes⟩ := Bytes.put_of_lt lane.bytes_pos hi byte
  exact ⟨{ b with items }, bind_of_ok hput, Storage.overwritten_of_bytes hi hsize hbytes⟩

theorem setByte_refused {i : Nat} (hi : b.bytes.length ≤ i) (byte : Byte) :
    b.setByte i byte = .error .bounds :=
  bind_of_error (Bytes.put_of_le lane.bytes_pos hi byte)

/-- The bytes of dense storage at a native width begin with those of a buffer of the same
elements. -/
theorem leading_bytes {d : Dense lane.width} (h : d.WellFormed) (heq : b.toList = d.toList) :
    b.bytes <+: d.bytes := by
  have hsize : d.size = b.size := by
    rw [← Dense.length_toList, ← heq, length_toList]
  refine (laid b).leading_bytes (Dense.laid h) (Lane.bits_eq lane).symm hsize heq ?_
  show 8 * b.bytes.length ≤ b.size * (8 * lane.bytes)
  rw [length_bytes]
  exact Nat.le_of_eq (Nat.mul_left_comm 8 b.size lane.bytes)

end Buffer

/-! ## Vectors -/

namespace UIntVec

open Bytes (bitAt?)
open Storage (Laid Overwritten Writes)

variable {w : Width} {v : UIntVec w}

theorem laid (h : v.Canonical) : Laid v := by
  refine Storage.laid_of_laws (storage_laws w) h fun k value hk j hj => ?_
  cases v with
  | native lane b =>
      have hwidth := Width.eq_of_lane? h
      subst hwidth
      show bitAt? b.bytes (k * lane.width.bits + j) = _
      rw [← Lane.bits_eq]
      exact Buffer.bit_of_toList hk (by rw [Lane.bits_eq]; exact hj)
  | dense d => exact Dense.bit_of_toList h.2 hk hj

theorem setByte_overwritten {i : Nat} (hi : i < (Storage.bytes v).length) (byte : Byte) :
    ∃ v', Storage.setByte v i byte = .ok v' ∧ Overwritten v v' (8 * i) byte := by
  cases v with
  | native lane b =>
      obtain ⟨b', hset, hover⟩ := Buffer.setByte_overwritten hi byte
      exact ⟨native lane b', map_eq_ok_iff.mpr ⟨b', hset, rfl⟩, hover.size, hover.length, hover.bit⟩
  | dense d =>
      obtain ⟨d', hset, hover⟩ := Dense.setByte_overwritten hi byte
      exact ⟨dense d', map_eq_ok_iff.mpr ⟨d', hset, rfl⟩, hover.size, hover.length, hover.bit⟩

theorem setByte_refused {i : Nat} (hi : (Storage.bytes v).length ≤ i) (byte : Byte) :
    Storage.setByte v i byte = .error .bounds := by
  cases v with
  | native lane b => exact congrArg (Except.map (native lane)) (Buffer.setByte_refused hi byte)
  | dense d => exact congrArg (Except.map dense) (Dense.setByte_refused hi byte)

theorem setByte_writes (h : v.Canonical) :
    Writes v (Storage.setByte v) (Storage.bytes v).length where
  inside i byte hi := by
    obtain ⟨v', hset, hover⟩ := setByte_overwritten hi byte
    exact ⟨v', hset, hover.patched (laid h) (laid (canonical_of_setByte h hset))
      (storage_laws w).length_toList⟩
  outside i byte hi := setByte_refused hi byte

end UIntVec

/-! ## One layout for every width -/

section OneLayout

open Bytes (bitAt?)
open Storage (Laid Writes)

/-- Elements, words and bytes are the same row of bits at every width and in both backings, and a
write to the words or bytes reaches the bits of that word or byte alone. -/
theorem byte_layout_exact :
    (∀ (w : Width) (d : Dense w), d.bytes.length = 8 * d.words.size ∧
      ∀ p, bitAt? d.bytes p = bitAt? d.words.toList p) ∧
    (∀ (w : Width) (d : Dense w), d.Reachable →
      Laid d ∧ Writes d d.setByte d.bytes.length ∧ Writes d d.setWord d.words.size) ∧
    (∀ (w : Width) (v : UIntVec w), v.Reachable →
      Laid v ∧ Writes v (Storage.setByte v) (Storage.bytes v).length) ∧
    ∀ (lane : Lane) (b : Buffer lane) (d : Dense lane.width), d.Reachable →
      b.toList = d.toList → b.bytes <+: d.bytes := by
  refine ⟨fun w d => ⟨d.length_bytes, d.bitAt?_bytes⟩, fun w d hd => ?_, fun w v hv => ?_,
    fun lane b d hd heq => ?_⟩
  · exact ⟨Dense.laid hd.wellFormed, Dense.setByte_writes hd.wellFormed,
      Dense.setWord_writes hd.wellFormed⟩
  · exact ⟨UIntVec.laid hv.canonical, UIntVec.setByte_writes hv.canonical⟩
  · exact Buffer.leading_bytes hd.wellFormed heq

theorem byte_layout_of_pushes :
    Laid (⟨#[12805], 2, 1⟩ : Dense { bits := 7 }) ∧
      Writes (UIntVec.dense (w := { bits := 7 }) ⟨#[5], 1, 1⟩)
        (Storage.setByte (UIntVec.dense (w := { bits := 7 }) ⟨#[5], 1, 1⟩)) 8 ∧
      (⟨#[5], 1⟩ : Buffer .bits16).bytes <+: (⟨#[5], 1, 1⟩ : Dense Lane.bits16.width).bytes := by
  have hpushed : (⟨#[12805], 2, 1⟩ : Dense { bits := 7 }).Reachable :=
    ⟨[(.left, .container (.storage (.push 5))), (.left, .container (.storage (.push 100)))],
      (⟨.ok .done, []⟩, ⟨⟨#[12805], 2, 1⟩, Dense.empty⟩),
      List.mem_cons_of_mem _ (List.mem_singleton_self _), .inl rfl⟩
  have hvector : UIntVec.Reachable (.dense (w := { bits := 7 }) ⟨#[5], 1, 1⟩) :=
    UIntVec.reachable_of_push 5 rfl
  have hnative : (⟨#[5], 1, 1⟩ : Dense Lane.bits16.width).Reachable :=
    ⟨[(.left, .container (.storage (.push 5)))],
      (⟨.ok .done, []⟩, ⟨⟨#[5], 1, 1⟩, Dense.empty⟩), List.mem_singleton_self _, .inl rfl⟩
  obtain ⟨_, hdense, hvectors, hbytes⟩ := byte_layout_exact
  exact ⟨(hdense _ _ hpushed).1, (hvectors _ _ hvector).2, hbytes .bits16 _ _ hnative rfl⟩

end OneLayout

end NarrowVec
