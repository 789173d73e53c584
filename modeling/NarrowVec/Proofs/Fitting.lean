import Mathlib.Order.Bounds.Basic
import NarrowVec.Proofs.VectorLaws

/-!
# Widths that fit

A value fits a width when it needs no more bits, and then it is kept as it is; every other value
loses a bit that is set.  So a store of some values holds exactly these values as long as its width
is no less than what the greatest of them needs, and a narrower store changes at least that one.
-/

set_option autoImplicit false

namespace NarrowVec

/-! ## Bits of a value -/

namespace Word

variable {v : Word} {n : Nat}

/-- The position of the highest bit that is set, counted from one. -/
theorem bitsNeeded_eq_log2 (v : Word) : v.bitsNeeded = v.toNat.log2 + 1 := by
  unfold bitsNeeded
  by_cases hzero : v = 0
  · subst hzero
    rfl
  · have hnat : v.toNat ≠ 0 := fun h => hzero (BitVec.eq_of_toNat_eq h)
    have hclz : v.clz.toNat < 64 := BitVec.lt_def.mp (BitVec.clz_lt_iff_ne_zero.mpr hzero)
    have hexp : 64 - 1 - v.clz.toNat + 1 = 64 - v.clz.toNat := by omega
    have hlog : v.toNat.log2 = 64 - 1 - v.clz.toNat := by
      rw [Nat.log2_eq_iff hnat, hexp]
      exact ⟨BitVec.two_pow_sub_clz_le_toNat_of_ne_zero (by decide) hzero,
        BitVec.toNat_lt_two_pow_sub_clz⟩
    rw [if_neg hzero, hlog, hexp]

theorem bitsNeeded_le_iff (hn : 0 < n) : v.bitsNeeded ≤ n ↔ v.toNat < 2 ^ n := by
  rw [bitsNeeded_eq_log2]
  by_cases hzero : v.toNat = 0
  · -- Zero has no bit that is set, and still takes one.
    rw [hzero, Nat.log2_zero, Nat.zero_add]
    exact ⟨fun _ => Nat.two_pow_pos n, fun _ => hn⟩
  · rw [Nat.succ_le_iff, Nat.log2_lt hzero]

theorem bitsNeeded_pos (v : Word) : 0 < v.bitsNeeded := by
  rw [bitsNeeded_eq_log2]
  exact Nat.succ_pos _

theorem lt_two_pow_bitsNeeded (v : Word) : v.toNat < 2 ^ v.bitsNeeded :=
  (bitsNeeded_le_iff v.bitsNeeded_pos).mp (Nat.le_refl _)

theorem bitsNeeded_le (v : Word) : v.bitsNeeded ≤ 64 :=
  (bitsNeeded_le_iff (by decide)).mpr v.isLt

theorem isLeast_bitsNeeded (v : Word) : IsLeast {n | 1 ≤ n ∧ v.toNat < 2 ^ n} v.bitsNeeded :=
  ⟨⟨v.bitsNeeded_pos, v.lt_two_pow_bitsNeeded⟩, fun _ h => (bitsNeeded_le_iff h.1).mpr h.2⟩

end Word

namespace Width

variable {w : Width} {v : Word} {values : List Word}

theorem truncate_eq_self_iff : w.truncate v = v ↔ v.bitsNeeded ≤ w.bits := by
  rw [Word.bitsNeeded_le_iff w.pos, ← BitVec.toNat_inj, toNat_truncate,
    Nat.mod_eq_iff_lt (Nat.two_pow_pos w.bits).ne']

theorem map_truncate_eq_self_iff :
    values.map w.truncate = values ↔ ∀ v ∈ values, v.bitsNeeded ≤ w.bits := by
  have hid : values.map w.truncate = values ↔ values.map w.truncate = values.map id := by
    rw [List.map_id]
  rw [hid, List.map_inj_left]
  exact forall₂_congr fun v _ => truncate_eq_self_iff

end Width

/-! ## Stores of given values -/

namespace Container

variable {σ : Type} [Container σ] {V : ListView σ} {text : Nat → Word → String} {s : σ}
  {values : List Word}

/-- What is read of a store of width `w` that was made of the values. -/
structure ReadsBack (w : Width) (s : σ) (values : List Word) : Prop where
  entries : entries s = .ok values ↔ ∀ v ∈ values, v.bitsNeeded ≤ w.bits
  get? : ∀ {i v}, values[i]? = some v →
    (Storage.get? s i = .ok (some v) ↔ v.bitsNeeded ≤ w.bits)
  /-- Some value is changed if and only if the width is less than the greatest value needs. -/
  changed : ∀ {m}, (values.map Word.bitsNeeded).max? = some m →
    (w.bits < m ↔ ∃ i v, values[i]? = some v ∧ Storage.get? s i ≠ .ok (some v))

theorem get?_of_holds (k : Laws V text) (hs : V.Holds s (values.map V.width.truncate)) {i : Nat}
    {v : Word} (hv : values[i]? = some v) :
    Storage.get? s i = .ok (some v) ↔ v.bitsNeeded ≤ V.width.bits := by
  rw [k.get? hs.valid, hs.toList, List.getElem?_map, hv, ← Width.truncate_eq_self_iff]
  simp

theorem readsBack_of_holds (k : Laws V text) (hs : V.Holds s (values.map V.width.truncate)) :
    ReadsBack V.width s values where
  entries := by
    rw [k.entries hs.valid, hs.toList, Except.ok.injEq, Width.map_truncate_eq_self_iff]
  get? hv := get?_of_holds k hs hv
  changed {m} hm := by
    obtain ⟨hmem, hle⟩ := List.max?_eq_some_iff.mp hm
    constructor
    · intro hlt
      obtain ⟨v, hv, rfl⟩ := List.mem_map.mp hmem
      obtain ⟨i, hi⟩ := List.getElem?_of_mem hv
      exact ⟨i, v, hi, fun hsame => Nat.not_le.mpr hlt ((get?_of_holds k hs hi).mp hsame)⟩
    · rintro ⟨i, v, hi, hchanged⟩
      have hbits : ¬v.bitsNeeded ≤ V.width.bits := mt (get?_of_holds k hs hi).mpr hchanged
      have hbound := hle _ (List.mem_map_of_mem (List.mem_of_getElem? hi))
      omega

theorem readsBack_of_ofList (k : Laws V text) (hfits : V.Fits values.length) :
    ∃ s : σ, Storage.ofList values = .ok s ∧ ReadsBack V.width s values := by
  obtain ⟨s, hs, hholds⟩ := k.ofList hfits
  exact ⟨s, hs, readsBack_of_holds k hholds⟩

end Container

/-- The bits needed by a value are the least width that holds it, and a store or vector made of
values gives them back unchanged exactly when its width is enough for each of them. -/
theorem bits_needed_suffice :
    (∀ v : Word, IsLeast {n | 1 ≤ n ∧ v.toNat < 2 ^ n} v.bitsNeeded ∧ v.bitsNeeded ≤ 64) ∧
    ∀ (w : Width) (values : List Word), w.Roomy values.length →
      (∃ d : Dense w, Storage.ofList values = .ok d ∧ Container.ReadsBack w d values) ∧
      ∃ v : UIntVec w, Storage.ofList values = .ok v ∧ Container.ReadsBack w v values := by
  refine ⟨fun v => ⟨v.isLeast_bitsNeeded, v.bitsNeeded_le⟩, ?_⟩
  intro w values hroom
  exact ⟨Container.readsBack_of_ofList (Dense.laws w) hroom.countable,
    Container.readsBack_of_ofList (UIntVec.laws w) hroom⟩

/-- Seven bits are enough for two of these values, and eight for all. -/
theorem bits_needed_suffice_at_byte :
    (∃ d : Dense { bits := 7 }, Storage.ofList [127, 128, 0] = .ok d ∧
      Storage.get? d 0 = .ok (some 127) ∧ ∃ i v, ([127, 128, 0] : List Word)[i]? = some v ∧
        Storage.get? d i ≠ .ok (some v)) ∧
    ∃ v : UIntVec { bits := 8 }, Storage.ofList [127, 128, 0] = .ok v ∧
      Container.entries v = .ok [127, 128, 0] := by
  obtain ⟨⟨d, hd, hreads⟩, _⟩ := bits_needed_suffice.2 { bits := 7 } [127, 128, 0] (by decide)
  obtain ⟨_, v, hv, hreads'⟩ := bits_needed_suffice.2 { bits := 8 } [127, 128, 0] (by decide)
  have hfirst := hreads.get? (i := 0) (v := 127) rfl
  have hchanged := hreads.changed (m := 8) (by decide)
  exact ⟨⟨d, hd, hfirst.mpr (by decide), hchanged.mp (by decide)⟩,
    v, hv, hreads'.entries.mpr (by simp [Word.bitsNeeded_le_iff])⟩

end NarrowVec
