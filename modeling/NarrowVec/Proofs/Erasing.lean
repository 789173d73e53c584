import NarrowVec.Proofs.Buffers
import NarrowVec.Proofs.Safety

/-!
# Erasing by extents

Which elements an extent takes away is said by membership of their indices; which extents are
accepted is said by their ends, computed without bound.  Both kinds of storage erase the same: they
resolve the extent first, and what is resolved is always carried out.
-/

set_option autoImplicit false

namespace NarrowVec

/-! ## Lists without an extent -/

namespace Extent

variable {α : Type} {e : Extent} {values : List α} {n : Nat}

/-- The values whose indices are not in the extent, in order. -/
def without (e : Extent) (values : List α) : List α :=
  (values.zipIdx.filter fun item => item.2 ∉ e).map Prod.fst

theorem filter_zipIdx_of_not_mem (h : ∀ i, n ≤ i → i < n + values.length → i ∉ e) :
    ((values.zipIdx n).filter fun item => item.2 ∉ e).map Prod.fst = values := by
  have hall : ∀ item ∈ values.zipIdx n, decide (item.2 ∉ e) = true := by
    intro item hitem
    obtain ⟨hge, hlt, _⟩ := List.mem_zipIdx hitem
    exact decide_eq_true (h item.2 hge hlt)
  rw [List.filter_eq_self.mpr hall, List.zipIdx_map_fst]

theorem filter_zipIdx_of_mem (h : ∀ i, n ≤ i → i < n + values.length → i ∈ e) :
    ((values.zipIdx n).filter fun item => item.2 ∉ e).map Prod.fst = [] := by
  have hnone : ∀ item ∈ values.zipIdx n, ¬decide (item.2 ∉ e) = true := by
    intro item hitem hdecide
    obtain ⟨hge, hlt, _⟩ := List.mem_zipIdx hitem
    exact of_decide_eq_true hdecide (h item.2 hge hlt)
  rw [List.filter_eq_nil_iff.mpr hnone, List.map_nil]

theorem without_eq (hle : e.lower ≤ e.upper values.length)
    (hend : e.upper values.length ≤ values.length) :
    e.without values = values.take e.lower ++ values.drop (e.upper values.length) := by
  have hmem : ∀ i, i < values.length → (i ∈ e ↔ e.lower ≤ i ∧ i < e.upper values.length) :=
    fun _ hi => mem_iff hi
  generalize e.upper values.length = stop at *
  generalize e.lower = start at *
  -- The values come in three runs, of which the extent holds the middle one.
  have hruns : values = values.take start ++ ((values.drop start).take (stop - start) ++
      values.drop stop) := by
    have hdrop : values.drop stop = (values.drop start).drop (stop - start) := by
      rw [List.drop_drop, Nat.add_sub_of_le hle]
    rw [hdrop, List.take_append_drop, List.take_append_drop]
  have hbefore : (values.take start).length = start := List.length_take_of_le (by omega)
  have hwithin : ((values.drop start).take (stop - start)).length = stop - start :=
    List.length_take_of_le (by rw [List.length_drop]; omega)
  have hbehind : (values.drop stop).length = values.length - stop := List.length_drop
  rw [without]
  conv_lhs => rw [hruns]
  rw [List.zipIdx_append, List.zipIdx_append, List.filter_append, List.filter_append,
    List.map_append, List.map_append, filter_zipIdx_of_not_mem, filter_zipIdx_of_mem,
    filter_zipIdx_of_not_mem, List.nil_append]
  · intro i hge hlt
    rw [hmem i (by omega)]
    omega
  · intro i hge hlt
    rw [hmem i (by omega)]
    omega
  · intro i hge hlt
    rw [hmem i (by omega)]
    omega

end Extent

/-! ## Stores without an extent -/

namespace Storage

variable {σ : Type} [Storage σ] {s : σ} {e : Extent}

/-- Erasing keeps the elements that the extent does not contain.  It is refused when the extent
steps over the last size, is reversed or ends past the end, and the first of these causes is the one
that is told. -/
structure Erases (s : σ) (e : Extent) : Prop where
  succeeds : (∃ s', erase s e = .ok s') ↔ e.lower ≤ e.upper (size s) ∧ e.upper (size s) ≤ size s
  elements : ∀ s', erase s e = .ok s' → toList s' = e.without (toList s)
  drop : ∀ s', erase s e = .ok s' → size s' + (e.upper (size s) - e.lower) = size s
  overflow : erase s e = .error .overflow ↔ e.Overflows
  reversed : ¬e.Overflows → e.upper (size s) < e.lower →
    erase s e = .error (.extentReversed e.lower (e.upper (size s)))
  pastEnd : ¬e.Overflows → e.lower ≤ e.upper (size s) → size s < e.upper (size s) →
    erase s e = .error (.extentPastEnd (e.upper (size s)) (size s))

/-- What is refused is what does not resolve, and the segment of any other extent is cut out. -/
structure Cuts (s : σ) (e : Extent) : Prop where
  length : ∀ s : σ, (toList s).length = size s
  done : e.refusal (size s) = none → ∃ s', erase s e = .ok s' ∧
    toList s' = (toList s).take e.lower ++ (toList s).drop (e.upper (size s))
  refused : ∀ fault, e.refusal (size s) = some fault → erase s e = .error fault

namespace Cuts

theorem refusal_of_erase {s' : σ} (h : Cuts s e) (hrun : erase s e = .ok s') :
    e.refusal (size s) = none := by
  cases hr : e.refusal (size s) with
  | none => rfl
  | some fault => cases (h.refused fault hr).symm.trans hrun

theorem error_iff (h : Cuts s e) {fault : Fault} :
    erase s e = .error fault ↔ e.refusal (size s) = some fault := by
  constructor
  · intro hrun
    cases hr : e.refusal (size s) with
    | none =>
        obtain ⟨_, hok, _⟩ := h.done hr
        cases hok.symm.trans hrun
    | some cause =>
        cases (h.refused cause hr).symm.trans hrun
        rfl
  · exact h.refused fault

theorem toList_of_erase {s' : σ} (h : Cuts s e) (hrun : erase s e = .ok s') :
    toList s' = (toList s).take e.lower ++ (toList s).drop (e.upper (size s)) := by
  obtain ⟨_, hok, hlist⟩ := h.done (h.refusal_of_erase hrun)
  cases hok.symm.trans hrun
  exact hlist

theorem erases (h : Cuts s e) (hsize : size s < Size.limit) (he : e.Sized) : Erases s e := by
  have hlegal := Extent.refusal_eq_none_iff (e := e) hsize
  have hrefusal := Extent.refusal_of_sized he (size s)
  constructor
  case succeeds =>
    rw [← hlegal]
    constructor
    · rintro ⟨s', hrun⟩
      exact h.refusal_of_erase hrun
    · intro hr
      obtain ⟨s', hrun, _⟩ := h.done hr
      exact ⟨s', hrun⟩
  case elements =>
    intro s' hrun
    obtain ⟨hle, hend⟩ := hlegal.mp (h.refusal_of_erase hrun)
    rw [← h.length] at hle hend
    rw [h.toList_of_erase hrun, Extent.without_eq hle hend, h.length]
  case drop =>
    intro s' hrun
    obtain ⟨hle, hend⟩ := hlegal.mp (h.refusal_of_erase hrun)
    rw [← h.length s', h.toList_of_erase hrun, List.length_append, List.length_take,
      List.length_drop, h.length]
    omega
  case overflow =>
    rw [h.error_iff, hrefusal]
    constructor
    · intro hr
      by_contra hover
      rw [if_neg hover] at hr
      split at hr
      · cases hr
      · split at hr
        · cases hr
        · cases hr
    · intro hover
      rw [if_pos hover]
  case reversed =>
    intro hover hlt
    rw [h.error_iff, hrefusal, if_neg hover, if_pos hlt]
  case pastEnd =>
    intro hover hle hlt
    rw [h.error_iff, hrefusal, if_neg hover, if_neg (Nat.not_lt.mpr hle), if_pos hlt]

end Cuts

end Storage

theorem Dense.cuts {w : Width} {d : Dense w} (h : d.WellFormed) (e : Extent) :
    Storage.Cuts d e where
  length := length_toList
  done he := by
    obtain ⟨d', herase, hd'⟩ := erase_spec h he
    exact ⟨d', herase, hd'.toList⟩
  refused _ he := erase_refused he

theorem Buffer.cuts {lane : Lane} (b : Buffer lane) (e : Extent) : Storage.Cuts b e where
  length := length_toList
  done he := ⟨_, bind_of_ok (Extent.resolve_of_not_refusal he), toList_cut b _⟩
  refused _ he := bind_of_error (Extent.resolve_of_refusal he)

theorem Storage.Cuts.same_answer {σ τ : Type} [Storage σ] [Storage τ] {s : σ} {t : τ} {e : Extent}
    (hs : Cuts s e) (ht : Cuts t e) (hsize : size s = size t) :
    (erase s e).map (fun _ => ()) = (erase t e).map fun _ => () := by
  cases hr : e.refusal (size s) with
  | none =>
      obtain ⟨_, hrun, _⟩ := hs.done hr
      obtain ⟨_, hrun', _⟩ := ht.done (hsize ▸ hr)
      rw [hrun, hrun']
      rfl
  | some fault =>
      rw [hs.refused fault hr, ht.refused fault (hsize ▸ hr)]
      rfl

/-- In dense storage after any history, and in buffers of any size, erasing removes just the
elements whose indices the extent contains, and it is refused for the ends of the extent alone.
Dense storage and buffers of equal size accept and refuse the same extents for the same causes. -/
theorem erases_contained_elements :
    (∀ (w : Width) (d : Dense w) (e : Extent), d.Reachable → e.Sized → Storage.Erases d e) ∧
    (∀ (lane : Lane) (b : Buffer lane) (e : Extent), b.size < Size.limit → e.Sized →
      Storage.Erases b e) ∧
    ∀ (w : Width) (d : Dense w) (lane : Lane) (b : Buffer lane) (e : Extent), d.Reachable →
      d.size = b.size → (d.erase e).map (fun _ => ()) = (b.erase e).map fun _ => () := by
  refine ⟨fun w d e hd he => ?_, fun lane b e hb he => ?_, fun w d lane b e hd hsize => ?_⟩
  · exact (Dense.cuts hd.wellFormed e).erases hd.wellFormed.countable.lt he
  · exact (b.cuts e).erases hb he
  · exact (Dense.cuts hd.wellFormed e).same_answer (b.cuts e) hsize

theorem erases_of_mixed_bounds :
    Storage.Erases (⟨#[12805], 2, 1⟩ : Dense { bits := 7 }) ⟨.excluded 0, .included 1⟩ ∧
      Storage.Erases (⟨#[5, 100], 2⟩ : Buffer .bits16) ⟨.excluded (Size.limit - 1), .unbounded⟩ ∧
      ((⟨#[12805], 2, 1⟩ : Dense { bits := 7 }).erase ⟨.included 2, .excluded 1⟩).map
          (fun _ => ()) =
        ((⟨#[5, 100], 2⟩ : Buffer .bits16).erase ⟨.included 2, .excluded 1⟩).map fun _ => () := by
  have hpushed : (⟨#[12805], 2, 1⟩ : Dense { bits := 7 }).Reachable :=
    ⟨[(.left, .container (.storage (.push 5))), (.left, .container (.storage (.push 100)))],
      (⟨.ok .done, []⟩, ⟨⟨#[12805], 2, 1⟩, Dense.empty⟩),
      List.mem_cons_of_mem _ (List.mem_singleton_self _), .inl rfl⟩
  obtain ⟨hdense, hbuffer, hsame⟩ := erases_contained_elements
  exact ⟨hdense _ _ _ hpushed (by decide), hbuffer _ _ _ (by decide) (by decide),
    hsame _ _ .bits16 _ _ hpushed rfl⟩

end NarrowVec
