import NarrowVec.Proofs.Comparisons
import NarrowVec.Proofs.Padding
import NarrowVec.UIntVec.Op

/-!
# Vectors and their backings

Whatever is done to a vector, its backing stays the one that its width asks for, and dense backings
stay well-formed.  So no two vectors of one width are ever of mixed backings, and all of them are
compared by their elements.
-/

set_option autoImplicit false

namespace NarrowVec

namespace Buffer

variable {lane : Lane} {b c : Buffer lane}

theorem decode_injective {x y : BitVec lane.bits} (h : decode x = decode y) : x = y := by
  have hle : lane.bits ≤ 64 := by cases lane <;> decide
  have hnat := congrArg BitVec.toNat h
  simp only [decode] at hnat
  rw [BitVec.toNat_setWidth_of_le hle, BitVec.toNat_setWidth_of_le hle] at hnat
  exact BitVec.eq_of_toNat_eq hnat

theorem equal_spec (b c : Buffer lane) :
    Container.equal b c = .ok (decide (b.toList = c.toList)) := by
  have hlists : b.toList = c.toList ↔ b.items = c.items := by
    simp only [toList]
    rw [List.map_inj_right fun _ _ => decode_injective, Array.toList_inj]
  simp only [hlists, ← Bool.beq_eq_decide_eq]
  rfl

end Buffer

namespace UIntVec

variable {w : Width} {v v' : UIntVec w}

/-- The backing is the one that the width asks for, and well-formed. -/
def Canonical : UIntVec w → Prop
  | native lane _ => w.lane? = some lane
  | dense fields => w.lane? = none ∧ fields.WellFormed

/-! ## Operations keep the backing -/

theorem canonical_of_build {make : (σ : Type) → [Storage σ] → Except Fault σ}
    (hdense : ∀ {d : Dense w}, make (Dense w) = .ok d → d.WellFormed)
    (hrun : build make = .ok v) : v.Canonical := by
  simp only [build] at hrun
  split at hrun
  · rename_i lane hlane
    obtain ⟨items, _, rfl⟩ := map_eq_ok_iff.mp hrun
    exact hlane
  · rename_i hlane
    obtain ⟨fields, hmake, rfl⟩ := map_eq_ok_iff.mp hrun
    exact ⟨hlane, hdense hmake⟩

theorem canonical_of_edit {f : {σ : Type} → [Storage σ] → σ → Except Fault σ}
    (hdense : ∀ {d d' : Dense w}, f d = .ok d' → d.Edited d') (hrun : v.edit f = .ok v')
    (h : v.Canonical) : v'.Canonical := by
  cases v with
  | native lane items =>
      obtain ⟨_, _, rfl⟩ := map_eq_ok_iff.mp hrun
      exact h
  | dense fields =>
      obtain ⟨_, hf, rfl⟩ := map_eq_ok_iff.mp hrun
      exact ⟨h.1, (hdense hf).wellFormed h.2⟩

theorem canonical_of_traced {f : {σ : Type} → [Storage σ] → σ → Traced σ}
    (hdense : ∀ {d d' : Dense w}, (f d).result = .ok d' → d.Edited d')
    (hrun : (v.edit f).result = .ok v') (h : v.Canonical) : v'.Canonical := by
  cases v with
  | native lane items =>
      obtain ⟨_, _, rfl⟩ := Traced.map_result_eq_ok_iff.mp hrun
      exact h
  | dense fields =>
      obtain ⟨_, hf, rfl⟩ := Traced.map_result_eq_ok_iff.mp hrun
      exact ⟨h.1, (hdense hf).wellFormed h.2⟩

theorem canonical_of_editWith {α : Type} {a : α}
    {f : {σ : Type} → [Storage σ] → σ → Except Fault (α × σ)}
    (hdense : ∀ {d d' : Dense w}, f d = .ok (a, d') → d.Edited d')
    (hrun : v.editWith f = .ok (a, v')) (h : v.Canonical) : v'.Canonical := by
  cases v with
  | native lane items =>
      obtain ⟨_, _, heq⟩ := map_eq_ok_iff.mp hrun
      cases heq
      exact h
  | dense fields =>
      obtain ⟨_, hf, heq⟩ := map_eq_ok_iff.mp hrun
      cases heq
      exact ⟨h.1, (hdense hf).wellFormed h.2⟩

theorem canonical_empty : (Storage.empty : UIntVec w).Canonical := by
  show (Id.run (build fun σ => Storage.empty (σ := σ))).Canonical
  simp only [build]
  split
  · assumption
  · rename_i hlane
    exact ⟨hlane, Dense.wellFormed_empty⟩

theorem canonical_of_push {value : Word} (hrun : Storage.push v value = .ok v')
    (h : v.Canonical) : v'.Canonical :=
  canonical_of_edit (f := fun s => Storage.push s value) Dense.evolves.push hrun h

theorem canonical_of_reserve {n : Nat} (hrun : (Storage.reserve v n).result = .ok v')
    (h : v.Canonical) : v'.Canonical :=
  canonical_of_traced (f := fun s => Storage.reserve s n) Dense.evolves.reserve hrun h

theorem canonical_of_extend {feed : Feed}
    (hrun : (Storage.extend v feed).result = .ok v') (h : v.Canonical) : v'.Canonical :=
  Storage.keeps_of_extend (fun hv hpush => canonical_of_push hpush hv)
    (fun hv hreserve => canonical_of_reserve hreserve hv) h hrun

theorem canonical_of_clear (h : v.Canonical) : (Storage.clear v).Canonical := by
  cases v with
  | native lane items => exact h
  | dense fields => exact ⟨h.1, Dense.wellFormed_empty⟩

theorem canonical_of_setByte {i : Nat} {byte : Byte} (h : v.Canonical)
    (hrun : Storage.setByte v i byte = .ok v') : v'.Canonical := by
  cases v with
  | native lane items =>
      obtain ⟨_, _, rfl⟩ := map_eq_ok_iff.mp hrun
      exact h
  | dense fields =>
      obtain ⟨_, hset, rfl⟩ := map_eq_ok_iff.mp hrun
      exact ⟨h.1, Dense.wellFormed_of_setByte h.2 hset⟩

theorem canonical_of_copy (h : v.Canonical) : (Storage.copy v).Canonical := by
  cases v with
  | native lane items => exact h
  | dense fields => exact h

theorem canonical_of_act {i : Nat} {action : Action} {reply : Reply}
    (hrun : v.act i action = .ok (reply, v')) (h : v.Canonical) : v'.Canonical := by
  cases v with
  | native lane items =>
      obtain ⟨_, _, heq⟩ := map_eq_ok_iff.mp hrun
      cases heq
      exact h
  | dense fields =>
      obtain ⟨_, hact, heq⟩ := map_eq_ok_iff.mp hrun
      cases heq
      exact ⟨h.1, (Dense.edited_of_act hact).wellFormed h.2⟩

theorem canonical_of_visit {calls : List Visit.Call} {answers : List Visit.Answer}
    (hrun : v.visit calls = .ok (answers, v')) (h : v.Canonical) : v'.Canonical := by
  cases v with
  | native lane items =>
      obtain ⟨_, _, heq⟩ := map_eq_ok_iff.mp hrun
      cases heq
      exact h
  | dense fields =>
      obtain ⟨_, hvisit, heq⟩ := map_eq_ok_iff.mp hrun
      cases heq
      obtain ⟨_, hbecomes⟩ := Dense.becomes_of_visit h.2 hvisit
      exact ⟨h.1, hbecomes.wellFormed⟩

theorem evolves : Container.Evolves (fun v v' : UIntVec w => v.Canonical → v'.Canonical)
    fun v v' => v.Canonical → v'.Canonical where
  refl _ := id
  reserve := canonical_of_reserve
  shrink v h := by
    cases v with
    | native lane items => exact h
    | dense fields => exact h
  set := canonical_of_edit (f := fun s => Storage.set s _ _) Dense.evolves.set
  push := canonical_of_push
  pop := canonical_of_editWith (f := Storage.pop) Dense.evolves.pop
  insertCopies :=
    canonical_of_traced (f := fun s => Storage.insertCopies s _ _ _) Dense.evolves.insertCopies
  insertList :=
    canonical_of_traced (f := fun s => Storage.insertList s _ _) Dense.evolves.insertList
  insert :=
    canonical_of_traced (f := fun s => Storage.insertCopies s _ _ _) Dense.evolves.insertCopies
  extend := canonical_of_extend
  remove := canonical_of_editWith (f := fun s => Storage.remove s _) Dense.evolves.remove
  erase := canonical_of_edit (f := fun s => Storage.erase s _) Dense.evolves.erase
  resize := canonical_of_edit (f := fun s => Storage.resize s _ _) Dense.evolves.resize
  setSize := canonical_of_edit (f := fun s => Storage.setSize s _) Dense.evolves.setSize
  truncate := canonical_of_edit (f := fun s => Storage.truncate s _) Dense.evolves.truncate
  swap := canonical_of_edit (f := fun s => Storage.swap s _ _) Dense.evolves.swap
  act := canonical_of_act
  visit := canonical_of_visit
  empty _ _ := canonical_empty
  emptyWithCapacity hrun _ := canonical_of_build
    (fun hmake => (Dense.evolves.emptyWithCapacity (s := .empty) hmake).wellFormed) hrun
  zeros hrun _ := canonical_of_build
    (fun hmake => (Dense.evolves.zeros (s := .empty) hmake).wellFormed) hrun
  replicate hrun _ := canonical_of_build
    (fun hmake => (Dense.evolves.replicate (s := .empty) hmake).wellFormed) hrun
  ofList hrun _ := canonical_of_build
    (fun hmake => (Dense.evolves.ofList (s := .empty) hmake).wellFormed) hrun
  ofPushes hrun _ := canonical_of_extend hrun canonical_empty
  assign hrun h := canonical_of_extend hrun (canonical_of_clear h)
  assignCopies hrun h := canonical_of_edit (f := fun s => Storage.resize s _ _)
    Dense.evolves.resize hrun (canonical_of_clear h)
  clear _ := canonical_of_clear

/-! ## Histories of vectors -/

def Op.perform (p : Pair (UIntVec w)) : Op → Traced (Answer × Pair (UIntVec w))
  | .container op => op.perform p
  | op => op.run p

def Reachable (v : UIntVec w) : Prop :=
  ∃ history : List (Side × Op),
    ∃ x ∈ Session.run Op.perform ⟨Storage.empty, Storage.empty⟩ history,
      v = x.2.left ∨ v = x.2.right

theorem canonical_of_perform (p : Pair (UIntVec w)) (op : Op) (answer : Answer)
    (p' : Pair (UIntVec w)) (ht : p.target.Canonical) (ho : p.other.Canonical)
    (hrun : (op.perform p).result = .ok (answer, p')) :
    p'.target.Canonical ∧ p'.other.Canonical := by
  cases op with
  | container op =>
      exact (Container.takes_of_perform evolves hrun).keeps (fun h hedit => hedit h)
        (fun h hbuild => hbuild h) canonical_of_copy canonical_of_setByte ht ho
  | isDense =>
      cases hrun
      exact ⟨ht, ho⟩
  | pushDense value =>
      obtain ⟨target, other⟩ := p
      cases target with
      | native lane items =>
          cases hrun
          exact ⟨ht, ho⟩
      | dense fields =>
          obtain ⟨_, hpush, hlast⟩ := Traced.lift_result_eq_ok_iff.mp hrun
          cases hlast
          exact ⟨⟨ht.1, (Dense.evolves.push hpush).wellFormed ht.2⟩, ho⟩

theorem Reachable.canonical (h : v.Reachable) : v.Canonical :=
  Session.keeps_of_reached canonical_of_perform canonical_empty h

/-! ## Comparing vectors -/

variable {u : UIntVec w}

theorem compared_native {lane : Lane} (a b : Buffer lane) :
    Container.Compared (native lane a : UIntVec w) (native lane b) := by
  have hequal : Container.equal (native lane a : UIntVec w) (native lane b) =
      .ok (decide (a.toList = b.toList)) := by
    cases lane <;> exact Buffer.equal_spec a b
  apply Container.compared_of_entries rfl rfl hequal
  intro heq
  have hlength : a.toList.length = b.toList.length := congrArg List.length heq
  simp only [Buffer.toList] at hlength
  rw [List.length_map, List.length_map] at hlength
  exact hlength

theorem compared_dense {a b : Dense w} (ha : a.WellFormed) (hb : b.WellFormed)
    (hroom : w.Roomy a.size) : Container.Compared (dense a) (dense b) := by
  apply Container.compared_of_entries (Dense.entries_spec ha) (Dense.entries_spec hb)
    (Dense.equal_spec ha hb hroom)
  intro heq
  have hlength : a.toList.length = b.toList.length := congrArg List.length heq
  exact a.length_toList.symm.trans (hlength.trans b.length_toList)

/-- Two vectors with the backing of their width are never of mixed backings. -/
theorem compared (hu : u.Canonical) (hv : v.Canonical) (hroom : w.Roomy (Storage.size u)) :
    Container.Compared u v := by
  cases u with
  | native lane a =>
      cases v with
      | native lane' b =>
          cases Option.some.inj (hu.symm.trans hv)
          exact compared_native a b
      | dense b => cases hu.symm.trans hv.1
  | dense a =>
      cases v with
      | native lane b => cases hu.1.symm.trans hv
      | dense b => exact compared_dense hu.2 hv.2 hroom

end UIntVec

/-- Equality, order and hash of dense stores depend on the elements alone, whatever their padding,
and so do those of vectors with any history. -/
theorem comparisons_of_elements (w : Width) :
    (∀ d e : Dense w, d.WellFormed → e.WellFormed → w.Roomy d.size → Container.Compared d e) ∧
    ∀ u v : UIntVec w, u.Reachable → v.Reachable → w.Roomy (Storage.size u) →
      Container.Compared u v :=
  ⟨fun _ _ hd he hroom => Dense.compared hd he hroom,
    fun _ _ hu hv hroom => UIntVec.compared hu.canonical hv.canonical hroom⟩

theorem comparisons_of_stale :
    Container.Compared Dense.stale ⟨#[Word.mask 21], 3, 1⟩ ∧
      Container.Compared (UIntVec.dense (w := { bits := 7 }) ⟨#[5], 1, 1⟩) Storage.empty := by
  have hpushed : UIntVec.Reachable (.dense (w := { bits := 7 }) ⟨#[5], 1, 1⟩) :=
    ⟨[(.left, .container (.storage (.push 5)))],
      (⟨.ok .done, []⟩, ⟨.dense ⟨#[5], 1, 1⟩, Storage.empty⟩), List.mem_singleton_self _, .inl rfl⟩
  have hempty : UIntVec.Reachable (Storage.empty : UIntVec { bits := 7 }) :=
    ⟨[(.left, .container (.storage .empty))],
      (⟨.ok .done, []⟩, ⟨Storage.empty, Storage.empty⟩), List.mem_singleton_self _, .inl rfl⟩
  have hagree := comparisons_of_elements { bits := 7 }
  exact ⟨hagree.1 _ _ rfl rfl (by decide), hagree.2 _ _ hpushed hempty (by decide)⟩

end NarrowVec
