import NarrowVec.Proofs.Holding
import NarrowVec.Proofs.VectorLaws

/-!
# Visits of containers

A visit hands out the elements of a store as cells that nothing ties together: calls are answered as
by a deque of cells, cells that a caller holds can be acted on in any order, and nothing but the
elements of the store is touched.
-/

set_option autoImplicit false

namespace NarrowVec

/-! ## Stores and the cells that they hand out -/

def Storage.deque {σ : Type} [Storage σ] (s : σ) : Visit.Deque := ⟨toList s, 0, size s⟩

namespace Visit

variable {σ τ : Type} [Storage σ] [Storage τ] {w : Width} {text : Nat → Word → String}
  {frame : σ → σ → Prop} {frame' : τ → τ → Prop} {s : σ}
  {visit : List Call → Except Fault (List Answer × σ)}
  {hold : List Hold → Except Fault (List (Option Reply) × σ)}

/-- What visits of the store answer and leave, call by call and with cells that are held; `frame`
says what a visit leaves alone. -/
structure Faithful (w : Width) (text : Nat → Word → String) (frame : σ → σ → Prop) (s : σ)
    (visit : List Call → Except Fault (List Answer × σ))
    (hold : List Hold → Except Fault (List (Option Reply) × σ)) : Prop where
  visits : ∀ calls, Legal (Storage.size s) calls → ∃ s',
    visit calls = .ok ((onDeque w text (Storage.deque s) calls).1, s') ∧
      Storage.toList s' = (onDeque w text (Storage.deque s) calls).2 ∧ frame s s'
  refused : ∀ calls, ¬Legal (Storage.size s) calls → visit calls = .error .bounds
  /-- Cells that are held are cells that are kept apart, each handed out once. -/
  holds : ∀ steps, ∃ s', hold steps = .ok ((apart w text (Storage.deque s) [] steps).1, s') ∧
    Settled (Storage.toList s) (apart w text (Storage.deque s) [] steps).2 (Storage.toList s') ∧
    frame s s'

/-- The elements are handed out as independent cells. -/
structure Independent (w : Width) (text : Nat → Word → String) (frame : σ → σ → Prop) (s : σ)
    (visit : List Call → Except Fault (List Answer × σ))
    (hold : List Hold → Except Fault (List (Option Reply) × σ)) : Prop
    extends Faithful w text frame s visit hold where
  /-- Calls at any ends that update until no cell is left update every element. -/
  updates : ∀ (f : Word → Word) (calls : List Call), (∀ call ∈ calls, call.Updates f) →
    calls.foldl (fun n call => call.left n) (Storage.size s) = 0 → ∃ answers s',
      visit calls = .ok (answers, s') ∧
        Storage.toList s' = (Storage.toList s).map (fun v => w.truncate (f v)) ∧ frame s s'
  /-- An action on one cell that is held is not seen through another. -/
  apart : ∀ (steps : List Hold) {j k : Nat}, j ≠ k → ∀ action : Action, ∃ replies seen reply s',
    hold (steps ++ [.act j .get, .act k action, .act j .get]) =
      .ok (replies ++ [seen, reply, seen], s')
  /-- No action on cells that are held is seen through a cell that is handed out after it. -/
  fresh : ∀ (steps : List Hold) {t : Take} {i : Nat},
    (t.onDeque ((Storage.deque s).after steps)).1 = some i → ∃ replies s',
      hold (steps ++
          [.take t, .act (Visit.apart w text (Storage.deque s) [] steps).2.length .get]) =
        .ok (replies ++ [some (.word ((Storage.toList s).getD i 0))], s')

theorem Faithful.map {ι : σ → τ} (h : Faithful w text frame s visit hold)
    (hsize : Storage.size (ι s) = Storage.size s)
    (htoList : ∀ s, Storage.toList (ι s) = Storage.toList s)
    (hframe : ∀ {s'}, frame s s' → frame' (ι s) (ι s')) :
    Faithful w text frame' (ι s) (fun calls => Prod.map id ι <$> visit calls)
      fun steps => Prod.map id ι <$> hold steps := by
  have hdeque : Storage.deque (ι s) = Storage.deque s := by
    simp only [Storage.deque, hsize, htoList]
  refine ⟨?_, ?_, ?_⟩
  · intro calls hlegal
    obtain ⟨s', hvisit, hs', hkept⟩ := h.visits calls (hsize ▸ hlegal)
    refine ⟨ι s', ?_, ?_, hframe hkept⟩
    · rw [hvisit, hdeque]
      rfl
    · rw [htoList, hs', hdeque]
  · intro calls hillegal
    rw [h.refused calls (hsize ▸ hillegal)]
    rfl
  · intro steps
    obtain ⟨s', hhold, hs', hkept⟩ := h.holds steps
    refine ⟨ι s', ?_, ?_, hframe hkept⟩
    · rw [hhold, hdeque]
      rfl
    · rw [htoList, htoList, hdeque]
      exact hs'

theorem Faithful.independent (h : Faithful w text frame s visit hold)
    (hlength : (Storage.toList s).length = Storage.size s) :
    Independent w text frame s visit hold where
  toFaithful := h
  updates f calls hcalls hleft := by
    obtain ⟨s', hvisit, hs', hframe⟩ := h.visits calls (legal_of_updates calls _ hcalls)
    have hall : Deque.Updated w f (Storage.toList s) (Storage.deque s) := by
      rw [Storage.deque, ← hlength]
      exact updated_all _
    rw [updated_onDeque calls hall hcalls hleft] at hs'
    exact ⟨_, s', hvisit, hs', hframe⟩
  apart steps j k hne action := by
    obtain ⟨s', hhold, _⟩ := h.holds (steps ++ [.act j .get, .act k action, .act j .get])
    obtain ⟨seen, reply, hlast⟩ := apart_get_act_get w text
      ((Storage.deque s).after steps) (Visit.apart w text (Storage.deque s) [] steps).2 hne action
    rw [apart_append, hlast] at hhold
    exact ⟨_, seen, reply, s', hhold⟩
  fresh steps t i hi := by
    obtain ⟨s', hhold, _⟩ := h.holds (steps ++
      [.take t, .act (Visit.apart w text (Storage.deque s) [] steps).2.length .get])
    rw [apart_append, apart_take_get _ _ hi, Deque.values_after] at hhold
    exact ⟨_, s', hhold⟩

end Visit

/-! ## Dense stores -/

namespace Dense

variable {w : Width} {d d' : Dense w} {values : List Word}

/-- The size, the words that are taken and the padding are the same. -/
structure SameFrame (d d' : Dense w) : Prop where
  size : d'.size = d.size
  words_size : d'.words.size = d.words.size
  padding : ∀ p, d.size * w.bits ≤ p → p < 64 * d.words.size → d'.words.bit p = d.words.bit p

theorem sameFrame_of_becomes (h : d.WellFormed) (hd : d.Becomes d' values)
    (hlength : values.length = d.size) : d.SameFrame d' := by
  have hsize : d'.size = d.size := hd.size.trans hlength
  have hwords : d'.words.size = d.words.size := by
    rw [hd.words_size, hlength, ← h.words_size]
  refine ⟨hsize, hwords, fun p hp hlt => hd.padding p ?_ ?_⟩
  · rw [hsize]
    exact hp
  · rw [hwords]
    exact hlt

def hold (label : Address → Word → String) (d : Dense w) (steps : List Visit.Hold) :
    Except Fault (List (Option Reply) × Dense w) := do
  let c ← d.cursor
  Visit.hold label d c [] steps

theorem faithful (h : d.WellFormed) (hroom : w.Roomy d.size) (label : Address → Word → String) :
    Visit.Faithful w (text w label) SameFrame d (d.visit label) (d.hold label) where
  visits calls hlegal := by
    obtain ⟨d', hvisit, hd'⟩ : ∃ d', d.visit label calls = _ ∧ _ := visit_spec h hroom hlegal
    refine ⟨d', hvisit, hd'.toList, sameFrame_of_becomes h hd' ?_⟩
    rw [Visit.length_onDeque]
    exact length_toList d
  refused calls hillegal := visit_refused h hroom hillegal
  holds steps := by
    have hnone : Visit.Holding d.Becomes d.size d.deque [] d d.toList :=
      ⟨Becomes.refl h, Visit.settled_nil _, Nat.zero_le _, Nat.le_refl _,
        Nat.le_of_eq (length_toList d).symm, fun i hi => absurd hi List.not_mem_nil⟩
    obtain ⟨d', values, hhold, hd', hsettled⟩ :=
      Visit.hold_span d.models (grid h) (reaches_cellAt hroom) label steps hnone
    have hlength : values.length = d.size := hsettled.length.trans (length_toList d)
    have hvalues : Storage.toList d' = values := hd'.toList
    rw [← hvalues] at hsettled
    refine ⟨d', ?_, hsettled, sameFrame_of_becomes h hd' hlength⟩
    simp only [hold]
    rw [bind_of_ok (cursor_spec h)]
    exact hhold

end Dense

/-! ## Buffers -/

namespace Buffer

variable {lane : Lane} {b : Buffer lane}

def hold (b : Buffer lane) (steps : List Visit.Hold) :
    Except Fault (List (Option Reply) × Buffer lane) :=
  Visit.hold text b b.cursor [] steps

theorem faithful (hsize : b.size < Size.limit) :
    Visit.Faithful lane.width text (fun b b' : Buffer lane => b'.size = b.size) b
      (Container.visit b) b.hold where
  visits calls hlegal := by
    obtain ⟨b', hvisit, hb'⟩ := visit_spec hsize hlegal
    refine ⟨b', hvisit, hb', ?_⟩
    rw [← length_toList b', hb', Visit.length_onDeque]
    exact length_toList b
  refused calls hillegal := visit_refused hsize hillegal
  holds steps := by
    have hnone : Visit.Holding (fun (b : Buffer lane) values => b.toList = values) b.size
        (Storage.deque b) [] b b.toList :=
      ⟨rfl, Visit.settled_nil _, Nat.zero_le _, Nat.le_refl _,
        Nat.le_of_eq (length_toList b).symm, fun i hi => absurd hi List.not_mem_nil⟩
    obtain ⟨b', values, hhold, hb', hsettled⟩ :=
      Visit.hold_span (models lane) (grid hsize) (reaches hsize) text steps hnone
    have hvalues : Storage.toList b' = values := hb'
    rw [← hvalues] at hsettled
    refine ⟨b', hhold, hsettled, ?_⟩
    rw [← length_toList b', ← length_toList b]
    exact hsettled.length

end Buffer

/-! ## Vectors -/

namespace UIntVec

variable {w : Width} {v : UIntVec w}

/-- The backing is the same, and so are its size and what else a dense backing keeps. -/
def SameFrame : UIntVec w → UIntVec w → Prop
  | native lane b, native lane' b' => lane' = lane ∧ b'.size = b.size
  | dense d, dense d' => d.SameFrame d'
  | _, _ => False

def hold (v : UIntVec w) (steps : List Visit.Hold) :
    Except Fault (List (Option Reply) × UIntVec w) :=
  match v with
  | native lane b => Prod.map id (native lane) <$> b.hold steps
  | dense d => Prod.map id dense <$> d.hold (fun _ => Word.label) steps

theorem faithful (h : v.Canonical) (hroom : w.Roomy (Storage.size v)) :
    Visit.Faithful w text SameFrame v (Container.visit v) v.hold := by
  cases v with
  | native lane b =>
      have hwidth := Width.eq_of_lane? h
      subst hwidth
      exact (Buffer.faithful hroom.countable.lt).map (ι := native lane) rfl (fun _ => rfl)
        fun hsize => ⟨rfl, hsize⟩
  | dense d =>
      have hframe : ∀ {d' : Dense w}, d.SameFrame d' → SameFrame (dense d) (dense d') := id
      have hfields := Dense.faithful h.2 hroom fun _ => Word.label
      exact hfields.map (ι := dense) rfl (fun _ => rfl) hframe

end UIntVec

/-- Dense stores and vectors with any history hand out their elements as independent cells. -/
theorem visits_of_independent_cells (w : Width) :
    (∀ d : Dense w, d.WellFormed → w.Roomy d.size →
      Visit.Independent w (Dense.text w Address.label) Dense.SameFrame d (Container.visit d)
        (d.hold Address.label)) ∧
    ∀ v : UIntVec w, v.Reachable → w.Roomy (Storage.size v) →
      Visit.Independent w UIntVec.text UIntVec.SameFrame v (Container.visit v) v.hold :=
  ⟨fun d hd hroom => (Dense.faithful hd hroom _).independent d.length_toList,
    fun v hv hroom => (UIntVec.faithful hv.canonical hroom).independent
      ((UIntVec.storage_laws w).length_toList v)⟩

theorem visits_of_stale :
    Visit.Independent { bits := 7 } (Dense.text { bits := 7 } Address.label) Dense.SameFrame
        Dense.stale (Container.visit Dense.stale) (Dense.stale.hold Address.label) ∧
      Visit.Independent { bits := 7 } UIntVec.text UIntVec.SameFrame
        (UIntVec.dense (w := { bits := 7 }) ⟨#[5], 1, 1⟩)
        (Container.visit (UIntVec.dense (w := { bits := 7 }) ⟨#[5], 1, 1⟩))
        (UIntVec.dense (w := { bits := 7 }) ⟨#[5], 1, 1⟩).hold := by
  have hpushed : UIntVec.Reachable (.dense (w := { bits := 7 }) ⟨#[5], 1, 1⟩) :=
    UIntVec.reachable_of_push 5 rfl
  have hvisits := visits_of_independent_cells { bits := 7 }
  exact ⟨hvisits.1 _ rfl (by decide), hvisits.2 _ hpushed (by decide)⟩

end NarrowVec
