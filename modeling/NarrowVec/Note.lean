import NarrowVec.Fault

/-!
# Notes

Operations that take more room say so in notes.  A traced computation keeps the notes it wrote
before it was refused.
-/

set_option autoImplicit false

namespace NarrowVec

inductive Level where
  | debug
  | trace
deriving DecidableEq, Repr

inductive Note where
  | reservingWords (words count width : Nat)
  | growing (width words count : Nat)
  | reservingElements (count width : Nat)
deriving DecidableEq, Repr

namespace Note

def level : Note → Level
  | reservingWords .. | reservingElements .. => .debug
  | growing .. => .trace

def text : Note → String
  | reservingWords words count width =>
    s!"reserving {words} words for {count} more {width}-bit elements"
  | growing width words count =>
    s!"growing {width}-bit store by {words} words for {count} inserted elements"
  | reservingElements count width => s!"reserving {count} more {width}-bit elements"

end Note

/-- A computation that may be refused, with the notes it wrote. -/
structure Traced (α : Type) where
  notes : List Note
  result : Except Fault α

namespace Traced

variable {α β : Type}

def ofExcept (x : Except Fault α) : Traced α := ⟨[], x⟩

def bind (x : Traced α) (f : α → Traced β) : Traced β :=
  match x.result with
  | .ok a =>
    let y := f a
    ⟨x.notes ++ y.notes, y.result⟩
  | .error fault => ⟨x.notes, .error fault⟩

instance : Monad Traced where
  pure a := ofExcept (.ok a)
  bind := bind

instance : MonadLift (Except Fault) Traced where
  monadLift := ofExcept

def write (note : Note) : Traced Unit := ⟨[note], .ok ()⟩

/-- The same computation without its notes. -/
def silent (x : Traced α) : Traced α := ⟨[], x.result⟩

/-! ## Notes and results of compound computations -/

@[ext] theorem ext {x y : Traced α} (hn : x.notes = y.notes) (hr : x.result = y.result) :
    x = y := by
  cases x
  cases y
  simp_all

instance : LawfulMonad Traced := LawfulMonad.mk' Traced
  (by
    intro α x
    show bind x (fun a => ofExcept (.ok a)) = x
    cases x with
    | mk notes result => cases result <;> simp [bind, ofExcept])
  (by
    intro α β a f
    show bind (ofExcept (.ok a)) f = f a
    simp [bind, ofExcept])
  (by
    intro α β γ x f g
    show bind (bind x f) g = bind x fun a => bind (f a) g
    cases x with
    | mk notes result =>
      cases result with
      | error fault => rfl
      | ok a =>
        cases h : (f a).result <;> simp [bind, h])

theorem result_bind (x : Traced α) (f : α → Traced β) :
    (x >>= f).result = x.result >>= fun a => (f a).result := by
  show (bind x f).result = _
  unfold bind
  cases x.result <;> rfl

theorem notes_bind (x : Traced α) (f : α → Traced β) :
    (x >>= f).notes = x.notes ++ match x.result with
      | .ok a => (f a).notes
      | .error _ => [] := by
  show (bind x f).notes = _
  unfold bind
  cases x.result <;> simp

theorem notes_ofExcept (x : Except Fault α) : (liftM x : Traced α).notes = [] := rfl

theorem notes_bind_of_ok {x : Traced α} {f : α → Traced β} {a : α} (h : x.result = .ok a) :
    (x >>= f).notes = x.notes ++ (f a).notes := by
  rw [notes_bind, h]

theorem notes_lift_of_ok {x : Except Fault α} {f : α → Traced β} {a : α} (h : x = .ok a) :
    ((liftM x : Traced α) >>= f).notes = (f a).notes := by
  rw [notes_bind_of_ok (x := liftM x) h, notes_ofExcept, List.nil_append]

theorem result_pure (a : α) : (pure a : Traced α).result = .ok a := rfl

theorem result_bind_of_ok {x : Traced α} {f : α → Traced β} {a : α} (h : x.result = .ok a) :
    (x >>= f).result = (f a).result := by
  rw [result_bind]
  exact bind_of_ok h

theorem result_bind_of_error {x : Traced α} {f : α → Traced β} {fault : Fault}
    (h : x.result = .error fault) : (x >>= f).result = .error fault := by
  rw [result_bind]
  exact bind_of_error h

/-- What follows matters only after a computation that was not refused. -/
theorem bind_congr_of_ok {x : Traced α} {f g : α → Traced β}
    (h : ∀ a, x.result = .ok a → f a = g a) : x >>= f = x >>= g := by
  show bind x f = bind x g
  unfold bind
  split
  · rename_i a ha
    rw [h a ha]
  · rfl

theorem bind_result_eq_ok_iff {x : Traced α} {f : α → Traced β} {b : β} :
    (x >>= f).result = .ok b ↔ ∃ a, x.result = .ok a ∧ (f a).result = .ok b := by
  rw [result_bind]
  exact bind_eq_ok_iff

theorem map_result_eq_ok_iff {x : Traced α} {g : α → β} {b : β} :
    (g <$> x).result = .ok b ↔ ∃ a, x.result = .ok a ∧ g a = b := by
  rw [map_eq_pure_bind, bind_result_eq_ok_iff]
  simp only [result_pure, Except.ok.injEq]

theorem lift_result_eq_ok_iff {x : Except Fault α} {f : α → Traced β} {b : β} :
    ((liftM x : Traced α) >>= f).result = .ok b ↔ ∃ a, x = .ok a ∧ (f a).result = .ok b :=
  bind_result_eq_ok_iff

theorem result_lift_of_ok {x : Except Fault α} {f : α → Traced β} {a : α} (h : x = .ok a) :
    ((liftM x : Traced α) >>= f).result = (f a).result :=
  result_bind_of_ok h

theorem result_lift_of_error {x : Except Fault α} {f : α → Traced β} {fault : Fault}
    (h : x = .error fault) : ((liftM x : Traced α) >>= f).result = .error fault :=
  result_bind_of_error h

end Traced

end NarrowVec
