import NarrowVec.Buffer.Container
import NarrowVec.Dense.Container

/-!
# Vectors of unsigned integers

A vector whose layout follows from its width: native integers where the width has them, gapless
fields of bits everywhere else.  The operations are those of the backing store.
-/

set_option autoImplicit false

namespace NarrowVec

inductive UIntVec (w : Width) where
  | native (lane : Lane) (items : Buffer lane)
  | dense (fields : Dense w)

namespace UIntVec

variable {w : Width}

/-- The backing that the width asks for, made by `make`. -/
def build {m : Type → Type} [Monad m] (make : (σ : Type) → [Storage σ] → m σ) :
    m (UIntVec w) :=
  match w.lane? with
  | some lane => native lane <$> make (Buffer lane)
  | none => dense <$> make (Dense w)

def inspect {α : Type} (f : {σ : Type} → [Storage σ] → σ → α) : UIntVec w → α
  | native _ items => f items
  | dense fields => f fields

/-- The vector with its backing changed by `f`. -/
def edit {m : Type → Type} [Monad m] (f : {σ : Type} → [Storage σ] → σ → m σ) :
    UIntVec w → m (UIntVec w)
  | native lane items => native lane <$> f items
  | dense fields => dense <$> f fields

def editWith {α : Type} (f : {σ : Type} → [Storage σ] → σ → Except Fault (α × σ)) :
    UIntVec w → Except Fault (α × UIntVec w)
  | native lane items => Prod.map id (native lane) <$> f items
  | dense fields => Prod.map id dense <$> f fields

def isDense : UIntVec w → Bool
  | native .. => false
  | dense _ => true

def dense? : UIntVec w → Option (Dense w)
  | native .. => none
  | dense fields => some fields

instance : Storage (UIntVec w) where
  width := w.bits
  maxSize :=
    match w.lane? with
    | some lane => lane.maxSize
    | none => w.maxSize
  empty := Id.run (build fun σ => Storage.empty (σ := σ))
  emptyWithCapacity count := build fun _ => Storage.emptyWithCapacity count
  zeros count := build fun _ => Storage.zeros count
  replicate count value := build fun _ => Storage.replicate count value
  ofList values := build fun _ => Storage.ofList values
  copy v := Id.run (v.edit Storage.copy)
  size v := v.inspect Storage.size
  toList v := v.inspect Storage.toList
  capacity v := v.inspect Storage.capacity
  reserve v count := v.edit fun s => Storage.reserve s count
  shrink v := Id.run (v.edit Storage.shrink)
  get? v i := v.inspect fun s => Storage.get? s i
  read v i := v.inspect fun s => Storage.read s i
  set v i value := v.edit fun s => Storage.set s i value
  push v value := v.edit fun s => Storage.push s value
  pop v := v.editWith Storage.pop
  insertCopies v i count value := v.edit fun s => Storage.insertCopies s i count value
  insertList v i values := v.edit fun s => Storage.insertList s i values
  remove v i := v.editWith fun s => Storage.remove s i
  erase v e := v.edit fun s => Storage.erase s e
  resize v count value := v.edit fun s => Storage.resize s count value
  setSize v count := v.edit fun s => Storage.setSize s count
  truncate v count := v.edit fun s => Storage.truncate s count
  clear v := Id.run (v.edit Storage.clear)
  swap v i j := v.edit fun s => Storage.swap s i j
  bytes v := v.inspect Storage.bytes
  setByte v i byte := v.edit fun s => Storage.setByte s i byte

/-! ## As a container -/

def equal : UIntVec w → UIntVec w → Except Fault Bool
  | native .bits8 a, native .bits8 b => Container.equal a b
  | native .bits16 a, native .bits16 b => Container.equal a b
  | native .bits32 a, native .bits32 b => Container.equal a b
  | native .bits64 a, native .bits64 b => Container.equal a b
  | dense a, dense b => Container.equal a b
  | _, _ => throw .mixedBackings

def entries : UIntVec w → Except Fault (List Word)
  | native _ items => Container.entries items
  | dense fields => fields.entries

def act (v : UIntVec w) (i : Nat) (action : Action) : Except Fault (Reply × UIntVec w) :=
  match v with
  | native lane items => Prod.map id (native lane) <$> items.act i action
  | dense fields => Prod.map id dense <$> fields.act (fun _ => Word.label) i action

def scan (v : UIntVec w) (calls : List Scan.Call) : Except Fault (List Scan.Answer) :=
  match v with
  | native _ items => Container.scan items calls
  | dense fields => fields.scan calls

def visit (v : UIntVec w) (calls : List Visit.Call) :
    Except Fault (List Visit.Answer × UIntVec w) :=
  match v with
  | native lane items => Prod.map id (native lane) <$> Container.visit items calls
  | dense fields => Prod.map id dense <$> fields.visit (fun _ => Word.label) calls

instance : Container (UIntVec w) where
  insert v i value := Storage.insertCopies v i 1 value
  equal := equal
  entries := entries
  describe v := do
    let values ← v.entries
    return Word.listText values
  act := act
  scan := scan
  visit := visit

end UIntVec

end NarrowVec
