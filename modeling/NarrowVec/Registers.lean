import NarrowVec.Hashed

/-!
# Registers of addresses

Addresses under names, and the steps that compute with them.  A step reads the registers it names,
and either answers a value or writes the address it makes to its target.
-/

set_option autoImplicit false

namespace NarrowVec

abbrev Registers := String → Option Address

namespace Registers

def empty : Registers := fun _ => none

def put (r : Registers) (name : String) (a : Address) : Registers :=
  fun other => if other = name then some a else r other

inductive Refusal where
  /-- A named register holds no address. -/
  | unset
  | fault (cause : Fault)
deriving DecidableEq, Repr

inductive Make where
  | make (word offset width : Nat)
  | ofBit (bit width : Nat)
  | advance (source : String) (count : Nat)
  | retreat (source : String) (count : Nat)
  | move (source : String) (d : Int)
  | later (a b : String)
  | earlier (a b : String)

inductive Ask where
  | bit (a : String)
  | describe (a : String)
  | hashed (a : String)
  | distance (a origin : String)
  | compare (a b : String)
  | equal (a b : String)
  | notEqual (a b : String)
  | less (a b : String)
  | lessOrEqual (a b : String)
  | greater (a b : String)
  | greaterOrEqual (a b : String)

inductive Op where
  | make (target : String) (value : Make)
  | ask (question : Ask)

inductive Answer where
  | address (a : Address)
  | size (n : Nat)
  | distance (d : Int)
  | text (value : String)
  | hashed (parts : List Hashed)
  | order (value : Ordering)
  | flag (value : Bool)

def fetch (r : Registers) (name : String) : Except Refusal Address :=
  match r name with
  | some a => .ok a
  | none => .error .unset

def lift {α : Type} (x : Except Fault α) : Except Refusal α := x.mapError .fault

def Make.run (r : Registers) : Make → Except Refusal Address
  | .make word offset width => lift (Address.make word offset width)
  | .ofBit bit width => lift (Address.make (Address.split bit).1 (Address.split bit).2 width)
  | .advance source count => do
    let a ← r.fetch source
    lift (a.advance count)
  | .retreat source count => do
    let a ← r.fetch source
    lift (a.retreat count)
  | .move source d => do
    let a ← r.fetch source
    lift (a.move d)
  | .later a b => do
    let a ← r.fetch a
    let b ← r.fetch b
    lift (a.later b)
  | .earlier a b => do
    let a ← r.fetch a
    let b ← r.fetch b
    lift (a.earlier b)

def two {α : Type} (r : Registers) (f : Address → Address → Except Fault α) (a b : String) :
    Except Refusal α := do
  let a ← r.fetch a
  let b ← r.fetch b
  lift (f a b)

def Ask.run (r : Registers) : Ask → Except Refusal Answer
  | .bit a => do
    let a ← r.fetch a
    let bit ← lift a.bit
    return .size bit
  | .describe a => do
    let a ← r.fetch a
    return .text a.describe
  | .hashed a => do
    let a ← r.fetch a
    return .hashed a.hashed
  | .distance a origin => .distance <$> r.two Address.distance a origin
  | .compare a b => .order <$> r.two Address.compare a b
  | .equal a b => .flag <$> r.two Address.equal a b
  | .notEqual a b => (fun same => .flag !same) <$> r.two Address.equal a b
  | .less a b => (fun o => .flag o.isLT) <$> r.two Address.compare a b
  | .lessOrEqual a b => (fun o => .flag o.isLE) <$> r.two Address.compare a b
  | .greater a b => (fun o => .flag o.isGT) <$> r.two Address.compare a b
  | .greaterOrEqual a b => (fun o => .flag o.isGE) <$> r.two Address.compare a b

def Op.run (r : Registers) : Op → Except Refusal (Answer × Registers)
  | .make target value => do
    let a ← value.run r
    return (.address a, r.put target a)
  | .ask question => do
    let answer ← question.run r
    return (answer, r)

/-- The answers to a run of steps; a step that is refused writes no register. -/
def run : Registers → List Op → List (Except Refusal Answer)
  | _, [] => []
  | r, op :: rest =>
    match op.run r with
    | .ok (answer, r) => .ok answer :: run r rest
    | .error refusal => .error refusal :: run r rest

end Registers

end NarrowVec
