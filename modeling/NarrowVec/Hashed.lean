import NarrowVec.Address

/-!
# Hashing

A value is hashed by feeding its parts to a hasher one after another.  The list of parts says all
that any hash of the value can depend on.
-/

set_option autoImplicit false

namespace NarrowVec

inductive Hashed where
  | size (n : Nat)
  | byte (n : Nat)
  | word (value : Word)
deriving DecidableEq, Repr

def Address.hashed (a : Address) : List Hashed :=
  [.size a.word, .byte a.offset, .byte a.width.bits]

end NarrowVec
