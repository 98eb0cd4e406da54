/- # KuttiDB.QueueStore.Record -- bytes, clock sums and receipt kinds

What the stores share: names, keys and payloads are byte strings, clock sums wrap at 64 bits, and a
receipt carries the kind of operation it is for.
-/
import Mathlib.Data.List.Basic
import Mathlib.Algebra.Order.Ring.Int

namespace KuttiDB.QueueStore

set_option autoImplicit false

abbrev Bytes := List UInt8

instance : LawfulBEq Bytes := inferInstance

/-- Unsigned 64-bit wrap-around, for the clock sums a client can push past the top. -/
def u64 (n : Nat) : Nat := n % 2 ^ 64

/-- Receipt operation kinds; the numbers are the byte written to the log. -/
inductive JobKind where
  | completion
  | statePut
  | stateDelete
  deriving DecidableEq, Repr

def JobKind.code : JobKind → Nat
  | .completion => 1
  | .statePut => 2
  | .stateDelete => 3

end KuttiDB.QueueStore
