/- # KuttiDB.QueueStore.Fields -- fields of a record, read at offsets

Replay reads a record at fixed offsets: `field` is a run of its bytes and `numberAt` the number that
a run stands for. `field_at` and `numberAt_at` say what is read back from a record that was written
with that field in that place.
-/
import KuttiDB.QueueStore.Record
import KuttiDB.Theory.LittleEndian

namespace KuttiDB.QueueStore

open KuttiDB.Theory

set_option autoImplicit false

/-! ## Reading -/

def field (bytes : Bytes) (off len : Nat) : Bytes := (bytes.drop off).take len

def numberAt (bytes : Bytes) (off len : Nat) : Nat := leNat (field bytes off len)

theorem length_field {bytes : Bytes} {off len : Nat} (inside : off + len ≤ bytes.length) :
    (field bytes off len).length = len := by
  rw [field, List.length_take, List.length_drop]
  omega

theorem field_append (bytes : Bytes) (off a b : Nat) :
    field bytes off a ++ field bytes (off + a) b = field bytes off (a + b) := by
  rw [field, field, field, List.take_add, List.drop_drop]

theorem leBytes_numberAt {bytes : Bytes} {off len : Nat} (inside : off + len ≤ bytes.length) :
    leBytes len (numberAt bytes off len) = field bytes off len := by
  have same := leBytes_leNat (field bytes off len)
  rwa [length_field inside] at same

/-! ## Fields of what was written -/

theorem field_at (before x after : Bytes) {bytes : Bytes} {off len : Nat}
    (shape : bytes = before ++ (x ++ after)) (start : before.length = off) (size : x.length = len) :
    field bytes off len = x := by
  subst shape start size
  rw [field, List.drop_left, List.take_left]

theorem numberAt_at (before after : Bytes) {bytes : Bytes} {off width n : Nat}
    (shape : bytes = before ++ (leBytes width n ++ after)) (start : before.length = off)
    (fits : n < 256 ^ width) : numberAt bytes off width = n := by
  rw [numberAt, field_at before _ after shape start (length_leBytes width n),
    leNat_leBytes_of_lt fits]

end KuttiDB.QueueStore
