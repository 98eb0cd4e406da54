/- # KuttiDB.Server.KuttiVec -- the growable output buffer and how replies are laid into it

`KuttiVec` is a block of memory with a fill level. Growing it is a `realloc`, which keeps the bytes
of the old block and may move them: the allocator decides, and decides what the added bytes hold. A
pointer into the block outlives a growth only when the block was not moved.

Most replies are laid down in one of two safe ways. `Piece.whole` reserves all it writes.
`Piece.headed` reserves its header, lets the cache append the value and then writes the header
through a pointer taken after that. Two replies are laid down differently:

* the hit of `SF_GET_OR_REFRESH` takes the pointer to its header before the value is appended, and
  writes the length, the state and the holder through it afterwards;
* the reply of `QUEUE_PUBLISH_BATCH` reserves one byte less than it writes.

`Piece.bytes` and `Reply.bytes` say what each reply is meant to add to the stream.
-/
import KuttiDB.QueueStore.Record
import KuttiDB.Theory.LittleEndian

namespace KuttiDB.Wire

open KuttiDB.QueueStore (Bytes)
open KuttiDB.Theory

set_option autoImplicit false

/-! ## The block -/

/-- What `realloc` does the n-th time it is called: whether the block moves, and what the bytes
that are new at each index hold. -/
structure Allocator where
  moves : Nat → Bool
  fill : Nat → Nat → UInt8

/-- `grown` counts the calls of `realloc`. -/
structure KuttiVec where
  data : Bytes
  len : Nat
  cap : Nat
  grown : Nat
  deriving DecidableEq, Repr

def KuttiVec.empty : KuttiVec := ⟨[], 0, 0, 0⟩

/-- What has been appended and not sent. -/
def KuttiVec.contents (v : KuttiVec) : Bytes := v.data.take v.len

/-- The block has the size it is taken to have, and is filled no further than that. -/
structure KuttiVec.Filled (v : KuttiVec) : Prop where
  size : v.data.length = v.cap
  within : v.len ≤ v.cap

/-- The first size a growth tries. -/
def firstSize (cap : Nat) : Nat :=
  if cap = 0 then 4096 else if 2 ^ 20 ≤ cap then cap + cap / 2 else cap * 2

def growTo : Nat → Nat → Nat → Nat
  | 0, size, _ => size
  | fuel + 1, size, need =>
      if size < need then growTo fuel (size + if 2 ^ 20 ≤ size then size / 2 else size) need
      else size

/-- `kuttidb_vec_reserve`. Every round of the loop adds at least one byte, so `need` rounds do. -/
def KuttiVec.reserve (a : Allocator) (v : KuttiVec) (extra : Nat) : KuttiVec :=
  let need := v.len + extra
  if need ≤ v.cap then v
  else
    let size := growTo need (firstSize v.cap) need
    { v with
      data := v.data ++ (List.range (size - v.cap)).map fun i => a.fill v.grown (v.cap + i)
      cap := size
      grown := v.grown + 1 }

/-- Pointers into the block are still good after room for `extra` bytes has been reserved. -/
def KuttiVec.stays (a : Allocator) (v : KuttiVec) (extra : Nat) : Bool :=
  v.len + extra ≤ v.cap || !a.moves v.grown

/-- Bytes written at an offset. What would lie past the end of the block is not kept. -/
def overwrite : Bytes → Nat → Bytes → Bytes
  | [], _, _ => []
  | old :: rest, pos + 1, bytes => old :: overwrite rest pos bytes
  | old :: rest, 0, [] => old :: rest
  | _ :: rest, 0, byte :: bytes => byte :: overwrite rest 0 bytes

def KuttiVec.write (v : KuttiVec) (pos : Nat) (bytes : Bytes) : KuttiVec :=
  { v with data := overwrite v.data pos bytes }

/-- `room` bytes are reserved and `bytes` are written at the fill level, which moves behind them. -/
def KuttiVec.appendIn (a : Allocator) (v : KuttiVec) (room : Nat) (bytes : Bytes) : KuttiVec :=
  let w := v.reserve a room
  { w.write w.len bytes with len := w.len + bytes.length }

def KuttiVec.append (a : Allocator) (v : KuttiVec) (bytes : Bytes) : KuttiVec :=
  v.appendIn a bytes.length bytes

/-- Room is reserved and the fill level set behind it, for bytes that are written later. -/
def KuttiVec.skip (a : Allocator) (v : KuttiVec) (count : Nat) : KuttiVec :=
  let w := v.reserve a count
  { w with len := w.len + count }

/-- `vec_shrink_idle` -/
def KuttiVec.shrinkIdle (v : KuttiVec) (keep : Nat) : KuttiVec :=
  if v.len ≠ 0 ∨ v.cap ≤ 4 * 2 ^ 20 then v
  else { v with data := v.data.take keep, cap := keep }

/-! ## Replies -/

/-- `headed status tail value`: `[status][length:4]`, then `tail` and `value`, both counted in the
length. -/
inductive Piece where
  | whole (bytes : Bytes)
  | headed (status : UInt8) (tail value : Bytes)
  deriving DecidableEq, Repr

def Piece.bytes : Piece → Bytes
  | .whole bytes => bytes
  | .headed status tail value =>
      status :: leBytes 4 (tail.length + value.length) ++ tail ++ value

def KuttiVec.layPiece (a : Allocator) (v : KuttiVec) : Piece → KuttiVec
  | .whole bytes => v.append a bytes
  | .headed status tail value =>
      let w := (v.skip a (5 + tail.length)).append a value
      w.write v.len (status :: leBytes 4 (w.len - v.len - 5) ++ tail)

/-- `published ids`: the reply of `QUEUE_PUBLISH_BATCH`. `refreshed due holder value`: a fresh
value that answers `SF_GET_OR_REFRESH`. -/
inductive Reply where
  | piece (p : Piece)
  | published (ids : List Nat)
  | refreshed (due holder : Bool) (value : Bytes)
  deriving DecidableEq, Repr

def stateValue : UInt8 := 0x00
def stateRefresh : UInt8 := 0x08

def publishedBytes (ids : List Nat) : Bytes :=
  0x00 :: leBytes 4 (4 + 8 * ids.length) ++ leBytes 4 ids.length ++ ids.flatMap (leBytes 8)

def refreshedHead (length : Nat) (due holder : Bool) : Bytes :=
  0x00 :: leBytes 4 length ++ [if due then stateRefresh else stateValue, if holder then 1 else 0]

def Reply.bytes : Reply → Bytes
  | .piece p => p.bytes
  | .published ids => publishedBytes ids
  | .refreshed due holder value => refreshedHead (2 + value.length) due holder ++ value

/-- Before the value is looked up: room for the header, and those of its bytes that are known. -/
def KuttiVec.beginRefreshed (a : Allocator) (v : KuttiVec) : KuttiVec :=
  (((v.skip a 7).write v.len [0x00]).write (v.len + 5) [stateValue]).write (v.len + 6) [0]

/-- After the value has been appended, through a pointer to byte `pos` of the block. -/
def KuttiVec.finishRefreshed (v : KuttiVec) (pos : Nat) (due holder : Bool) : KuttiVec :=
  let w := if due then v.write (pos + 5) [stateRefresh] else v
  let w := w.write (pos + 1) (leBytes 4 (w.len - pos - 5))
  w.write (pos + 6) [if holder then 1 else 0]

/-- The pointer `p0` through which the header is finished was taken before the cache appended the
value. When that moved the block, `p0` points into the old one and what is written through it does
not reach the reply. -/
def KuttiVec.layRefreshed (a : Allocator) (v : KuttiVec) (due holder : Bool) (value : Bytes) :
    KuttiVec :=
  let begun := v.beginRefreshed a
  let w := begun.append a value
  if begun.stays a value.length then w.finishRefreshed v.len due holder else w

def KuttiVec.lay (a : Allocator) (v : KuttiVec) : Reply → KuttiVec
  | .piece p => v.layPiece a p
  | .published ids => v.appendIn a (8 + 8 * ids.length) (publishedBytes ids)
  | .refreshed due holder value => v.layRefreshed a due holder value

/-! ## Reserving and writing -/

theorem le_growTo (fuel size need : Nat) (some : 0 < size) (enough : need ≤ size + fuel) :
    need ≤ growTo fuel size need := by
  induction fuel generalizing size with
  | zero => simpa [growTo] using enough
  | succ fuel ih =>
      unfold growTo
      split
      · apply ih <;> split <;> omega
      · omega

theorem firstSize_pos (cap : Nat) : 0 < firstSize cap := by
  unfold firstSize
  split
  · decide
  · split <;> omega

section Buffer

variable {a : Allocator} {v : KuttiVec}

@[simp] theorem reserve_len (extra : Nat) : (v.reserve a extra).len = v.len := by
  unfold KuttiVec.reserve
  dsimp only
  split <;> rfl

/-- A growth keeps what the block held. -/
theorem reserve_data (extra : Nat) : ∃ more, (v.reserve a extra).data = v.data ++ more := by
  unfold KuttiVec.reserve
  dsimp only
  split
  · exact ⟨[], (List.append_nil _).symm⟩
  · exact ⟨_, rfl⟩

theorem reserve_room (extra : Nat) : v.len + extra ≤ (v.reserve a extra).cap := by
  unfold KuttiVec.reserve
  dsimp only
  split
  · assumption
  · exact le_growTo (v.len + extra) (firstSize v.cap) (v.len + extra) (firstSize_pos _) (by omega)

theorem reserve_filled (filled : v.Filled) (extra : Nat) : (v.reserve a extra).Filled := by
  have room := reserve_room (a := a) (v := v) extra
  refine ⟨?_, by rw [reserve_len]; omega⟩
  have within := filled.within
  unfold KuttiVec.reserve at room ⊢
  dsimp only at room ⊢
  split
  · exact filled.size
  · rename_i full
    rw [if_neg full] at room
    simp only [List.length_append, List.length_map, List.length_range, filled.size]
    dsimp only at room
    omega

theorem reserve_contents (filled : v.Filled) (extra : Nat) :
    (v.reserve a extra).contents = v.contents := by
  obtain ⟨more, data⟩ := reserve_data (a := a) (v := v) extra
  rw [KuttiVec.contents, KuttiVec.contents, data, reserve_len]
  exact List.take_append_of_le_length (by rw [filled.size]; exact filled.within)

end Buffer

@[simp] theorem length_overwrite (data : Bytes) (pos : Nat) (bytes : Bytes) :
    (overwrite data pos bytes).length = data.length := by
  fun_induction overwrite data pos bytes with
  | case1 => rfl
  | case2 old rest pos bytes ih => rw [List.length_cons, ih, List.length_cons]
  | case3 => rfl
  | case4 old rest byte bytes ih => rw [List.length_cons, ih, List.length_cons]

theorem overwrite_within {data bytes : Bytes} {pos : Nat}
    (fits : pos + bytes.length ≤ data.length) :
    overwrite data pos bytes = data.take pos ++ bytes ++ data.drop (pos + bytes.length) := by
  fun_induction overwrite data pos bytes with
  | case1 pos bytes =>
      obtain ⟨rfl, empty⟩ : pos = 0 ∧ bytes.length = 0 := by
        simp only [List.length_nil] at fits
        omega
      rw [List.eq_nil_of_length_eq_zero empty]
      rfl
  | case2 old rest pos bytes ih =>
      simp only [List.length_cons] at fits
      rw [ih (by omega), List.take_succ_cons, Nat.succ_add, List.drop_succ_cons]
      rfl
  | case3 => rfl
  | case4 old rest byte bytes ih =>
      simp only [List.length_cons] at fits
      rw [ih (by omega), List.length_cons, ← Nat.add_assoc, List.drop_succ_cons]
      rfl

/-- Writing over part of a block, seen from its first `fill` bytes. -/
theorem take_overwrite {data bytes : Bytes} {pos fill : Nat} (inside : pos + bytes.length ≤ fill)
    (bound : fill ≤ data.length) :
    (overwrite data pos bytes).take fill = overwrite (data.take fill) pos bytes := by
  have short : (data.take fill).length = fill := by simp [bound]
  rw [overwrite_within (by omega), overwrite_within (by omega), List.take_take,
    Nat.min_eq_left (by omega), List.drop_take, List.take_append, List.take_of_length_le]
  · congr 2
    simp only [List.length_append, List.length_take]
    omega
  · simp only [List.length_append, List.length_take]
    omega

/-- Writing behind `front` leaves it alone. -/
theorem overwrite_behind (front back : Bytes) {i : Nat} {new : Bytes}
    (fits : i + new.length ≤ back.length) :
    overwrite (front ++ back) (front.length + i) new = front ++ overwrite back i new := by
  rw [overwrite_within (by simp only [List.length_append]; omega), overwrite_within fits,
    List.take_length_add_append, Nat.add_assoc, List.drop_length_add_append]
  simp only [List.append_assoc]

/-- Writing over a part of its own length replaces it. -/
theorem overwrite_front (old back new : Bytes) (same : new.length = old.length) :
    overwrite (old ++ back) 0 new = new ++ back := by
  rw [overwrite_within (by simp only [List.length_append]; omega)]
  simp [same]

theorem write_contents {v : KuttiVec} (filled : v.Filled) {pos : Nat} {bytes : Bytes}
    (inside : pos + bytes.length ≤ v.len) :
    (v.write pos bytes).contents = overwrite v.contents pos bytes :=
  take_overwrite inside (by rw [filled.size]; exact filled.within)

theorem write_filled {v : KuttiVec} (filled : v.Filled) (pos : Nat) (bytes : Bytes) :
    (v.write pos bytes).Filled :=
  ⟨(length_overwrite _ _ _).trans filled.size, filled.within⟩

theorem contents_length {v : KuttiVec} (filled : v.Filled) : v.contents.length = v.len :=
  List.length_take_of_le (by rw [filled.size]; exact filled.within)

/-! ## What a reply adds -/

/-- The buffer holds `before ++ added` after an operation on one that held `before`. -/
structure Appends (v w : KuttiVec) (added : Bytes) : Prop where
  filled : w.Filled
  contents : w.contents = v.contents ++ added

theorem Appends.len {v w : KuttiVec} {added : Bytes} (filled : v.Filled)
    (appends : Appends v w added) : w.len = v.len + added.length := by
  rw [← contents_length appends.filled, appends.contents, List.length_append,
    contents_length filled]

theorem appendIn_appends {a : Allocator} {v : KuttiVec} (filled : v.Filled) {room : Nat}
    {bytes : Bytes} (fits : v.len + bytes.length ≤ (v.reserve a room).cap) :
    Appends v (v.appendIn a room bytes) bytes := by
  have same := reserve_contents (a := a) filled room
  have size := (reserve_filled (a := a) filled room).size
  constructor
  · refine ⟨(length_overwrite _ _ _).trans size, ?_⟩
    simpa [KuttiVec.appendIn, KuttiVec.write] using fits
  · unfold KuttiVec.appendIn KuttiVec.write KuttiVec.contents
    dsimp only
    rw [reserve_len, overwrite_within (by omega), List.take_append_of_le_length]
    · rw [List.take_of_length_le (by simp)]
      rw [KuttiVec.contents, reserve_len] at same
      rw [same]
      rfl
    · simp only [List.length_append, List.length_take]
      omega

theorem append_appends {a : Allocator} {v : KuttiVec} (filled : v.Filled) (bytes : Bytes) :
    Appends v (v.append a bytes) bytes :=
  appendIn_appends filled (reserve_room _)

theorem Appends.append {a : Allocator} {v w : KuttiVec} {added : Bytes}
    (appends : Appends v w added) (bytes : Bytes) :
    Appends v (w.append a bytes) (added ++ bytes) := by
  have more := append_appends (a := a) appends.filled bytes
  refine ⟨more.filled, ?_⟩
  rw [more.contents, appends.contents, List.append_assoc]

/-- A write into what has been added changes nothing before it. -/
theorem Appends.write {v w : KuttiVec} {added : Bytes} (appends : Appends v w added)
    (filled : v.Filled) (i : Nat) (bytes : Bytes) (inside : i + bytes.length ≤ added.length) :
    Appends v (w.write (v.len + i) bytes) (overwrite added i bytes) := by
  have len := appends.len filled
  have place := contents_length filled
  refine ⟨write_filled appends.filled _ _, ?_⟩
  rw [write_contents appends.filled (by omega), appends.contents, ← place]
  exact overwrite_behind _ _ inside

/-- The fill level set forward over room that is there: some bytes of that number are added. -/
theorem skip_appends {a : Allocator} {v : KuttiVec} (filled : v.Filled) (count : Nat) :
    ∃ old : Bytes, old.length = count ∧ Appends v (v.skip a count) old := by
  have room := reserve_room (a := a) (v := v) count
  have same := reserve_contents (a := a) filled count
  have size := (reserve_filled (a := a) filled count).size
  refine ⟨((v.reserve a count).data.drop v.len).take count, ?_, ?_, ?_⟩
  · simp only [List.length_take, List.length_drop]
    omega
  · exact ⟨size, by simpa [KuttiVec.skip] using room⟩
  · rw [KuttiVec.contents, reserve_len] at same
    rw [← same, KuttiVec.contents]
    simp only [KuttiVec.skip, reserve_len]
    exact List.take_add

theorem layPiece_appends {a : Allocator} {v : KuttiVec} (filled : v.Filled) (p : Piece) :
    Appends v (v.layPiece a p) p.bytes := by
  cases p with
  | whole bytes => exact append_appends filled bytes
  | headed status tail value =>
      obtain ⟨old, size, skipped⟩ := skip_appends (a := a) filled (5 + tail.length)
      have valued := skipped.append (a := a) value
      have len := valued.len filled
      have counted : v.len + (old ++ value).length - v.len - 5 = tail.length + value.length := by
        simp only [List.length_append]
        omega
      unfold KuttiVec.layPiece
      dsimp only
      rw [len, counted]
      have headed := valued.write filled 0
        (status :: leBytes 4 (tail.length + value.length) ++ tail) (by simp [size]; omega)
      rw [overwrite_front _ _ _ (by simp [size]; omega)] at headed
      exact headed

theorem length_publishedBytes (ids : List Nat) :
    (publishedBytes ids).length = 9 + 8 * ids.length := by
  have words : (ids.flatMap (leBytes 8)).length = 8 * ids.length := by
    induction ids with
    | nil => rfl
    | cons id rest ih =>
        rw [List.flatMap_cons, List.length_append, ih, length_leBytes, List.length_cons]
        omega
  simp only [publishedBytes, List.length_append, List.length_cons, length_leBytes, words]

/-- The reply of a batch fits when the growth left a byte more than was reserved. -/
theorem published_appends {a : Allocator} {v : KuttiVec} (filled : v.Filled) (ids : List Nat)
    (spare : v.len + (9 + 8 * ids.length) ≤ (v.reserve a (8 + 8 * ids.length)).cap) :
    Appends v (v.lay a (.published ids)) (publishedBytes ids) :=
  appendIn_appends filled (by rw [length_publishedBytes]; exact spare)

theorem seven_bytes {old : Bytes} (size : old.length = 7) :
    ∃ b₀ b₁ b₂ b₃ b₄ b₅ b₆, old = [b₀, b₁, b₂, b₃, b₄, b₅, b₆] := by
  match old, size with
  | [b₀, b₁, b₂, b₃, b₄, b₅, b₆], _ => exact ⟨b₀, b₁, b₂, b₃, b₄, b₅, b₆, rfl⟩

theorem four_bytes (n : Nat) : ∃ c₀ c₁ c₂ c₃, leBytes 4 n = [c₀, c₁, c₂, c₃] :=
  ⟨_, _, _, _, rfl⟩

theorem beginRefreshed_appends {a : Allocator} {v : KuttiVec} (filled : v.Filled) :
    ∃ b₁ b₂ b₃ b₄,
      Appends v (v.beginRefreshed a) [0x00, b₁, b₂, b₃, b₄, stateValue, 0] := by
  obtain ⟨old, size, skipped⟩ := skip_appends (a := a) filled 7
  obtain ⟨b₀, b₁, b₂, b₃, b₄, b₅, b₆, rfl⟩ := seven_bytes size
  exact ⟨b₁, b₂, b₃, b₄, ((skipped.write filled 0 [0x00] (by simp)).write filled 5 [stateValue]
    (by simp)).write filled 6 [0] (by simp)⟩

theorem finishRefreshed_appends {v w : KuttiVec} (filled : v.Filled) {b₁ b₂ b₃ b₄ : UInt8}
    {value : Bytes} (due holder : Bool)
    (valued : Appends v w ([0x00, b₁, b₂, b₃, b₄, stateValue, 0] ++ value)) :
    Appends v (w.finishRefreshed v.len due holder)
      (refreshedHead (2 + value.length) due holder ++ value) := by
  obtain ⟨c₀, c₁, c₂, c₃, four⟩ := four_bytes (2 + value.length)
  have stated : Appends v (if due then w.write (v.len + 5) [stateRefresh] else w)
      ([0x00, b₁, b₂, b₃, b₄, if due then stateRefresh else stateValue, 0] ++ value) := by
    cases due with
    | false => exact valued
    | true =>
        have wrote := valued.write filled 5 [stateRefresh] (by simp)
        rwa [overwrite_within (by simp)] at wrote
  have len := stated.len filled
  have counted : v.len + ([0x00, b₁, b₂, b₃, b₄, if due then stateRefresh else stateValue, 0] ++
      value).length - v.len - 5 = 2 + value.length := by
    simp only [List.length_append, List.length_cons, List.length_nil]
    omega
  have done := (stated.write filled 1 (leBytes 4 (2 + value.length)) (by simp)).write filled 6
    [if holder then 1 else 0] (by simp)
  rw [overwrite_within (by simp), overwrite_within (by simp), four] at done
  unfold KuttiVec.finishRefreshed refreshedHead
  dsimp only
  rw [len, counted, four]
  exact done

/-- The reply of a refreshed value is whole when the block stays in place. -/
theorem refreshed_appends {a : Allocator} {v : KuttiVec} (filled : v.Filled) (due holder : Bool)
    (value : Bytes) (kept : (v.skip a 7).stays a value.length = true) :
    Appends v (v.lay a (.refreshed due holder value))
      (refreshedHead (2 + value.length) due holder ++ value) := by
  obtain ⟨b₁, b₂, b₃, b₄, begun⟩ := beginRefreshed_appends (a := a) filled
  have still : (v.beginRefreshed a).stays a value.length = true := kept
  unfold KuttiVec.lay KuttiVec.layRefreshed
  dsimp only
  rw [if_pos still]
  exact finishRefreshed_appends filled due holder (begun.append value)

end KuttiDB.Wire
