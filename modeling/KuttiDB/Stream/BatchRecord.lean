/- # KuttiDB.Stream.BatchRecord -- a batch append and its one log record

A batch append works out all partitions and offsets beforehand, from a copy of the partition ends,
writes one record for the whole batch and then links the records. `appendEach` appends the inputs one
after the other instead, each at the end its partition has by then. The two agree: the same
partitions and offsets, the same topic, hence the same records after the retention pass that ends the
call (`streamAppendBatch_eq`). The retention passes that single appends make in between are not part of
`appendEach`; with them other records may stay, as the last example shows.

The record has two layouts, with and without keys. `encodeBatch` is what the call writes and
`replayBatch` the loop of `replay` that reads it, which links a record as soon as it has read it;
`decodeItems` is that loop without the linking.
-/
import KuttiDB.QueueStore.Fields
import KuttiDB.Stream.Reachable

namespace KuttiDB.Stream

open KuttiDB.QueueStore (Bytes u64 field numberAt field_at numberAt_at)
open KuttiDB.Theory

set_option autoImplicit false

/-! ## One after the other -/

/-- What one append does to its topic before the retention pass. -/
def appendOne (t : StreamTopic) (hint now : Nat) (input : AppendInput) :
    Option (BatchItem × StreamTopic) :=
  let p := choosePart t hint input.key
  if p ≥ t.partitions then none
  else
    let r : StreamRecord := ⟨(t.part p).next, now, input.key, input.body⟩
    some (⟨p, r⟩, partLink t p r)

def appendEach (hint now : Nat) : StreamTopic → List AppendInput →
    Option (List BatchItem × StreamTopic)
  | t, [] => some ([], t)
  | t, input :: rest =>
    match appendOne t hint now input with
    | none => none
    | some (item, u) => (appendEach hint now u rest).map fun (items, v) => (item :: items, v)

/-- Records logged, the topic set to what they made of it, and one retention pass. -/
def writeThenEnforce (s : StreamStore) (enforceNow : Nat) (records : List LogRecord) (u : StreamTopic) :
    StreamStore × Int :=
  match logThenApply s records u with
  | (s', 0) => enforceAndLog s' enforceNow u
  | failed => failed

/-- A single append in terms of `appendOne`. -/
def appendSingly (s : StreamStore) (compaction : Compaction) (now enforceNow : Nat) (name : Bytes)
    (hint : Nat) (input : AppendInput) : StreamStore × Int :=
  if input.body.length + appendOverhead name input.key > recordMax then (s, -1)
  else guarded s compaction fun s =>
    match findTopic s.topics name with
    | none => (s, -1)
    | some t =>
      match appendOne t hint now input with
      | none => (s, -1)
      | some (item, u) => writeThenEnforce s enforceNow [.append name item] u

/-- A batch in terms of `appendEach`. -/
def appendTogether (s : StreamStore) (compaction : Compaction) (now enforceNow : Nat) (name : Bytes)
    (hint : Nat) (inputs : List AppendInput) : StreamStore × Int :=
  if inputs = [] ∨ inputs.length > streamFetchMax then (s, -1)
  else guarded s compaction fun s =>
    match findTopic s.topics name with
    | none => (s, -1)
    | some t =>
      match appendEach hint now t inputs with
      | none => (s, -1)
      | some (items, u) =>
        if (LogRecord.appendBatch name items).len > recordMax then (s, -1)
        else writeThenEnforce s enforceNow [.appendBatch name items] u

theorem streamAppend_eq (s : StreamStore) (compaction : Compaction) (now enforceNow : Nat)
    (name : Bytes) (hint : Nat) (input : AppendInput) :
    streamAppend s compaction now enforceNow name hint input =
      appendSingly s compaction now enforceNow name hint input := by
  unfold streamAppend appendSingly
  congr 1
  refine congrArg (guarded s compaction) (funext fun s => ?_)
  cases findTopic s.topics name with
  | none => rfl
  | some t =>
    simp only [appendOne]
    split <;> rfl

theorem choosePart_congr {t u : StreamTopic} (count : u.partitions = t.partitions) (hint : Nat)
    (key : Bytes) : choosePart u hint key = choosePart t hint key := by
  rw [choosePart, choosePart, count]

/-- Partitions and offsets worked out beforehand are those of appending one after the other. -/
theorem batchItems_each (hint now : Nat) (t : StreamTopic) : ∀ {inputs : List AppendInput}
    {u : StreamTopic} {nexts : List Nat}, u.partitions = t.partitions → Ends u nexts →
      batchItems t hint now nexts inputs = (appendEach hint now u inputs).map Prod.fst
  | [], _, _, _, _ => rfl
  | input :: rest, u, nexts, count, ends => by
    rw [batchItems, appendEach]
    simp only [appendOne, choosePart_congr count, count]
    split
    · rfl
    · rename_i inside
      have within : choosePart t hint input.key < u.partitions := count ▸ Nat.lt_of_not_le inside
      rw [← ends.2 _ within, batchItems_each hint now t ((partLink_partitions ..).trans count)
        (ends.link within ⟨nexts.getD (choosePart t hint input.key) 0, now, input.key, input.body⟩)]
      simp only [Option.map_map]
      rfl

/-- What appending one after the other leaves is what replay makes of the items. -/
theorem appendEach_items (hint now : Nat) : ∀ {inputs : List AppendInput} {t u : StreamTopic}
    {items : List BatchItem}, appendEach hint now t inputs = some (items, u) →
      linkItems t items = u ∧ appendItems t items = (u, true) ∧ items.length = inputs.length
  | [], _, _, _, given => by
    cases given
    exact ⟨rfl, rfl, rfl⟩
  | input :: rest, t, u, items, given => by
    rw [appendEach] at given
    simp only [appendOne] at given
    split at given
    · rename_i refused
      split at refused
      · cases given
      · cases refused
    · rename_i item v one
      split at one
      · cases one
      · rename_i inside
        obtain ⟨⟨more, w⟩, later, eq⟩ := Option.map_eq_some_iff.mp given
        cases eq
        cases one
        obtain ⟨linked, accepted, length⟩ := appendEach_items hint now later
        refine ⟨linked, ?_, by rw [List.length_cons, List.length_cons, length]⟩
        rw [appendItems, appendMemory, if_neg (by simpa using inside)]
        exact accepted

/-- A batch append is its inputs appended one after the other, with one record and one retention
pass. -/
theorem streamAppendBatch_eq (s : StreamStore) (compaction : Compaction) (now enforceNow : Nat)
    (name : Bytes) (hint : Nat) (inputs : List AppendInput) :
    streamAppendBatch s compaction now enforceNow name hint inputs =
      appendTogether s compaction now enforceNow name hint inputs := by
  unfold streamAppendBatch appendTogether
  congr 1
  refine congrArg (guarded s compaction) (funext fun s => ?_)
  cases findTopic s.topics name with
  | none => rfl
  | some t =>
    simp only
    rw [batchItems_each hint now t rfl (ends_parts t)]
    cases each : appendEach hint now t inputs with
    | none => rfl
    | some made =>
      obtain ⟨items, u⟩ := made
      have linked := (appendEach_items hint now each).1
      simp only [Option.map_some, linked]
      rfl

/-! ## The record's bytes -/

/-- Lengths, data and key; the layout without keys leaves out the key and its length. -/
def itemTail (withKeys : Bool) (r : StreamRecord) : Bytes :=
  if withKeys then
    leBytes 2 r.key.length ++ (leBytes 4 r.body.length ++ (r.body ++ r.key))
  else leBytes 4 r.body.length ++ r.body

def encodeItem (withKeys : Bool) (i : BatchItem) : Bytes :=
  leBytes 4 i.part ++ (leBytes 8 i.record.offset ++ (leBytes 8 i.record.atMs ++
    itemTail withKeys i.record))

/-- The body `stream_append_batch` writes; one key among the inputs selects the layout with keys. -/
def encodeBatch (name : Bytes) (items : List BatchItem) : Bytes :=
  leBytes 2 name.length ++ (name ++ (leBytes 4 items.length ++
    items.flatMap (encodeItem (keyed items))))

def itemHeader (withKeys : Bool) : Nat := if withKeys then 26 else 24

/-- One turn of the loop of `replay`: the item at `pos` and the position after it. -/
def readItem (withKeys : Bool) (b : Bytes) (pos : Nat) : Option (BatchItem × Nat) :=
  let header := itemHeader withKeys
  if pos + header > b.length then none
  else
    let dl := numberAt b (pos + (if withKeys then 22 else 20)) 4
    let kl := if withKeys then numberAt b (pos + 20) 2 else 0
    -- `(uint64_t)n-at-header-kl`, which a key length past the end makes very large
    if dl > u64 (b.length + 2 ^ 64 - pos - header - kl) then none
    else some (⟨numberAt b pos 4, ⟨numberAt b (pos + 4) 8, numberAt b (pos + 12) 8,
      field b (pos + header + dl) kl, field b (pos + header) dl⟩⟩, pos + header + dl + kl)

/-- The loop: items are linked as they are read, and the last one ends where the body does. -/
def readItems (withKeys : Bool) (b : Bytes) : Nat → Nat → StreamTopic → StreamTopic × Bool
  | 0, pos, t => (t, pos == b.length)
  | n + 1, pos, t =>
    match readItem withKeys b pos with
    | none => (t, false)
    | some (item, next) =>
      match appendMemory t item.part item.record with
      | none => (t, false)
      | some u => readItems withKeys b n next u

/-- `replay` on the two batch operations. -/
def replayBatch (withKeys : Bool) (topics : List StreamTopic) (b : Bytes) :
    List StreamTopic × Bool :=
  let l := numberAt b 0 2
  if b.length < 2 ∨ l > streamNameMax ∨ b.length < 2 + l then (topics, false)
  else match findTopic topics (field b 2 l) with
    | none => (topics, false)
    | some t =>
      if b.length < 6 + l then (topics, false)
      else
        let count := numberAt b (2 + l) 4
        if count = 0 ∨ count > streamFetchMax then (topics, false)
        else
          let (u, ok) := readItems withKeys b count (6 + l) t
          (setTopic topics u, ok)

/-- What the loop reads. -/
def decodeItems (withKeys : Bool) (b : Bytes) : Nat → Nat → Option (List BatchItem)
  | 0, pos => if pos = b.length then some [] else none
  | n + 1, pos =>
    match readItem withKeys b pos with
    | none => none
    | some (item, next) => (decodeItems withKeys b n next).map (item :: ·)

theorem readItems_decoded {withKeys : Bool} {b : Bytes} : ∀ {n pos : Nat} {items : List BatchItem}
    (t : StreamTopic), decodeItems withKeys b n pos = some items →
      readItems withKeys b n pos t = appendItems t items
  | 0, pos, items, t, decoded => by
    rw [decodeItems] at decoded
    split at decoded
    · rename_i ends
      cases decoded
      rw [readItems, appendItems, ends, beq_self_eq_true]
    · cases decoded
  | n + 1, pos, items, t, decoded => by
    rw [decodeItems] at decoded
    cases read : readItem withKeys b pos with
    | none =>
      rw [read] at decoded
      cases decoded
    | some found =>
      obtain ⟨item, next⟩ := found
      rw [read] at decoded
      obtain ⟨more, later, eq⟩ := Option.map_eq_some_iff.mp decoded
      cases eq
      rw [readItems, appendItems, read]
      simp only
      cases appendMemory t item.part item.record with
      | none => rfl
      | some u => exact readItems_decoded u later

/-- An item whose numbers fit the record's fields. -/
structure ItemFits (withKeys : Bool) (i : BatchItem) : Prop where
  part : i.part < 256 ^ 4
  offset : i.record.offset < 256 ^ 8
  atMs : i.record.atMs < 256 ^ 8
  key : i.record.key.length < 256 ^ 2
  body : i.record.body.length < 256 ^ 4
  unkeyed : withKeys = false → i.record.key = []

theorem length_encodeItem (withKeys : Bool) (i : BatchItem)
    (unkeyed : withKeys = false → i.record.key = []) :
    (encodeItem withKeys i).length = itemHeader withKeys + recordBytes i.record := by
  cases withKeys with
  | true =>
    simp only [encodeItem, itemTail, itemHeader, recordBytes, List.length_append, length_leBytes,
      if_true]
    omega
  | false =>
    simp only [encodeItem, itemTail, itemHeader, recordBytes, List.length_append, length_leBytes,
      Bool.false_eq_true, if_false, List.length_nil, unkeyed rfl]
    omega

/-- The numbers both layouts begin with. -/
theorem itemHead_read {withKeys : Bool} {i : BatchItem} (fits : ItemFits withKeys i)
    {before after b : Bytes} (shape : b = before ++ (encodeItem withKeys i ++ after)) :
    numberAt b before.length 4 = i.part ∧ numberAt b (before.length + 4) 8 = i.record.offset ∧
      numberAt b (before.length + 12) 8 = i.record.atMs := by
  simp only [encodeItem, List.append_assoc] at shape
  refine ⟨numberAt_at before _ shape rfl fits.part, ?_, ?_⟩
  · exact numberAt_at (before ++ leBytes 4 i.part)
      (leBytes 8 i.record.atMs ++ (itemTail withKeys i.record ++ after))
      (by rw [shape]; simp only [List.append_assoc]) (by simp) fits.offset
  · exact numberAt_at (before ++ (leBytes 4 i.part ++ leBytes 8 i.record.offset))
      (itemTail withKeys i.record ++ after) (by rw [shape]; simp only [List.append_assoc]) (by simp)
      fits.atMs

/-- The rest of the item, behind the 20 bytes of those numbers. -/
theorem itemTail_shape {withKeys : Bool} {i : BatchItem} {before after b : Bytes}
    (shape : b = before ++ (encodeItem withKeys i ++ after)) :
    ∃ head : Bytes, head.length = before.length + 20 ∧
      b = head ++ (itemTail withKeys i.record ++ after) := by
  refine ⟨before ++ (leBytes 4 i.part ++ (leBytes 8 i.record.offset ++ leBytes 8 i.record.atMs)), ?_,
    ?_⟩
  · simp
  · rw [shape, encodeItem]
    simp only [List.append_assoc]

theorem keyedTail_read {r : StreamRecord} (key : r.key.length < 256 ^ 2)
    (body : r.body.length < 256 ^ 4) {head after b : Bytes}
    (shape : b = head ++ (itemTail true r ++ after)) :
    numberAt b head.length 2 = r.key.length ∧ numberAt b (head.length + 2) 4 = r.body.length ∧
      field b (head.length + 6) r.body.length = r.body ∧
      field b (head.length + 6 + r.body.length) r.key.length = r.key := by
  simp only [itemTail, if_true, List.append_assoc] at shape
  refine ⟨numberAt_at head _ shape rfl key, ?_, ?_, ?_⟩
  · exact numberAt_at (head ++ leBytes 2 r.key.length) (r.body ++ (r.key ++ after))
      (by rw [shape]; simp only [List.append_assoc]) (by simp) body
  · exact field_at (head ++ (leBytes 2 r.key.length ++ leBytes 4 r.body.length)) r.body
      (r.key ++ after) (by rw [shape]; simp only [List.append_assoc]) (by simp) rfl
  · exact field_at (head ++ (leBytes 2 r.key.length ++ (leBytes 4 r.body.length ++ r.body))) r.key
      after (by rw [shape]; simp only [List.append_assoc]) (by simp; omega) rfl

theorem plainTail_read {r : StreamRecord} (body : r.body.length < 256 ^ 4) {head after b : Bytes}
    (shape : b = head ++ (itemTail false r ++ after)) :
    numberAt b head.length 4 = r.body.length ∧
      field b (head.length + 4) r.body.length = r.body := by
  simp only [itemTail, Bool.false_eq_true, if_false, List.append_assoc] at shape
  exact ⟨numberAt_at head _ shape rfl body,
    field_at (head ++ leBytes 4 r.body.length) r.body after
      (by rw [shape]; simp only [List.append_assoc]) (by simp) rfl⟩

/-- An item is read back whatever stands before and after it. -/
theorem readItem_encoded {withKeys : Bool} {i : BatchItem} (fits : ItemFits withKeys i)
    {before after b : Bytes} (shape : b = before ++ (encodeItem withKeys i ++ after))
    (size : b.length ≤ recordMax) :
    readItem withKeys b before.length =
      some (i, before.length + (encodeItem withKeys i).length) := by
  have length := length_encodeItem withKeys i fits.unkeyed
  have total : b.length = before.length + ((encodeItem withKeys i).length + after.length) := by
    rw [shape, List.length_append, List.length_append]
  have small : b.length ≤ 2 ^ 26 := size
  obtain ⟨partRead, offsetRead, atRead⟩ := itemHead_read fits shape
  obtain ⟨head, start, rest⟩ := itemTail_shape shape
  cases withKeys with
  | true =>
    have tail := keyedTail_read fits.key fits.body rest
    rw [start] at tail
    obtain ⟨keyLength, bodyLength, bodyRead, keyRead⟩ := tail
    simp only [itemHeader, recordBytes, if_true] at length
    have fitsHeader : ¬ before.length + 26 > b.length := by omega
    have fitsBody : ¬ i.record.body.length >
        u64 (b.length + 2 ^ 64 - before.length - 26 - i.record.key.length) := by
      simp only [u64]
      omega
    simp only [readItem, itemHeader, if_true, keyLength, bodyLength, bodyRead, keyRead, partRead,
      offsetRead, atRead, if_neg fitsHeader, if_neg fitsBody, length]
    congr 2
    omega
  | false =>
    have tail := plainTail_read fits.body rest
    rw [start] at tail
    obtain ⟨bodyLength, bodyRead⟩ := tail
    have noKey : field b (before.length + 24 + i.record.body.length) 0 = i.record.key := by
      rw [fits.unkeyed rfl]
      simp [field]
    simp only [itemHeader, recordBytes, Bool.false_eq_true, if_false, fits.unkeyed rfl,
      List.length_nil] at length
    have fitsHeader : ¬ before.length + 24 > b.length := by omega
    have fitsBody : ¬ i.record.body.length > u64 (b.length + 2 ^ 64 - before.length - 24 - 0) := by
      simp only [u64]
      omega
    simp only [readItem, itemHeader, Bool.false_eq_true, if_false, bodyLength, bodyRead, noKey,
      partRead, offsetRead, atRead, if_neg fitsHeader, if_neg fitsBody, length]
    congr 2
    omega

/-- Items that fill the rest of the body are read back in order. -/
theorem decodeItems_encoded {withKeys : Bool} {b : Bytes} (size : b.length ≤ recordMax) :
    ∀ (items : List BatchItem) (before : Bytes), (∀ i ∈ items, ItemFits withKeys i) →
      b = before ++ items.flatMap (encodeItem withKeys) →
      decodeItems withKeys b items.length before.length = some items
  | [], before, _, shape => by
    have ends : before.length = b.length := by rw [shape]; simp
    rw [List.length_nil, decodeItems, if_pos ends]
  | i :: rest, before, fits, shape => by
    rw [List.flatMap_cons] at shape
    have here := readItem_encoded (fits i (List.mem_cons_self ..)) shape size
    have later := decodeItems_encoded size rest (before ++ encodeItem withKeys i)
      (fun j mem => fits j (List.mem_cons_of_mem _ mem)) (by rw [shape, List.append_assoc])
    rw [List.length_append] at later
    rw [List.length_cons, decodeItems, here]
    simp only [later, Option.map_some]

theorem decodeItems_length {withKeys : Bool} {b : Bytes} : ∀ {n pos : Nat}
    {items : List BatchItem}, decodeItems withKeys b n pos = some items → items.length = n
  | 0, _, _, decoded => by
    rw [decodeItems] at decoded
    split at decoded
    · cases decoded
      rfl
    · cases decoded
  | n + 1, pos, _, decoded => by
    rw [decodeItems] at decoded
    split at decoded
    · cases decoded
    · obtain ⟨more, later, rfl⟩ := Option.map_eq_some_iff.mp decoded
      rw [List.length_cons, decodeItems_length later]

/-- The name and the items of a batch record, where its header and its layout are in order. -/
def decodeBatch (withKeys : Bool) (b : Bytes) : Option (Bytes × List BatchItem) :=
  let l := numberAt b 0 2
  let count := numberAt b (2 + l) 4
  if b.length < 6 + l ∨ l > streamNameMax ∨ count = 0 ∨ count > streamFetchMax then none
  else (decodeItems withKeys b count (6 + l)).map (field b 2 l, ·)

/-- Replay of the bytes is replay of the record they decode to. -/
theorem replayBatch_decoded {withKeys : Bool} {b name : Bytes} {items : List BatchItem}
    (decoded : decodeBatch withKeys b = some (name, items)) (fresh : Bytes → StreamId)
    (topics : List StreamTopic) :
    replayBatch withKeys topics b = replay fresh topics (.appendBatch name items) := by
  simp only [decodeBatch] at decoded
  split at decoded
  · cases decoded
  rename_i inOrder
  simp only [not_or, Nat.not_lt] at inOrder
  obtain ⟨header, short, some_, few⟩ := inOrder
  obtain ⟨read, later, eq⟩ := Option.map_eq_some_iff.mp decoded
  cases eq
  have count := decodeItems_length later
  have named : ¬ (field b 2 (numberAt b 0 2)).length > streamNameMax := by
    have bound : (field b 2 (numberAt b 0 2)).length ≤ numberAt b 0 2 := List.length_take_le ..
    omega
  have batch : ¬ (items = [] ∨ items.length > streamFetchMax) := by
    rintro (rfl | many)
    · exact some_ count.symm
    · omega
  have whole : ¬ (b.length < 2 ∨ numberAt b 0 2 > streamNameMax ∨ b.length < 2 + numberAt b 0 2) := by
    omega
  have recorded : replay fresh topics (.appendBatch (field b 2 (numberAt b 0 2)) items) =
      match findTopic topics (field b 2 (numberAt b 0 2)) with
      | none => (topics, false)
      | some t =>
        (setTopic topics (replayTopic t (.appendBatch (field b 2 (numberAt b 0 2)) items)).1,
          (replayTopic t (.appendBatch (field b 2 (numberAt b 0 2)) items)).2) := if_neg named
  rw [recorded]
  simp only [replayBatch, if_neg whole]
  cases findTopic topics (field b 2 (numberAt b 0 2)) with
  | none => rfl
  | some t =>
    simp only [replayTopic, if_neg batch, if_neg (Nat.not_lt.mpr header),
      if_neg (not_or.mpr ⟨some_, Nat.not_lt.mpr few⟩), readItems_decoded t later]

theorem unkeyed_items {items : List BatchItem} (none_ : keyed items = false) {i : BatchItem}
    (mem : i ∈ items) : i.record.key = [] := by
  have plain := List.any_eq_false.mp none_ i mem
  simpa using plain

theorem sum_encodeItem (withKeys : Bool) : ∀ (items : List BatchItem),
    (withKeys = false → ∀ i ∈ items, i.record.key = []) →
      (items.flatMap (encodeItem withKeys)).length =
        (items.map (fun i => 24 + recordBytes i.record)).sum +
          (if withKeys then 2 * items.length else 0)
  | [], _ => by simp
  | i :: rest, unkeyed => by
    have later := sum_encodeItem withKeys rest
      (fun plain j mem => unkeyed plain j (List.mem_cons_of_mem _ mem))
    rw [List.flatMap_cons, List.length_append, later,
      length_encodeItem withKeys i (fun plain => unkeyed plain i (List.mem_cons_self ..))]
    cases withKeys with
    | true =>
      simp only [itemHeader, if_true, List.map_cons, List.sum_cons, List.length_cons]
      omega
    | false =>
      simp only [itemHeader, Bool.false_eq_true, if_false, List.map_cons, List.sum_cons]
      omega

/-- The bytes have the length the record's header gives. -/
theorem length_encodeBatch (name : Bytes) (items : List BatchItem) :
    (encodeBatch name items).length = (LogRecord.appendBatch name items).len := by
  have items_ := sum_encodeItem (keyed items) items
    (fun plain _ mem => unkeyed_items plain mem)
  simp only [encodeBatch, LogRecord.len, List.length_append, length_leBytes, items_]
  omega

theorem decodeBatch_encoded {name : Bytes} {items : List BatchItem}
    (named : name.length ≤ streamNameMax) (some_ : items ≠ []) (few : items.length ≤ streamFetchMax)
    (fits : ∀ i ∈ items, ItemFits (keyed items) i)
    (size : (LogRecord.appendBatch name items).len ≤ recordMax) :
    decodeBatch (keyed items) (encodeBatch name items) = some (name, items) := by
  have nameMax : streamNameMax < 256 ^ 2 := by decide
  have countMax : streamFetchMax < 256 ^ 4 := by decide
  have size : (encodeBatch name items).length ≤ recordMax := (length_encodeBatch name items).trans_le size
  have nameLength : numberAt (encodeBatch name items) 0 2 = name.length :=
    numberAt_at [] _ rfl rfl (by omega)
  have nameRead : field (encodeBatch name items) 2 name.length = name :=
    field_at (leBytes 2 name.length) name _ rfl (by simp) rfl
  have count : numberAt (encodeBatch name items) (2 + name.length) 4 = items.length := by
    refine numberAt_at (leBytes 2 name.length ++ name) (items.flatMap (encodeItem (keyed items))) ?_
      (by simp) (by omega)
    rw [encodeBatch, List.append_assoc]
  have read : decodeItems (keyed items) (encodeBatch name items) items.length (6 + name.length) =
      some items := by
    have start : (leBytes 2 name.length ++ (name ++ leBytes 4 items.length)).length =
        6 + name.length := by
      simp only [List.length_append, length_leBytes]
      omega
    rw [← start]
    refine decodeItems_encoded size items _ fits ?_
    simp only [encodeBatch, List.append_assoc]
  have inOrder : ¬ ((encodeBatch name items).length < 6 + name.length ∨ name.length > streamNameMax ∨
      items.length = 0 ∨ items.length > streamFetchMax) := by
    have positive := List.length_pos_iff.mpr some_
    have long : 6 + name.length ≤ (encodeBatch name items).length := by
      rw [length_encodeBatch, LogRecord.len]
      omega
    omega
  simp only [decodeBatch, nameLength, count, nameRead, read, if_neg inOrder, Option.map_some]

/-! ## The batch and its record -/

/-- The ranges of the source's types. -/
structure StreamTopic.Ranged (t : StreamTopic) : Prop where
  named : t.name.length ≤ streamNameMax
  divided : t.partitions ≤ streamPartitionsMax
  ends : ∀ q < t.partitions, (t.part q).next < 2 ^ 64

structure AppendInput.Ranged (input : AppendInput) : Prop where
  key : input.key.length < 2 ^ 16
  body : input.body.length < 2 ^ 32

theorem StreamTopic.Ranged.link {t : StreamTopic} (ranged : t.Ranged) {p : Nat}
    (inside : p < t.partitions) (r : StreamRecord) : (partLink t p r).Ranged where
  named := ranged.named
  divided := (partLink_partitions t p r).trans_le ranged.divided
  ends q within := by
    rw [partLink_partitions] at within
    rw [partLink_part inside]
    split
    · exact Nat.mod_lt _ (by decide)
    · exact ranged.ends q within

/-- The items of a batch fit the fields of either layout, keys apart. -/
theorem appendEach_fits {hint now : Nat} (clock : now < 2 ^ 64) : ∀ {inputs : List AppendInput}
    {t u : StreamTopic} {items : List BatchItem}, t.Ranged → (∀ input ∈ inputs, input.Ranged) →
      appendEach hint now t inputs = some (items, u) → ∀ i ∈ items, ItemFits true i
  | [], _, _, _, _, _, given => by
    cases given
    simp
  | input :: rest, t, u, items, ranged, inputs, given => by
    rw [appendEach] at given
    simp only [appendOne] at given
    split at given
    · rename_i refused
      split at refused
      · cases given
      · cases refused
    · rename_i item v one
      split at one
      · cases one
      · rename_i inside
        have inside : choosePart t hint input.key < t.partitions := Nat.lt_of_not_le inside
        obtain ⟨⟨more, w⟩, later, eq⟩ := Option.map_eq_some_iff.mp given
        cases eq
        cases one
        have typed := inputs input (List.mem_cons_self ..)
        have partMax : streamPartitionsMax < 256 ^ 4 := by decide
        intro i mem
        rcases List.mem_cons.mp mem with rfl | mem
        · exact {
            part := Nat.lt_trans (Nat.lt_of_lt_of_le inside ranged.divided) partMax
            offset := ranged.ends _ inside
            atMs := clock
            key := typed.key
            body := typed.body
            unkeyed := fun plain => absurd plain (by decide) }
        · exact appendEach_fits clock (ranged.link inside _)
            (fun x xs => inputs x (List.mem_cons_of_mem _ xs)) later i mem

theorem ItemFits.plain {items : List BatchItem} (fits : ∀ i ∈ items, ItemFits true i) {i : BatchItem}
    (mem : i ∈ items) : ItemFits (keyed items) i :=
  { fits i mem with unkeyed := fun plain => unkeyed_items plain mem }

/-- A batch gives the partitions, the offsets and the records of its inputs appended one after the
other, before one retention pass; and what it logs is read back as those records, in order. -/
theorem batch_as_each :
    (∀ (s : StreamStore) (compaction : Compaction) (now enforceNow : Nat) (name : Bytes) (hint : Nat)
      (inputs : List AppendInput),
      streamAppendBatch s compaction now enforceNow name hint inputs =
        appendTogether s compaction now enforceNow name hint inputs) ∧
    (∀ (s : StreamStore) (compaction : Compaction) (now enforceNow : Nat) (name : Bytes) (hint : Nat)
      (input : AppendInput),
      streamAppend s compaction now enforceNow name hint input =
        appendSingly s compaction now enforceNow name hint input) ∧
    (∀ (topics : List StreamTopic) (name : Bytes) (t u : StreamTopic) (hint now : Nat)
      (inputs : List AppendInput) (items : List BatchItem),
      findTopic topics name = some t → t.Ranged → now < 2 ^ 64 →
      (∀ input ∈ inputs, input.Ranged) → inputs ≠ [] → inputs.length ≤ streamFetchMax →
      appendEach hint now t inputs = some (items, u) →
      (LogRecord.appendBatch name items).len ≤ recordMax →
        (encodeBatch name items).length = (LogRecord.appendBatch name items).len ∧
        decodeBatch (keyed items) (encodeBatch name items) = some (name, items) ∧
        replayBatch (keyed items) topics (encodeBatch name items) = (setTopic topics u, true)) := by
  refine ⟨streamAppendBatch_eq, streamAppend_eq, ?_⟩
  intro topics name t u hint now inputs items found ranged clock typed some_ few each size
  have named : t.name = name := (findTopic_some found).2
  obtain ⟨-, accepted, count⟩ := appendEach_items hint now each
  have fits := appendEach_fits clock ranged typed each
  have some_ : items ≠ [] := by
    intro none_
    rw [none_, List.length_nil] at count
    exact some_ (List.length_eq_zero_iff.mp count.symm)
  have few : items.length ≤ streamFetchMax := count.trans_le few
  have short : name.length ≤ streamNameMax := named ▸ ranged.named
  have decoded := decodeBatch_encoded short some_ few (fun i mem => ItemFits.plain fits mem) size
  refine ⟨length_encodeBatch name items, decoded, ?_⟩
  rw [replayBatch_decoded decoded (fun _ => 0) topics]
  simp only [replay, LogRecord.name, if_neg (Nat.not_lt.mpr short), found, replayTopic,
    if_neg (not_or.mpr ⟨some_, Nat.not_lt.mpr few⟩), accepted]

/-- A topic with two partitions. -/
def twoParts : StreamTopic := newTopic [116] 2 0 0 0

def mixedInputs : List AppendInput := [⟨[107], [1, 2]⟩, ⟨[], [3]⟩]

def mixedItems : List BatchItem := [⟨1, ⟨0, 5, [107], [1, 2]⟩⟩, ⟨1, ⟨1, 5, [], [3]⟩⟩]

theorem batch_as_each_mixed :
    (encodeBatch [116] mixedItems).length = (LogRecord.appendBatch [116] mixedItems).len ∧
      decodeBatch (keyed mixedItems) (encodeBatch [116] mixedItems) = some ([116], mixedItems) ∧
      replayBatch (keyed mixedItems) [twoParts] (encodeBatch [116] mixedItems) =
        (setTopic [twoParts] (linkItems twoParts mixedItems), true) :=
  batch_as_each.2.2 [twoParts] [116] twoParts (linkItems twoParts mixedItems) 1 5 mixedInputs
    mixedItems (by decide) ⟨by decide, by decide, by decide⟩ (by decide)
    (fun input mem => by
      simp only [mixedInputs, List.mem_cons, List.not_mem_nil, or_false] at mem
      rcases mem with rfl | rfl <;> exact ⟨by decide, by decide⟩)
    (by decide) (by decide) (by decide) (by decide)

-- With a limit of 100 bytes, bodies of 60, 60 and 30 bytes stamped alike: single appends trim the
-- first record before the third one arrives, and the pass after a batch begins with partition 0.
example :
    let t := newTopic [116] 2 100 0 0
    let each := fun (t : StreamTopic) (p n : Nat) => (enforce 5 (partLink t p
      ⟨(t.part p).next, 5, [], List.replicate n 0⟩)).1
    let batch := (enforce 5 (linkItems t [⟨1, ⟨0, 5, [], List.replicate 60 0⟩⟩,
      ⟨1, ⟨1, 5, [], List.replicate 60 0⟩⟩, ⟨0, ⟨0, 5, [], List.replicate 30 0⟩⟩])).1
    (each (each (each t 1 60) 1 60) 0 30).records = 2 ∧ batch.records = 1 := by
  decide +kernel

end KuttiDB.Stream
