/- # KuttiDB.Log.CacheLog -- the records of the cache log, their replay and the way into the file

Three encoders write to the log of the cache: the server's for changes and for transaction markers,
and the one of an embedded client. All of them write a frame of a fixed head, the key and the value
(`walLogTxLocked_frame`, `embedWalLog_frame`); `replay_wal` reads frames up to the first it refuses.

* `log_replays`: a log is read back, and so is every log cut short, exactly when every key fits the
  two bytes of its length and every value the limit of the server that replays. An embedded client
  checks neither: `long_key_unread` is what becomes of the log behind such a record.
* `file_prefix`: the file holds the logged bytes in order, as long as no flush is tried again after
  one that failed half way. A failed flush keeps the buffer whole, and the maintenance thread flushes
  it again without asking: `flush_repeats`.
-/
import KuttiDB.Log.Checksum
import KuttiDB.QueueStore.Fields

namespace KuttiDB.Log

open KuttiDB.QueueStore (Bytes field numberAt field_at numberAt_at)
open KuttiDB.Theory

set_option autoImplicit false

/-! ## Writing -/

def crc32Two (a b : Bytes) : BitVec 32 :=
  let t := byteInit bitStep
  b.foldl (byteStep t) (a.foldl (byteStep t) 0xffffffff#32) ^^^ 0xffffffff#32

/-- The changes of the cache; `putEx` is a time to live, which is read but no longer written. -/
inductive Change where
  | put (key value : Bytes)
  | delete (key : Bytes)
  | putEx (key value : Bytes) (ttl : UInt32)
  | putAbs (key value : Bytes) (exp : UInt32)
  deriving DecidableEq, Repr

namespace Change

def op : Change → Nat
  | put _ _ => 0x01
  | delete _ => 0x03
  | putEx _ _ _ => 0x05
  | putAbs _ _ _ => 0x07

def key : Change → Bytes
  | put key _ | delete key | putEx key _ _ | putAbs key _ _ => key

def value : Change → Bytes
  | put _ value | putEx _ value _ | putAbs _ value _ => value
  | delete _ => []

def meta_ : Change → UInt32
  | put _ _ | delete _ => 0
  | putEx _ _ ttl => ttl
  | putAbs _ _ exp => exp

end Change

/-- What a transaction marker does to the cache; the last two need the key to exist. -/
inductive TxOp where
  | put
  | delete
  | putAbs
  | update
  | updateAbs
  deriving DecidableEq, Repr

def TxOp.code : TxOp → Nat
  | put => 1
  | delete => 3
  | putAbs => 7
  | update => 8
  | updateAbs => 9

structure TxMarker where
  txId : UInt64
  subOp : TxOp
  exp : UInt32
  key : Bytes
  value : Bytes
  deriving DecidableEq, Repr

/-- The operations with a fourth field in the head. -/
def timed (op : Nat) : Bool := op == 0x05 || op == 0x07

def walHead (op klen vlen : Nat) (crc : BitVec 32) : Bytes :=
  leBytes 1 op ++ (leBytes 2 klen ++ (leBytes 4 vlen ++ leBytes 4 crc.toNat))

def walLogLocked (op : Nat) (key value : Bytes) (meta_ : Nat) : Bytes :=
  if timed op then
    walHead op key.length value.length (crc32Chain (leBytes 4 meta_) key value)
      ++ (leBytes 4 meta_ ++ (key ++ value))
  else walHead op key.length value.length (crc32Two key value) ++ (key ++ value)

def embedWalLog (op : Nat) (key value : Bytes) (meta_ : Nat) : Bytes :=
  if timed op then
    walHead op key.length value.length (crc32Chain (leBytes 4 meta_) key value)
      ++ (leBytes 4 meta_ ++ (key ++ value))
  else walHead op key.length value.length (crc32Chain key value []) ++ (key ++ value)

/-- The part of a marker's value that comes before the payload. -/
def TxMarker.lead (m : TxMarker) : Bytes :=
  leBytes 8 m.txId.toNat ++ (leBytes 1 m.subOp.code ++ leBytes 4 m.exp.toNat)

def walLogTxLocked (m : TxMarker) : Bytes :=
  walHead 0x08 m.key.length (13 + m.value.length) (crc32Chain m.key m.lead m.value)
    ++ (m.key ++ (m.lead ++ m.value))

/-- A record as replay knows it. -/
inductive CacheRecord where
  | change (c : Change)
  | tx (m : TxMarker)
  deriving DecidableEq, Repr

/-- A record and who wrote it. -/
inductive Logged where
  | server (c : Change)
  | marker (m : TxMarker)
  | embedded (c : Change)
  deriving DecidableEq, Repr

namespace Logged

def record : Logged → CacheRecord
  | server c | embedded c => .change c
  | marker m => .tx m

def bytes : Logged → Bytes
  | server c => walLogLocked c.op c.key c.value c.meta_.toNat
  | marker m => walLogTxLocked m
  | embedded c => embedWalLog c.op c.key c.value c.meta_.toNat

end Logged

def logBytes (log : List Logged) : Bytes := log.flatMap Logged.bytes

/-! ## Reading -/

def txOpOf (code : Nat) : Option TxOp :=
  [TxOp.put, .delete, .putAbs, .update, .updateAbs].find? (fun op => op.code == code)

/-- The value of a marker taken apart. -/
def readMarker (key val : Bytes) : Option TxMarker :=
  if val.length < 13 then none
  else (txOpOf (numberAt val 8 1)).map fun op =>
    ⟨UInt64.ofNat (numberAt val 0 8), op, UInt32.ofNat (numberAt val 9 4), key, val.drop 13⟩

def readBody (op : Nat) (key val : Bytes) (meta_ : Nat) : Option CacheRecord :=
  if op = 0x01 then some (.change (.put key val))
  else if op = 0x05 then some (.change (.putEx key val (UInt32.ofNat meta_)))
  else if op = 0x07 then some (.change (.putAbs key val (UInt32.ofNat meta_)))
  else if op = 0x08 then (readMarker key val).map .tx
  else some (.change (.delete key))

/-- The bytes before the key. -/
def headLen (op : Nat) : Nat := if timed op then 15 else 11

/-- The longest value; a marker has thirteen bytes before its payload. `maxVal` is `g_max_val`. -/
def valueLimit (maxVal op : Nat) : Nat := maxVal + (if op = 0x08 then 13 else 0)

def frameCrc (op meta_ : Nat) (key val : Bytes) : BitVec 32 :=
  if timed op then crc32Chain (leBytes 4 meta_) key val else crc32Two key val

/-- One round of `replay_wal`: the end of the file, the return with an error, or a record and the
bytes it took. -/
inductive Round where
  | done
  | stop
  | record (r : CacheRecord) (size : Nat)
  deriving DecidableEq, Repr

/-- A read gives what the file still has, so a short one is a file that ends. -/
def readRound (maxVal : Nat) (bytes : Bytes) : Round :=
  if bytes.length = 0 then .done
  else if bytes.length < 11 then .stop
  else
    let op := numberAt bytes 0 1
    let klen := numberAt bytes 1 2
    let vlen := numberAt bytes 3 4
    if bytes.length < headLen op then .stop
    else if vlen > valueLimit maxVal op ∨ op ∉ [0x01, 0x03, 0x05, 0x07, 0x08] then .stop
    else if bytes.length < headLen op + klen then .stop
    else if bytes.length < headLen op + klen + vlen then .stop
    else
      let key := field bytes (headLen op) klen
      let val := field bytes (headLen op + klen) vlen
      let meta_ := numberAt bytes 11 4
      if (frameCrc op meta_ key val).toNat ≠ numberAt bytes 7 4 then .stop
      else match readBody op key val meta_ with
        | none => .stop
        | some r => .record r (headLen op + klen + vlen)

/-- What `replay_wal` applied, the offset it reports, and whether it returned 0. -/
structure Replayed where
  records : List CacheRecord
  goodOff : Nat
  clean : Bool
  deriving DecidableEq, Repr

/-- A record takes eleven bytes at least, so the length of the file is fuel enough. -/
def replayRounds (maxVal : Nat) : Nat → Bytes → Replayed
  | 0, _ => ⟨[], 0, true⟩
  | fuel + 1, bytes =>
    match readRound maxVal bytes with
    | .done => ⟨[], 0, true⟩
    | .stop => ⟨[], 0, false⟩
    | .record r size =>
      let rest := replayRounds maxVal fuel (bytes.drop size)
      ⟨r :: rest.records, size + rest.goodOff, rest.clean⟩

def replayWal (maxVal : Nat) (file : Bytes) : Replayed := replayRounds maxVal (file.length + 1) file

/-! ## One frame for the three encoders -/

theorem crc32Chain_two (a b d : Bytes) : crc32Chain a b d = crc32Two a (b ++ d) := by
  simp only [crc32Chain, crc32Two, List.foldl_append]

theorem embedWalLog_frame (op : Nat) (key value : Bytes) (meta_ : Nat) :
    embedWalLog op key value meta_ = walLogLocked op key value meta_ := by
  unfold embedWalLog walLogLocked
  rw [crc32Chain_two key value [], List.append_nil]

theorem length_lead (m : TxMarker) : m.lead.length = 13 := by
  simp [TxMarker.lead]

theorem walLogTxLocked_frame (m : TxMarker) :
    walLogTxLocked m = walLogLocked 0x08 m.key (m.lead ++ m.value) 0 := by
  have plain : timed 0x08 = false := rfl
  rw [walLogTxLocked, walLogLocked, plain, if_neg Bool.false_ne_true, crc32Chain_two,
    List.length_append, length_lead]

theorem length_walLogLocked (op : Nat) (key value : Bytes) (meta_ : Nat) :
    (walLogLocked op key value meta_).length = headLen op + key.length + value.length := by
  unfold walLogLocked headLen
  split <;> simp [walHead] <;> omega

/-! ## Reading a frame back -/

/-- The numbers in the head of a frame, in a file that has it at its start. -/
structure Framed (op : Nat) (key value : Bytes) (bytes : Bytes) : Prop where
  op : numberAt bytes 0 1 = op
  klen : numberAt bytes 1 2 = key.length
  vlen : numberAt bytes 3 4 = value.length

section Frame

variable {op meta_ : Nat} {key value : Bytes}

theorem walLogLocked_head (op : Nat) (key value : Bytes) (meta_ : Nat) : ∃ crc rest,
    walLogLocked op key value meta_ = walHead op key.length value.length crc ++ rest := by
  unfold walLogLocked
  split
  · exact ⟨_, _, rfl⟩
  · exact ⟨_, _, rfl⟩

/-- The three numbers are read from the first eleven bytes, whatever comes later. -/
theorem framed_of_head (small : op < 256) (short : key.length < 2 ^ 16) (fits : value.length < 2 ^ 32)
    {crc : BitVec 32} {bytes rest : Bytes}
    (shape : bytes = walHead op key.length value.length crc ++ rest) :
    Framed op key value bytes where
  op := numberAt_at [] (leBytes 2 key.length ++ (leBytes 4 value.length ++ (leBytes 4 crc.toNat ++ rest)))
    (by rw [shape, walHead]; simp only [List.append_assoc, List.nil_append]) rfl small
  klen := numberAt_at (leBytes 1 op) (leBytes 4 value.length ++ (leBytes 4 crc.toNat ++ rest))
    (by rw [shape, walHead]; simp only [List.append_assoc]) rfl short
  vlen := numberAt_at (leBytes 1 op ++ leBytes 2 key.length) (leBytes 4 crc.toNat ++ rest)
    (by rw [shape, walHead]; simp only [List.append_assoc]) rfl fits

theorem head_crc {crc : BitVec 32} {bytes rest : Bytes}
    (shape : bytes = walHead op key.length value.length crc ++ rest) :
    numberAt bytes 7 4 = crc.toNat :=
  numberAt_at (leBytes 1 op ++ leBytes 2 key.length ++ leBytes 4 value.length) rest
    (by rw [shape, walHead]; simp only [List.append_assoc]) rfl crc.isLt

theorem length_walHead (op klen vlen : Nat) (crc : BitVec 32) :
    (walHead op klen vlen crc).length = 11 := by
  simp [walHead]

/-- What a round makes of a whole frame: the checksum is over the bytes it was written for. -/
theorem readRound_frame (known : op ∈ [0x01, 0x03, 0x05, 0x07, 0x08])
    (short : key.length < 2 ^ 16) (fits : value.length < 2 ^ 32) (word : meta_ < 2 ^ 32) {maxVal : Nat}
    (within : value.length ≤ valueLimit maxVal op) (rest : Bytes) :
    ∃ other, readRound maxVal (walLogLocked op key value meta_ ++ rest) =
      match readBody op key value (if timed op then meta_ else other) with
      | none => .stop
      | some r => .record r (walLogLocked op key value meta_).length := by
  have small : op < 256 := by
    simp only [List.mem_cons, List.not_mem_nil, or_false] at known
    omega
  have size := length_walLogLocked op key value meta_
  generalize bytesEq : walLogLocked op key value meta_ ++ rest = bytes
  refine ⟨numberAt bytes 11 4, ?_⟩
  have long : (headLen op + key.length + value.length) + rest.length = bytes.length := by
    rw [← bytesEq, List.length_append, size]
  have head : 11 ≤ headLen op := by unfold headLen; split <;> omega
  have kept : ¬ (value.length > valueLimit maxVal op ∨ op ∉ [0x01, 0x03, 0x05, 0x07, 0x08]) := by
    rintro (above | unknown)
    · omega
    · exact unknown known
  obtain ⟨crc, tail, shape⟩ := walLogLocked_head op key value meta_
  have start : bytes = walHead op key.length value.length crc ++ (tail ++ rest) := by
    rw [← bytesEq, shape, List.append_assoc]
  have framed : Framed op key value bytes := framed_of_head small short fits start
  -- the rest of the frame, with and without the fourth field
  have body : field bytes (headLen op) key.length = key ∧
      field bytes (headLen op + key.length) value.length = value ∧
      (frameCrc op (numberAt bytes 11 4) key value).toNat = numberAt bytes 7 4 ∧
      numberAt bytes 11 4 = (if timed op then meta_ else numberAt bytes 11 4) := by
    unfold headLen frameCrc
    by_cases ticking : timed op = true
    · have layout : bytes = walHead op key.length value.length (crc32Chain (leBytes 4 meta_) key value)
          ++ (leBytes 4 meta_ ++ (key ++ (value ++ rest))) := by
        rw [← bytesEq, walLogLocked, if_pos ticking]
        simp only [List.append_assoc]
      have clock : numberAt bytes 11 4 = meta_ := numberAt_at _ _ layout (length_walHead ..) word
      rw [if_pos ticking, if_pos ticking, if_pos ticking, clock, head_crc layout]
      refine ⟨?_, ?_, rfl, rfl⟩
      · exact field_at _ key (value ++ rest) (layout.trans (List.append_assoc ..).symm)
          (by simp [length_walHead]) rfl
      · exact field_at (walHead op key.length value.length (crc32Chain (leBytes 4 meta_) key value)
            ++ (leBytes 4 meta_ ++ key)) value rest
          (layout.trans (by simp only [List.append_assoc])) (by simp [length_walHead]; omega) rfl
    · have layout : bytes = walHead op key.length value.length (crc32Two key value)
          ++ (key ++ (value ++ rest)) := by
        rw [← bytesEq, walLogLocked, if_neg ticking]
        simp only [List.append_assoc]
      rw [if_neg ticking, if_neg ticking, if_neg ticking, head_crc layout]
      refine ⟨field_at _ key _ layout (length_walHead ..) rfl, ?_, rfl, rfl⟩
      exact field_at (walHead op key.length value.length _ ++ key) value rest
        (layout.trans (List.append_assoc ..).symm) (by simp [length_walHead]) rfl
  obtain ⟨keyAt, valueAt, sum, clock⟩ := body
  unfold readRound
  rw [if_neg (by omega), if_neg (by omega)]
  simp only [framed.op, framed.klen, framed.vlen]
  rw [if_neg (by omega), if_neg kept, if_neg (by omega), if_neg (by omega), keyAt, valueAt,
    if_neg (not_not.mpr sum), ← clock, size]

/-- A frame that is cut short stops the replay, wherever the cut is. -/
theorem readRound_torn (small : op < 256) (short : key.length < 2 ^ 16) (fits : value.length < 2 ^ 32)
    {part : Bytes} (cut : part <+: walLogLocked op key value meta_) (some_ : part ≠ [])
    (lacking : part.length < (walLogLocked op key value meta_).length) (maxVal : Nat) :
    readRound maxVal part = .stop := by
  have nonempty : part.length ≠ 0 := fun none_ => some_ (List.length_eq_zero_iff.mp none_)
  unfold readRound
  rw [if_neg nonempty]
  by_cases headless : part.length < 11
  · rw [if_pos headless]
  · obtain ⟨crc, rest, shape⟩ := walLogLocked_head op key value meta_
    have start : walHead op key.length value.length crc <+: part :=
      List.prefix_of_prefix_length_le (shape ▸ List.prefix_append ..) cut
        (by rw [length_walHead]; omega)
    obtain ⟨tail, whole⟩ := start
    have framed : Framed op key value part := framed_of_head small short fits whole.symm
    rw [length_walLogLocked] at lacking
    rw [if_neg headless]
    simp only [framed.op, framed.klen, framed.vlen]
    -- the last length check fails if none of the others does
    by_cases cutHead : part.length < headLen op
    · rw [if_pos cutHead]
    rw [if_neg cutHead]
    split
    · rfl
    by_cases cutKey : part.length < headLen op + key.length
    · rw [if_pos cutKey]
    rw [if_neg cutKey]

end Frame

/-! ## Records that replay can read -/

namespace CacheRecord

def key : CacheRecord → Bytes
  | change c => c.key
  | tx m => m.key

def value : CacheRecord → Bytes
  | change c => c.value
  | tx m => m.value

/-- The key fits its length field and the value the limit of the server. -/
def Fits (maxVal : Nat) (r : CacheRecord) : Prop :=
  r.key.length < 2 ^ 16 ∧ r.value.length ≤ maxVal

end CacheRecord

theorem length_field_le (bytes : Bytes) (off len : Nat) : (field bytes off len).length ≤ len := by
  rw [field, List.length_take]
  exact Nat.min_le_left ..

theorem numberAt_bound (bytes : Bytes) (off len : Nat) : numberAt bytes off len < 256 ^ len :=
  Nat.lt_of_lt_of_le (leNat_lt _) (Nat.pow_le_pow_right (by decide) (length_field_le ..))

theorem readMarker_fits {key val : Bytes} {m : TxMarker} (read : readMarker key val = some m) :
    m.key = key ∧ m.value.length = val.length - 13 := by
  unfold readMarker at read
  split at read
  · exact absurd read (by simp)
  · obtain ⟨op, -, made⟩ := Option.map_eq_some_iff.mp read
    subst made
    exact ⟨rfl, List.length_drop ..⟩

theorem readBody_fits {op meta_ maxVal : Nat} {key val : Bytes} {r : CacheRecord}
    (read : readBody op key val meta_ = some r) (short : key.length < 2 ^ 16)
    (within : val.length ≤ valueLimit maxVal op) : r.Fits maxVal := by
  unfold readBody at read
  unfold valueLimit at within
  by_cases put : op = 0x01
  · rw [if_pos put] at read
    cases read
    rw [put] at within
    exact ⟨short, within⟩
  by_cases ex : op = 0x05
  · rw [if_neg put, if_pos ex] at read
    cases read
    rw [ex] at within
    exact ⟨short, within⟩
  by_cases abs : op = 0x07
  · rw [if_neg put, if_neg ex, if_pos abs] at read
    cases read
    rw [abs] at within
    exact ⟨short, within⟩
  by_cases tx : op = 0x08
  · rw [if_neg put, if_neg ex, if_neg abs, if_pos tx] at read
    obtain ⟨m, marker, rfl⟩ := Option.map_eq_some_iff.mp read
    obtain ⟨sameKey, rest⟩ := readMarker_fits marker
    rw [if_pos tx] at within
    exact ⟨by rw [CacheRecord.key, sameKey]; exact short, by rw [CacheRecord.value, rest]; omega⟩
  · rw [if_neg put, if_neg ex, if_neg abs, if_neg tx] at read
    cases read
    exact ⟨short, Nat.zero_le _⟩

theorem readRound_fits {maxVal size : Nat} {bytes : Bytes} {r : CacheRecord}
    (read : readRound maxVal bytes = .record r size) : r.Fits maxVal := by
  unfold readRound at read
  split at read
  · cases read
  split at read
  · cases read
  simp only at read
  split at read
  · cases read
  split at read
  · cases read
  rename_i admitted
  split at read
  · cases read
  split at read
  · cases read
  split at read
  · cases read
  split at read
  · cases read
  · rename_i body
    cases read
    push Not at admitted
    exact readBody_fits body
      (Nat.lt_of_le_of_lt (length_field_le ..) (numberAt_bound bytes 1 2))
      (Nat.le_trans (length_field_le ..) admitted.1)

theorem replayRounds_fits {maxVal : Nat} : ∀ (fuel : Nat) (bytes : Bytes),
    ∀ r ∈ (replayRounds maxVal fuel bytes).records, r.Fits maxVal
  | 0, _, _, mem => absurd mem (by simp [replayRounds])
  | fuel + 1, bytes, r, mem => by
      unfold replayRounds at mem
      cases round : readRound maxVal bytes with
      | done => simp [round] at mem
      | stop => simp [round] at mem
      | record first size =>
          simp only [round, List.mem_cons] at mem
          rcases mem with rfl | later
          · exact readRound_fits round
          · exact replayRounds_fits fuel _ r later

theorem txOpOf_code (op : TxOp) : txOpOf op.code = some op := by
  cases op <;> rfl

theorem readMarker_lead (m : TxMarker) : readMarker m.key (m.lead ++ m.value) = some m := by
  have id : numberAt (m.lead ++ m.value) 0 8 = m.txId.toNat :=
    numberAt_at [] (leBytes 1 m.subOp.code ++ (leBytes 4 m.exp.toNat ++ m.value))
      (by simp only [TxMarker.lead, List.append_assoc, List.nil_append]) rfl m.txId.toNat_lt
  have sub : numberAt (m.lead ++ m.value) 8 1 = m.subOp.code :=
    numberAt_at (leBytes 8 m.txId.toNat) (leBytes 4 m.exp.toNat ++ m.value)
      (by simp only [TxMarker.lead, List.append_assoc]) rfl (by cases m.subOp <;> decide)
  have exp : numberAt (m.lead ++ m.value) 9 4 = m.exp.toNat :=
    numberAt_at (leBytes 8 m.txId.toNat ++ leBytes 1 m.subOp.code) m.value
      (by simp only [TxMarker.lead, List.append_assoc]) rfl m.exp.toNat_lt
  have payload : (m.lead ++ m.value).drop 13 = m.value := by
    rw [← length_lead m, List.drop_left]
  rw [readMarker, if_neg (by rw [List.length_append, length_lead]; omega), id, sub, exp, txOpOf_code,
    payload]
  simp

/-! ## Reading a log back -/

namespace Logged

/-- The frame an entry is written as. -/
theorem bytes_frame (e : Logged) : ∃ op value meta_, op < 256 ∧ op ∈ [0x01, 0x03, 0x05, 0x07, 0x08] ∧
    meta_ < 2 ^ 32 ∧ e.bytes = walLogLocked op e.record.key value meta_ ∧
    value.length = valueLimit e.record.value.length op ∧
    (∀ other, readBody op e.record.key value (if timed op then meta_ else other) = some e.record) := by
  have change : ∀ c : Change, c.op < 256 ∧ c.op ∈ [0x01, 0x03, 0x05, 0x07, 0x08] ∧ c.op ≠ 0x08 ∧
      ∀ other, readBody c.op c.key c.value (if timed c.op then c.meta_.toNat else other) =
        some (.change c) := by
    intro c
    cases c <;> simp [Change.op, Change.key, Change.value, Change.meta_, readBody, timed]
  cases e with
  | server c =>
      obtain ⟨small, known, plain, read⟩ := change c
      exact ⟨c.op, c.value, c.meta_.toNat, small, known, c.meta_.toNat_lt, rfl,
        by rw [valueLimit, if_neg plain]; rfl, read⟩
  | embedded c =>
      obtain ⟨small, known, plain, read⟩ := change c
      exact ⟨c.op, c.value, c.meta_.toNat, small, known, c.meta_.toNat_lt, embedWalLog_frame ..,
        by rw [valueLimit, if_neg plain]; rfl, read⟩
  | marker m =>
      refine ⟨0x08, m.lead ++ m.value, 0, by decide, by decide, by decide, walLogTxLocked_frame m, ?_,
        fun other => ?_⟩
      · rw [List.length_append, length_lead, Nat.add_comm]
        rfl
      · simp [readBody, record, CacheRecord.key, readMarker_lead]

theorem bytes_pos (e : Logged) : 0 < e.bytes.length := by
  obtain ⟨op, value, meta_, -, -, -, frame, -⟩ := e.bytes_frame
  rw [frame, length_walLogLocked, headLen]
  split <;> omega

variable {e : Logged} {maxVal : Nat}

theorem narrow_of_limit {size op : Nat} (within : size ≤ valueLimit maxVal op)
    (limit : maxVal ≤ 2 ^ 30) : size < 2 ^ 32 := by
  unfold valueLimit at within
  split at within <;> omega

theorem readRound_bytes (fits : e.record.Fits maxVal) (limit : maxVal ≤ 2 ^ 30) (rest : Bytes) :
    readRound maxVal (e.bytes ++ rest) = .record e.record e.bytes.length := by
  obtain ⟨op, value, meta_, -, known, word, frame, size, read⟩ := e.bytes_frame
  have within : value.length ≤ valueLimit maxVal op := by
    rw [size]
    exact Nat.add_le_add_right fits.2 _
  obtain ⟨other, round⟩ :=
    readRound_frame known fits.1 (narrow_of_limit within limit) word within rest
  rw [frame, round, read]

theorem readRound_part (fits : e.record.Fits maxVal) (limit : maxVal ≤ 2 ^ 30) {part : Bytes}
    (cut : part <+: e.bytes) (some_ : part ≠ []) (lacking : part.length < e.bytes.length) :
    readRound maxVal part = .stop := by
  obtain ⟨op, value, meta_, small, -, -, frame, size, -⟩ := e.bytes_frame
  have within : value.length ≤ valueLimit maxVal op := by
    rw [size]
    exact Nat.add_le_add_right fits.2 _
  rw [frame] at cut lacking
  exact readRound_torn small fits.1 (narrow_of_limit within limit) cut some_ lacking maxVal

end Logged

/-- The entries that are in the file whole when it is cut. -/
def wholeBefore : Nat → List Logged → List Logged
  | _, [] => []
  | cut, e :: rest =>
    if e.bytes.length ≤ cut then e :: wholeBefore (cut - e.bytes.length) rest else []

/-- The entries before the cut, the offset where they end, and an error unless that is the cut. -/
def Expected (cut : Nat) (log : List Logged) : Replayed :=
  ⟨(wholeBefore cut log).map Logged.record, (logBytes (wholeBefore cut log)).length,
    decide ((logBytes (wholeBefore cut log)).length = cut)⟩

theorem replayRounds_cut {maxVal : Nat} (limit : maxVal ≤ 2 ^ 30) : ∀ (log : List Logged),
    (∀ e ∈ log, e.record.Fits maxVal) → ∀ cut ≤ (logBytes log).length, ∀ fuel, cut < fuel →
      replayRounds maxVal fuel ((logBytes log).take cut) = Expected cut log
  | [], _, cut, inside, fuel + 1, _ => by
      have none_ : cut = 0 := Nat.le_zero.mp inside
      subst none_
      rfl
  | e :: log, fits, cut, inside, fuel + 1, enough => by
      have here := fits e List.mem_cons_self
      have later : ∀ x ∈ log, x.record.Fits maxVal := fun x mem => fits x (List.mem_cons_of_mem _ mem)
      have shape : logBytes (e :: log) = e.bytes ++ logBytes log := List.flatMap_cons
      have some_ := e.bytes_pos
      rw [shape, List.length_append] at inside
      by_cases whole : e.bytes.length ≤ cut
      · -- the entry is read, and the rest of the file is the rest of the log, cut
        have taken : (logBytes (e :: log)).take cut =
            e.bytes ++ (logBytes log).take (cut - e.bytes.length) := by
          rw [shape, List.take_append, List.take_of_length_le whole]
        have rest := replayRounds_cut limit log later (cut - e.bytes.length) (by omega) fuel (by omega)
        rw [taken, replayRounds, Logged.readRound_bytes here limit]
        simp only [List.drop_left, rest, Expected, wholeBefore, if_pos whole, List.map_cons]
        have size : (logBytes (e :: wholeBefore (cut - e.bytes.length) log)).length =
            e.bytes.length + (logBytes (wholeBefore (cut - e.bytes.length) log)).length := by
          rw [logBytes, List.flatMap_cons, List.length_append]
          rfl
        rw [size]
        congr 1
        exact decide_eq_decide.mpr ⟨fun same => by omega, fun same => by omega⟩
      · have part : (logBytes (e :: log)).take cut <+: e.bytes := by
          rw [shape, List.take_append_of_le_length (by omega)]
          exact List.take_prefix ..
        have size : ((logBytes (e :: log)).take cut).length = cut := by
          rw [List.length_take, shape, List.length_append]
          omega
        have expected : Expected cut (e :: log) = ⟨[], 0, decide (0 = cut)⟩ := by
          simp [Expected, wholeBefore, whole, logBytes]
        rw [expected, replayRounds]
        by_cases empty : cut = 0
        · subst empty
          rfl
        · have cutting : (logBytes (e :: log)).take cut ≠ [] := fun nil => by
            rw [nil] at size
            exact empty size.symm
          rw [Logged.readRound_part here limit part cutting (by omega),
            decide_eq_false (fun same => empty same.symm)]

theorem wholeBefore_all (log : List Logged) : wholeBefore (logBytes log).length log = log := by
  induction log with
  | nil => rfl
  | cons e log ih =>
      have size : (logBytes (e :: log)).length = e.bytes.length + (logBytes log).length := by
        rw [logBytes, List.flatMap_cons, List.length_append]
        rfl
      rw [wholeBefore, size, if_pos (Nat.le_add_right ..), Nat.add_sub_cancel_left, ih]

/-- **A log and every cut of it are read back exactly when every record fits the reader**: the key
its length field, the value the limit. -/
theorem log_replays {maxVal : Nat} (limit : maxVal ≤ 2 ^ 30) (log : List Logged) :
    (∀ cut ≤ (logBytes log).length,
        replayWal maxVal ((logBytes log).take cut) = Expected cut log) ↔
      ∀ e ∈ log, e.record.key.length < 2 ^ 16 ∧ e.record.value.length ≤ maxVal := by
  constructor
  · intro read e mem
    have whole := read _ (Nat.le_refl _)
    rw [List.take_length] at whole
    have fits : ∀ r ∈ (replayWal maxVal (logBytes log)).records, r.Fits maxVal :=
      replayRounds_fits _ _
    rw [whole, Expected, wholeBefore_all] at fits
    exact fits e.record (List.mem_map_of_mem mem)
  · intro fits cut inside
    have size : ((logBytes log).take cut).length = cut := by
      rw [List.length_take]
      omega
    rw [replayWal, size]
    exact replayRounds_cut limit log fits cut inside (cut + 1) (Nat.lt_succ_self _)

/-- A put, a timed put by an embedded client, a marker and a deletion under the default limit. -/
def fourEntries : List Logged :=
  [.server (.put [107] [1, 2]), .embedded (.putAbs [107] [3] 1700000000),
    .marker ⟨77, .update, 0, [107], [4]⟩, .server (.delete [107])]

theorem log_replays_four :
    0 < (logBytes fourEntries).length ∧ ∀ cut ≤ (logBytes fourEntries).length,
      replayWal (64 * 2 ^ 20) ((logBytes fourEntries).take cut) = Expected cut fourEntries :=
  ⟨by decide +kernel, (log_replays (by decide) fourEntries).mpr (by decide)⟩

/-- An embedded client with a key of 65536 bytes, then a put by the server. -/
def longKeyLog : List Logged :=
  [.embedded (.put (List.replicate (2 ^ 16) 0) [1]), .server (.put [107] [2])]

/-- **The log of an embedded client is not read back**: its key is too long for the length field, and
replay does not return the records, the server's behind it included. -/
theorem long_key_unread :
    (replayWal (64 * 2 ^ 20) (logBytes longKeyLog)).records ≠ longKeyLog.map Logged.record := by
  intro read
  have fits : ∀ r ∈ (replayWal (64 * 2 ^ 20) (logBytes longKeyLog)).records, r.Fits (64 * 2 ^ 20) :=
    replayRounds_fits _ _
  rw [read] at fits
  have short := (fits (.change (.put (List.replicate (2 ^ 16) 0) [1])) List.mem_cons_self).1
  rw [CacheRecord.key, Change.key, List.length_replicate] at short
  exact absurd short (Nat.lt_irrefl _)

/-! ## From the buffer into the file -/

/-- A return of `write`: some bytes, `EINTR`, or another error. -/
inductive WriteResult where
  | wrote (n : Nat)
  | interrupted
  | error
  deriving DecidableEq, Repr

/-- How the loop of a flush ends, if it does. -/
inductive FlushEnd where
  | done
  | failed
  | running
  deriving DecidableEq, Repr

/-- The loop of `wal_flush_bytes_locked` from position `off` of the buffer on: the file, the position
and the end. -/
def flushLoop (buf : Bytes) : List WriteResult → Nat → Bytes → Bytes × Nat × FlushEnd
  | [], off, file => (file, off, if buf.length ≤ off then .done else .running)
  | r :: rest, off, file =>
    if buf.length ≤ off then (file, off, .done)
    else match r with
      | .interrupted => flushLoop buf rest off file
      | .error => (file, off, .failed)
      | .wrote n =>
        let chunk := (buf.drop off).take n
        flushLoop buf rest (off + chunk.length) (file ++ chunk)

/-- `buf` is `g_wal_buf`, `failed` is `g_wal_failed`; `busy` says that a flush holds the lock of the
log and has not returned. `logged` and `written` are for the statements: the entries in order, and
how many bytes of the buffer an unfinished flush has already handed to the file. -/
structure WalBuffer where
  buf : Bytes
  file : Bytes
  failed : Bool
  busy : Bool
  logged : List Logged
  written : Nat
  deriving DecidableEq, Repr

namespace WalBuffer

def fresh : WalBuffer := ⟨[], [], false, false, [], 0⟩

/-- `wal_flush`: the position of the loop is local, a failed one leaves the buffer as it was. -/
def flush (results : List WriteResult) (b : WalBuffer) : WalBuffer :=
  match flushLoop b.buf results 0 b.file with
  | (file, _, .done) => { b with buf := [], file := file, written := 0 }
  | (file, off, .failed) => { b with file := file, failed := true, written := off }
  | (file, off, .running) => { b with file := file, busy := true, written := off }

end WalBuffer

/-- Requests look at `g_wal_failed` first, the maintenance thread and the shutdown do not. -/
inductive BufferStep where
  | log (e : Logged)
  | request (results : List WriteResult)
  | maintenance (results : List WriteResult)
  | shutdown (results : List WriteResult)
  deriving DecidableEq, Repr

namespace WalBuffer

def step (b : WalBuffer) (s : BufferStep) : WalBuffer :=
  if b.busy then b
  else match s with
    | .log e =>
      if b.failed then b else { b with buf := b.buf ++ e.bytes, logged := b.logged ++ [e] }
    | .request results => if b.failed then b else b.flush results
    | .maintenance results | .shutdown results => b.flush results

def run (b : WalBuffer) (steps : List BufferStep) : WalBuffer := steps.foldl step b

/-- The step reaches the loop of the flush: a request that finds `g_wal_failed` set does not. -/
def tries (b : WalBuffer) : BufferStep → Bool
  | .log _ => false
  | .request _ => !b.busy && !b.failed
  | .maintenance _ | .shutdown _ => !b.busy

/-- No flush is tried after one that stopped half way. -/
def Careful : WalBuffer → List BufferStep → Prop
  | _, [] => True
  | b, s :: rest => (b.tries s = true → b.written = 0) ∧ Careful (b.step s) rest

/-- The file holds everything but the rest of the buffer. -/
structure Ordered (b : WalBuffer) : Prop where
  inside : b.written ≤ b.buf.length
  joined : b.file ++ b.buf.drop b.written = logBytes b.logged

theorem flushLoop_joined {buf all : Bytes} : ∀ (results : List WriteResult) (off : Nat) (file : Bytes),
    off ≤ buf.length → file ++ buf.drop off = all →
      (flushLoop buf results off file).2.1 ≤ buf.length ∧
      (flushLoop buf results off file).1 ++ buf.drop (flushLoop buf results off file).2.1 = all ∧
      ((flushLoop buf results off file).2.2 = .done →
        (flushLoop buf results off file).2.1 = buf.length)
  | [], off, file, inside, joined => by
      refine ⟨inside, joined, fun done => ?_⟩
      by_cases all_ : buf.length ≤ off
      · exact Nat.le_antisymm inside all_
      · exact absurd done (by simp [flushLoop, all_])
  | r :: rest, off, file, inside, joined => by
      by_cases all_ : buf.length ≤ off
      · simp only [flushLoop, if_pos all_]
        exact ⟨inside, joined, fun _ => Nat.le_antisymm inside all_⟩
      cases r with
      | interrupted =>
          simp only [flushLoop, if_neg all_]
          exact flushLoop_joined rest off file inside joined
      | error =>
          simp only [flushLoop, if_neg all_]
          exact ⟨inside, joined, nofun⟩
      | wrote n =>
          simp only [flushLoop, if_neg all_]
          have size : ((buf.drop off).take n).length ≤ buf.length - off := by
            rw [List.length_take, List.length_drop]
            exact Nat.min_le_right ..
          refine flushLoop_joined rest _ _ (by omega) ?_
          have taken : (buf.drop off).take n ++ buf.drop (off + ((buf.drop off).take n).length) =
              buf.drop off := by
            rw [← List.drop_drop, List.length_take]
            conv_rhs => rw [← List.take_append_drop n (buf.drop off)]
            congr 1
            by_cases short : n ≤ (buf.drop off).length
            · rw [Nat.min_eq_left short]
            · rw [Nat.min_eq_right (by omega), List.drop_length, List.drop_of_length_le (by omega)]
          rw [List.append_assoc, taken, joined]

theorem Ordered.flush {b : WalBuffer} (ordered : b.Ordered) (untouched : b.written = 0)
    (results : List WriteResult) : (b.flush results).Ordered := by
  have start : b.file ++ b.buf.drop 0 = logBytes b.logged := by
    rw [← untouched]
    exact ordered.joined
  obtain ⟨inside, joined, ended⟩ := flushLoop_joined results 0 b.file (Nat.zero_le _) start
  rw [WalBuffer.flush]
  generalize flushLoop b.buf results 0 b.file = result at inside joined ended
  obtain ⟨file, off, ending⟩ := result
  cases ending with
  | done =>
      rw [ended rfl, List.drop_length, List.append_nil] at joined
      exact ⟨Nat.le_refl _, by simpa using joined⟩
  | failed => exact ⟨inside, joined⟩
  | running => exact ⟨inside, joined⟩

theorem Ordered.step {b : WalBuffer} (ordered : b.Ordered) {s : BufferStep}
    (careful : b.tries s = true → b.written = 0) : (b.step s).Ordered := by
  unfold WalBuffer.step
  split
  · exact ordered
  rename_i idle
  cases s with
  | log e =>
      simp only
      split
      · exact ordered
      · refine ⟨Nat.le_trans ordered.inside (by simp), ?_⟩
        have more : logBytes (b.logged ++ [e]) = logBytes b.logged ++ e.bytes := by
          simp [logBytes]
        rw [List.drop_append_of_le_length ordered.inside, ← List.append_assoc, ordered.joined, more]
  | request results =>
      simp only
      split
      · exact ordered
      · rename_i sound
        exact ordered.flush (careful (by simp [tries, idle, sound])) results
  | maintenance results => exact ordered.flush (careful (by simp [tries, idle])) results
  | shutdown results => exact ordered.flush (careful (by simp [tries, idle])) results

theorem Ordered.run : ∀ {steps : List BufferStep} {b : WalBuffer}, b.Ordered → b.Careful steps →
    (b.run steps).Ordered
  | [], _, ordered, _ => ordered
  | s :: rest, b, ordered, careful => by
      have later : ((b.step s).run rest).Ordered := Ordered.run (ordered.step careful.1) careful.2
      exact later

theorem Careful.before : ∀ {before : List BufferStep} {b : WalBuffer} {after : List BufferStep},
    b.Careful (before ++ after) → b.Careful before
  | [], _, _, _ => trivial
  | _ :: _, _, _, careful => ⟨careful.1, careful.2.before⟩

end WalBuffer

/-- **The file is a prefix of what was logged**, in every state of a run in which no flush is tried
after one that failed half way. -/
theorem file_prefix (before after : List BufferStep)
    (careful : WalBuffer.fresh.Careful (before ++ after)) :
    (WalBuffer.fresh.run before).file <+: logBytes (WalBuffer.fresh.run before).logged := by
  have ordered : (WalBuffer.fresh.run before).Ordered :=
    WalBuffer.Ordered.run ⟨Nat.le_refl _, rfl⟩ careful.before
  exact ⟨_, ordered.joined⟩

/-- A record, a flush that fails at once, and the maintenance thread's that succeeds in two pieces. -/
def retriedSteps : List BufferStep :=
  [.log (.server (.put [107] [1])), .request [.error], .maintenance [.wrote 5, .interrupted, .wrote 8]]

theorem file_prefix_retried :
    (WalBuffer.fresh.run retriedSteps).file <+: logBytes (WalBuffer.fresh.run retriedSteps).logged :=
  file_prefix retriedSteps [] (by
    simp [retriedSteps, WalBuffer.Careful, WalBuffer.tries, WalBuffer.step, WalBuffer.flush,
      flushLoop, WalBuffer.fresh, Logged.bytes, Change.op, Change.key, Change.value, walLogLocked,
      timed, walHead])

/-- A flush of a request stops after four bytes, and the maintenance thread flushes again. -/
def repeatedSteps : List BufferStep :=
  [.log (.server (.put [107] [1])), .request [.wrote 4, .error], .maintenance [.wrote 13]]

/-- **A flush that failed half way is repeated from the start**: the file has the first four bytes
twice. -/
theorem flush_repeats :
    ¬ (WalBuffer.fresh.run repeatedSteps).file <+: logBytes (WalBuffer.fresh.run repeatedSteps).logged := by
  intro ordered
  have size := ordered.length_le
  simp [repeatedSteps, WalBuffer.run, WalBuffer.step, WalBuffer.flush, flushLoop, WalBuffer.fresh,
    logBytes, Logged.bytes, Change.op, Change.key, Change.value, walLogLocked, timed, walHead]
    at size

end KuttiDB.Log
