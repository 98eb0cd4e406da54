/- # KuttiDB.Stream.CompactionLimit -- the size of a checkpoint and the limit that asks for one

A call rewrites the log when the log is longer than `compact_limit`, which is computed from the
counter of live bytes. The counter stands for the declarations, identities, records and group offsets
a checkpoint holds; the boundaries of trimmed partitions are in the checkpoint but not in the counter.
`checkpointBytes_eq` is the exact size; a checkpoint is within the limit exactly when its boundaries
are covered by what the factor two leaves over (`Covered`), or the whole is below the floor.

Many topics with trimmed partitions and few records break the limit: then every call rewrites the log
(`checkpoint_still_due`).
-/
import KuttiDB.Stream.LiveBytes
import KuttiDB.Stream.LogGrowth

namespace KuttiDB.Stream

open KuttiDB.QueueStore (Bytes u64)
open KuttiDB.Theory

set_option autoImplicit false

def streamCompactFloor : Nat := 2 ^ 20

def compactLimit (live : Nat) : Nat :=
  if live * 2 + 65536 > streamCompactFloor then live * 2 + 65536 else streamCompactFloor

/-- The bytes of a record in the file: a header of 9 and the body. -/
def recordWal (r : LogRecord) : Nat := 9 + r.len

/-- `wal_bytes`. -/
def walBytes (log : List LogRecord) : Nat := (log.map recordWal).sum

/-- The test of `compact_maybe_locked`. -/
def compactionDue (log : List LogRecord) (live : Nat) : Bool := walBytes log > compactLimit live

theorem walBytes_append (xs ys : List LogRecord) : walBytes (xs ++ ys) = walBytes xs + walBytes ys := by
  rw [walBytes, List.map_append, List.sum_append]
  rfl

theorem walBytes_flatMap {α : Type} (f : α → List LogRecord) : ∀ xs : List α,
    walBytes (xs.flatMap f) = (xs.map (fun x => walBytes (f x))).sum
  | [] => rfl
  | x :: xs => by
    rw [List.flatMap_cons, walBytes_append, walBytes_flatMap f xs, List.map_cons, List.sum_cons]

/-! ## The size of a checkpoint -/

/-- What the boundaries of a topic's trimmed partitions take. -/
def boundaryBytes (t : StreamTopic) : Nat :=
  (t.parts.filter (fun x => x.base ≠ 0)).length * (23 + t.name.length)

def groupsLive (t : StreamTopic) : Nat := (t.groups.map (fun g => groupLive t g.name)).sum

theorem sum_zipIdx {α : Type} (weight : α → Nat) : ∀ (xs : List α) (n : Nat),
    ((xs.zipIdx n).map (fun x => weight x.1)).sum = (xs.map weight).sum
  | [], _ => rfl
  | x :: xs, n => by
    rw [List.zipIdx_cons, List.map_cons, List.map_cons, List.sum_cons, List.sum_cons,
      sum_zipIdx weight xs]

theorem recordWal_append (name : Bytes) (p : Nat) (r : StreamRecord) :
    recordWal (.append name ⟨p, r⟩) = recordLive name r := by
  simp only [recordWal, LogRecord.len, recordLive, recordBytes]
  split
  · rename_i none_
    rw [none_, List.length_nil]
    omega
  · omega

theorem walBytes_partRecords (name : Bytes) (p : Nat) (x : StreamPart) :
    walBytes (partRecords name p x) =
      (if x.base = 0 then 0 else 23 + name.length) + chainLive name x.chain := by
  have records : walBytes (x.chain.map (fun r => .append name ⟨p, r⟩)) = chainLive name x.chain := by
    rw [walBytes, List.map_map, chainLive]
    congr 1
    exact List.map_congr_left (fun r _ => recordWal_append name p r)
  rw [partRecords, walBytes_append, records]
  congr 1
  split
  · rfl
  · simp only [walBytes, recordWal, LogRecord.len, List.map_cons, List.map_nil, List.sum_cons,
      List.sum_nil]
    omega

theorem sum_boundaries (width : Nat) : ∀ parts : List StreamPart,
    (parts.map (fun x => if x.base = 0 then 0 else width)).sum =
      (parts.filter (fun x => x.base ≠ 0)).length * width
  | [] => by simp
  | x :: parts => by
    have later := sum_boundaries width parts
    rw [List.map_cons, List.sum_cons, later]
    by_cases zero : x.base = 0
    · rw [if_pos zero, List.filter_cons_of_neg (by simp [zero])]
      omega
    · rw [if_neg zero, List.filter_cons_of_pos (by simp [zero]), List.length_cons, Nat.add_mul]
      omega

theorem walBytes_parts (t : StreamTopic) :
    walBytes (t.parts.zipIdx.flatMap (fun (x, p) => partRecords t.name p x)) =
      boundaryBytes t + partsLive t := by
  rw [walBytes_flatMap]
  have each : t.parts.zipIdx.map (fun x : StreamPart × Nat => walBytes (partRecords t.name x.2 x.1)) =
      t.parts.zipIdx.map (fun x => (if x.1.base = 0 then 0 else 23 + t.name.length) +
        chainLive t.name x.1.chain) :=
    List.map_congr_left (fun x _ => walBytes_partRecords t.name x.2 x.1)
  change (t.parts.zipIdx.map (fun x : StreamPart × Nat =>
    walBytes (partRecords t.name x.2 x.1))).sum = _
  rw [each, sum_zipIdx (fun x : StreamPart => (if x.base = 0 then 0 else 23 + t.name.length) +
    chainLive t.name x.chain), List.sum_map_add, sum_boundaries]
  rfl

theorem walBytes_groupRecords {t : StreamTopic} {g : StreamGroup}
    (fits : g.offsets.length = t.partitions) :
    walBytes (groupRecords t.name g) = groupLive t g.name := by
  have each : (groupRecords t.name g).map recordWal =
      g.offsets.zipIdx.map (fun _ => 25 + t.name.length + g.name.length) := by
    rw [groupRecords, List.map_map]
    refine List.map_congr_left fun x _ => ?_
    simp only [Function.comp, recordWal, LogRecord.len]
    omega
  rw [walBytes, each, List.map_const', List.sum_replicate, List.length_zipIdx, fits, groupLive]
  rfl

/-- What a checkpoint writes for one topic. -/
theorem walBytes_topicRecords {t : StreamTopic} (tallied : t.Tallied) :
    walBytes (topicRecords t) =
      77 + 3 * t.name.length + boundaryBytes t + partsLive t + groupsLive t := by
  have groups : walBytes (t.groups.flatMap (groupRecords t.name)) = groupsLive t := by
    rw [walBytes_flatMap, groupsLive]
    congr 1
    exact List.map_congr_left (fun g mem => walBytes_groupRecords (tallied.groups g mem))
  rw [topicRecords, walBytes_append, walBytes_append, walBytes_append, walBytes_parts, groups]
  simp only [walBytes, recordWal, LogRecord.len, List.map_cons, List.map_nil, List.sum_cons,
    List.sum_nil]
  omega

theorem topicLive_persisted {t : StreamTopic} (persisted : t.idPersisted = true) :
    topicLive t = 40 + 2 * t.name.length + partsLive t + groupsLive t := by
  rw [topicLive, if_pos persisted, identityLive, groupsLive]
  omega

def totalOf (weight : StreamTopic → Nat) (topics : List StreamTopic) : Nat :=
  (topics.map weight).sum

theorem totalOf_congr {f g : StreamTopic → Nat} {topics : List StreamTopic}
    (same : ∀ t ∈ topics, f t = g t) : totalOf f topics = totalOf g topics := by
  rw [totalOf, List.map_congr_left same]
  rfl

theorem totalOf_add (f g : StreamTopic → Nat) (topics : List StreamTopic) :
    totalOf (fun t => f t + g t) topics = totalOf f topics + totalOf g topics :=
  List.sum_map_add

/-- What the records and group offsets of a topic take, in the log and in the counter. -/
def contentLive (t : StreamTopic) : Nat := partsLive t + groupsLive t

theorem checkpointBytes_eq {topics : List StreamTopic} (tallied : ∀ t ∈ topics, t.Tallied) :
    walBytes (compactRecords topics) = totalOf (fun t => 77 + 3 * t.name.length) topics
      + totalOf boundaryBytes topics + totalOf contentLive topics := by
  rw [compactRecords, walBytes_flatMap, ← totalOf_add, ← totalOf_add]
  refine congrArg List.sum (List.map_congr_left fun t mem => ?_)
  rw [walBytes_topicRecords (tallied t mem), contentLive]
  omega

theorem recountLive_eq {topics : List StreamTopic}
    (persisted : ∀ t ∈ topics, t.idPersisted = true) :
    recountLive topics = totalOf (fun t => 40 + 2 * t.name.length) topics
      + totalOf contentLive topics := by
  rw [recountLive, ← totalOf_add]
  refine congrArg List.sum (List.map_congr_left fun t mem => ?_)
  rw [topicLive_persisted (persisted t mem), contentLive]
  omega

/-- The boundaries are covered by the second copy of the records, groups and names, or the whole
checkpoint is below the floor. -/
def Covered (topics : List StreamTopic) : Prop :=
  totalOf boundaryBytes topics ≤
      totalOf (fun t => 3 + t.name.length) topics + totalOf contentLive topics + 65536 ∨
    totalOf (fun t => 77 + 3 * t.name.length) topics + totalOf boundaryBytes topics
      + totalOf contentLive topics ≤ streamCompactFloor

/-- Right after a checkpoint another one is due exactly where the boundaries are not covered. -/
theorem checkpoint_due {topics : List StreamTopic} {live : Nat} (settled : Settled False topics live) :
    compactionDue (compactRecords topics) live = false ↔ Covered topics := by
  have size := checkpointBytes_eq settled.tallied
  have counter := settled.live.trans
    (recountLive_eq (fun t mem => (settled.identity t mem).resolve_right id))
  -- the fixed parts of a topic: 77 + 3 len in the log, 40 + 2 len in the counter
  have fixed : totalOf (fun t => 77 + 3 * t.name.length) topics
      + totalOf (fun t => 3 + t.name.length) topics
        = 2 * totalOf (fun t => 40 + 2 * t.name.length) topics := by
    rw [← totalOf_add, Nat.two_mul, ← totalOf_add]
    refine totalOf_congr fun t _ => ?_
    omega
  rw [compactionDue, decide_eq_false_iff_not, Nat.not_lt, compactLimit, size, counter, Covered]
  split <;> omega

/-! ## Until records are written -/

/-- No record stands at the last offset. There the retention loops of the source do not end. -/
def OffsetsFree (t : StreamTopic) : Prop := ∀ x ∈ t.parts, ∀ r ∈ x.chain, bump r.offset ≠ 0

/-- A retention pass with nothing to log has trimmed nothing. -/
theorem enforce_untouched {now : Nat} {t : StreamTopic} (free : OffsetsFree t)
    (none_ : (enforce now t).2 = []) : (enforce now t).1 = t := by
  have pass := enforce_rule (P := fun u touched => OffsetsFree u ∧ (touched = [] → u = t))
    (fun u touched p r holds inside head => ?_) now ⟨free, fun _ => rfl⟩
  · exact pass.2 none_
  · have mem : u.part p ∈ u.parts := StreamTopic.part_mem inside
    refine ⟨holds.1 _ mem r (List.mem_of_mem_head? head), fun x member q chained => ?_, fun empty => ?_⟩
    · rcases List.mem_or_eq_of_mem_set member with old | rfl
      · exact holds.1 x old q chained
      · exact holds.1 _ mem q ((List.dropWhile_suffix _).mem chained)
    · unfold touch at empty
      split at empty
      · rename_i seen
        have length := congrArg List.length empty
        rw [length_updateFirst] at length
        rw [List.length_eq_zero_iff.mp length] at seen
        cases seen
      · simp at empty

/-- Every topic has the partitions some topic had before. -/
def PartsFrom (before after : List StreamTopic) : Prop :=
  ∀ u ∈ after, ∃ t ∈ before, u.parts = t.parts

theorem PartsFrom.refl (topics : List StreamTopic) : PartsFrom topics topics :=
  fun u mem => ⟨u, mem, rfl⟩

theorem PartsFrom.trans {xs ys zs : List StreamTopic} (first : PartsFrom xs ys)
    (second : PartsFrom ys zs) : PartsFrom xs zs := by
  intro u mem
  obtain ⟨t, old, same⟩ := second u mem
  obtain ⟨t', older, same'⟩ := first t old
  exact ⟨t', older, same.trans same'⟩

theorem PartsFrom.free {xs ys : List StreamTopic} (kept : PartsFrom xs ys)
    (free : ∀ t ∈ xs, OffsetsFree t) : ∀ t ∈ ys, OffsetsFree t := by
  intro u mem x member
  obtain ⟨t, old, same⟩ := kept u mem
  exact free t old x (same ▸ member)

theorem PartsFrom.set {topics : List StreamTopic} {name : Bytes} {t u : StreamTopic}
    (found : findTopic topics name = some t) (same : u.parts = t.parts) :
    PartsFrom topics (setTopic topics u) := by
  intro v mem
  rcases mem_setTopic mem with rfl | old
  · exact ⟨t, (findTopic_some found).1, same⟩
  · exact ⟨v, old, rfl⟩

section Quiet

variable {c : Call} {start : List StreamTopic} {s s' : StreamStore}

theorem logEach_same {records : List LogRecord} (logged : logEach s records = (s', true))
    (same : s'.log = s.log) : records = [] := by
  have length := congrArg List.length ((logEach_true logged).1.symm.trans same)
  rw [List.length_append] at length
  exact List.length_eq_zero_iff.mp (by omega)

theorem Change.extends (change : Change c start s s') (free : c.compaction = .notDue) :
    s.log <+: s'.log := by
  cases change with
  | compacted due => cases free.symm.trans due
  | broken due => exact List.prefix_refl _
  | edited _ _ _ logged => exact (congrArg (·.1.log) logged) ▸ logEach_extends _ s
  | refused logged => exact (congrArg (·.1.log) logged) ▸ logEach_extends _ s
  | unlogged _ _ _ logged => exact (congrArg (·.1.log) logged) ▸ logEach_extends _ s
  | declared _ _ _ _ _ logged => exact (congrArg (·.1.log) logged) ▸ logEach_extends _ s
  | dropped _ _ _ logged => exact (congrArg (·.1.log) logged) ▸ logEach_extends _ s
  | regrouped => exact List.prefix_refl _

/-- A change that logs nothing, in a store that has not failed, leaves the partitions alone. -/
theorem Change.quiet (change : Change c start s s') (free : c.compaction = .notDue)
    (same : s'.log = s.log) (running : s'.failed = false)
    (offsets : ∀ t ∈ s.topics, OffsetsFree t) : PartsFrom s.topics s'.topics := by
  cases change with
  | compacted due => cases free.symm.trans due
  | broken due => cases free.symm.trans due
  | edited named found edit logged =>
    have none_ := logEach_same logged same
    refine PartsFrom.set found ?_
    cases edit with
    | link | batch | trim | retention => cases none_
    | enforce =>
      have nothing : (enforce _ _).2 = [] := List.map_eq_nil_iff.mp none_
      rw [enforce_untouched (offsets _ (findTopic_some found).1) nothing]
    | commit => rfl
    | members regrouped => rw [regrouped.rest]
  | refused logged => cases (logEach_false logged).symm.trans running
  | unlogged _ _ _ logged => cases (logEach_false logged).symm.trans running
  | @declared _ _ _ _ _ _ ok _ _ _ _ _ logged =>
    cases ok with
    | true => cases logEach_same logged same
    | false => cases (logEach_false logged).symm.trans running
  | dropped _ _ _ logged => cases logEach_same logged same
  | regrouped keeps =>
    intro u mem
    obtain ⟨t, old, rfl⟩ := List.mem_map.mp mem
    exact ⟨t, old, rfl⟩

theorem Changes.quiet (changes : Changes c start s s') (free : c.compaction = .notDue)
    (same : s'.log = s.log) (running : s'.failed = false)
    (offsets : ∀ t ∈ s.topics, OffsetsFree t) : PartsFrom s.topics s'.topics := by
  have grown : ∀ {x : StreamStore}, Changes c start s x → s.log <+: x.log := by
    intro x before
    induction before with
    | refl => exact List.prefix_refl _
    | tail _ change ih => exact ih.trans (change.extends free)
  induction changes with
  | refl => exact PartsFrom.refl _
  | @tail mid last before change ih =>
    have middle : mid.log = s.log :=
      ((grown before).eq_of_length_le (same ▸ (change.extends free).length_le)).symm
    have up : mid.failed = false := by
      cases down : mid.failed with
      | false => rfl
      | true => cases (change.failed down).symm.trans running
    have first := ih middle up
    exact first.trans (change.quiet free (same.trans middle.symm) running (first.free offsets))

end Quiet

/-- A call that gets past the compaction check without rewriting the log, writes no record and does
not leave the store failed. -/
structure Quiet (s : StreamStore) (made : Call) : Prop where
  unrewritten : made.compaction = .notDue
  log : (made.run s).1.log = s.log
  running : (made.run s).1.failed = false

section QuietCalls

variable {s : StreamStore} {live : Nat}

/-- The counter and the topics stay, where the file does. -/
def Stays (s : StreamStore) (live : Nat) (result : StreamStore × Int) (counter : Nat) : Prop :=
  result.1.log = s.log → result.1.failed = false → result.1.topics = s.topics ∧ counter = live

theorem stays_refused (code : Int) : Stays s live (s, code) live := fun _ _ => ⟨rfl, rfl⟩

/-- A call that logs first: it has written a record, or the store has failed. -/
theorem stays_logged (records : List LogRecord) (some_ : records ≠ []) {result : StreamStore × Int}
    {counter : Nat} (failing : ∀ s', logEach s records = (s', false) → result.1.failed = true)
    (written : ∀ s', logEach s records = (s', true) → s'.log <+: result.1.log) :
    Stays s live result counter := by
  intro same running
  rcases logged : logEach s records with ⟨s', ok⟩
  cases ok with
  | false => cases (failing s' logged).symm.trans running
  | true =>
    have grown := (written s' logged).length_le
    rw [same, (logEach_true logged).1, List.length_append] at grown
    have positive := List.length_pos_iff.mpr some_
    omega

theorem stays_logThenApply {records : List LogRecord} (some_ : records ≠ []) (u : StreamTopic)
    (counter : Nat) : Stays s live (logThenApply s records u) counter := by
  refine stays_logged records some_ (fun s' logged => ?_) (fun s' logged => ?_)
  · rw [logThenApply, logged]
    exact logEach_false logged
  · rewrite [logThenApply, logged]
    exact List.prefix_refl _

theorem stays_thenEnforce {records : List LogRecord} (some_ : records ≠ []) (u : StreamTopic)
    (now counter : Nat) : Stays s live (match logThenApply s records u with
      | (s', 0) => enforceAndLog s' now u
      | failed => failed) counter := by
  refine stays_logged records some_ (fun s' logged => ?_) (fun s' logged => ?_)
  · rw [logThenApply, logged]
    exact logEach_false logged
  · rw [logThenApply, logged]
    have more := enforceAndLog_extends { s' with topics := setTopic s'.topics u } now u
    exact more

theorem stays_guarded {call : StreamStore → StreamStore × Int} {counter : StreamStore → Nat}
    (passed : Stays s live (call s) (counter s)) :
    Stays s live (guarded s .notDue call) (guardedLive s .notDue live counter) := by
  rw [guarded, guardedLive]
  split
  · exact stays_refused _
  · exact passed

theorem stays_declare (fresh : StreamId) (name : Bytes) (partitions maxBytes maxAgeMs : Nat) :
    Stays s live (streamDeclare s .notDue fresh name partitions maxBytes maxAgeMs)
      (declareLive s live .notDue fresh name partitions maxBytes maxAgeMs) := by
  refine stays_guarded ?_
  cases addTopic s.topics name partitions maxBytes maxAgeMs fresh with
  | none => exact stays_refused _
  | some added =>
    simp only
    cases (findTopic s.topics name).isSome with
    | true => exact stays_refused _
    | false =>
      have memory := logEach_memory added [.declare name partitions maxBytes maxAgeMs,
        .identity name fresh] s
      refine stays_logged [.declare name partitions maxBytes maxAgeMs, .identity name fresh]
        (by simp) (fun s' logged => ?_) (fun s' logged => ?_)
      · rw [logged] at memory
        rw [memory]
        have broke := logEach_false logged
        exact broke
      · rw [logged] at memory
        rewrite [memory]
        exact List.prefix_refl _

theorem stays_append (now enforceNow : Nat) (name : Bytes) (hint : Nat) (input : AppendInput) :
    Stays s live (streamAppend s .notDue now enforceNow name hint input)
      (appendLive s live .notDue now enforceNow name hint input) := by
  rw [streamAppend, appendLive]
  split
  · exact stays_refused _
  refine stays_guarded ?_
  cases findTopic s.topics name with
  | none => exact stays_refused _
  | some t =>
    simp only
    split
    · exact stays_refused _
    · exact stays_thenEnforce (by simp) _ _ _

theorem stays_appendBatch (now enforceNow : Nat) (name : Bytes) (hint : Nat)
    (inputs : List AppendInput) :
    Stays s live (streamAppendBatch s .notDue now enforceNow name hint inputs)
      (appendBatchLive s live .notDue now enforceNow name hint inputs) := by
  rw [streamAppendBatch, appendBatchLive]
  split
  · exact stays_refused _
  refine stays_guarded ?_
  cases findTopic s.topics name with
  | none => exact stays_refused _
  | some t =>
    simp only
    cases batchItems t hint now (t.parts.map (·.next)) inputs with
    | none => exact stays_refused _
    | some items =>
      simp only
      split
      · exact stays_refused _
      · exact stays_thenEnforce (by simp) _ _ _

theorem stays_truncate (name : Bytes) (p base expected : Nat) :
    Stays s live (streamTruncateIfRevision s .notDue name p base expected)
      (truncateLive s live .notDue name p base expected) := by
  refine stays_guarded ?_
  cases findTopic s.topics name with
  | none => exact stays_refused _
  | some t =>
    simp only
    split
    · exact stays_refused _
    · split
      · exact stays_refused _
      · split
        · exact stays_refused _
        · exact stays_logThenApply (by simp) _ _

theorem stays_setRetention (now : Nat) (name : Bytes) (maxBytes maxAgeMs expected : Nat) :
    Stays s live (streamSetRetentionIfRevision s .notDue now name maxBytes maxAgeMs expected)
      (setRetentionLive s live .notDue now name maxBytes maxAgeMs expected) := by
  rw [streamSetRetentionIfRevision, setRetentionLive]
  split
  · exact stays_refused _
  refine stays_guarded ?_
  cases findTopic s.topics name with
  | none => exact stays_refused _
  | some t =>
    simp only
    split
    · exact stays_refused _
    · exact stays_thenEnforce (by simp) _ _ _

theorem stays_delete (name : Bytes) (expected : Nat) :
    Stays s live (streamDeleteIfRevision s .notDue name expected)
      (deleteLive s live .notDue name expected) := by
  rw [streamDeleteIfRevision, deleteLive]
  split
  · exact stays_refused _
  refine stays_guarded ?_
  cases findTopic s.topics name with
  | none => exact stays_refused _
  | some t =>
    simp only
    split
    · exact stays_refused _
    · refine stays_logged [.delete name] (by simp) (fun s' logged => ?_) (fun s' logged => ?_)
      · rw [logged]
        exact logEach_false logged
      · rewrite [logged]
        exact List.prefix_refl _

theorem ensureGroupLive_ge (t : StreamTopic) (group : Bytes) (live : Nat) :
    live ≤ ensureGroupLive t group live := by
  rw [ensureGroupLive]
  split <;> omega

theorem guardedLive_ge {compaction : Compaction} {counter : StreamStore → Nat}
    (passed : ∀ s₁, live ≤ counter s₁) : live ≤ guardedLive s compaction live counter := by
  rw [guardedLive]
  split
  · exact Nat.le_refl _
  · cases compaction with
    | notDue | done => exact passed _
    | failed => exact Nat.le_refl _

/-- A quiet retention pass leaves the topic's share. -/
theorem quiet_fetchMetadata {down : Prop} (settled : Settled down s.topics live)
    (offsets : ∀ t ∈ s.topics, OffsetsFree t) (now : Nat) (name : Bytes) (p : Nat)
    (same : (streamFetchMetadata s now name p).1.log = s.log)
    (running : (streamFetchMetadata s now name p).1.failed = false) :
    live ≤ fetchMetadataLive s live now name p := by
  revert same running
  rw [streamFetchMetadata, fetchMetadataLive]
  cases found : findTopic s.topics name with
  | none => exact fun _ _ => Nat.le_refl _
  | some t =>
    simp only
    split
    · exact fun _ _ => Nat.le_refl _
    · intro same running
      have passed : (enforceAndLog s now t).1.log = s.log ∧ (enforceAndLog s now t).1.failed = false := by
        split at same
        · rename_i s' result
          rw [result] at running ⊢
          exact ⟨same, running⟩
        · rename_i other
          split at running
          · rename_i s' result
            exact absurd result (other s')
          · exact ⟨same, running⟩
      obtain ⟨same, running⟩ := passed
      have quiet : (enforce now t).2 = [] := by
        have memory := logEach_memory (setTopic s.topics (enforce now t).1)
          (trimRecords t.name (enforce now t).2) s
        rcases logged : logEach s (trimRecords t.name (enforce now t).2) with ⟨s', ok⟩
        rw [logged] at memory
        rw [enforceAndLog, applyThenLog, memory] at same running
        cases ok with
        | true => exact List.map_eq_nil_iff.mp (logEach_same logged same)
        | false => cases (logEach_false logged).symm.trans running
      have pays : Pays t (enforce now t).1 live _ := pays_enforce now (settled.found found)
      have others := sum_eraseP topicLive found
      have paid := pays.paid _ (settled.live.trans others.symm)
      rw [enforce_untouched (offsets t (findTopic_some found).1) quiet] at paid
      have before := settled.live
      rw [recountLive] at before
      omega

/-- A call that writes nothing does not lower the counter. -/
theorem quiet_live {down : Prop} (settled : Settled down s.topics live)
    (offsets : ∀ t ∈ s.topics, OffsetsFree t) {made : Call} (quiet : Quiet s made) :
    live ≤ made.live s live := by
  obtain ⟨unrewritten, log, running⟩ := quiet
  cases made with
  | declare => cases unrewritten; exact (stays_declare _ _ _ _ _ log running).2.ge
  | append => cases unrewritten; exact (stays_append _ _ _ _ _ log running).2.ge
  | appendBatch => cases unrewritten; exact (stays_appendBatch _ _ _ _ _ log running).2.ge
  | truncate => cases unrewritten; exact (stays_truncate _ _ _ _ log running).2.ge
  | setRetention => cases unrewritten; exact (stays_setRetention _ _ _ _ _ log running).2.ge
  | delete => cases unrewritten; exact (stays_delete _ _ log running).2.ge
  | fetchMetadata => exact quiet_fetchMetadata settled offsets _ _ _ log running
  | commit =>
    change live ≤ commitLive ..
    rw [commitLive]
    split
    · exact Nat.le_refl _
    · refine guardedLive_ge fun s₁ => ?_
      split
      · exact Nat.le_refl _
      · split
        · exact Nat.le_refl _
        · exact ensureGroupLive_ge ..
  | commitBatchForOwner =>
    change live ≤ commitBatchForOwnerLive ..
    rw [commitBatchForOwnerLive]
    split
    · exact Nat.le_refl _
    · refine guardedLive_ge fun s₁ => ?_
      split
      · split
        · exact Nat.le_refl _
        · exact ensureGroupLive_ge ..
      · exact Nat.le_refl _
  | join =>
    change live ≤ joinLive ..
    rw [joinLive]
    split
    · exact Nat.le_refl _
    · split
      · exact Nat.le_refl _
      · exact ensureGroupLive_ge ..
  | commitIfGeneration | commitBatchIfGeneration | resetOffsets | commitForOwner
  | commitForOwnerIfGeneration | leaveMember | leaveOwner | reap | checkpointMaybe =>
    exact Nat.le_refl _

theorem quiet_offsets (offsets : ∀ t ∈ s.topics, OffsetsFree t) {made : Call}
    (quiet : Quiet s made) : ∀ t ∈ (made.run s).1.topics, OffsetsFree t := by
  obtain ⟨unrewritten, log, running⟩ := quiet
  by_cases fits : made.fits s.topics = true
  · exact ((changes_run s made fits).quiet unrewritten log running offsets).free offsets
  · cases made with
    | append compaction now enforceNow name hint input =>
      cases unrewritten
      have stays : Stays s 0 _ _ := stays_append now enforceNow name hint input
      exact (stays log running).1 ▸ offsets
    | appendBatch compaction now enforceNow name hint inputs =>
      cases unrewritten
      have stays : Stays s 0 _ _ := stays_appendBatch now enforceNow name hint inputs
      exact (stays log running).1 ▸ offsets
    | _ => exact absurd rfl fits

end QuietCalls

/-- Every call is quiet in the state it finds. -/
def quietRun : StreamStore → List Call → Prop
  | _, [] => True
  | s, made :: rest => Quiet s made ∧ quietRun (made.run s).1 rest

theorem quietRun_live (fresh : Bytes → StreamId) : ∀ {calls : List Call} {s : StreamStore} {live : Nat},
    Settled (s.failed = true) s.topics live → (∀ t ∈ s.topics, OffsetsFree t) → quietRun s calls →
      (runFile fresh s (calls.map .call)).log = s.log ∧
        live ≤ runLive fresh s live (calls.map .call)
  | [], _, _, _, _, _ => ⟨rfl, Nat.le_refl _⟩
  | made :: rest, s, live, settled, offsets, quiet => by
    have here := settled_step fresh settled (.call made)
    obtain ⟨log, more⟩ := quietRun_live fresh here (quiet_offsets offsets quiet.1) quiet.2
    exact ⟨log.trans quiet.1.log, (quiet_live settled offsets quiet.1).trans more⟩

theorem compactLimit_mono {a b : Nat} (le : a ≤ b) : compactLimit a ≤ compactLimit b := by
  unfold compactLimit
  split <;> split <;> omega

/-- A store with its counter, as some run from an opened file leaves them. -/
def ReachesLive (fresh : Bytes → StreamId) (s : StreamStore) (live : Nat) : Prop :=
  ∃ (now : Nat) (file : List LogRecord) (steps : List FileStep),
    s = runFile fresh (openLog fresh now file) steps ∧
      live = runLive fresh (openLog fresh now file) (openLive fresh now file) steps

/-- Right after a successful compaction no other one is due exactly where the boundaries are covered;
and then none becomes due until a record is written. -/
theorem compaction_within_limit (fresh : Bytes → StreamId) (s : StreamStore) (live : Nat)
    (reached : ReachesLive fresh s live) (running : s.failed = false) :
    (compactionDue (compactRecords s.topics) live = false ↔ Covered s.topics) ∧
      (Covered s.topics → (∀ t ∈ s.topics, OffsetsFree t) → ∀ calls : List Call,
        quietRun { s with log := compactRecords s.topics } calls →
          compactionDue
            (runFile fresh { s with log := compactRecords s.topics } (calls.map .call)).log
            (runLive fresh { s with log := compactRecords s.topics } live (calls.map .call))
              = false) := by
  obtain ⟨now, file, steps, rfl, rfl⟩ := reached
  have settled := settled_runFile fresh steps (settled_open fresh now file)
  have due := checkpoint_due (settled.weaken (fun failed => by rw [running] at failed; cases failed))
  refine ⟨due, fun covered offsets calls quiet => ?_⟩
  obtain ⟨log, more⟩ := quietRun_live fresh (s := { runFile fresh (openLog fresh now file) steps with
    log := compactRecords (runFile fresh (openLog fresh now file) steps).topics }) settled offsets quiet
  have within := due.mpr covered
  rw [compactionDue, decide_eq_false_iff_not, Nat.not_lt] at within ⊢
  rw [log]
  exact within.trans (compactLimit_mono more)

/-- Two partitions, three records of which the first of each is trimmed, and a group. -/
def trimmedRun : List FileStep :=
  [.call (.declare .notDue 7 [116] 2 0 0),
   .call (.append .notDue 10 10 [116] 0 ⟨[], [1]⟩), .call (.append .notDue 11 11 [116] 0 ⟨[], [2, 3]⟩),
   .call (.append .notDue 12 12 [116] 1 ⟨[], [4]⟩), .call (.commit .notDue [116] [103] 0 1),
   .call (.truncate .notDue [116] 0 1 4), .call (.truncate .notDue [116] 1 1 5)]

/-- A member joins, reads and leaves. -/
def readingCalls : List Call :=
  [.join 20 [116] [103] 1 500, .fetchMetadata 21 [116] 0, .checkpointMaybe .notDue,
   .leaveMember [116] [103] 1]

/-- Both partitions are trimmed, the group has an offset, and no compaction is due right
after the checkpoint or after the reading. -/
theorem trimmedRun_within_limit :
    let s := runFile (fun _ => 0) .fresh trimmedRun
    let live := runLive (fun _ => 0) .fresh 0 trimmedRun
    let rewritten := { s with log := compactRecords s.topics }
    s.topics.map (fun t => (t.parts.map (·.base), t.groups.map (·.offsets))) = [([1, 1], [[1, 0]])] ∧
      compactionDue rewritten.log live = false ∧
      compactionDue (runFile (fun _ => 0) rewritten (readingCalls.map .call)).log
        (runLive (fun _ => 0) rewritten live (readingCalls.map .call)) = false := by
  intro s live rewritten
  have covered : Covered s.topics := Or.inl (by decide +kernel)
  have within := compaction_within_limit (fun _ => 0) s live ⟨0, [], trimmedRun, rfl, rfl⟩
    (by decide +kernel)
  refine ⟨by decide +kernel, within.1.mpr covered, within.2 covered ?_ _ ?_⟩
  · unfold OffsetsFree
    decide +kernel
  · exact ⟨⟨rfl, by decide +kernel, by decide +kernel⟩, ⟨rfl, by decide +kernel, by decide +kernel⟩,
      ⟨rfl, by decide +kernel, by decide +kernel⟩, ⟨rfl, by decide +kernel, by decide +kernel⟩, trivial⟩

/-! ## A run whose checkpoints stay due -/

/-- A call whose compaction is as the test says, where every checkpoint succeeds. -/
def checkedStep (found : StreamStore × Nat) (made : Compaction → Call) : StreamStore × Nat :=
  let call := made (if compactionDue found.1.log found.2 then .done else .notDue)
  ((call.run found.1).1, call.live found.1 found.2)

def checkedRun (found : StreamStore × Nat) (calls : List (Compaction → Call)) : StreamStore × Nat :=
  calls.foldl checkedStep found

theorem runLive_append (fresh : Bytes → StreamId) (later : List FileStep) :
    ∀ (steps : List FileStep) (s : StreamStore) (live : Nat),
    runLive fresh s live (steps ++ later)
      = runLive fresh (runFile fresh s steps) (runLive fresh s live steps) later
  | [], _, _ => rfl
  | step :: rest, s, live => runLive_append fresh later rest (step.run fresh s) (step.live fresh s live)

theorem checkedStep_reaches {fresh : Bytes → StreamId} {found : StreamStore × Nat}
    (reached : ReachesLive fresh found.1 found.2) (made : Compaction → Call) :
    ReachesLive fresh (checkedStep found made).1 (checkedStep found made).2 := by
  obtain ⟨now, file, steps, store, counter⟩ := reached
  refine ⟨now, file, steps ++
    [.call (made (if compactionDue found.1.log found.2 then .done else .notDue))], ?_, ?_⟩
  · rw [runFile, List.foldl_append]
    change _ = (Call.run (runFile fresh (openLog fresh now file) steps) _).1
    rw [← store]
    rfl
  · rw [runLive_append, ← store, ← counter]
    rfl

theorem checkedRun_reaches {fresh : Bytes → StreamId} : ∀ (calls : List (Compaction → Call))
    {found : StreamStore × Nat}, ReachesLive fresh found.1 found.2 →
      ReachesLive fresh (checkedRun found calls).1 (checkedRun found calls).2
  | [], _, reached => reached
  | made :: rest, _, reached => checkedRun_reaches rest (checkedStep_reaches reached made)

/-- A call behind the check runs on the log or on a new checkpoint. -/
theorem checkedStep_guarded {s : StreamStore} (running : s.failed = false) (live : Nat) {low : Nat}
    {made : Compaction → Call} {body : StreamStore → StreamStore × Int}
    (shape : ∀ c, (made c).run s = guarded s c body) (long : low ≤ walBytes s.log)
    (checkpoint : low ≤ walBytes (compactRecords s.topics)) :
    ∃ log, low ≤ walBytes log ∧ (checkedStep (s, live) made).1 = (body { s with log := log }).1 := by
  have running' : ¬ s.failed = true := by rw [running]; exact Bool.false_ne_true
  cases due : compactionDue s.log live with
  | true =>
    refine ⟨_, checkpoint, ?_⟩
    simp only [checkedStep, due, if_true, shape, guarded, if_neg running', compactMaybeLocked]
  | false =>
    refine ⟨_, long, ?_⟩
    simp only [checkedStep, due, Bool.false_eq_true, if_false, shape, guarded, if_neg running',
      compactMaybeLocked]

/-- The names of the run: two bytes each. -/
def shortName (k : Nat) : Bytes := [UInt8.ofNat (k / 256), UInt8.ofNat k]

theorem shortName_injective {j k : Nat} (small : j < 65536) (small' : k < 65536)
    (same : shortName j = shortName k) : j = k := by
  simp only [shortName, List.cons.injEq, and_true] at same
  have high := congrArg UInt8.toNat same.1
  have low := congrArg UInt8.toNat same.2
  simp only [UInt8.toNat_ofNat'] at high low
  omega

/-- A topic as it is declared, with its record, and with the record truncated away. -/
def bareTopic (name : Bytes) : StreamTopic := { newTopic name 1 0 0 0 with idPersisted := true }

def heldTopic (name : Bytes) : StreamTopic := partLink (bareTopic name) 0 ⟨0, 0, [], []⟩

def spentTopic (name : Bytes) : StreamTopic := trimPart (heldTopic name) 0 1

def spendTopic (name : Bytes) : List (Compaction → Call) :=
  [(.declare · 0 name 1 0 0), (.append · 0 0 name 0 ⟨[], []⟩), (.truncate · name 0 1 2)]

def spentTopics : Nat → List StreamTopic
  | 0 => []
  | k + 1 => spentTopic (shortName k) :: spentTopics k

def spendTopics : Nat → List (Compaction → Call)
  | 0 => []
  | k + 1 => spendTopics k ++ spendTopic (shortName k)

theorem mem_spentTopics {t : StreamTopic} : ∀ {n : Nat}, t ∈ spentTopics n →
    ∃ k < n, t = spentTopic (shortName k)
  | n + 1, mem => by
    rcases List.mem_cons.mp mem with here | there
    · exact ⟨n, Nat.lt_succ_self n, here⟩
    · obtain ⟨k, below, eq⟩ := mem_spentTopics there
      exact ⟨k, Nat.lt_succ_of_lt below, eq⟩

theorem shortName_free {n : Nat} (small : n < 65536) :
    findTopic (spentTopics n) (shortName n) = none := by
  cases found : findTopic (spentTopics n) (shortName n) with
  | none => rfl
  | some t =>
    obtain ⟨mem, named⟩ := findTopic_some found
    obtain ⟨k, below, rfl⟩ := mem_spentTopics mem
    have same : k = n := shortName_injective (by omega) small named
    omega

theorem totalOf_spent (weight : StreamTopic → Nat) {each : Nat}
    (share : ∀ k, weight (spentTopic (shortName k)) = each) : ∀ n : Nat,
    totalOf weight (spentTopics n) = n * each
  | 0 => (Nat.zero_mul _).symm
  | n + 1 => by
    have rest := totalOf_spent weight share n
    rw [totalOf] at rest ⊢
    rw [spentTopics, List.map_cons, List.sum_cons, rest, share, Nat.add_one_mul, Nat.add_comm]

/-- A checkpoint writes 83 bytes for a topic with a two-byte name, and 25 for its boundary. -/
theorem walBytes_spent (n : Nat) : walBytes (compactRecords (spentTopics n)) = n * 108 := by
  rw [compactRecords, walBytes_flatMap]
  exact totalOf_spent (fun t => walBytes (topicRecords t)) (fun k => rfl) n

theorem walBytes_current (t : StreamTopic) (n : Nat) :
    walBytes (compactRecords (t :: spentTopics n)) = walBytes (topicRecords t) + n * 108 := by
  rw [compactRecords, List.flatMap_cons, walBytes_append, ← walBytes_spent]
  rfl

/-- The state of the run: `first` is the topic it works on, `low` what the log has at least. -/
structure Spending (n : Nat) (first : List StreamTopic) (low : Nat) (s : StreamStore) : Prop where
  topics : s.topics = first ++ spentTopics n
  running : s.failed = false
  writing : s.writes = none
  long : low ≤ walBytes s.log

section Spending

variable {n low live : Nat} {s : StreamStore}

theorem findTopic_first (t : StreamTopic) (rest : List StreamTopic) :
    findTopic (t :: rest) t.name = some t := by
  simp [findTopic, lookup]

theorem setTopic_first {t u : StreamTopic} (named : u.name = t.name) (rest : List StreamTopic) :
    setTopic (t :: rest) u = u :: rest := by
  simp [setTopic, updateFirst, named]

/-- The records of a call, logged after the check, with the topics it leaves. -/
theorem Spending.write {n' low' : Nat} {first first' : List StreamTopic} {log records : List LogRecord}
    (spending : Spending n first low s) (long : low ≤ walBytes log)
    (more : low' ≤ low + walBytes records) :
    Spending n' first' low' { s with topics := first' ++ spentTopics n', log := log ++ records } where
  topics := rfl
  running := spending.running
  writing := spending.writing
  long := by
    change low' ≤ walBytes (log ++ records)
    rw [walBytes_append]
    omega

theorem spending_declare (small : n < 65536) (spending : Spending n [] (n * 106) s) :
    Spending n [bareTopic (shortName n)] (n * 106 + 44)
      (checkedStep (s, live) (.declare · 0 (shortName n) 1 0 0)).1 := by
  have checkpoint : n * 106 ≤ walBytes (compactRecords s.topics) := by
    rw [spending.topics, List.nil_append, walBytes_spent]
    omega
  have shape : ∀ c, (Call.declare c 0 (shortName n) 1 0 0).run s = guarded s c _ := fun c => rfl
  obtain ⟨log, long, result⟩ := checkedStep_guarded spending.running live shape spending.long checkpoint
  have added : addTopic s.topics (shortName n) 1 0 0 0
      = some (newTopic (shortName n) 1 0 0 0 :: spentTopics n) := by
    rw [spending.topics, List.nil_append, addTopic, if_neg (by simp [shortName, streamNameMax,
      streamPartitionsMax]), shortName_free small]
  have free : (findTopic s.topics (shortName n)).isSome = false := by
    rw [spending.topics, List.nil_append, shortName_free small]
    rfl
  simp only [added, free, Bool.false_eq_true, if_false] at result
  rw [logEach_ok (by exact spending.writing)] at result
  simp only [setTopic_first (show (bareTopic (shortName n)).name = (newTopic (shortName n) 1 0 0 0).name
    from rfl), show ({ newTopic (shortName n) 1 0 0 0 with idPersisted := true } : StreamTopic)
      = bareTopic (shortName n) from rfl] at result
  rw [result]
  refine spending.write long ?_
  simp [walBytes, recordWal, LogRecord.len, shortName]

theorem spending_append (spending : Spending n [bareTopic (shortName n)] (n * 106 + 44) s) :
    Spending n [heldTopic (shortName n)] (n * 106 + 81)
      (checkedStep (s, live) (.append · 0 0 (shortName n) 0 ⟨[], []⟩)).1 := by
  have checkpoint : n * 106 + 44 ≤ walBytes (compactRecords s.topics) := by
    rw [spending.topics, List.singleton_append, walBytes_current]
    change _ ≤ 83 + _
    omega
  have shape : ∀ c, (Call.append c 0 0 (shortName n) 0 ⟨[], []⟩).run s = guarded s c _ :=
    fun c => rfl
  obtain ⟨log, long, result⟩ := checkedStep_guarded spending.running live shape spending.long checkpoint
  have found : findTopic s.topics (shortName n) = some (bareTopic (shortName n)) := by
    rw [spending.topics]
    exact findTopic_first (bareTopic (shortName n)) _
  have hold : setTopic (bareTopic (shortName n) :: spentTopics n) (heldTopic (shortName n))
      = heldTopic (shortName n) :: spentTopics n :=
    setTopic_first (t := bareTopic (shortName n)) (u := heldTopic (shortName n)) rfl _
  have keep : setTopic (heldTopic (shortName n) :: spentTopics n) (heldTopic (shortName n))
      = heldTopic (shortName n) :: spentTopics n := setTopic_first rfl _
  have passed : enforce 0 (heldTopic (shortName n)) = (heldTopic (shortName n), []) := rfl
  have next : partLink (bareTopic (shortName n)) 0
      ⟨((bareTopic (shortName n)).part 0).next, 0, [], []⟩ = heldTopic (shortName n) := rfl
  have part : choosePart (bareTopic (shortName n)) 0 [] = 0 := rfl
  have inside : ¬ 0 ≥ (bareTopic (shortName n)).partitions := Nat.not_le.mpr Nat.zero_lt_one
  simp only [found, part, if_neg inside, next, logThenApply] at result
  rw [logEach_ok (by exact spending.writing)] at result
  simp only [enforceAndLog, applyThenLog, passed, trimRecords, List.map_nil, logEach] at result
  rw [spending.topics, List.singleton_append, hold, keep] at result
  rw [result]
  refine spending.write long ?_
  simp [walBytes, recordWal, LogRecord.len, shortName, recordBytes]

theorem spending_truncate (spending : Spending n [heldTopic (shortName n)] (n * 106 + 81) s) :
    Spending (n + 1) [] ((n + 1) * 106)
      (checkedStep (s, live) (.truncate · (shortName n) 0 1 2)).1 := by
  have checkpoint : n * 106 + 81 ≤ walBytes (compactRecords s.topics) := by
    rw [spending.topics, List.singleton_append, walBytes_current]
    change _ ≤ 120 + _
    omega
  have shape : ∀ c, (Call.truncate c (shortName n) 0 1 2).run s = guarded s c _ := fun c => rfl
  obtain ⟨log, long, result⟩ := checkedStep_guarded spending.running live shape spending.long checkpoint
  have found : findTopic s.topics (shortName n) = some (heldTopic (shortName n)) := by
    rw [spending.topics]
    exact findTopic_first (heldTopic (shortName n)) _
  have inside : ¬ 0 ≥ (heldTopic (shortName n)).partitions := Nat.not_le.mpr Nat.zero_lt_one
  have revision : ¬ (heldTopic (shortName n)).revision ≠ 2 := fun other => other rfl
  have within : ¬ (1 < ((heldTopic (shortName n)).part 0).base
      ∨ 1 > ((heldTopic (shortName n)).part 0).next) := by
    rintro (above | beyond)
    · exact absurd above (Nat.not_lt.mpr (Nat.zero_le 1))
    · exact absurd beyond (Nat.lt_irrefl 1)
  have spend : setTopic (heldTopic (shortName n) :: spentTopics n) (trimPart (heldTopic (shortName n)) 0 1)
      = spentTopics (n + 1) :=
    setTopic_first (t := heldTopic (shortName n)) (u := spentTopic (shortName n)) rfl _
  simp only [found, if_neg inside, if_neg revision, if_neg within, logThenApply] at result
  rw [logEach_ok (by exact spending.writing)] at result
  simp only [spending.topics, List.singleton_append, spend] at result
  rw [result]
  refine spending.write long ?_
  simp [walBytes, recordWal, LogRecord.len, shortName]
  omega

end Spending

theorem spending_topic {n : Nat} (small : n < 65536) {found : StreamStore × Nat}
    (spending : Spending n [] (n * 106) found.1) :
    Spending (n + 1) [] ((n + 1) * 106) (checkedRun found (spendTopic (shortName n))).1 :=
  spending_truncate (spending_append (spending_declare small spending))

theorem spending_topics : ∀ {n : Nat}, n ≤ 65536 →
    Spending n [] (n * 106) (checkedRun (.fresh, 0) (spendTopics n)).1
  | 0, _ => ⟨rfl, rfl, rfl, Nat.zero_le _⟩
  | n + 1, small => by
    rw [spendTopics, checkedRun, List.foldl_append]
    exact spending_topic small (spending_topics (Nat.le_of_succ_le small))

/-- From 10000 such topics on: the run has made a checkpoint due, the check makes it, and after it the
next one is due at once. -/
theorem spent_due {n : Nat} (enough : 10000 ≤ n) (small : n ≤ 65536) {found rewritten : StreamStore × Nat}
    (ran : found = checkedRun (.fresh, 0) (spendTopics n))
    (checked : rewritten = checkedStep found .checkpointMaybe) :
    ReachesLive (fun _ => 0) found.1 found.2 ∧ compactionDue found.1.log found.2 = true ∧
      rewritten.1.failed = false ∧ rewritten.1.log = compactRecords found.1.topics ∧
        compactionDue rewritten.1.log rewritten.2 = true := by
  have reached : ReachesLive (fun _ => 0) found.1 found.2 :=
    ran ▸ checkedRun_reaches _ ⟨0, [], [], rfl, rfl⟩
  have spending : Spending n [] (n * 106) found.1 := ran ▸ spending_topics small
  have counter : found.2 = n * 44 := by
    obtain ⟨now, file, steps, store, live⟩ := reached
    have settled := settled_runFile (fun _ => 0) steps (settled_open (fun _ => 0) now file)
    rw [← store, ← live] at settled
    rw [settled.live, spending.topics]
    exact totalOf_spent topicLive (fun k => rfl) n
  have limit : compactLimit found.2 < n * 106 := by
    rw [counter, compactLimit, streamCompactFloor]
    split <;> omega
  have due : compactionDue found.1.log found.2 = true := by
    rw [compactionDue, decide_eq_true_eq]
    exact Nat.lt_of_lt_of_le limit spending.long
  have running : ¬ found.1.failed = true := by rw [spending.running]; exact Bool.false_ne_true
  have written : rewritten = ({ found.1 with log := compactRecords found.1.topics }, found.2) := by
    rw [checked, checkedStep, due, if_pos rfl]
    simp only [Call.run, guarded, if_neg running, compactMaybeLocked, Call.live]
  have size : walBytes (compactRecords found.1.topics) = n * 108 := by
    rw [spending.topics]
    exact walBytes_spent n
  rw [written]
  refine ⟨reached, due, spending.running, rfl, ?_⟩
  rw [compactionDue, decide_eq_true_eq]
  dsimp only
  omega

/-- 16384 topics with two-byte names and one partition each, where one record was written and
truncated away. -/
theorem checkpoint_still_due :
    let found := checkedRun (.fresh, 0) (spendTopics 16384)
    let rewritten := checkedStep found .checkpointMaybe
    ReachesLive (fun _ => 0) found.1 found.2 ∧ compactionDue found.1.log found.2 = true ∧
      rewritten.1.failed = false ∧ rewritten.1.log = compactRecords found.1.topics ∧
        compactionDue rewritten.1.log rewritten.2 = true :=
  spent_due (by omega) (by omega) rfl rfl

end KuttiDB.Stream
