/- # KuttiDB.Stream.LiveBytes -- the incremental size estimate and its recount

The store keeps `live_bytes`, an estimate of what a checkpoint needs, up to date at the places where
topics, records, groups and identities come and go, and every topic counts its records. For each
function that does so the definition ending in `Live` says what becomes of the counter while the
function of the same name changes the topics; `Call.live` and `openLive` are the calls and the opening
of a log.

`Pays` compares the two for one topic: whatever the rest of the counter stands for, the topic's share
changes with it. It is shown once per function and carried to whole runs with failing writes and
reopenings (`settled_runFile`). Nothing here needs offsets to be in order.
-/
import KuttiDB.Stream.FailingRuns

namespace KuttiDB.Stream

open KuttiDB.QueueStore (Bytes u64)
open KuttiDB.Theory

set_option autoImplicit false

/-! ## The recount -/

def recordLive (name : Bytes) (r : StreamRecord) : Nat :=
  35 + name.length + r.body.length + (if r.key = [] then 0 else 2 + r.key.length)

def identityLive (name : Bytes) : Nat := 18 + name.length

def groupLive (t : StreamTopic) (group : Bytes) : Nat :=
  t.partitions * (25 + t.name.length + group.length)

def chainLive (name : Bytes) (chain : List StreamRecord) : Nat :=
  (chain.map (recordLive name)).sum

def partsLive (t : StreamTopic) : Nat := (t.parts.map (fun x => chainLive t.name x.chain)).sum

def topicLive (t : StreamTopic) : Nat :=
  22 + t.name.length + (if t.idPersisted then identityLive t.name else 0) + partsLive t
    + (t.groups.map (fun g => groupLive t g.name)).sum

def topicRecount (t : StreamTopic) : Nat := (t.parts.map (·.chain.length)).sum

/-- `stream_debug_recount`. -/
def recountLive (topics : List StreamTopic) : Nat := (topics.map topicLive).sum

def recountRecords (topics : List StreamTopic) : Nat := (topics.map topicRecount).sum

/-! ## The counter -/

def partLinkLive (t : StreamTopic) (r : StreamRecord) (live : Nat) : Nat :=
  live + recordLive t.name r

def trimPartLive (t : StreamTopic) (p base live : Nat) : Nat :=
  ((t.part p).below base).foldl (fun live r => live - recordLive t.name r) live

def ageLoopLive (now p : Nat) : Nat → StreamTopic → Nat → Nat
  | 0, _, live => live
  | rounds + 1, t, live =>
    match (t.part p).chain.head? with
    | none => live
    | some r =>
      if expired now t.maxAgeMs r then
        ageLoopLive now p rounds (trimPart t p (bump r.offset)) (trimPartLive t p (bump r.offset) live)
      else live

def agePassLive (now : Nat) (t : StreamTopic) (live : Nat) : Nat :=
  if t.maxAgeMs = 0 then live
  else ((List.range t.partitions).foldl (fun (acc : StreamTopic × Nat) p =>
    ((ageLoop now p (acc.1.part p).chain.length acc.1 0).1,
      ageLoopLive now p (acc.1.part p).chain.length acc.1 acc.2)) (t, live)).2

def sizeLoopLive : Nat → StreamTopic → Nat → Nat
  | 0, _, live => live
  | rounds + 1, t, live =>
    if t.maxBytes ≠ 0 ∧ t.bytes > t.maxBytes then
      match oldestHead t with
      | none => live
      | some (p, r) =>
        sizeLoopLive rounds (trimPart t p (bump r.offset)) (trimPartLive t p (bump r.offset) live)
    else live

def enforceLive (now : Nat) (t : StreamTopic) (live : Nat) : Nat :=
  let u := (agePass now t).1
  sizeLoopLive (u.parts.map (·.chain.length)).sum u (agePassLive now t live)

def ensureGroupLive (t : StreamTopic) (group : Bytes) (live : Nat) : Nat :=
  if (findGroup t group).isSome then live else live + groupLive t group

/-- `add_topic` where it accepts. -/
def addTopicLive (topics : List StreamTopic) (name : Bytes) (live : Nat) : Nat :=
  if (findTopic topics name).isSome then live else live + (22 + name.length)

def dropTopicLive (t : StreamTopic) (live : Nat) : Nat :=
  if live ≥ topicLive t then live - topicLive t else 0

def linkItemsLive : StreamTopic → List BatchItem → Nat → Nat
  | _, [], live => live
  | t, i :: rest, live =>
    linkItemsLive (partLink t i.part i.record) rest (partLinkLive t i.record live)

/-! ### Replay -/

def appendItemsLive : StreamTopic → List BatchItem → Nat → Nat
  | _, [], live => live
  | t, i :: rest, live =>
    match appendMemory t i.part i.record with
    | none => live
    | some u => appendItemsLive u rest (partLinkLive t i.record live)

def replayTopicLive (t : StreamTopic) (live : Nat) : LogRecord → Nat
  | .append _ item => appendItemsLive t [item] live
  | .appendBatch _ items =>
    if items = [] ∨ items.length > streamFetchMax then live else appendItemsLive t items live
  | .trim _ p base => if p ≥ t.partitions then live else trimPartLive t p (u64 base) live
  | .identity .. => if t.idPersisted then live else live + identityLive t.name
  | .commit _ group p _ => if p ≥ t.partitions then live else ensureGroupLive t group live
  | .declare .. | .delete _ | .retention .. | .revision .. => live

def replayLive (fresh : Bytes → StreamId) (topics : List StreamTopic) (r : LogRecord)
    (live : Nat) : Nat :=
  match r with
  | .declare name partitions maxBytes maxAgeMs =>
    if (addTopic topics name partitions maxBytes maxAgeMs (fresh name)).isNone then live
    else addTopicLive topics name live
  | .delete name =>
    match findTopic topics name with
    | none => live
    | some t => dropTopicLive t live
  | r =>
    if r.name.length > streamNameMax then live
    else match findTopic topics r.name with
      | none => live
      | some t => replayTopicLive t live r

def replayAllLive (fresh : Bytes → StreamId) : List StreamTopic → List LogRecord → Nat → Nat
  | _, [], live => live
  | topics, r :: rest, live =>
    if r.len > recordMax then live
    else match replay fresh topics r with
      | (_, false) => replayLive fresh topics r live
      | (after, true) => replayAllLive fresh after rest (replayLive fresh topics r live)

/-- The identity pass of `stream_store_open`. -/
def identityPassLive (topics : List StreamTopic) (live : Nat) : Nat :=
  topics.foldl (fun live t => if t.idPersisted then live else live + identityLive t.name) live

/-- The counter of a store just opened: replay, the identity pass and the retention passes. -/
def openLive (fresh : Bytes → StreamId) (now : Nat) (file : List LogRecord) : Nat :=
  let topics := (replayAll fresh [] file).1
  topics.foldl (fun live t => enforceLive now { t with idPersisted := true } live)
    (identityPassLive topics (replayAllLive fresh [] file 0))

/-! ### Calls -/

def guardedLive (s : StreamStore) (compaction : Compaction) (live : Nat)
    (call : StreamStore → Nat) : Nat :=
  if s.failed then live
  else match compactMaybeLocked s compaction with
    | (_, false) => live
    | (s', true) => call s'

/-- `live'` once the records are written; a failed write leaves the counter. -/
def loggedLive (s : StreamStore) (records : List LogRecord) (live live' : Nat) : Nat :=
  if (logEach s records).2 then live' else live

def declareLive (s : StreamStore) (live : Nat) (compaction : Compaction) (fresh : StreamId)
    (name : Bytes) (partitions maxBytes maxAgeMs : Nat) : Nat :=
  guardedLive s compaction live fun s =>
    match addTopic s.topics name partitions maxBytes maxAgeMs fresh with
    | none => live
    | some added =>
      if (findTopic s.topics name).isSome then live
      else
        let listed := addTopicLive s.topics name live
        loggedLive { s with topics := added }
          [.declare name partitions maxBytes maxAgeMs, .identity name fresh] listed
          (listed + identityLive name)

def appendLive (s : StreamStore) (live : Nat) (compaction : Compaction) (now enforceNow : Nat)
    (name : Bytes) (hint : Nat) (input : AppendInput) : Nat :=
  if input.body.length + appendOverhead name input.key > recordMax then live
  else guardedLive s compaction live fun s =>
    match findTopic s.topics name with
    | none => live
    | some t =>
      let p := choosePart t hint input.key
      if p ≥ t.partitions then live
      else
        let r : StreamRecord := ⟨(t.part p).next, now, input.key, input.body⟩
        loggedLive s [.append name ⟨p, r⟩] live
          (enforceLive enforceNow (partLink t p r) (partLinkLive t r live))

def appendBatchLive (s : StreamStore) (live : Nat) (compaction : Compaction) (now enforceNow : Nat)
    (name : Bytes) (hint : Nat) (inputs : List AppendInput) : Nat :=
  if inputs = [] ∨ inputs.length > streamFetchMax then live
  else guardedLive s compaction live fun s =>
    match findTopic s.topics name with
    | none => live
    | some t =>
      match batchItems t hint now (t.parts.map (·.next)) inputs with
      | none => live
      | some items =>
        if (LogRecord.appendBatch name items).len > recordMax then live
        else loggedLive s [.appendBatch name items] live
          (enforceLive enforceNow (linkItems t items) (linkItemsLive t items live))

def truncateLive (s : StreamStore) (live : Nat) (compaction : Compaction) (name : Bytes)
    (p base expected : Nat) : Nat :=
  guardedLive s compaction live fun s =>
    match findTopic s.topics name with
    | none => live
    | some t =>
      if p ≥ t.partitions then live
      else if t.revision ≠ expected then live
      else if base < (t.part p).base ∨ base > (t.part p).next then live
      else loggedLive s [.trim name p base] live (trimPartLive t p base live)

def setRetentionLive (s : StreamStore) (live : Nat) (compaction : Compaction) (now : Nat)
    (name : Bytes) (maxBytes maxAgeMs expected : Nat) : Nat :=
  if name = [] ∨ name.length > streamNameMax then live
  else guardedLive s compaction live fun s =>
    match findTopic s.topics name with
    | none => live
    | some t =>
      if t.revision ≠ expected then live
      else loggedLive s [.retention name maxBytes maxAgeMs] live
        (enforceLive now
          { t with maxBytes := maxBytes, maxAgeMs := maxAgeMs, revision := bump t.revision } live)

def deleteLive (s : StreamStore) (live : Nat) (compaction : Compaction) (name : Bytes)
    (expected : Nat) : Nat :=
  if name = [] ∨ name.length > streamNameMax then live
  else guardedLive s compaction live fun s =>
    match findTopic s.topics name with
    | none => live
    | some t =>
      if t.revision ≠ expected then live
      else loggedLive s [.delete name] live (dropTopicLive t live)

def fetchMetadataLive (s : StreamStore) (live now : Nat) (name : Bytes) (p : Nat) : Nat :=
  match findTopic s.topics name with
  | none => live
  | some t => if p ≥ t.partitions then live else enforceLive now t live

def commitLive (s : StreamStore) (live : Nat) (compaction : Compaction) (name group : Bytes)
    (p offset : Nat) : Nat :=
  if group = [] ∨ group.length > streamGroupMax then live
  else guardedLive s compaction live fun s =>
    match findTopic s.topics name with
    | none => live
    | some t =>
      if p ≥ t.partitions ∨ !inRange t p offset then live else ensureGroupLive t group live

def commitBatchForOwnerLive (s : StreamStore) (live : Nat) (compaction : Compaction)
    (name group : Bytes) (owner : Nat) (commits : List (Nat × Nat)) : Nat :=
  if group = [] ∨ group.length > streamGroupMax ∨ commits = [] then live
  else guardedLive s compaction live fun s =>
    if owner = 0 then
      match findTopic s.topics name with
      | none => live
      | some t => ensureGroupLive t group live
    else live

def joinLive (s : StreamStore) (live : Nat) (name group : Bytes) (owner lease : Nat) : Nat :=
  if group = [] ∨ group.length > streamGroupMax ∨ owner = 0 ∨ lease = 0 ∨ lease > 60000 then live
  else match findTopic s.topics name with
    | none => live
    | some t => ensureGroupLive t group live

/-- The other calls only look groups up. -/
def Call.live (s : StreamStore) (live : Nat) : Call → Nat
  | .declare compaction fresh name partitions maxBytes maxAgeMs =>
    declareLive s live compaction fresh name partitions maxBytes maxAgeMs
  | .append compaction now enforceNow name hint input =>
    appendLive s live compaction now enforceNow name hint input
  | .appendBatch compaction now enforceNow name hint inputs =>
    appendBatchLive s live compaction now enforceNow name hint inputs
  | .truncate compaction name p base expected => truncateLive s live compaction name p base expected
  | .setRetention compaction now name maxBytes maxAgeMs expected =>
    setRetentionLive s live compaction now name maxBytes maxAgeMs expected
  | .delete compaction name expected => deleteLive s live compaction name expected
  | .fetchMetadata now name p => fetchMetadataLive s live now name p
  | .commit compaction name group p offset => commitLive s live compaction name group p offset
  | .commitBatchForOwner compaction _ name group owner commits =>
    commitBatchForOwnerLive s live compaction name group owner commits
  | .join _ name group owner lease => joinLive s live name group owner lease
  | .commitIfGeneration .. | .commitBatchIfGeneration .. | .resetOffsets .. | .commitForOwner ..
  | .commitForOwnerIfGeneration .. | .leaveMember .. | .leaveOwner .. | .reap ..
  | .checkpointMaybe .. => live

def FileStep.live (fresh : Bytes → StreamId) (s : StreamStore) (live : Nat) : FileStep → Nat
  | .call made => made.live s live
  | .reopen now => openLive fresh now s.log
  | .disk _ => live

/-- A run together with the counter. -/
def runLive (fresh : Bytes → StreamId) : StreamStore → Nat → List FileStep → Nat
  | _, live, [] => live
  | s, live, step :: rest => runLive fresh (step.run fresh s) (step.live fresh s live) rest

/-! ## One topic -/

/-- The tail pointer is the last record's. -/
def StreamPart.Linked (x : StreamPart) : Prop :=
  x.tail = if x.chain = [] then none else some (x.chain.length - 1)

theorem StreamPart.Linked.link_chain {x : StreamPart} (linked : x.Linked) (r : StreamRecord) :
    (x.link r).chain = x.chain ++ [r] := by
  change linkChain x.chain x.tail r = x.chain ++ [r]
  rw [linked]
  by_cases none_ : x.chain = []
  · rw [if_pos none_, none_]
    rfl
  · have some_ := List.length_pos_iff.mpr none_
    rw [if_neg none_]
    change x.chain.take (x.chain.length - 1 + 1) ++ [r] = x.chain ++ [r]
    rw [List.take_of_length_le (by omega)]

theorem StreamPart.Linked.link {x : StreamPart} (linked : x.Linked) (r : StreamRecord) :
    (x.link r).Linked := by
  have chain := linked.link_chain r
  have some_ : (x.link r).chain ≠ [] := by simp [chain]
  rw [StreamPart.Linked, if_neg some_]
  rfl

theorem StreamPart.below_trim (x : StreamPart) (b : Nat) :
    x.below b ++ (x.trim b).chain = x.chain :=
  List.takeWhile_append_dropWhile ..

theorem StreamPart.Linked.trim {x : StreamPart} (linked : x.Linked) (b : Nat) :
    (x.trim b).Linked := by
  have split := congrArg List.length (x.below_trim b)
  rw [List.length_append] at split
  change (if (x.trim b).chain = [] then none else x.tail.map (· - (x.below b).length)) = _
  by_cases gone : (x.trim b).chain = []
  · rw [if_pos gone, if_pos gone]
  · have left := List.length_pos_iff.mpr gone
    have some_ : x.chain ≠ [] := List.length_pos_iff.mp (by omega)
    rw [if_neg gone, if_neg gone, linked, if_neg some_, Option.map_some]
    congr 1
    omega

/-- The topic's own count, what it rests on, and one offset per partition in every group. -/
structure StreamTopic.Tallied (t : StreamTopic) : Prop where
  linked : ∀ x ∈ t.parts, x.Linked
  records : t.records = topicRecount t
  groups : ∀ g ∈ t.groups, g.offsets.length = t.partitions

theorem tallied_newTopic (name : Bytes) (partitions maxBytes maxAgeMs : Nat) (fresh : StreamId) :
    (newTopic name partitions maxBytes maxAgeMs fresh).Tallied where
  linked x mem := by
    rw [(List.mem_replicate.mp mem).2]
    rfl
  records := by simp [newTopic, topicRecount, StreamPart.empty]
  groups := by simp [newTopic]

/-- The topic's share of the counter changes as the counter does, whatever the rest is. -/
structure Pays (t t' : StreamTopic) (live live' : Nat) : Prop where
  name : t'.name = t.name
  tallied : t'.Tallied
  identity : t.idPersisted = true → t'.idPersisted = true
  paid : ∀ rest, live = rest + topicLive t → live' = rest + topicLive t'

namespace Pays

variable {t t' t'' : StreamTopic} {live live' live'' : Nat}

theorem refl (tallied : t.Tallied) : Pays t t live live :=
  ⟨rfl, tallied, id, fun _ given => given⟩

theorem trans (first : Pays t t' live live') (second : Pays t' t'' live' live'') :
    Pays t t'' live live'' where
  name := second.name.trans first.name
  tallied := second.tallied
  identity := second.identity ∘ first.identity
  paid rest given := second.paid rest (first.paid rest given)

/-- Everything the share depends on besides the records is as it was. -/
theorem of_parts (tallied : t'.Tallied) (name : t'.name = t.name)
    (identity : t'.idPersisted = t.idPersisted) (count : t'.partitions = t.partitions)
    (groups : t'.groups = t.groups)
    (paid : ∀ rest, live = rest + partsLive t → live' = rest + partsLive t') :
    Pays t t' live live' where
  name := name
  tallied := tallied
  identity := identity.trans
  paid rest given := by
    have share : ∀ u : StreamTopic, u.name = t.name → u.idPersisted = t.idPersisted →
        u.partitions = t.partitions → u.groups = t.groups →
        topicLive u = (22 + t.name.length + (if t.idPersisted then identityLive t.name else 0)
          + (t.groups.map (fun g => groupLive t g.name)).sum) + partsLive u := by
      intro u name identity count groups
      simp only [topicLive, groupLive, name, identity, count, groups]
      omega
    rw [share t' name identity count groups, ← Nat.add_assoc]
    rw [share t rfl rfl rfl rfl, ← Nat.add_assoc] at given
    exact paid _ given

end Pays

section Parts

variable {t : StreamTopic} {live : Nat}

theorem StreamTopic.Tallied.part (tallied : t.Tallied) (p : Nat) : (t.part p).Linked := by
  rw [StreamTopic.part, List.getD_eq_getElem?_getD]
  cases found : t.parts[p]? with
  | none => rfl
  | some x => exact tallied.linked x (List.mem_of_getElem? found)

/-- One partition changed: the recount follows that partition. -/
theorem partsLive_set {p : Nat} (inside : p < t.partitions) (y : StreamPart) (u : StreamTopic)
    (parts : u.parts = t.parts.set p y) (name : u.name = t.name) :
    partsLive u + chainLive t.name (t.part p).chain = partsLive t + chainLive t.name y.chain := by
  have moved := sum_map_set (fun x : StreamPart => chainLive t.name x.chain) .empty y inside
  rw [partsLive, partsLive, parts, name]
  exact moved

theorem topicRecount_set {p : Nat} (inside : p < t.partitions) (y : StreamPart) (u : StreamTopic)
    (parts : u.parts = t.parts.set p y) :
    topicRecount u + (t.part p).chain.length = topicRecount t + y.chain.length := by
  have moved := sum_map_set (fun x : StreamPart => x.chain.length) .empty y inside
  rw [topicRecount, topicRecount, parts]
  exact moved

theorem mem_set_linked (tallied : t.Tallied) {p : Nat} {y : StreamPart} (linked : y.Linked) :
    ∀ x ∈ t.parts.set p y, x.Linked := by
  intro x mem
  rcases List.mem_or_eq_of_mem_set mem with old | rfl
  · exact tallied.linked x old
  · exact linked

theorem pays_link (tallied : t.Tallied) {p : Nat} (inside : p < t.partitions) (r : StreamRecord) :
    Pays t (partLink t p r) live (partLinkLive t r live) := by
  have linked := tallied.part p
  have chain := linked.link_chain r
  have counted := topicRecount_set inside ((t.part p).link r) (partLink t p r) rfl
  have moved := partsLive_set inside ((t.part p).link r) (partLink t p r) rfl rfl
  rw [chain] at counted moved
  simp only [chainLive, List.map_append, List.sum_append, List.map_cons, List.map_nil, List.sum_cons,
    List.sum_nil, List.length_append, List.length_cons, List.length_nil] at counted moved
  refine Pays.of_parts ⟨mem_set_linked tallied (linked.link r), ?_,
    fun g mem => (tallied.groups g mem).trans (partLink_partitions ..).symm⟩ rfl rfl
    (partLink_partitions ..) rfl ?_
  · have before := tallied.records
    change t.records + 1 = _
    omega
  · intro rest given
    rw [partLinkLive]
    omega

theorem foldl_recordLive (name : Bytes) : ∀ (chain : List StreamRecord) (rest : Nat),
    chain.foldl (fun live r => live - recordLive name r) (rest + chainLive name chain) = rest
  | [], _ => rfl
  | r :: chain, rest => by
    have later := foldl_recordLive name chain rest
    have here : rest + chainLive name (r :: chain) - recordLive name r =
        rest + chainLive name chain := by
      simp only [chainLive, List.map_cons, List.sum_cons]
      omega
    rw [List.foldl_cons, here, later]

theorem pays_trim (tallied : t.Tallied) {p : Nat} (inside : p < t.partitions) (b : Nat) :
    Pays t (trimPart t p b) live (trimPartLive t p b live) := by
  have linked := tallied.part p
  have split := (t.part p).below_trim b
  have counted := topicRecount_set inside ((t.part p).trim b) (trimPart t p b) rfl
  have moved := partsLive_set inside ((t.part p).trim b) (trimPart t p b) rfl rfl
  have lengths := congrArg List.length split
  have sums := congrArg (chainLive t.name) split
  simp only [List.length_append] at lengths
  simp only [chainLive, List.map_append, List.sum_append] at sums moved
  refine Pays.of_parts ⟨mem_set_linked tallied (linked.trim b), ?_,
    fun g mem => (tallied.groups g mem).trans (trimPart_partitions ..).symm⟩ rfl rfl
    (trimPart_partitions ..) rfl ?_
  · have before := tallied.records
    change t.records - ((t.part p).below b).length = _
    omega
  · intro rest given
    have freed : live = (rest + partsLive (trimPart t p b)) +
        chainLive t.name ((t.part p).below b) := by
      rw [given, chainLive]
      omega
    rw [trimPartLive, freed, foldl_recordLive]

/-! ### Retention -/

theorem ageLoop_partitions (now p : Nat) : ∀ (rounds : Nat) (t : StreamTopic) (b : Nat),
    (ageLoop now p rounds t b).1.partitions = t.partitions
  | 0, _, _ => rfl
  | rounds + 1, t, b => by
    rw [ageLoop]
    split
    · rfl
    · split
      · rw [ageLoop_partitions now p rounds, trimPart_partitions]
      · rfl

theorem pays_ageLoop (now : Nat) {p : Nat} : ∀ (rounds : Nat) {t : StreamTopic} {live : Nat} (b : Nat),
    t.Tallied → p < t.partitions →
      Pays t (ageLoop now p rounds t b).1 live (ageLoopLive now p rounds t live)
  | 0, _, _, _, tallied, _ => .refl tallied
  | rounds + 1, t, live, b, tallied, inside => by
    rw [ageLoop, ageLoopLive]
    cases (t.part p).chain.head? with
    | none => exact .refl tallied
    | some r =>
      simp only
      by_cases old : expired now t.maxAgeMs r = true
      · rw [if_pos old, if_pos old]
        have first : Pays t (trimPart t p (bump r.offset)) live _ := pays_trim tallied inside _
        exact first.trans (pays_ageLoop now rounds _ first.tallied
          ((trimPart_partitions ..).symm ▸ inside))
      · rw [if_neg old, if_neg old]
        exact .refl tallied

/-- The two folds of the pass side by side; the boundaries noted play no part. -/
theorem pays_agePass_fold (now : Nat) : ∀ (ps : List Nat) {t : StreamTopic} {live : Nat}
    (touched : List (Nat × Nat)), t.Tallied → (∀ p ∈ ps, p < t.partitions) →
      Pays t
        (ps.foldl (fun (acc : StreamTopic × List (Nat × Nat)) p =>
          let (u, b) := ageLoop now p (acc.1.part p).chain.length acc.1 0
          (u, if b = 0 then acc.2 else touch acc.2 p b)) (t, touched)).1
        live
        (ps.foldl (fun (acc : StreamTopic × Nat) p =>
          ((ageLoop now p (acc.1.part p).chain.length acc.1 0).1,
            ageLoopLive now p (acc.1.part p).chain.length acc.1 acc.2)) (t, live)).2
  | [], _, _, _, tallied, _ => .refl tallied
  | p :: ps, t, live, touched, tallied, inside => by
    have first : Pays t (ageLoop now p (t.part p).chain.length t 0).1 live _ :=
      pays_ageLoop now _ 0 tallied (inside p (List.mem_cons_self ..))
    rw [List.foldl_cons, List.foldl_cons]
    exact first.trans (pays_agePass_fold now ps _ first.tallied
      (fun q mem => (ageLoop_partitions ..).symm ▸ inside q (List.mem_cons_of_mem _ mem)))

theorem pays_agePass (now : Nat) (tallied : t.Tallied) :
    Pays t (agePass now t).1 live (agePassLive now t live) := by
  rw [agePass, agePassLive]
  split
  · exact .refl tallied
  · exact pays_agePass_fold now _ [] tallied (fun p mem => List.mem_range.mp mem)

theorem pays_sizeLoop : ∀ (rounds : Nat) {t : StreamTopic} {live : Nat} (touched : List (Nat × Nat)),
    t.Tallied → Pays t (sizeLoop rounds t touched).1 live (sizeLoopLive rounds t live)
  | 0, _, _, _, tallied => .refl tallied
  | rounds + 1, t, live, touched, tallied => by
    rw [sizeLoop, sizeLoopLive]
    by_cases over_ : t.maxBytes ≠ 0 ∧ t.bytes > t.maxBytes
    · rw [if_pos over_, if_pos over_]
      cases oldest : oldestHead t with
      | none => exact .refl tallied
      | some found =>
        obtain ⟨p, r⟩ := found
        have first : Pays t (trimPart t p (bump r.offset)) live _ :=
          pays_trim tallied (oldestHead_some oldest).1 _
        exact first.trans (pays_sizeLoop rounds _ first.tallied)
    · rw [if_neg over_, if_neg over_]
      exact .refl tallied

theorem pays_enforce (now : Nat) (tallied : t.Tallied) :
    Pays t (enforce now t).1 live (enforceLive now t live) := by
  have first : Pays t (agePass now t).1 live _ := pays_agePass now tallied
  exact first.trans (pays_sizeLoop _ _ first.tallied)

end Parts

/-! ### Groups -/

section Groups

variable {t t' : StreamTopic} {live : Nat}

/-- The share of a topic with other groups; a group counts by its name only. -/
theorem topicLive_groups (t : StreamTopic) (groups : List StreamGroup) :
    topicLive { t with groups := groups } =
      22 + t.name.length + (if t.idPersisted then identityLive t.name else 0) + partsLive t
        + ((groups.map StreamGroup.name).map (groupLive t)).sum := by
  rw [List.map_map]
  rfl

theorem pays_regroup (tallied : t.Tallied) (rest : t' = { t with groups := t'.groups })
    (names : t'.groups.map StreamGroup.name = t.groups.map StreamGroup.name)
    (fits : ∀ g ∈ t'.groups, g.offsets.length = t.partitions) : Pays t t' live live := by
  have same : topicLive t' = topicLive t := by
    rw [rest, topicLive_groups, names, ← topicLive_groups]
  rw [rest] at same fits ⊢
  exact ⟨rfl, ⟨tallied.linked, tallied.records, fits⟩, id, fun before given => by rw [given, same]⟩

theorem pays_setGroup (tallied : t.Tallied) {g : StreamGroup}
    (fits : g.offsets.length = t.partitions) : Pays t (setGroup t g) live live := by
  refine pays_regroup tallied rfl (map_key_replace _ rfl t.groups) fun h mem => ?_
  rcases mem_updateFirst mem with old | ⟨_, _, _, rfl⟩
  · exact tallied.groups h old
  · exact fits

theorem StreamTopic.Tallied.group (tallied : t.Tallied) {group : Bytes} {g : StreamGroup}
    (found : findGroup t group = some g) : g.offsets.length = t.partitions :=
  tallied.groups g (lookup_some _ found).1

theorem ensureGroup_fits (tallied : t.Tallied) (group : Bytes) :
    (ensureGroup t group).2.offsets.length = (ensureGroup t group).1.partitions := by
  rw [ensureGroup]
  cases found : findGroup t group with
  | some g => exact tallied.group found
  | none => exact List.length_replicate ..

theorem pays_ensureGroup (tallied : t.Tallied) (group : Bytes) :
    Pays t (ensureGroup t group).1 live (ensureGroupLive t group live) := by
  rw [ensureGroup, ensureGroupLive]
  cases found : findGroup t group with
  | some g => exact .refl tallied
  | none =>
    have fits : ∀ g ∈ (⟨group, List.replicate t.partitions 0, [], 0⟩ : StreamGroup) :: t.groups,
        g.offsets.length = t.partitions := by
      intro g mem
      rcases List.mem_cons.mp mem with rfl | old
      · exact List.length_replicate ..
      · exact tallied.groups g old
    refine ⟨rfl, ⟨tallied.linked, tallied.records, fits⟩, id, fun rest given => ?_⟩
    have before : topicLive t = _ := topicLive_groups t t.groups
    simp only [Option.isSome_none, Bool.false_eq_true, if_false]
    rw [topicLive_groups, List.map_cons, List.map_cons, List.sum_cons]
    dsimp only
    omega

end Groups

/-! ## The store -/

/-- The counters of a store and its topics agree with the recount. Only a store that is `down` has a
topic whose identity was not written. -/
structure Settled (down : Prop) (topics : List StreamTopic) (live : Nat) : Prop where
  tallied : ∀ t ∈ topics, t.Tallied
  identity : ∀ t ∈ topics, t.idPersisted = true ∨ down
  live : live = recountLive topics

section Store

variable {down : Prop} {topics : List StreamTopic} {live live' : Nat} {name : Bytes} {t t' : StreamTopic}

theorem Settled.weaken {further : Prop} (settled : Settled down topics live)
    (implies : down → further) : Settled further topics live :=
  ⟨settled.tallied, fun t mem => (settled.identity t mem).imp_right implies, settled.live⟩

theorem Settled.found (settled : Settled down topics live) (found : findTopic topics name = some t) :
    t.Tallied :=
  settled.tallied t (findTopic_some found).1

theorem Settled.setTopic (settled : Settled down topics live) (found : findTopic topics name = some t)
    (pays : Pays t t' live live') : Settled down (setTopic topics t') live' := by
  have same : t'.name = name := pays.name.trans (findTopic_some found).2
  have first : topics.find? (fun u => u.name == t'.name) = some t := by
    rw [same]
    exact found
  refine ⟨fun u mem => ?_, fun u mem => ?_, ?_⟩
  · rcases mem_updateFirst mem with old | ⟨_, _, _, rfl⟩
    · exact settled.tallied u old
    · exact pays.tallied
  · rcases mem_updateFirst mem with old | ⟨_, _, _, rfl⟩
    · exact settled.identity u old
    · exact (settled.identity t (findTopic_some found).1).imp_left pays.identity
  · have others := sum_eraseP topicLive first
    have changed : ((Stream.setTopic topics t').map topicLive).sum + topicLive t =
        (topics.map topicLive).sum + topicLive t' := sum_updateFirst topicLive first
    have before := settled.live
    rw [recountLive] at before ⊢
    have after := pays.paid _ (before.trans others.symm)
    omega

theorem Settled.dropTopic (settled : Settled down topics live) (found : findTopic topics name = some t) :
    Settled down (dropTopic topics name) (dropTopicLive t live) := by
  refine ⟨fun u mem => settled.tallied u (List.mem_of_mem_eraseP mem),
    fun u mem => settled.identity u (List.mem_of_mem_eraseP mem), ?_⟩
  have others : ((Stream.dropTopic topics name).map topicLive).sum + topicLive t =
      (topics.map topicLive).sum := sum_eraseP topicLive found
  have before := settled.live
  rw [recountLive] at before ⊢
  rw [dropTopicLive, if_pos (by omega)]
  omega

theorem Settled.addTopic (settled : Settled down topics live) {partitions maxBytes maxAgeMs : Nat}
    {fresh : StreamId} {added : List StreamTopic}
    (accepted : addTopic topics name partitions maxBytes maxAgeMs fresh = some added) (isDown : down) :
    Settled down added (addTopicLive topics name live) := by
  rw [Stream.addTopic] at accepted
  rw [addTopicLive]
  split at accepted
  · cases accepted
  · cases found : findTopic topics name with
    | some t =>
      rw [found] at accepted
      simp only at accepted
      split at accepted
      · cases accepted
        exact settled
      · cases accepted
    | none =>
      rw [found] at accepted
      cases accepted
      refine ⟨fun u mem => ?_, fun _ _ => .inr isDown, ?_⟩
      · rcases List.mem_cons.mp mem with rfl | old
        · exact tallied_newTopic ..
        · exact settled.tallied u old
      · have new : topicLive (newTopic name partitions maxBytes maxAgeMs fresh) = 22 + name.length := by
          simp [topicLive, newTopic, partsLive, chainLive, StreamPart.empty]
        have before := settled.live
        rw [recountLive] at before ⊢
        rw [List.map_cons, List.sum_cons, new]
        simp only [Option.isSome_none, Bool.false_eq_true, if_false]
        omega

end Store

/-! ### Replay -/

section Replay

variable {down : Prop} {topics : List StreamTopic} {live : Nat}

theorem pays_appendItems : ∀ (items : List BatchItem) {t : StreamTopic} {live : Nat}, t.Tallied →
    Pays t (appendItems t items).1 live (appendItemsLive t items live)
  | [], _, _, tallied => .refl tallied
  | i :: rest, t, live, tallied => by
    rw [appendItems, appendItemsLive]
    cases linked : appendMemory t i.part i.record with
    | none => exact .refl tallied
    | some u =>
      rw [appendMemory] at linked
      split at linked
      · cases linked
      · rename_i accepted
        cases linked
        have inside : i.part < t.partitions := Nat.lt_of_not_le (not_or.mp accepted).1
        have first : Pays t (partLink t i.part i.record) live _ := pays_link tallied inside _
        exact first.trans (pays_appendItems rest first.tallied)

theorem pays_replayTopic {t : StreamTopic} (tallied : t.Tallied) (r : LogRecord) :
    Pays t (replayTopic t r).1 live (replayTopicLive t live r) := by
  cases r with
  | declare | delete => exact .refl tallied
  | retention name maxBytes maxAgeMs =>
    exact ⟨rfl, ⟨tallied.linked, tallied.records, tallied.groups⟩, id, fun _ given => given⟩
  | revision name revision =>
    rw [replayTopic, replayTopicLive]
    split
    · exact .refl tallied
    · exact ⟨rfl, ⟨tallied.linked, tallied.records, tallied.groups⟩, id, fun _ given => given⟩
  | append name item => exact pays_appendItems [item] tallied
  | appendBatch name items =>
    rw [replayTopic, replayTopicLive]
    split
    · exact .refl tallied
    · exact pays_appendItems items tallied
  | trim name p base =>
    rw [replayTopic, replayTopicLive]
    split
    · exact .refl tallied
    · exact pays_trim tallied (by omega) _
  | identity name id =>
    refine ⟨rfl, ⟨tallied.linked, tallied.records, tallied.groups⟩, fun _ => rfl,
      fun rest given => ?_⟩
    have share : topicLive { t with id := id, idPersisted := true } =
        topicLive t + (if t.idPersisted then 0 else identityLive t.name) := by
      change 22 + t.name.length + identityLive t.name + partsLive t + _ = 22 + t.name.length + _ +
        partsLive t + _ + _
      cases t.idPersisted with
      | true => rfl
      | false =>
        simp only [Bool.false_eq_true, if_false, groupLive]
        change _ + (t.groups.map (fun g => groupLive t g.name)).sum = _
        simp only [groupLive]
        omega
    rw [replayTopicLive]
    change _ = rest + topicLive { t with id := id, idPersisted := true }
    rw [share]
    split <;> omega
  | commit name group p offset =>
    rw [replayTopic, replayTopicLive]
    split
    · exact .refl tallied
    · have first : Pays t (ensureGroup t group).1 live _ := pays_ensureGroup tallied group
      refine first.trans (pays_setGroup first.tallied ?_)
      rw [StreamGroup.commit, List.length_set]
      exact ensureGroup_fits tallied group

/-- A record of a topic, by the general branch of `replay`. -/
theorem settled_replay_topic (settled : Settled True topics live) (fresh : Bytes → StreamId)
    (r : LogRecord) (general : replay fresh topics r =
      if r.name.length > streamNameMax then (topics, false)
      else match findTopic topics r.name with
        | none => (topics, false)
        | some t => (setTopic topics (replayTopic t r).1, (replayTopic t r).2))
    (generalLive : replayLive fresh topics r live =
      if r.name.length > streamNameMax then live
      else match findTopic topics r.name with
        | none => live
        | some t => replayTopicLive t live r) :
    Settled True (replay fresh topics r).1 (replayLive fresh topics r live) := by
  rw [general, generalLive]
  split
  · exact settled
  · cases found : findTopic topics r.name with
    | none => exact settled
    | some t => exact settled.setTopic found (pays_replayTopic (settled.found found) r)

theorem settled_replay (settled : Settled True topics live) (fresh : Bytes → StreamId) (r : LogRecord) :
    Settled True (replay fresh topics r).1 (replayLive fresh topics r live) := by
  cases r with
  | declare name partitions maxBytes maxAgeMs =>
    rw [replay, replayLive]
    cases accepted : addTopic topics name partitions maxBytes maxAgeMs (fresh name) with
    | none => exact settled
    | some added => exact settled.addTopic accepted trivial
  | delete name =>
    rw [replay, replayLive]
    cases found : findTopic topics name with
    | none => exact settled
    | some t => exact settled.dropTopic found
  | append | commit | trim | appendBatch | retention | revision | identity =>
    exact settled_replay_topic settled fresh _ rfl rfl

theorem settled_replayAll (fresh : Bytes → StreamId) : ∀ (file : List LogRecord)
    {topics : List StreamTopic} {live : Nat}, Settled True topics live →
      Settled True (replayAll fresh topics file).1 (replayAllLive fresh topics file live)
  | [], _, _, settled => settled
  | r :: rest, topics, live, settled => by
    rw [replayAll, replayAllLive]
    split
    · exact settled
    · have here := settled_replay settled fresh r
      rcases run : replay fresh topics r with ⟨after, ok⟩
      rw [run] at here
      cases ok with
      | false => exact here
      | true => exact settled_replayAll fresh rest here

/-- A pass over all topics, one after the other. -/
theorem settled_map (change : StreamTopic → StreamTopic) (counter : StreamTopic → Nat → Nat)
    (pays : ∀ (t : StreamTopic) (live : Nat), t.Tallied → Pays t (change t) live (counter t live)) :
    ∀ (topics : List StreamTopic) (rest live : Nat), (∀ t ∈ topics, t.Tallied) →
      live = rest + recountLive topics →
      (∀ t ∈ topics.map change, t.Tallied) ∧
        topics.foldl (fun live t => counter t live) live = rest + recountLive (topics.map change)
  | [], _, _, _, given => ⟨by simp, given⟩
  | t :: topics, rest, live, tallied, given => by
    have one := pays t live (tallied t (List.mem_cons_self ..))
    simp only [recountLive, List.map_cons, List.sum_cons] at given
    have paid := one.paid (rest + recountLive topics) (by rw [recountLive]; omega)
    obtain ⟨later, sum⟩ := settled_map change counter pays topics (rest + topicLive (change t)) (counter t live)
      (fun u mem => tallied u (List.mem_cons_of_mem _ mem)) (by omega)
    refine ⟨fun u mem => ?_, ?_⟩
    · rcases List.mem_cons.mp mem with rfl | mem
      · exact one.tallied
      · exact later u mem
    · rw [List.foldl_cons, sum]
      simp only [recountLive, List.map_cons, List.sum_cons]
      omega

theorem mem_map_persisted {topics : List StreamTopic} {now : Nat} {t : StreamTopic}
    (tallied : ∀ u ∈ topics.map (fun u => { u with idPersisted := true }), u.Tallied)
    (mem : t ∈ topics.map (fun u => (enforce now { u with idPersisted := true }).1)) :
    t.idPersisted = true := by
  obtain ⟨u, old, rfl⟩ := List.mem_map.mp mem
  have kept : Pays { u with idPersisted := true } (enforce now { u with idPersisted := true }).1 0 _ :=
    pays_enforce now (tallied _ (List.mem_map_of_mem old))
  exact kept.identity rfl

/-- An opened store starts with exact counters, whatever the file holds. -/
theorem settled_open (fresh : Bytes → StreamId) (now : Nat) (file : List LogRecord) :
    Settled down (openLog fresh now file).topics (openLive fresh now file) := by
  have empty : Settled True [] 0 := ⟨by simp, by simp, rfl⟩
  have replayed := settled_replayAll fresh file empty
  have start : replayAllLive fresh [] file 0 = 0 + recountLive (replayAll fresh [] file).1 := by
    rw [Nat.zero_add, ← replayed.live]
  obtain ⟨named, live⟩ := settled_map (fun t => { t with idPersisted := true })
    (fun t live => if t.idPersisted then live else live + identityLive t.name)
    (fun t live tallied => pays_replayTopic tallied (.identity t.name t.id)) _ 0 _ replayed.tallied
    start
  obtain ⟨kept, live'⟩ := settled_map (fun t => (enforce now t).1) (enforceLive now)
    (fun t live tallied => pays_enforce now tallied) _ 0 _ named live
  rw [Nat.zero_add, List.map_map] at live'
  rw [List.map_map] at kept
  rw [List.foldl_map] at live'
  exact ⟨kept, fun t mem => .inl (mem_map_persisted named mem), live'⟩

end Replay

/-! ### Calls -/

section Calls

variable {down : Prop} {s : StreamStore} {live live' : Nat} {name : Bytes} {t u : StreamTopic}

theorem settled_guarded {compaction : Compaction} {call : StreamStore → StreamStore × Int}
    {counter : StreamStore → Nat} (settled : Settled down s.topics live)
    (passed : ∀ s₁ : StreamStore, s₁.topics = s.topics → Settled down (call s₁).1.topics (counter s₁)) :
    Settled down (guarded s compaction call).1.topics (guardedLive s compaction live counter) := by
  rw [guarded, guardedLive]
  split
  · exact settled
  · cases compaction with
    | notDue => exact passed s rfl
    | done => exact passed _ rfl
    | failed => exact settled

/-- The same where the call may leave the store down. -/
theorem guarded_settles {compaction : Compaction} {call : StreamStore → StreamStore × Int}
    {counter : StreamStore → Nat} (settled : Settled down s.topics live)
    (passed : ∀ s₁ : StreamStore, s₁.topics = s.topics → ((call s₁).1.failed = true → down) →
      Settled down (call s₁).1.topics (counter s₁)) :
    ((guarded s compaction call).1.failed = true → down) →
      Settled down (guarded s compaction call).1.topics (guardedLive s compaction live counter) := by
  rw [guarded, guardedLive]
  split
  · exact fun _ => settled
  · cases compaction with
    | notDue => exact passed s rfl
    | done => exact passed _ rfl
    | failed => exact fun _ => settled

theorem settled_logThenApply (settled : Settled down s.topics live)
    (found : findTopic s.topics name = some t) (pays : Pays t u live live')
    (records : List LogRecord) :
    Settled down (logThenApply s records u).1.topics (loggedLive s records live live') := by
  have topics := logEach_topics records s
  rw [logThenApply, loggedLive]
  rcases logged : logEach s records with ⟨s', ok⟩
  rw [logged] at topics
  cases ok with
  | true =>
    simp only [if_true]
    exact topics ▸ settled.setTopic found pays
  | false =>
    simp only [Bool.false_eq_true, if_false]
    exact topics ▸ settled

theorem settled_applyThenLog (settled : Settled down s.topics live)
    (found : findTopic s.topics name = some t) (pays : Pays t u live live')
    (records : List LogRecord) : Settled down (applyThenLog s u records).1.topics live' := by
  have topics := logEach_topics records { s with topics := setTopic s.topics u }
  rw [applyThenLog]
  rcases logged : logEach { s with topics := setTopic s.topics u } records with ⟨s', ok⟩
  rw [logged] at topics
  cases ok <;> exact topics ▸ settled.setTopic found pays

/-- A topic changed under its records, then a retention pass over it. -/
theorem settled_logThenEnforce (settled : Settled down s.topics live)
    (found : findTopic s.topics name = some t) (pays : Pays t u live live') (now : Nat)
    (records : List LogRecord) :
    Settled down (match logThenApply s records u with
      | (s', 0) => enforceAndLog s' now u
      | failed => failed).1.topics (loggedLive s records live (enforceLive now u live')) := by
  have topics := logEach_topics records s
  rw [logThenApply, loggedLive]
  rcases logged : logEach s records with ⟨s', ok⟩
  rw [logged] at topics
  cases ok with
  | true =>
    simp only [if_true]
    have named := (findTopic_some found).2
    subst named
    have again : findTopic (setTopic s'.topics u) t.name = some u :=
      findTopic_setTopic_same (topics ▸ found) pays.name
    have applied : Settled down (setTopic s'.topics u) live' := topics ▸ settled.setTopic found pays
    exact settled_applyThenLog (s := { s' with topics := setTopic s'.topics u }) applied again
      (pays_enforce now pays.tallied) _
  | false =>
    simp only [Bool.false_eq_true, if_false]
    exact topics ▸ settled

theorem settled_commitGroup (settled : Settled down s.topics live)
    (found : findTopic s.topics name = some t) {g : StreamGroup}
    (fits : g.offsets.length = t.partitions) (commits : List (Nat × Nat)) :
    Settled down (commitGroup s t g commits).1.topics live := by
  have applied := settled_logThenApply settled found
    (pays_setGroup (settled.found found) ((commitAll_length commits g).trans fits))
    (commits.map (fun c => .commit t.name g.name c.1 c.2))
  rw [loggedLive, ite_self] at applied
  exact applied

/-- What a call finds after it has replaced the topic it works on. -/
theorem found_setTopic (found : findTopic s.topics name = some t) (same : u.name = t.name) :
    findTopic (setTopic s.topics u) name = some u := by
  obtain ⟨-, rfl⟩ := findTopic_some found
  exact findTopic_setTopic_same found same

theorem settled_onGroup {group : Bytes} {mono : Nat} {missing : Int}
    {call : StreamStore → StreamTopic → StreamGroup → StreamStore × Int}
    (settled : Settled down s.topics live)
    (inner : ∀ s₁ t g, Settled down s₁.topics live → findTopic s₁.topics name = some t →
      g.offsets.length = t.partitions → Settled down (call s₁ t g).1.topics live) :
    Settled down (onGroup s name group mono missing call).1.topics live := by
  rw [onGroup]
  cases found : findTopic s.topics name with
  | none => exact settled
  | some t =>
    simp only
    cases member : findGroup t group with
    | none => exact settled
    | some g =>
      have fits : (g.reap mono).offsets.length = t.partitions :=
        (settled.found found).groups g (lookup_some _ member).1
      have pays : Pays t (setGroup t (g.reap mono)) live live :=
        pays_setGroup (settled.found found) fits
      exact inner _ _ _ (settled.setTopic found pays) (found_setTopic found pays.name) fits

/-- A group looked up or created, and what the call does with it. -/
theorem settled_ensureGroup {group : Bytes}
    (call : StreamStore → StreamTopic → StreamGroup → StreamStore × Int)
    (settled : Settled down s.topics live) (found : findTopic s.topics name = some t)
    (inner : ∀ s₁ u g, Settled down s₁.topics (ensureGroupLive t group live) →
      findTopic s₁.topics name = some u → g.offsets.length = u.partitions →
      Settled down (call s₁ u g).1.topics (ensureGroupLive t group live)) :
    Settled down (call { s with topics := setTopic s.topics (ensureGroup t group).1 }
      (ensureGroup t group).1 (ensureGroup t group).2).1.topics (ensureGroupLive t group live) := by
  have pays : Pays t (ensureGroup t group).1 live _ := pays_ensureGroup (settled.found found) group
  exact inner _ _ _ (settled.setTopic found pays) (found_setTopic found pays.name)
    (ensureGroup_fits (settled.found found) group)

theorem settled_onEveryGroup (settled : Settled down s.topics live) {change : StreamGroup → StreamGroup}
    (keeps : ∀ g, (change g).name = g.name ∧ (change g).offsets = g.offsets) :
    Settled down (onEveryGroup s change).topics live := by
  have pays : ∀ (t : StreamTopic) (live : Nat), t.Tallied →
      Pays t { t with groups := t.groups.map change } live live := by
    intro t live tallied
    refine pays_regroup tallied rfl ?_ fun g mem => ?_
    · rw [List.map_map]
      exact List.map_congr_left (fun g _ => (keeps g).1)
    · obtain ⟨old, before, rfl⟩ := List.mem_map.mp mem
      rw [(keeps old).2]
      exact tallied.groups old before
  obtain ⟨tallied, sum⟩ := settled_map (fun t => { t with groups := t.groups.map change })
    (fun _ live => live) pays s.topics 0 live settled.tallied
    (by rw [Nat.zero_add]; exact settled.live)
  rw [Nat.zero_add, List.foldl_fixed] at sum
  refine ⟨tallied, fun t mem => ?_, sum⟩
  obtain ⟨old, before, rfl⟩ := List.mem_map.mp mem
  exact settled.identity old before

theorem linkItems_each : ∀ (items : List BatchItem) {t : StreamTopic} {live : Nat}, t.Tallied →
    (∀ i ∈ items, i.part < t.partitions) →
    Pays t (linkItems t items) live (linkItemsLive t items live)
  | [], _, _, tallied, _ => .refl tallied
  | i :: rest, t, live, tallied, inside => by
    have first : Pays t (partLink t i.part i.record) live _ :=
      pays_link tallied (inside i (List.mem_cons_self ..)) _
    exact first.trans (linkItems_each rest first.tallied
      (fun j mem => (partLink_partitions ..).symm ▸ inside j (List.mem_cons_of_mem _ mem)))

theorem batchItems_inside (t : StreamTopic) (hint now : Nat) : ∀ {inputs : List AppendInput}
    {nexts : List Nat} {items : List BatchItem}, batchItems t hint now nexts inputs = some items →
      ∀ i ∈ items, i.part < t.partitions
  | [], _, _, given => by
    cases given
    simp
  | input :: rest, nexts, items, given => by
    rw [batchItems] at given
    simp only at given
    split at given
    · cases given
    · rename_i inside
      obtain ⟨more, later, rfl⟩ := Option.map_eq_some_iff.mp given
      intro i mem
      rcases List.mem_cons.mp mem with rfl | mem
      · exact Nat.lt_of_not_le inside
      · exact batchItems_inside t hint now later i mem

/-- A new topic's identity is written with its declaration, or the store has failed. -/
theorem settled_declare (settled : Settled down s.topics live) (compaction : Compaction)
    (fresh : StreamId) (name : Bytes) (partitions maxBytes maxAgeMs : Nat)
    (failing : (streamDeclare s compaction fresh name partitions maxBytes maxAgeMs).1.failed = true →
      down) :
    Settled down (streamDeclare s compaction fresh name partitions maxBytes maxAgeMs).1.topics
      (declareLive s live compaction fresh name partitions maxBytes maxAgeMs) := by
  revert failing
  rw [streamDeclare, declareLive]
  refine guarded_settles settled fun s₁ same failing => ?_
  rw [← same] at settled
  cases accepted : addTopic s₁.topics name partitions maxBytes maxAgeMs fresh with
  | none => exact settled
  | some added =>
    rw [accepted] at failing
    simp only at failing ⊢
    cases known : findTopic s₁.topics name with
    | some t => exact settled
    | none =>
      rw [known] at failing
      simp only [Option.isSome_none, Bool.false_eq_true, if_false] at failing ⊢
      have listed := (settled.weaken (fun _ => trivial)).addTopic accepted trivial
      have new : added = newTopic name partitions maxBytes maxAgeMs fresh :: s₁.topics := by
        rw [addTopic] at accepted
        split at accepted
        · cases accepted
        · rw [known] at accepted
          exact (Option.some.inj accepted).symm
      have first : findTopic added name = some (newTopic name partitions maxBytes maxAgeMs fresh) := by
        rw [new]
        exact lookup_cons_hit _ rfl _
      have pays : Pays (newTopic name partitions maxBytes maxAgeMs fresh)
          { newTopic name partitions maxBytes maxAgeMs fresh with idPersisted := true }
          (addTopicLive s₁.topics name live) (addTopicLive s₁.topics name live + identityLive name) :=
        pays_replayTopic (listed.found first) (.identity name fresh)
      have named := listed.setTopic first pays
      have replaced : setTopic added
          { newTopic name partitions maxBytes maxAgeMs fresh with idPersisted := true } =
          { newTopic name partitions maxBytes maxAgeMs fresh with idPersisted := true }
            :: s₁.topics := by
        rw [new, setTopic, updateFirst_cons_hit]
        exact beq_self_eq_true name
      have topics := logEach_topics [.declare name partitions maxBytes maxAgeMs, .identity name fresh]
        { s₁ with topics := added }
      rw [loggedLive]
      rcases logged : logEach { s₁ with topics := added }
        [.declare name partitions maxBytes maxAgeMs, .identity name fresh] with ⟨s', ok⟩
      rw [logged] at topics failing
      cases ok with
      | true =>
        simp only [if_true]
        simp only at topics
        rw [topics, replaced]
        rw [replaced] at named
        refine ⟨named.tallied, fun t mem => ?_, named.live⟩
        rcases List.mem_cons.mp mem with rfl | old
        · exact .inl rfl
        · exact settled.identity t old
      | false =>
        have isDown : down := failing (logEach_false logged)
        exact topics ▸ listed.weaken (fun _ => isDown)

theorem settled_append (settled : Settled down s.topics live) (compaction : Compaction)
    (now enforceNow : Nat) (name : Bytes) (hint : Nat) (input : AppendInput) :
    Settled down (streamAppend s compaction now enforceNow name hint input).1.topics
      (appendLive s live compaction now enforceNow name hint input) := by
  rw [streamAppend, appendLive]
  split
  · exact settled
  refine settled_guarded settled fun s₁ same => ?_
  rw [← same] at settled
  cases found : findTopic s₁.topics name with
  | none => exact settled
  | some t =>
    simp only
    split
    · exact settled
    · rename_i inside
      exact settled_logThenEnforce settled found
        (pays_link (settled.found found) (Nat.lt_of_not_le inside) _) enforceNow _

theorem settled_appendBatch (settled : Settled down s.topics live) (compaction : Compaction)
    (now enforceNow : Nat) (name : Bytes) (hint : Nat) (inputs : List AppendInput) :
    Settled down (streamAppendBatch s compaction now enforceNow name hint inputs).1.topics
      (appendBatchLive s live compaction now enforceNow name hint inputs) := by
  rw [streamAppendBatch, appendBatchLive]
  split
  · exact settled
  refine settled_guarded settled fun s₁ same => ?_
  rw [← same] at settled
  cases found : findTopic s₁.topics name with
  | none => exact settled
  | some t =>
    simp only
    cases given : batchItems t hint now (t.parts.map (·.next)) inputs with
    | none => exact settled
    | some items =>
      simp only
      split
      · exact settled
      · exact settled_logThenEnforce settled found
          (linkItems_each items (settled.found found) (batchItems_inside t hint now given)) enforceNow _

theorem settled_truncate (settled : Settled down s.topics live) (compaction : Compaction) (name : Bytes)
    (p base expected : Nat) :
    Settled down (streamTruncateIfRevision s compaction name p base expected).1.topics
      (truncateLive s live compaction name p base expected) := by
  refine settled_guarded settled fun s₁ same => ?_
  rw [← same] at settled
  cases found : findTopic s₁.topics name with
  | none => exact settled
  | some t =>
    simp only
    split
    · exact settled
    · rename_i inside
      split
      · exact settled
      · split
        · exact settled
        · exact settled_logThenApply settled found
            (pays_trim (settled.found found) (Nat.lt_of_not_le inside) _) _

theorem settled_setRetention (settled : Settled down s.topics live) (compaction : Compaction) (now : Nat)
    (name : Bytes) (maxBytes maxAgeMs expected : Nat) :
    Settled down (streamSetRetentionIfRevision s compaction now name maxBytes maxAgeMs expected).1.topics
      (setRetentionLive s live compaction now name maxBytes maxAgeMs expected) := by
  rw [streamSetRetentionIfRevision, setRetentionLive]
  split
  · exact settled
  refine settled_guarded settled fun s₁ same => ?_
  rw [← same] at settled
  cases found : findTopic s₁.topics name with
  | none => exact settled
  | some t =>
    simp only
    split
    · exact settled
    · exact settled_logThenEnforce settled found
        (pays_replayTopic (settled.found found) (.retention name maxBytes maxAgeMs)) now _

theorem settled_delete (settled : Settled down s.topics live) (compaction : Compaction) (name : Bytes)
    (expected : Nat) :
    Settled down (streamDeleteIfRevision s compaction name expected).1.topics
      (deleteLive s live compaction name expected) := by
  rw [streamDeleteIfRevision, deleteLive]
  split
  · exact settled
  refine settled_guarded settled fun s₁ same => ?_
  rw [← same] at settled
  cases found : findTopic s₁.topics name with
  | none => exact settled
  | some t =>
    simp only
    split
    · exact settled
    · have topics := logEach_topics [.delete name] s₁
      rw [loggedLive]
      rcases logged : logEach s₁ [.delete name] with ⟨s', ok⟩
      rw [logged] at topics
      cases ok with
      | true =>
        simp only [if_true]
        exact topics ▸ settled.dropTopic found
      | false =>
        simp only [Bool.false_eq_true, if_false]
        exact topics ▸ settled

theorem settled_fetchMetadata (settled : Settled down s.topics live) (now : Nat) (name : Bytes) (p : Nat) :
    Settled down (streamFetchMetadata s now name p).1.topics (fetchMetadataLive s live now name p) := by
  rw [streamFetchMetadata, fetchMetadataLive]
  cases found : findTopic s.topics name with
  | none => exact settled
  | some t =>
    simp only
    split
    · exact settled
    · have enforced : Settled down (enforceAndLog s now t).1.topics (enforceLive now t live) :=
        settled_applyThenLog settled found (pays_enforce now (settled.found found)) _
      split
      · rename_i s' passed
        rw [passed] at enforced
        exact enforced
      · exact enforced

theorem settled_commit (settled : Settled down s.topics live) (compaction : Compaction)
    (name group : Bytes) (p offset : Nat) :
    Settled down (streamCommit s compaction name group p offset).1.topics
      (commitLive s live compaction name group p offset) := by
  rw [streamCommit, commitLive]
  split
  · exact settled
  refine settled_guarded settled fun s₁ same => ?_
  rw [← same] at settled
  cases found : findTopic s₁.topics name with
  | none => exact settled
  | some t =>
    simp only
    split
    · exact settled
    · refine settled_ensureGroup (fun s u g =>
        if offset ≤ g.offsets.getD p 0 then (s, 0) else commitGroup s u g [(p, offset)]) settled found ?_
      intro s₂ u g settled found fits
      split
      · exact settled
      · exact settled_commitGroup settled found fits _

theorem settled_commitBatchForOwner (settled : Settled down s.topics live) (compaction : Compaction)
    (mono : Nat) (name group : Bytes) (owner : Nat) (commits : List (Nat × Nat)) :
    Settled down (streamCommitBatchForOwner s compaction mono name group owner commits).1.topics
      (commitBatchForOwnerLive s live compaction name group owner commits) := by
  rw [streamCommitBatchForOwner, commitBatchForOwnerLive]
  split
  · exact settled
  refine settled_guarded settled fun s₁ same => ?_
  rw [← same] at settled
  by_cases nobody : owner = 0
  · rw [if_pos nobody, if_pos nobody]
    cases found : findTopic s₁.topics name with
    | none => exact settled
    | some t =>
      refine settled_ensureGroup (fun s u g =>
        if commits.any (fun c => c.1 ≥ t.partitions) then (s, -1) else commitGroup s u g commits)
        settled found ?_
      intro s₂ u g settled found fits
      split
      · exact settled
      · exact settled_commitGroup settled found fits _
  · rw [if_neg nobody, if_neg nobody]
    split
    · exact settled
    · refine settled_onGroup settled fun s₂ t g settled found fits => ?_
      split
      · exact settled
      · exact settled_commitGroup settled found fits _

theorem settled_join (settled : Settled down s.topics live) (mono : Nat) (name group : Bytes)
    (owner lease : Nat) :
    Settled down (streamGroupJoin s mono name group owner lease).1.topics
      (joinLive s live name group owner lease) := by
  rw [streamGroupJoin, joinLive]
  split
  · exact settled
  cases found : findTopic s.topics name with
  | none => exact settled
  | some t =>
    have created : Pays t (ensureGroup t group).1 live _ :=
      pays_ensureGroup (settled.found found) group
    have fits := ensureGroup_fits (settled.found found) group
    simp only
    split
    · exact settled.setTopic found (created.trans (pays_setGroup created.tallied fits))
    · split
      · exact settled.setTopic found (created.trans (pays_setGroup created.tallied fits))
      · exact settled.setTopic found (created.trans (pays_setGroup created.tallied fits))

theorem settled_leaveMember (settled : Settled down s.topics live) (name group : Bytes) (owner : Nat) :
    Settled down (streamGroupLeaveMember s name group owner).1.topics live := by
  rw [streamGroupLeaveMember]
  split
  · exact settled
  cases found : findTopic s.topics name with
  | none => exact settled
  | some t =>
    simp only
    cases member : findGroup t group with
    | none => exact settled
    | some g =>
      simp only
      have fits : (g.leave owner).offsets.length = t.partitions := by
        have before := (settled.found found).group member
        rw [StreamGroup.leave]
        split <;> exact before
      split
      · exact settled.setTopic found (pays_setGroup (settled.found found) fits)
      · exact settled

/-- A guarded call that leaves the counter alone. -/
theorem settled_unmetered (settled : Settled down s.topics live) {compaction : Compaction}
    {call : StreamStore → StreamStore × Int}
    (passed : ∀ s₁ : StreamStore, Settled down s₁.topics live → Settled down (call s₁).1.topics live) :
    Settled down (guarded s compaction call).1.topics live := by
  have counter : guardedLive s compaction live (fun _ => live) = live := by
    rw [guardedLive]
    split
    · rfl
    · cases compaction <;> rfl
  have kept : Settled down (guarded s compaction call).1.topics
      (guardedLive s compaction live (fun _ => live)) :=
    settled_guarded settled (fun s₁ same => passed s₁ (same ▸ settled))
  rw [counter] at kept
  exact kept

theorem settled_call (settled : Settled down s.topics live) (made : Call)
    (failing : (made.run s).1.failed = true → down) :
    Settled down (made.run s).1.topics (made.live s live) := by
  cases made with
  | declare => exact settled_declare settled _ _ _ _ _ _ failing
  | append => exact settled_append settled ..
  | appendBatch => exact settled_appendBatch settled ..
  | truncate => exact settled_truncate settled ..
  | setRetention => exact settled_setRetention settled ..
  | delete => exact settled_delete settled ..
  | fetchMetadata => exact settled_fetchMetadata settled ..
  | commit => exact settled_commit settled ..
  | commitBatchForOwner => exact settled_commitBatchForOwner settled ..
  | join => exact settled_join settled ..
  | leaveMember => exact settled_leaveMember settled ..
  | leaveOwner owner =>
    change Settled down (streamGroupLeaveOwner s owner).topics live
    rw [streamGroupLeaveOwner]
    split
    · exact settled
    · exact settled_onEveryGroup settled (fun _ => ⟨rfl, rfl⟩)
  | reap mono => exact settled_onEveryGroup settled (fun _ => ⟨rfl, rfl⟩)
  | checkpointMaybe => exact settled_unmetered settled (fun _ settled => settled)
  | commitIfGeneration compaction mono name group p offset expected =>
    change Settled down (streamCommitIfGeneration s compaction mono name group p offset expected).1.topics live
    rw [streamCommitIfGeneration]
    split
    · exact settled
    refine settled_unmetered settled fun s₁ settled => ?_
    split
    · exact settled
    refine settled_onGroup settled fun s₂ t g settled found fits => ?_
    split
    · exact settled
    · split
      · exact settled
      · exact settled_commitGroup settled found fits _
  | commitBatchIfGeneration compaction mono name group commits expected =>
    change Settled down (streamCommitBatchIfGeneration s compaction mono name group commits expected).1.topics
      live
    rw [streamCommitBatchIfGeneration]
    split
    · exact settled
    refine settled_unmetered settled fun s₁ settled => ?_
    refine settled_onGroup settled fun s₂ t g settled found fits => ?_
    split
    · exact settled
    · split
      · exact settled
      · exact settled_commitGroup settled found fits _
  | resetOffsets compaction mono name group expected strategy force =>
    change Settled down (streamGroupResetOffsetsIfGeneration s compaction mono name group expected strategy
      force).1.topics live
    rw [streamGroupResetOffsetsIfGeneration]
    split
    · exact settled
    refine settled_unmetered settled fun s₁ settled => ?_
    refine settled_onGroup settled fun s₂ t g settled found fits => ?_
    split
    · exact settled
    · split
      · exact settled
      · split
        · exact settled
        · exact settled_commitGroup settled found fits _
  | commitForOwner compaction mono name group p offset owner =>
    change Settled down (streamCommitForOwner s compaction mono name group p offset owner).1.topics live
    rw [streamCommitForOwner]
    split
    · exact settled
    refine settled_unmetered settled fun s₁ settled => ?_
    split
    · exact settled
    refine settled_onGroup settled fun s₂ t g settled found fits => ?_
    split
    · exact settled
    · exact settled_commitGroup settled found fits _
  | commitForOwnerIfGeneration compaction mono name group p offset owner expected =>
    change Settled down (streamCommitForOwnerIfGeneration s compaction mono name group p offset owner
      expected).1.topics live
    rw [streamCommitForOwnerIfGeneration]
    split
    · exact settled
    refine settled_unmetered settled fun s₁ settled => ?_
    split
    · exact settled
    refine settled_onGroup settled fun s₂ t g settled found fits => ?_
    split
    · exact settled
    · split
      · exact settled
      · split
        · exact settled
        · exact settled_commitGroup settled found fits _

end Calls

/-! ## Runs -/

theorem failed_call {s : StreamStore} (made : Call) (failed : s.failed = true) :
    (made.run s).1.failed = true := by
  have refused : ∀ (compaction : Compaction) (call : StreamStore → StreamStore × Int),
      (guarded s compaction call).1.failed = true := by
    intro compaction call
    rw [guarded, if_pos failed]
    exact failed
  by_cases fits : made.fits s.topics = true
  · exact (changes_run s made fits).failed failed
  · -- only appends can fail to fit, and they are refused
    cases made with
    | append =>
      change (streamAppend ..).1.failed = true
      rw [streamAppend]
      split
      · exact failed
      · exact refused _ _
    | appendBatch =>
      change (streamAppendBatch ..).1.failed = true
      rw [streamAppendBatch]
      split
      · exact failed
      · exact refused _ _
    | _ => exact absurd rfl fits

theorem settled_step (fresh : Bytes → StreamId) {s : StreamStore} {live : Nat}
    (settled : Settled (s.failed = true) s.topics live) (step : FileStep) :
    Settled ((step.run fresh s).failed = true) (step.run fresh s).topics (step.live fresh s live) := by
  cases step with
  | call made =>
    exact settled_call (settled.weaken (failed_call made)) made id
  | reopen now => exact settled_open fresh now s.log
  | disk writes => exact settled

theorem settled_runFile (fresh : Bytes → StreamId) : ∀ (steps : List FileStep) {s : StreamStore}
    {live : Nat}, Settled (s.failed = true) s.topics live →
      Settled ((runFile fresh s steps).failed = true) (runFile fresh s steps).topics
        (runLive fresh s live steps)
  | [], _, _, settled => settled
  | step :: rest, _, _, settled => settled_runFile fresh rest (settled_step fresh settled step)

/-- After any calls, failed writes and reopenings, from any file, the counter of live bytes and the
record counts are what a full recount gives. -/
theorem counters_recounted (fresh : Bytes → StreamId) (now : Nat) (file : List LogRecord)
    (steps : List FileStep) :
    runLive fresh (openLog fresh now file) (openLive fresh now file) steps =
        recountLive (runFile fresh (openLog fresh now file) steps).topics ∧
      (∀ t ∈ (runFile fresh (openLog fresh now file) steps).topics, t.records = topicRecount t) ∧
      ((runFile fresh (openLog fresh now file) steps).topics.map (·.records)).sum =
        recountRecords (runFile fresh (openLog fresh now file) steps).topics := by
  have settled := settled_runFile fresh steps (settled_open fresh now file)
  refine ⟨settled.live, fun t mem => (settled.tallied t mem).records, ?_⟩
  rw [recountRecords, List.map_congr_left (fun t mem => (settled.tallied t mem).records)]

end KuttiDB.Stream
