/- # KuttiDB.Stream.Changes -- what a call of the stream store can do

`Change` lists the ways in which a call changes the store: the compaction check, an `Edit` of one
topic together with the records logged for it, a topic added or removed, memberships changed. An
`Edit` carries the checks the call has made before. Failed writes are changes too: they leave the
store failed.

`changes_run` is the one walk over all calls: whatever a call does is a sequence of such changes. What
every call keeps is then shown per change.
-/
import KuttiDB.Stream.LogReplay
import Mathlib.Logic.Relation

namespace KuttiDB.Stream

open KuttiDB.QueueStore (Bytes u64)
open KuttiDB.Theory

set_option autoImplicit false

/-! ## What a call is about -/

/-- How the compaction check of a call ends. -/
def Call.compaction : Call → Compaction
  | .declare c .. | .append c .. | .appendBatch c .. | .truncate c .. | .setRetention c ..
  | .delete c .. | .commit c .. | .commitIfGeneration c .. | .commitBatchIfGeneration c ..
  | .resetOffsets c .. | .commitForOwner c .. | .commitForOwnerIfGeneration c ..
  | .commitBatchForOwner c .. | .checkpointMaybe c => c
  | .fetchMetadata .. | .join .. | .leaveMember .. | .leaveOwner .. | .reap .. => .notDue

/-- The topic a call is about. -/
def Call.topic : Call → Option Bytes
  | .declare _ _ name .. | .append _ _ _ name .. | .appendBatch _ _ _ name .. | .truncate _ name ..
  | .setRetention _ _ name .. | .delete _ name .. | .fetchMetadata _ name .. | .commit _ name ..
  | .commitIfGeneration _ _ name .. | .commitBatchIfGeneration _ _ name .. | .resetOffsets _ _ name ..
  | .commitForOwner _ _ name .. | .commitForOwnerIfGeneration _ _ name ..
  | .commitBatchForOwner _ _ name .. | .join _ name .. | .leaveMember name .. => some name
  | .leaveOwner .. | .reap .. | .checkpointMaybe .. => none

/-- The call may change the list of topics. -/
def Call.relists : Call → Bool
  | .declare .. | .delete .. => true
  | _ => false

def Call.isDeclare : Call → Bool
  | .declare .. => true
  | _ => false

def Call.isDelete : Call → Bool
  | .delete .. => true
  | _ => false

theorem Call.relists_eq (c : Call) : c.relists = (c.isDeclare || c.isDelete) := by
  cases c <;> rfl

/-- Offsets to be committed to a group. -/
structure Entries where
  topic : Bytes
  group : Bytes
  offsets : List (Nat × Nat)
  deriving DecidableEq, Repr

/-- What the commit entry points are given; a reset computes its offsets itself. -/
def Call.entries : Call → Option Entries
  | .commit _ name group p offset => some ⟨name, group, [(p, offset)]⟩
  | .commitIfGeneration _ _ name group p offset _ => some ⟨name, group, [(p, offset)]⟩
  | .commitBatchIfGeneration _ _ name group commits _ => some ⟨name, group, commits⟩
  | .commitForOwner _ _ name group p offset _ => some ⟨name, group, [(p, offset)]⟩
  | .commitForOwnerIfGeneration _ _ name group p offset _ _ => some ⟨name, group, [(p, offset)]⟩
  | .commitBatchForOwner _ _ name group _ commits => some ⟨name, group, commits⟩
  | _ => none

def Call.resets : Call → Bool
  | .resetOffsets .. => true
  | _ => false

/-- The one entry point that passes over an offset below the committed one. -/
def Call.ordered : Call → Bool
  | .commit .. => true
  | _ => false

/-- The retention pass at the end of a call: its clock and the topic it is run on. -/
def Call.pass (topics : List StreamTopic) : Call → Option (Nat × StreamTopic)
  | .append _ now enforceNow name hint input => (findTopic topics name).map fun t =>
    let p := choosePart t hint input.key
    (enforceNow, partLink t p ⟨(t.part p).next, now, input.key, input.body⟩)
  | .appendBatch _ now enforceNow name hint inputs => (findTopic topics name).bind fun t =>
    (batchItems t hint now (t.parts.map (·.next)) inputs).map fun items =>
      (enforceNow, linkItems t items)
  | .setRetention _ now name maxBytes maxAgeMs _ => (findTopic topics name).map fun t =>
    (now, { t with maxBytes := maxBytes, maxAgeMs := maxAgeMs, revision := bump t.revision })
  | .fetchMetadata now name _ => (findTopic topics name).map fun t => (now, t)
  | _ => none

/-! ## Changes -/

/-- Memberships changed, or a group added that has committed nothing. -/
structure Regrouped (t t' : StreamTopic) : Prop where
  rest : t' = { t with groups := t'.groups }
  offsets : ∀ group p, groupOffset t' group p = groupOffset t group p
  sound : t.Sound → t'.Sound

/-- A change of one topic and the records logged for it. -/
inductive Edit (c : Call) (start : List StreamTopic) :
    StreamTopic → StreamTopic → List LogRecord → Prop
  | link {t : StreamTopic} {p : Nat} {r : StreamRecord} (first : findTopic start t.name = some t)
      (inside : p < t.partitions) (here : r.offset = (t.part p).next)
      (room : (t.part p).next ≠ uint64Max) (fits : RecordFits t.name r) : Edit c start t (partLink t p r) [.append t.name ⟨p, r⟩]
  | batch {t : StreamTopic} {items : List BatchItem} (first : findTopic start t.name = some t)
      (accepted : appendItems t items = (linkItems t items, true))
      (room : ∀ i ∈ items, i.record.offset ≠ uint64Max) (some_ : items ≠ [])
      (limit : items.length ≤ streamFetchMax)
      (len : (LogRecord.appendBatch t.name items).len ≤ recordMax) :
      Edit c start t (linkItems t items) [.appendBatch t.name items]
  | trim {t : StreamTopic} {p b : Nat} (first : findTopic start t.name = some t)
      (inside : p < t.partitions) (above : (t.part p).base ≤ b) (within : b ≤ (t.part p).next) :
      Edit c start t (trimPart t p b) [.trim t.name p b]
  | retention {t : StreamTopic} (first : findTopic start t.name = some t) (maxBytes maxAgeMs : Nat) :
      Edit c start t
        { t with maxBytes := maxBytes, maxAgeMs := maxAgeMs, revision := bump t.revision }
        [.retention t.name maxBytes maxAgeMs]
  | enforce {t : StreamTopic} {now : Nat} (due : c.pass start = some (now, t)) :
      Edit c start t (enforce now t).1 (trimRecords t.name (Stream.enforce now t).2)
  | commit {t : StreamTopic} {g : StreamGroup} {commits : List (Nat × Nat)}
      (found : findGroup t g.name = some g) (inside : ∀ e ∈ commits, e.1 < t.partitions)
      (since : ∃ t₀, findTopic start t.name = some t₀ ∧
        ∀ group p, groupOffset t group p = groupOffset t₀ group p)
      (asked : c.resets = true ∨ c.entries = some ⟨t.name, g.name, commits⟩)
      (ordered : c.ordered = true → ∀ e ∈ commits, groupOffset t g.name e.1 ≤ e.2) :
      Edit c start t (setGroup t (g.commitAll commits))
        (commits.map (fun e => .commit t.name g.name e.1 e.2))
  | members {t t' : StreamTopic} (regrouped : Regrouped t t') : Edit c start t t' []

/-- One change made by call `c`, which found the topics `start`. -/
inductive Change (c : Call) (start : List StreamTopic) (s : StreamStore) : StreamStore → Prop
  | compacted (due : c.compaction = .done) (first : s.topics = start) :
      Change c start s { s with log := compactRecords s.topics }
  | broken (due : c.compaction = .failed) : Change c start s { s with failed := true }
  | edited {t t' : StreamTopic} {records : List LogRecord} {s' : StreamStore}
      (named : c.topic = some t.name) (found : findTopic s.topics t.name = some t)
      (edit : Edit c start t t' records) (logged : logEach s records = (s', true)) :
      Change c start s { s' with topics := setTopic s.topics t' }
  | refused {records : List LogRecord} {s' : StreamStore} (logged : logEach s records = (s', false)) :
      Change c start s s'
  /-- The retention pass changes memory before it is logged. -/
  | unlogged {t : StreamTopic} {now : Nat} {s' : StreamStore} (named : c.topic = some t.name)
      (found : findTopic s.topics t.name = some t) (due : c.pass start = some (now, t))
      (logged : logEach s (trimRecords t.name (enforce now t).2) = (s', false)) :
      Change c start s { s' with topics := setTopic s.topics (enforce now t).1 }
  | declared {name : Bytes} {partitions maxBytes maxAgeMs : Nat} {id : StreamId} {s' : StreamStore}
      {ok : Bool} (declares : c.isDeclare = true) (named : c.topic = some name)
      (nonempty : name ≠ [] ∧ name.length ≤ streamNameMax)
      (divided : 0 < partitions ∧ partitions ≤ streamPartitionsMax)
      (absent : findTopic s.topics name = none)
      (logged : logEach s [.declare name partitions maxBytes maxAgeMs, .identity name id]
        = (s', ok)) :
      Change c start s { s' with
        topics := { newTopic name partitions maxBytes maxAgeMs id with idPersisted := ok }
          :: s.topics }
  | dropped {t : StreamTopic} {s' : StreamStore} (deletes : c.isDelete = true)
      (named : c.topic = some t.name) (found : findTopic s.topics t.name = some t)
      (logged : logEach s [.delete t.name] = (s', true)) :
      Change c start s { s' with topics := dropTopic s.topics t.name }
  | regrouped {change : StreamGroup → StreamGroup}
      (keeps : ∀ g, (change g).name = g.name ∧ (change g).offsets = g.offsets) :
      Change c start s (onEveryGroup s change)

abbrev Changes (c : Call) (start : List StreamTopic) : StreamStore → StreamStore → Prop :=
  Relation.ReflTransGen (Change c start)

/-! ## Logging -/

/-- What is in memory has no part in writing to the log. -/
theorem logEach_memory (topics : List StreamTopic) : ∀ (records : List LogRecord) (s : StreamStore),
    logEach { s with topics := topics } records
      = ({ (logEach s records).1 with topics := topics }, (logEach s records).2)
  | [], _ => rfl
  | r :: rest, s => by
    have one : logRecord { s with topics := topics } r
        = ({ (logRecord s r).1 with topics := topics }, (logRecord s r).2) := by
      unfold logRecord
      cases s.writes with
      | none => rfl
      | some n => cases n <;> rfl
    rw [logEach, logEach, one]
    cases logRecord s r with
    | mk s' ok =>
      cases ok with
      | false => rfl
      | true => exact logEach_memory topics rest s'

@[simp] theorem linkItems_name (t : StreamTopic) (items : List BatchItem) :
    (linkItems t items).name = t.name := by
  induction items generalizing t with
  | nil => rfl
  | cons item rest ih => exact ih (partLink t item.part item.record)

namespace Changes

variable {c : Call} {start : List StreamTopic} {s : StreamStore} {t t' : StreamTopic}
  {g : StreamGroup} {compaction : Compaction} {name group : Bytes} {records : List LogRecord}

theorem guarded {call : StreamStore → StreamStore × Int} (due : c.compaction = compaction)
    (body : ∀ s' : StreamStore, s'.topics = s.topics → Changes c s.topics s' (call s').1) :
    Changes c s.topics s (guarded s compaction call).1 := by
  unfold Stream.guarded
  split
  · exact .refl
  · cases compaction with
    | notDue => exact body s rfl
    | failed => exact .single (.broken due)
    | done => exact .head (.compacted due rfl) (body _ rfl)

theorem logThenApply (named : c.topic = some t.name) (found : findTopic s.topics t.name = some t)
    (edit : Edit c start t t' records) : Changes c start s (logThenApply s records t').1 := by
  have memory := logEach_topics records s
  unfold Stream.logThenApply
  cases logged : logEach s records with
  | mk s' ok =>
    rw [logged] at memory
    cases ok with
    | true =>
      change Changes c start s { s' with topics := setTopic s'.topics t' }
      rw [show s'.topics = s.topics from memory]
      exact .single (.edited named found edit logged)
    | false => exact .single (.refused logged)

theorem enforceAndLog {now : Nat} (named : c.topic = some t.name)
    (found : findTopic s.topics t.name = some t) (due : c.pass start = some (now, t)) :
    Changes c start s (enforceAndLog s now t).1 := by
  unfold Stream.enforceAndLog applyThenLog
  rw [logEach_memory]
  cases logged : logEach s (trimRecords t.name (enforce now t).2) with
  | mk s' ok =>
    cases ok with
    | true => exact .single (.edited named found (.enforce due) logged)
    | false => exact .single (.unlogged named found due logged)

theorem logThenEnforce {now : Nat} (named : c.topic = some t.name)
    (found : findTopic s.topics t.name = some t) (edit : Edit c start t t' records)
    (same : t'.name = t.name) (due : c.pass start = some (now, t')) :
    Changes c start s (match Stream.logThenApply s records t' with
      | (s', 0) => Stream.enforceAndLog s' now t'
      | failed => failed).1 := by
  have memory := logEach_topics records s
  unfold Stream.logThenApply
  cases logged : logEach s records with
  | mk s' ok =>
    rw [logged] at memory
    cases ok with
    | true =>
      simp only [show s'.topics = s.topics from memory]
      refine .head (.edited named found edit logged) (enforceAndLog (same ▸ named) ?_ due)
      rw [same]
      exact findTopic_setTopic_same found same
    | false => exact .single (.refused logged)

/-- A change of memberships, which logs nothing. -/
theorem members (named : c.topic = some t.name) (found : findTopic s.topics t.name = some t)
    (regrouped : Regrouped t t') :
    Change c start s { s with topics := setTopic s.topics t' } :=
  .edited named found (.members regrouped) rfl

theorem commitGroup {commits : List (Nat × Nat)} (named : c.topic = some t.name)
    (found : findTopic s.topics t.name = some t) (foundG : findGroup t g.name = some g)
    (inside : ∀ e ∈ commits, e.1 < t.partitions)
    (since : ∃ t₀, findTopic start t.name = some t₀ ∧
      ∀ group p, groupOffset t group p = groupOffset t₀ group p)
    (asked : c.resets = true ∨ c.entries = some ⟨t.name, g.name, commits⟩)
    (ordered : c.ordered = true → ∀ e ∈ commits, groupOffset t g.name e.1 ≤ e.2) :
    Changes c start s (commitGroup s t g commits).1 :=
  logThenApply named found (.commit foundG inside since asked ordered)

end Changes

/-! ## Groups -/

theorem Regrouped.set {t : StreamTopic} {g h : StreamGroup} (found : findGroup t g.name = some g)
    (name : h.name = g.name) (offsets : h.offsets = g.offsets) : Regrouped t (setGroup t h) := by
  refine ⟨rfl, groupOffset_setGroup found name offsets, fun sound => sound.setGroup ?_⟩
  exact (sound.foundGroup found).1.congr rfl rfl name (by rw [offsets])

theorem Regrouped.ensure (t : StreamTopic) {group : Bytes} (limit : group.length ≤ streamGroupMax) :
    Regrouped t (ensureGroup t group).1 := by
  refine ⟨?_, groupOffset_ensureGroup t group, fun sound => ?_⟩
  · unfold ensureGroup
    split <;> rfl
  · exact (sound.ensureGroup group (commit_len_le sound.fit.named.2 limit)).1

theorem Regrouped.refl (t : StreamTopic) : Regrouped t t := ⟨rfl, fun _ _ => rfl, id⟩

/-- Memberships changed in every group. -/
theorem Regrouped.every {change : StreamGroup → StreamGroup}
    (keeps : ∀ g, (change g).name = g.name ∧ (change g).offsets = g.offsets) (t : StreamTopic) :
    Regrouped t { t with groups := t.groups.map change } :=
  ⟨rfl, groupOffset_regrouped keeps t, fun sound => sound.mapGroups keeps⟩

theorem Regrouped.trans {t u v : StreamTopic} (first : Regrouped t u) (second : Regrouped u v) :
    Regrouped t v :=
  ⟨second.rest.trans (by rw [first.rest]), fun group p =>
    (second.offsets group p).trans (first.offsets group p), fun sound => second.sound (first.sound sound)⟩

theorem Regrouped.name {t t' : StreamTopic} (regrouped : Regrouped t t') : t'.name = t.name := by
  rw [regrouped.rest]

theorem Regrouped.partitions {t t' : StreamTopic} (regrouped : Regrouped t t') :
    t'.partitions = t.partitions := by
  rw [regrouped.rest]
  rfl

theorem ensureGroup_name (t : StreamTopic) (group : Bytes) : (ensureGroup t group).2.name = group := by
  unfold ensureGroup
  split
  · exact (lookup_some _ ‹_›).2
  · rfl

/-- What a call knows of the group it works on, once the group is created or reaped. -/
structure OnGroup (c : Call) (start : List StreamTopic) (s : StreamStore) (t : StreamTopic)
    (g : StreamGroup) : Prop where
  named : c.topic = some t.name
  found : findTopic s.topics t.name = some t
  group : findGroup t g.name = some g
  since : ∃ t₀, findTopic start t.name = some t₀ ∧
    ∀ group p, groupOffset t group p = groupOffset t₀ group p

namespace OnGroup

variable {c : Call} {start : List StreamTopic} {s : StreamStore} {t u : StreamTopic}
  {g : StreamGroup} {commits : List (Nat × Nat)}

theorem of_regrouped (named : c.topic = some t.name) (found : findTopic s.topics t.name = some t)
    (same : s.topics = start) (regrouped : Regrouped t u) (foundG : findGroup u g.name = some g) :
    OnGroup c start { s with topics := setTopic s.topics u } u g := by
  refine ⟨regrouped.name ▸ named, ?_, foundG, t, ?_, regrouped.offsets⟩
  · rw [regrouped.name]
    exact findTopic_setTopic_same found regrouped.name
  · rw [← same, regrouped.name]
    exact found

theorem commit (on : OnGroup c start s t g) (inside : ∀ e ∈ commits, e.1 < t.partitions)
    (asked : c.resets = true ∨ c.entries = some ⟨t.name, g.name, commits⟩)
    (ordered : c.ordered = true → ∀ e ∈ commits, groupOffset t g.name e.1 ≤ e.2) :
    Changes c start s (commitGroup s t g commits).1 :=
  Changes.commitGroup on.named on.found on.group inside on.since asked ordered

end OnGroup

namespace Changes

variable {c : Call} {start : List StreamTopic} {s : StreamStore} {t t' : StreamTopic}
  {g : StreamGroup} {compaction : Compaction} {name group : Bytes} {records : List LogRecord}

/-- A call that creates the group if it is missing. -/
theorem ensured (named : c.topic = some t.name) (found : findTopic s.topics t.name = some t)
    (same : s.topics = start) (limit : group.length ≤ streamGroupMax) :
    Change c start s { s with topics := setTopic s.topics (ensureGroup t group).1 } ∧
      OnGroup c start { s with topics := setTopic s.topics (ensureGroup t group).1 }
        (ensureGroup t group).1 (ensureGroup t group).2 := by
  have regrouped := Regrouped.ensure t limit
  refine ⟨members named found regrouped, .of_regrouped named found same regrouped ?_⟩
  rw [ensureGroup_name]
  exact ensureGroup_found t group

/-- A call on an existing group, which is reaped first. -/
theorem onGroup (named : c.topic = some name) (same : s.topics = start) (mono : Nat) (missing : Int)
    {call : StreamStore → StreamTopic → StreamGroup → StreamStore × Int}
    (body : ∀ (s' : StreamStore) (t u : StreamTopic) (g : StreamGroup),
      findTopic s.topics name = some t → u.partitions = t.partitions → u.name = name →
      g.name = group → OnGroup c start s' u g → Changes c start s' (call s' u g).1) :
    Changes c start s (onGroup s name group mono missing call).1 := by
  unfold Stream.onGroup
  cases found : findTopic s.topics name with
  | none => exact .refl
  | some t =>
    cases foundG : findGroup t group with
    | none =>
      simp only [foundG]
      exact .refl
    | some g =>
      simp only [foundG]
      obtain ⟨-, rfl⟩ := findTopic_some found
      obtain ⟨-, rfl⟩ := lookup_some _ foundG
      have regrouped : Regrouped t (setGroup t (g.reap mono)) := .set foundG rfl rfl
      have reaped : findGroup (setGroup t (g.reap mono)) g.name = some (g.reap mono) :=
        findGroup_setGroup_same foundG rfl
      exact .head (members named found regrouped) (body _ t _ _ found rfl rfl rfl
        (.of_regrouped named found same regrouped reaped))

/-! ## The calls -/

theorem declare (s : StreamStore) (compaction : Compaction) (id : StreamId) (name : Bytes)
    (partitions maxBytes maxAgeMs : Nat) :
    Changes (.declare compaction id name partitions maxBytes maxAgeMs) s.topics s
      (streamDeclare s compaction id name partitions maxBytes maxAgeMs).1 := by
  refine guarded rfl fun s' _ => ?_
  cases added : addTopic s'.topics name partitions maxBytes maxAgeMs id with
  | none => exact .refl
  | some topics =>
    simp only
    unfold addTopic at added
    split at added
    · cases added
    · rename_i limits
      simp only [not_or, not_lt, Nat.pos_iff_ne_zero.symm] at limits
      cases known : findTopic s'.topics name with
      | some t => exact .refl
      | none =>
        simp only [known, Option.some.injEq] at added
        subst added
        rw [if_neg (by simp), logEach_memory]
        cases logged : logEach s' [.declare name partitions maxBytes maxAgeMs, .identity name id] with
        | mk s'' ok =>
          have change : Change (.declare compaction id name partitions maxBytes maxAgeMs) s.topics s' _ :=
            .declared rfl rfl ⟨limits.1, limits.2.1⟩ ⟨limits.2.2.1, limits.2.2.2⟩ known logged
          cases ok with
          | false => exact .single change
          | true =>
            -- the topic just linked is the first of the list
            have first : setTopic (newTopic name partitions maxBytes maxAgeMs id :: s'.topics)
                { newTopic name partitions maxBytes maxAgeMs id with idPersisted := true }
                  = { newTopic name partitions maxBytes maxAgeMs id with idPersisted := true }
                    :: s'.topics := by
              rw [setTopic, updateFirst_cons_hit (by simp [newTopic])]
            simp only [first]
            exact .single change

theorem append (s : StreamStore) (compaction : Compaction) (now enforceNow : Nat) (name : Bytes)
    (hint : Nat) (input : AppendInput)
    (fits : (Call.append compaction now enforceNow name hint input).fits s.topics = true) :
    Changes (.append compaction now enforceNow name hint input) s.topics s
      (streamAppend s compaction now enforceNow name hint input).1 := by
  unfold streamAppend
  split
  · exact .refl
  · rename_i size
    refine guarded rfl fun s' same => ?_
    cases found : findTopic s'.topics name with
    | none => exact .refl
    | some t =>
      simp only
      split
      · exact .refl
      · rename_i inside
        rw [← same] at fits ⊢
        have room : (t.part (choosePart t hint input.key)).next ≠ uint64Max := by
          simpa [Call.fits, found] using fits
        obtain ⟨-, rfl⟩ := findTopic_some found
        refine logThenEnforce rfl found (.link found (Nat.lt_of_not_le inside) rfl room
          (append_fits (Nat.le_of_not_lt size))) rfl ?_
        simp only [Call.pass, found, Option.map_some]

theorem appendBatch (s : StreamStore) (compaction : Compaction) (now enforceNow : Nat) (name : Bytes)
    (hint : Nat) (inputs : List AppendInput)
    (fits : (Call.appendBatch compaction now enforceNow name hint inputs).fits s.topics = true) :
    Changes (.appendBatch compaction now enforceNow name hint inputs) s.topics s
      (streamAppendBatch s compaction now enforceNow name hint inputs).1 := by
  unfold streamAppendBatch
  split
  · exact .refl
  · rename_i limits
    simp only [not_or, not_lt] at limits
    refine guarded rfl fun s' same => ?_
    cases found : findTopic s'.topics name with
    | none => exact .refl
    | some t =>
      cases given : batchItems t hint now (t.parts.map (·.next)) inputs with
      | none =>
        simp only [given]
        exact .refl
      | some items =>
        simp only [given]
        split
        · exact .refl
        · rename_i len
          rw [← same] at fits ⊢
          have room : ∀ i ∈ items, i.record.offset ≠ uint64Max := by
            simpa [Call.fits, found, given] using fits
          have length : items.length = inputs.length := batchItems_length given
          have some_ : items ≠ [] := by
            intro none_
            rw [none_, List.length_nil] at length
            exact limits.1 (List.length_eq_zero_iff.mp length.symm)
          obtain ⟨-, rfl⟩ := findTopic_some found
          refine logThenEnforce rfl found (.batch found (appendItems_of_batch given) room some_
            (by omega) (Nat.le_of_not_lt len)) (linkItems_name t items) ?_
          simp only [Call.pass, found, given, Option.bind_some, Option.map_some]

theorem truncate (s : StreamStore) (compaction : Compaction) (name : Bytes) (p base expected : Nat) :
    Changes (.truncate compaction name p base expected) s.topics s
      (streamTruncateIfRevision s compaction name p base expected).1 := by
  refine guarded rfl fun s' same => ?_
  cases found : findTopic s'.topics name with
  | none => exact .refl
  | some t =>
    simp only
    split
    · exact .refl
    · rename_i inside
      split
      · exact .refl
      · split
        · exact .refl
        · rename_i range
          obtain ⟨-, rfl⟩ := findTopic_some found
          exact logThenApply rfl found
            (.trim (same ▸ found) (Nat.lt_of_not_le inside) (by omega) (by omega))

theorem setRetention (s : StreamStore) (compaction : Compaction) (now : Nat) (name : Bytes)
    (maxBytes maxAgeMs expected : Nat) :
    Changes (.setRetention compaction now name maxBytes maxAgeMs expected) s.topics s
      (streamSetRetentionIfRevision s compaction now name maxBytes maxAgeMs expected).1 := by
  unfold streamSetRetentionIfRevision
  split
  · exact .refl
  · refine guarded rfl fun s' same => ?_
    cases found : findTopic s'.topics name with
    | none => exact .refl
    | some t =>
      simp only
      split
      · exact .refl
      · obtain ⟨-, rfl⟩ := findTopic_some found
        refine logThenEnforce rfl found (.retention (same ▸ found) maxBytes maxAgeMs) rfl ?_
        rw [← same]
        simp only [Call.pass, found, Option.map_some]

theorem delete (s : StreamStore) (compaction : Compaction) (name : Bytes) (expected : Nat) :
    Changes (.delete compaction name expected) s.topics s
      (streamDeleteIfRevision s compaction name expected).1 := by
  unfold streamDeleteIfRevision
  split
  · exact .refl
  · refine guarded rfl fun s' _ => ?_
    cases found : findTopic s'.topics name with
    | none => exact .refl
    | some t =>
      simp only
      split
      · exact .refl
      · obtain ⟨-, rfl⟩ := findTopic_some found
        have memory := logEach_topics [.delete t.name] s'
        cases logged : logEach s' [.delete t.name] with
        | mk s'' ok =>
          rw [logged] at memory
          cases ok with
          | false => exact .single (.refused logged)
          | true =>
            simp only [show s''.topics = s'.topics from memory]
            exact .single (.dropped rfl rfl found logged)

theorem fetchMetadata (s : StreamStore) (now : Nat) (name : Bytes) (p : Nat) :
    Changes (.fetchMetadata now name p) s.topics s (streamFetchMetadata s now name p).1 := by
  unfold streamFetchMetadata
  cases found : findTopic s.topics name with
  | none => exact .refl
  | some t =>
    obtain ⟨-, rfl⟩ := findTopic_some found
    have passed : Changes (.fetchMetadata now t.name p) s.topics s (Stream.enforceAndLog s now t).1 :=
      enforceAndLog rfl found (by simp only [Call.pass, found, Option.map_some])
    simp only
    split
    · exact .refl
    · split <;> simp_all

theorem commit (s : StreamStore) (compaction : Compaction) (name group : Bytes) (p offset : Nat) :
    Changes (.commit compaction name group p offset) s.topics s
      (streamCommit s compaction name group p offset).1 := by
  unfold streamCommit
  split
  · exact .refl
  · rename_i limits
    simp only [not_or, not_lt] at limits
    refine guarded rfl fun s' same => ?_
    cases found : findTopic s'.topics name with
    | none => exact .refl
    | some t =>
      simp only
      split
      · exact .refl
      · rename_i checks
        simp only [not_or, not_le] at checks
        obtain ⟨-, rfl⟩ := findTopic_some found
        obtain ⟨created, on⟩ := ensured (c := .commit compaction t.name group p offset) rfl found same
          limits.2
        refine .head created ?_
        split
        · exact .refl
        · rename_i ahead
          have named := (Regrouped.ensure t limits.2).name
          refine on.commit ?_ (.inr ?_) fun _ => ?_
          · rw [(Regrouped.ensure t limits.2).partitions]
            simpa using checks.1
          · simp only [Call.entries, named, ensureGroup_name]
          · have current : groupOffset (ensureGroup t group).1 (ensureGroup t group).2.name p
                = (ensureGroup t group).2.offsets.getD p 0 := by
              simp only [groupOffset, on.group]
            simpa [current] using Nat.le_of_not_le ahead

/-- The partition of a single commit exists. -/
theorem single_inside {u : StreamTopic} {p offset : Nat} (found : findTopic s.topics name = some t)
    (count : u.partitions = t.partitions)
    (inside : ¬ (findTopic s.topics name).any (fun t => p ≥ t.partitions) = true) :
    ∀ e ∈ [(p, offset)], e.1 < u.partitions := by
  intro e mem
  cases List.mem_singleton.mp mem
  rw [found] at inside
  simpa [count] using inside

theorem checkCommits_inside {u : StreamTopic} : ∀ {commits : List (Nat × Nat)},
    checkCommits u commits = 0 → ∀ e ∈ commits, e.1 < u.partitions ∧ inRange u e.1 e.2 = true
  | (p, offset) :: rest, checked, e, mem => by
    rw [checkCommits] at checked
    split at checked
    · simp at checked
    · rename_i inside
      split at checked
      · simp at checked
      · rename_i range
        rcases List.mem_cons.mp mem with rfl | later
        · exact ⟨Nat.lt_of_not_le inside, by simpa using range⟩
        · exact checkCommits_inside checked e later

theorem commitIfGeneration (s : StreamStore) (compaction : Compaction) (mono : Nat)
    (name group : Bytes) (p offset expected : Nat) :
    Changes (.commitIfGeneration compaction mono name group p offset expected) s.topics s
      (streamCommitIfGeneration s compaction mono name group p offset expected).1 := by
  unfold streamCommitIfGeneration
  split
  · exact .refl
  · refine guarded rfl fun s' same => ?_
    split
    · exact .refl
    · rename_i inside
      refine onGroup rfl same mono 3 fun s'' t u g found count nameU nameG on => ?_
      split
      · exact .refl
      · split
        · exact .refl
        · exact on.commit (single_inside found count inside)
            (.inr (by simp only [Call.entries, nameU, nameG])) nofun

theorem commitBatchIfGeneration (s : StreamStore) (compaction : Compaction) (mono : Nat)
    (name group : Bytes) (commits : List (Nat × Nat)) (expected : Nat) :
    Changes (.commitBatchIfGeneration compaction mono name group commits expected) s.topics s
      (streamCommitBatchIfGeneration s compaction mono name group commits expected).1 := by
  unfold streamCommitBatchIfGeneration
  split
  · exact .refl
  · refine guarded rfl fun s' same => ?_
    refine onGroup rfl same mono 3 fun s'' t u g found count nameU nameG on => ?_
    split
    · exact .refl
    · split
      · exact .refl
      · rename_i checked
        exact on.commit (fun e mem => (checkCommits_inside (not_not.mp checked) e mem).1)
          (.inr (by simp only [Call.entries, nameU, nameG])) nofun

theorem mem_of_mapM {α β : Type} {f : α → Option β} : ∀ {xs : List α} {ys : List β},
    xs.mapM f = some ys → ∀ y ∈ ys, ∃ x ∈ xs, f x = some y
  | [], _, given, y, mem => by
    simp only [List.mapM_nil, Option.pure_def, Option.some.injEq] at given
    subst given
    cases mem
  | x :: xs, ys, given, y, mem => by
    simp only [List.mapM_cons, Option.bind_eq_bind, Option.bind_eq_some_iff, Option.pure_def,
      Option.some.injEq] at given
    obtain ⟨z, here, zs, later, rfl⟩ := given
    rcases List.mem_cons.mp mem with rfl | rest
    · exact ⟨x, List.mem_cons_self, here⟩
    · obtain ⟨x', memX, eq⟩ := mem_of_mapM later y rest
      exact ⟨x', List.mem_cons_of_mem _ memX, eq⟩

theorem resetTargets_inside {u : StreamTopic} {strategy : ResetStrategy}
    {targets : List (Nat × Nat)} (given : resetTargets u g strategy = some targets) :
    ∀ e ∈ targets, e.1 < u.partitions := by
  intro e mem
  obtain ⟨p, memP, eq⟩ := mem_of_mapM given e mem
  split at eq
  · cases eq
  · split at eq
    · cases eq
      exact List.mem_range.mp memP
    · cases eq

theorem resetOffsets (s : StreamStore) (compaction : Compaction) (mono : Nat) (name group : Bytes)
    (expected : Nat) (strategy : ResetStrategy) (force : Bool) :
    Changes (.resetOffsets compaction mono name group expected strategy force) s.topics s
      (streamGroupResetOffsetsIfGeneration s compaction mono name group expected strategy force).1 := by
  unfold streamGroupResetOffsetsIfGeneration
  split
  · exact .refl
  · refine guarded rfl fun s' same => ?_
    refine onGroup rfl same mono 3 fun s'' t u g found count nameU nameG on => ?_
    split
    · exact .refl
    · split
      · exact .refl
      · split
        · exact .refl
        · rename_i targets given
          exact on.commit (resetTargets_inside given) (.inl rfl) nofun

theorem commitForOwner (s : StreamStore) (compaction : Compaction) (mono : Nat)
    (name group : Bytes) (p offset owner : Nat) :
    Changes (.commitForOwner compaction mono name group p offset owner) s.topics s
      (streamCommitForOwner s compaction mono name group p offset owner).1 := by
  unfold streamCommitForOwner
  split
  · exact .refl
  · refine guarded rfl fun s' same => ?_
    split
    · exact .refl
    · rename_i inside
      refine onGroup rfl same mono (-1) fun s'' t u g found count nameU nameG on => ?_
      split
      · exact .refl
      · exact on.commit (single_inside found count inside)
          (.inr (by simp only [Call.entries, nameU, nameG])) nofun

theorem commitForOwnerIfGeneration (s : StreamStore) (compaction : Compaction) (mono : Nat)
    (name group : Bytes) (p offset owner expected : Nat) :
    Changes (.commitForOwnerIfGeneration compaction mono name group p offset owner expected) s.topics s
      (streamCommitForOwnerIfGeneration s compaction mono name group p offset owner expected).1 := by
  unfold streamCommitForOwnerIfGeneration
  split
  · exact .refl
  · refine guarded rfl fun s' same => ?_
    split
    · exact .refl
    · rename_i inside
      refine onGroup rfl same mono 3 fun s'' t u g found count nameU nameG on => ?_
      split
      · exact .refl
      · split
        · exact .refl
        · split
          · exact .refl
          · exact on.commit (single_inside found count inside)
              (.inr (by simp only [Call.entries, nameU, nameG])) nofun

theorem commitBatchForOwner (s : StreamStore) (compaction : Compaction) (mono : Nat)
    (name group : Bytes) (owner : Nat) (commits : List (Nat × Nat)) :
    Changes (.commitBatchForOwner compaction mono name group owner commits) s.topics s
      (streamCommitBatchForOwner s compaction mono name group owner commits).1 := by
  unfold streamCommitBatchForOwner
  split
  · exact .refl
  · rename_i limits
    simp only [not_or, not_lt] at limits
    refine guarded rfl fun s' same => ?_
    split
    · cases found : findTopic s'.topics name with
      | none => exact .refl
      | some t =>
        obtain ⟨-, rfl⟩ := findTopic_some found
        obtain ⟨created, on⟩ := ensured (c := .commitBatchForOwner compaction mono t.name group owner
          commits) rfl found same limits.2.1
        refine .head created ?_
        simp only
        split
        · exact .refl
        · rename_i inside
          have regrouped := Regrouped.ensure t limits.2.1
          refine on.commit (fun e mem => ?_) (.inr ?_) nofun
          · rw [regrouped.partitions]
            simp only [List.any_eq_true, not_exists, not_and, decide_eq_true_eq, not_le] at inside
            exact inside e mem
          · simp only [Call.entries, regrouped.name, ensureGroup_name]
    · split
      · exact .refl
      · refine onGroup rfl same mono (-1) fun s'' t u g found count nameU nameG on => ?_
        split
        · exact .refl
        · rename_i inside
          refine on.commit (fun e mem => ?_) (.inr (by simp only [Call.entries, nameU, nameG])) nofun
          simp only [List.any_eq_true, not_exists, not_and, Bool.or_eq_true, decide_eq_true_eq,
            not_or, not_le] at inside
          exact (inside e mem).1

theorem join (s : StreamStore) (mono : Nat) (name group : Bytes) (owner lease : Nat) :
    Changes (.join mono name group owner lease) s.topics s
      (streamGroupJoin s mono name group owner lease).1 := by
  unfold streamGroupJoin
  split
  · exact .refl
  · rename_i limits
    simp only [not_or, not_lt] at limits
    cases found : findTopic s.topics name with
    | none => exact .refl
    | some t =>
      obtain ⟨-, rfl⟩ := findTopic_some found
      -- creating the group and changing its members is one replacement of the topic
      have changed : ∀ h : StreamGroup, h.name = (ensureGroup t group).2.name →
          h.offsets = (ensureGroup t group).2.offsets →
          Changes (.join mono t.name group owner lease) s.topics s
            { s with topics := setTopic s.topics (setGroup (ensureGroup t group).1 h) } := by
        intro h nameH offsets
        have there : findGroup (ensureGroup t group).1 (ensureGroup t group).2.name
            = some (ensureGroup t group).2 := by
          rw [ensureGroup_name]
          exact ensureGroup_found t group
        exact .single (members rfl found
          ((Regrouped.ensure t limits.2.1).trans (.set there nameH offsets)))
      simp only
      split
      · exact changed _ rfl rfl
      · split
        · exact changed _ rfl rfl
        · exact changed _ rfl rfl

theorem leaveMember (s : StreamStore) (name group : Bytes) (owner : Nat) :
    Changes (.leaveMember name group owner) s.topics s
      (streamGroupLeaveMember s name group owner).1 := by
  unfold streamGroupLeaveMember
  split
  · exact .refl
  · cases found : findTopic s.topics name with
    | none => exact .refl
    | some t =>
      cases foundG : findGroup t group with
      | none =>
        simp only [foundG]
        exact .refl
      | some g =>
        simp only [foundG]
        split
        · obtain ⟨-, rfl⟩ := findTopic_some found
          obtain ⟨-, rfl⟩ := lookup_some _ foundG
          refine .single (members rfl found (.set foundG ?_ ?_)) <;>
          · unfold StreamGroup.leave
            split <;> rfl
        · exact .refl

end Changes

/-- Whatever a call does is a sequence of changes. -/
theorem changes_run (s : StreamStore) (c : Call) (fits : c.fits s.topics = true) :
    Changes c s.topics s (c.run s).1 := by
  cases c with
  | declare => exact Changes.declare ..
  | append => exact Changes.append _ _ _ _ _ _ _ fits
  | appendBatch => exact Changes.appendBatch _ _ _ _ _ _ _ fits
  | truncate => exact Changes.truncate ..
  | setRetention => exact Changes.setRetention ..
  | delete => exact Changes.delete ..
  | fetchMetadata => exact Changes.fetchMetadata ..
  | commit => exact Changes.commit ..
  | commitIfGeneration => exact Changes.commitIfGeneration ..
  | commitBatchIfGeneration => exact Changes.commitBatchIfGeneration ..
  | resetOffsets => exact Changes.resetOffsets ..
  | commitForOwner => exact Changes.commitForOwner ..
  | commitForOwnerIfGeneration => exact Changes.commitForOwnerIfGeneration ..
  | commitBatchForOwner => exact Changes.commitBatchForOwner ..
  | join => exact Changes.join ..
  | leaveMember => exact Changes.leaveMember ..
  | leaveOwner owner =>
    simp only [Call.run, streamGroupLeaveOwner]
    split
    · exact .refl
    · exact .single (.regrouped fun _ => ⟨rfl, rfl⟩)
  | reap mono => exact .single (.regrouped fun _ => ⟨rfl, rfl⟩)
  | checkpointMaybe => exact Changes.guarded rfl fun _ _ => .refl

end KuttiDB.Stream
