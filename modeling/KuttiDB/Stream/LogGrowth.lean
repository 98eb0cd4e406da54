/- # KuttiDB.Stream.LogGrowth -- a call that returned 0 has logged, or had nothing to log

A call that finds no compaction due only adds to the log, whatever fails on its way. If it returns 0
it added at least one record, the silent calls apart (`logs_run`): they find in memory what they ask
for, or are checkpoint calls. Nothing is assumed of the topics.
-/
import KuttiDB.Stream.LogRuns

namespace KuttiDB.Stream

open KuttiDB.QueueStore (Bytes u64)
open KuttiDB.Theory

set_option autoImplicit false

/-! ## What a call logs -/

/-- The log goes on from `log`, and a call that returned 0 added to it. -/
def Grows (log : List LogRecord) (result : StreamStore × Int) : Prop :=
  log <+: result.1.log ∧ (result.2 = 0 → log.length < result.1.log.length)

theorem logEach_extends : ∀ (records : List LogRecord) (s : StreamStore),
    s.log <+: (logEach s records).1.log
  | [], s => List.prefix_refl s.log
  | r :: rest, s => by
    rw [logEach]
    rcases written : logRecord s r with ⟨s', ok⟩
    have first : s.log <+: s'.log := by
      unfold logRecord at written
      split at written <;> cases written
      · exact List.prefix_append s.log [r]
      · exact List.prefix_refl s.log
      · exact List.prefix_append s.log [r]
    cases ok with
    | false => exact first
    | true => exact first.trans (logEach_extends rest s')

theorem enforceAndLog_extends (s : StreamStore) (now : Nat) (t : StreamTopic) :
    s.log <+: (enforceAndLog s now t).1.log := by
  have more := logEach_extends (trimRecords t.name (enforce now t).2)
    { s with topics := setTopic s.topics (enforce now t).1 }
  unfold enforceAndLog applyThenLog
  rcases logged : logEach { s with topics := setTopic s.topics (enforce now t).1 }
    (trimRecords t.name (enforce now t).2) with ⟨s', ok⟩
  rw [logged] at more
  cases ok <;> exact more

namespace Grows

variable {log : List LogRecord} {s : StreamStore} {t : StreamTopic} {name group : Bytes}

theorem refused {s' : StreamStore} {code : Int} (same : s'.log = s.log) (error : code ≠ 0) :
    Grows s.log (s', code) :=
  ⟨same ▸ List.prefix_refl s.log, fun zero => absurd zero error⟩

theorem logThenApply {records : List LogRecord} (some_ : records ≠ []) (t : StreamTopic) :
    Grows s.log (logThenApply s records t) := by
  have grown := logEach_extends records s
  unfold Stream.logThenApply
  rcases logged : logEach s records with ⟨s', ok⟩
  rw [logged] at grown
  cases ok with
  | false => exact ⟨grown, fun zero => absurd zero (show (-1 : Int) ≠ 0 by decide)⟩
  | true =>
    refine ⟨grown, fun _ => ?_⟩
    show s.log.length < s'.log.length
    rw [(logEach_true logged).1, List.length_append]
    have := List.length_pos_iff.mpr some_
    omega

/-- The retention pass at the end of a call that has logged. -/
theorem thenEnforce (result : StreamStore × Int) (now : Nat) (t : StreamTopic) :
    Grows log result →
      Grows log (match result with
        | (s', 0) => enforceAndLog s' now t
        | failed => failed) := by
  intro grows
  split
  · rename_i s'
    have more := enforceAndLog_extends s' now t
    exact ⟨grows.1.trans more, fun _ => Nat.lt_of_lt_of_le (grows.2 rfl) more.length_le⟩
  · exact grows

theorem commitGroup {commits : List (Nat × Nat)} (some_ : commits ≠ []) (t : StreamTopic)
    (g : StreamGroup) : Grows s.log (commitGroup s t g commits) :=
  logThenApply (by simpa using some_) _

theorem guarded {call : StreamStore → StreamStore × Int} (grows : Grows s.log (call s)) :
    Grows s.log (guarded s .notDue call) := by
  unfold Stream.guarded
  split
  · exact refused rfl (by decide)
  · exact grows

theorem onGroup {mono : Nat} {missing : Int}
    {call : StreamStore → StreamTopic → StreamGroup → StreamStore × Int} (error : missing ≠ 0)
    (grows : ∀ s' t g, s'.log = s.log → Grows s'.log (call s' t g)) :
    Grows s.log (onGroup s name group mono missing call) := by
  unfold Stream.onGroup
  cases found : findTopic s.topics name with
  | none => exact refused rfl error
  | some t =>
    cases inside : findGroup t group with
    | none =>
      simp only [inside]
      exact refused rfl error
    | some g =>
      simp only [inside]
      exact grows { s with topics := setTopic s.topics (setGroup t (g.reap mono)) } _ _ rfl

end Grows

/-- The call finds what it asks for and returns 0 without a record: the topic with these settings,
an offset at least as far, or no partition to reset (every topic has one). A checkpoint call has no
record at all. -/
def Call.silent (topics : List StreamTopic) : Call → Bool
  | .declare _ _ name partitions maxBytes maxAgeMs =>
    (findTopic topics name).any fun t =>
      t.partitions == partitions && t.maxBytes == maxBytes && t.maxAgeMs == maxAgeMs
  | .commit _ name group p offset =>
    (findTopic topics name).any fun t =>
      decide (p < t.partitions) && inRange t p offset && decide (offset ≤ groupOffset t group p)
  | .resetOffsets _ _ name .. => (findTopic topics name).any fun t => t.partitions == 0
  | .checkpointMaybe _ => true
  | _ => false

/-- The calls that log and wait. -/
def Call.waits : Call → Bool
  | .declare .. | .append .. | .appendBatch .. | .truncate .. | .setRetention .. | .commit ..
  | .commitIfGeneration .. | .commitBatchIfGeneration .. | .resetOffsets .. | .commitForOwner ..
  | .commitForOwnerIfGeneration .. | .commitBatchForOwner .. | .checkpointMaybe .. => true
  | .delete .. | .fetchMetadata .. | .join .. | .leaveMember .. | .leaveOwner .. | .reap .. => false

/-- A call that is not silent logs before it returns 0. -/
def LogsOr (silent : Bool) (log : List LogRecord) (result : StreamStore × Int) : Prop :=
  Grows log result ∨ (silent = true ∧ result.1.log = log)

section Calls

variable {s : StreamStore} {name group : Bytes}

/-- A commit behind its last check. -/
theorem Grows.checked {refuse : Prop} [Decidable refuse] {code : Int} (error : code ≠ 0)
    {result : StreamStore × Int} (grows : Grows s.log result) :
    Grows s.log (if refuse then (s, code) else result) := by
  split
  · exact refused rfl error
  · exact grows

theorem logs_declare (fresh : StreamId) (partitions maxBytes maxAgeMs : Nat) :
    LogsOr (Call.silent s.topics (.declare .notDue fresh name partitions maxBytes maxAgeMs)) s.log
      (streamDeclare s .notDue fresh name partitions maxBytes maxAgeMs) := by
  unfold streamDeclare guarded
  split
  · exact .inl (Grows.refused rfl (by decide))
  · simp only [compactMaybeLocked]
    cases added : addTopic s.topics name partitions maxBytes maxAgeMs fresh with
    | none => exact .inl (Grows.refused rfl (by decide))
    | some topics =>
      cases found : findTopic s.topics name with
      | some t =>
        refine .inr ⟨?_, by simp⟩
        unfold addTopic at added
        simp only [found] at added
        split at added
        · simp at added
        · split at added
          · rename_i same
            simp [Call.silent, found, same.1, same.2.1, same.2.2]
          · simp at added
      | none =>
        have more := logEach_extends
          [.declare name partitions maxBytes maxAgeMs, .identity name fresh] { s with topics := topics }
        simp only [Option.isSome_none, Bool.false_eq_true, if_false]
        rcases logged : logEach { s with topics := topics }
          [.declare name partitions maxBytes maxAgeMs, .identity name fresh] with ⟨s', ok⟩
        rw [logged] at more
        cases ok with
        | false => exact .inl ⟨more, fun zero => absurd zero (show (-1 : Int) ≠ 0 by decide)⟩
        | true =>
          refine .inl ⟨more, fun _ => ?_⟩
          show s.log.length < s'.log.length
          rw [(logEach_true logged).1]
          simp

theorem logs_commit (p offset : Nat) :
    LogsOr (Call.silent s.topics (.commit .notDue name group p offset)) s.log
      (streamCommit s .notDue name group p offset) := by
  unfold streamCommit guarded
  split
  · exact .inl (Grows.refused rfl (by decide))
  · split
    · exact .inl (Grows.refused rfl (by decide))
    · simp only [compactMaybeLocked]
      cases found : findTopic s.topics name with
      | none => exact .inl (Grows.refused rfl (by decide))
      | some t =>
        simp only
        split
        · exact .inl (Grows.refused rfl (by decide))
        · rename_i accepted
          split
          · rename_i committed
            refine .inr ⟨?_, rfl⟩
            -- the group the commit finds or makes has the offset the topic reports for it
            have offset_le : offset ≤ groupOffset t group p := by
              rw [← groupOffset_ensureGroup t group group p]
              unfold groupOffset
              have here := ensureGroup_found t group
              rw [here]
              exact committed
            rw [not_or, Nat.not_le] at accepted
            simp only [Call.silent, found, Option.any_some, Bool.and_eq_true, decide_eq_true_eq]
            exact ⟨⟨accepted.1, by simpa using accepted.2⟩, offset_le⟩
          · exact .inl (Grows.commitGroup
              (s := { s with topics := setTopic s.topics (ensureGroup t group).1 })
              (List.cons_ne_nil _ _) _ _)

theorem resetTargets_nil {t : StreamTopic} {g : StreamGroup} {strategy : ResetStrategy}
    (given : resetTargets t g strategy = some []) : t.partitions = 0 := by
  unfold resetTargets at given
  cases count : t.partitions with
  | zero => rfl
  | succ n =>
    rw [count, List.range_succ_eq_map, List.mapM_cons] at given
    simp only [Option.bind_eq_bind, Option.bind_eq_some_iff, Option.pure_def,
      Option.some.injEq, reduceCtorEq, and_false, exists_false] at given

theorem logs_reset (mono expected : Nat) (strategy : ResetStrategy) (force : Bool) :
    LogsOr (Call.silent s.topics (.resetOffsets .notDue mono name group expected strategy force)) s.log
      (streamGroupResetOffsetsIfGeneration s .notDue mono name group expected strategy force) := by
  have refuse {s' : StreamStore} {code : Int} (same : s'.log = s.log) (error : code ≠ 0) :
      LogsOr (Call.silent s.topics (.resetOffsets .notDue mono name group expected strategy force))
        s.log (s', code) := .inl (Grows.refused same error)
  unfold streamGroupResetOffsetsIfGeneration guarded onGroup
  split
  · exact refuse rfl (by decide)
  · split
    · exact refuse rfl (by decide)
    · simp only [compactMaybeLocked]
      cases found : findTopic s.topics name with
      | none => exact refuse rfl (by decide)
      | some t =>
        cases inside : findGroup t group with
        | none =>
          simp only [inside]
          exact refuse rfl (by decide)
        | some g =>
          simp only [inside]
          split
          · exact refuse rfl (by decide)
          · split
            · exact refuse rfl (by decide)
            · cases given : resetTargets (setGroup t (g.reap mono)) (g.reap mono) strategy with
              | none => exact refuse rfl (by decide)
              | some targets =>
                cases targets with
                | nil =>
                  have count : t.partitions = 0 := resetTargets_nil given
                  exact .inr ⟨by simp [Call.silent, found, count], rfl⟩
                | cons target rest =>
                  exact .inl (Grows.commitGroup
                    (s := { s with topics := setTopic s.topics (setGroup t (g.reap mono)) })
                    (List.cons_ne_nil _ _) _ _)

theorem grows_append (now enforceNow : Nat) (hint : Nat) (input : AppendInput) :
    Grows s.log (streamAppend s .notDue now enforceNow name hint input) := by
  unfold streamAppend
  refine Grows.checked (by decide) (Grows.guarded ?_)
  cases findTopic s.topics name with
  | none => exact Grows.refused rfl (by decide)
  | some t =>
    exact Grows.checked (by decide)
      (Grows.thenEnforce _ enforceNow _ (Grows.logThenApply (List.cons_ne_nil _ _) _))

theorem grows_appendBatch (now enforceNow : Nat) (hint : Nat) (inputs : List AppendInput) :
    Grows s.log (streamAppendBatch s .notDue now enforceNow name hint inputs) := by
  unfold streamAppendBatch
  refine Grows.checked (by decide) (Grows.guarded ?_)
  cases findTopic s.topics name with
  | none => exact Grows.refused rfl (by decide)
  | some t =>
    dsimp only
    cases batchItems t hint now (t.parts.map (·.next)) inputs with
    | none => exact Grows.refused rfl (by decide)
    | some items =>
      exact Grows.checked (by decide)
        (Grows.thenEnforce _ enforceNow _ (Grows.logThenApply (List.cons_ne_nil _ _) _))

theorem grows_truncate (p base expected : Nat) :
    Grows s.log (streamTruncateIfRevision s .notDue name p base expected) := by
  unfold streamTruncateIfRevision
  refine Grows.guarded ?_
  cases findTopic s.topics name with
  | none => exact Grows.refused rfl (by decide)
  | some t =>
    exact Grows.checked (by decide) (Grows.checked (by decide) (Grows.checked (by decide)
      (Grows.logThenApply (List.cons_ne_nil _ _) _)))

theorem grows_setRetention (now maxBytes maxAgeMs expected : Nat) :
    Grows s.log (streamSetRetentionIfRevision s .notDue now name maxBytes maxAgeMs expected) := by
  unfold streamSetRetentionIfRevision
  refine Grows.checked (by decide) (Grows.guarded ?_)
  cases findTopic s.topics name with
  | none => exact Grows.refused rfl (by decide)
  | some t =>
    exact Grows.checked (by decide)
      (Grows.thenEnforce _ now _ (Grows.logThenApply (List.cons_ne_nil _ _) _))

theorem grows_commitIfGeneration (mono p offset expected : Nat) :
    Grows s.log (streamCommitIfGeneration s .notDue mono name group p offset expected) := by
  unfold streamCommitIfGeneration
  refine Grows.checked (by decide) (Grows.guarded (Grows.checked (by decide)
    (Grows.onGroup (by decide) fun s' t g _ => ?_)))
  exact Grows.checked (by decide) (Grows.checked (by decide)
    (Grows.commitGroup (List.cons_ne_nil _ _) t g))

theorem grows_commitBatchIfGeneration (mono : Nat) (commits : List (Nat × Nat)) (expected : Nat) :
    Grows s.log (streamCommitBatchIfGeneration s .notDue mono name group commits expected) := by
  unfold streamCommitBatchIfGeneration
  split
  · exact Grows.refused rfl (by decide)
  · rename_i given
    simp only [not_or] at given
    refine Grows.guarded (Grows.onGroup (by decide) fun s' t g _ => Grows.checked (by decide) ?_)
    split
    · rename_i error
      exact Grows.refused rfl error
    · exact Grows.commitGroup given.2.2.1 t g

theorem grows_commitForOwner (mono p offset owner : Nat) :
    Grows s.log (streamCommitForOwner s .notDue mono name group p offset owner) := by
  unfold streamCommitForOwner
  refine Grows.checked (by decide) (Grows.guarded (Grows.checked (by decide)
    (Grows.onGroup (by decide) fun s' t g _ => ?_)))
  exact Grows.checked (by decide) (Grows.commitGroup (List.cons_ne_nil _ _) t g)

theorem grows_commitForOwnerIfGeneration (mono p offset owner expected : Nat) :
    Grows s.log
      (streamCommitForOwnerIfGeneration s .notDue mono name group p offset owner expected) := by
  unfold streamCommitForOwnerIfGeneration
  refine Grows.checked (by decide) (Grows.guarded (Grows.checked (by decide)
    (Grows.onGroup (by decide) fun s' t g _ => ?_)))
  exact Grows.checked (by decide) (Grows.checked (by decide) (Grows.checked (by decide)
    (Grows.commitGroup (List.cons_ne_nil _ _) t g)))

theorem grows_commitBatchForOwner (mono owner : Nat) (commits : List (Nat × Nat)) :
    Grows s.log (streamCommitBatchForOwner s .notDue mono name group owner commits) := by
  unfold streamCommitBatchForOwner
  split
  · exact Grows.refused rfl (by decide)
  · rename_i given
    simp only [not_or] at given
    refine Grows.guarded ?_
    split
    · cases findTopic s.topics name with
      | none => exact Grows.refused rfl (by decide)
      | some t =>
        exact Grows.checked (s := { s with topics := setTopic s.topics (ensureGroup t group).1 })
          (by decide) (Grows.commitGroup given.2.2 _ _)
    · refine Grows.checked (by decide) (Grows.onGroup (by decide) fun s' t g _ => ?_)
      exact Grows.checked (by decide) (Grows.commitGroup given.2.2 t g)

end Calls

/-- What a call that waits has logged when it comes to its wait. -/
theorem logs_run (s : StreamStore) (c : Call) (waits : c.waits = true) (free : c.compaction = .notDue) :
    LogsOr (c.silent s.topics) s.log (c.run s) := by
  cases c with
  | declare => cases free; exact logs_declare ..
  | append => cases free; exact .inl (grows_append ..)
  | appendBatch => cases free; exact .inl (grows_appendBatch ..)
  | truncate => cases free; exact .inl (grows_truncate ..)
  | setRetention => cases free; exact .inl (grows_setRetention ..)
  | commit => cases free; exact logs_commit ..
  | commitIfGeneration => cases free; exact .inl (grows_commitIfGeneration ..)
  | commitBatchIfGeneration => cases free; exact .inl (grows_commitBatchIfGeneration ..)
  | resetOffsets => cases free; exact logs_reset ..
  | commitForOwner => cases free; exact .inl (grows_commitForOwner ..)
  | commitForOwnerIfGeneration => cases free; exact .inl (grows_commitForOwnerIfGeneration ..)
  | commitBatchForOwner => cases free; exact .inl (grows_commitBatchForOwner ..)
  | checkpointMaybe =>
    cases free
    refine .inr ⟨rfl, ?_⟩
    simp only [Call.run, guarded, compactMaybeLocked]
    split <;> rfl
  | delete | fetchMetadata | join | leaveMember | leaveOwner | reap => cases waits

/-- The calls on members log nothing, and a retention pass only adds to the log. -/
theorem extends_run (s : StreamStore) (c : Call) (aside : c.waits = false) (keeps : c.isDelete = false) :
    s.log <+: (c.run s).1.log := by
  cases c with
  | fetchMetadata now name p =>
    simp only [Call.run, streamFetchMetadata]
    cases findTopic s.topics name with
    | none => exact List.prefix_refl s.log
    | some t =>
      have more := enforceAndLog_extends s now t
      simp only
      split
      · exact List.prefix_refl s.log
      · split
        · rename_i given
          rwa [given] at more
        · exact more
  | join mono name group owner lease =>
    simp only [Call.run, streamGroupJoin]
    repeat' split
    all_goals exact List.prefix_refl s.log
  | leaveMember name group owner =>
    simp only [Call.run, streamGroupLeaveMember]
    repeat' split
    all_goals exact List.prefix_refl s.log
  | leaveOwner owner =>
    simp only [Call.run, streamGroupLeaveOwner]
    split <;> exact List.prefix_refl s.log
  | reap => exact List.prefix_refl s.log
  | delete => cases keeps
  | declare | append | appendBatch | truncate | setRetention | commit | commitIfGeneration
  | commitBatchIfGeneration | resetOffsets | commitForOwner | commitForOwnerIfGeneration
  | commitBatchForOwner | checkpointMaybe => cases aside

end KuttiDB.Stream
