/- # KuttiDB.Stream.Reachable -- every store reached by opening files and making calls is sound

Every call keeps `SoundTopics` (`sound_run`), failed writes included, so it holds in every state of a
run of openings and calls (`sound_steps`). One condition is needed: no record is appended, live or by
replay, at the last 64-bit offset. `partitions_numbered` is what this says about offsets and counters;
`last_offset_wraps` is a file of four records that breaks it.
-/
import KuttiDB.Stream.Topics

namespace KuttiDB.Stream

open KuttiDB.QueueStore (Bytes u64)
open KuttiDB.Theory

set_option autoImplicit false

/-! ## Calls

What the shared parts of the calls do to the list of topics, for any property of it. -/

@[simp] theorem logRecord_topics (s : StreamStore) (r : LogRecord) :
    (logRecord s r).1.topics = s.topics := by
  unfold logRecord
  split <;> rfl

@[simp] theorem logEach_topics : ∀ (records : List LogRecord) (s : StreamStore),
    (logEach s records).1.topics = s.topics
  | [], _ => rfl
  | r :: rest, s => by
    rw [logEach]
    have one := logRecord_topics s r
    cases logged : logRecord s r with
    | mk s' ok =>
      rw [logged] at one
      cases ok with
      | false => exact one
      | true => exact (logEach_topics rest s').trans one

section Keeps

variable {P : List StreamTopic → Prop} {s : StreamStore} {t : StreamTopic}
  {call : StreamStore → StreamStore × Int}

theorem guarded_keeps (compaction : Compaction) (before : P s.topics)
    (body : ∀ s' : StreamStore, s'.topics = s.topics → P (call s').1.topics) :
    P (guarded s compaction call).1.topics := by
  unfold guarded
  split
  · exact before
  · cases compaction with
    | notDue => exact body s rfl
    | done => exact body _ rfl
    | failed => exact before

theorem applyThenLog_topics (s : StreamStore) (t : StreamTopic) (records : List LogRecord) :
    (applyThenLog s t records).1.topics = setTopic s.topics t := by
  have logged := logEach_topics records { s with topics := setTopic s.topics t }
  unfold applyThenLog
  split <;> simp_all

theorem logThenApply_keeps (records : List LogRecord) (before : P s.topics)
    (after : P (setTopic s.topics t)) : P (logThenApply s records t).1.topics := by
  have logged := logEach_topics records s
  unfold logThenApply
  split <;> simp_all

/-- A change that is logged and then followed by the retention pass. -/
theorem logThenEnforce_keeps (records : List LogRecord) (now : Nat) (before : P s.topics)
    (after : P (setTopic (setTopic s.topics t) (enforce now t).1)) :
    P (match logThenApply s records t with
      | (s', 0) => enforceAndLog s' now t
      | failed => failed).1.topics := by
  unfold logThenApply
  cases result : logEach s records with
  | mk s' ok =>
    have logged : s'.topics = s.topics := by simpa [result] using logEach_topics records s
    cases ok with
    | true => simpa only [enforceAndLog, applyThenLog_topics, logged] using after
    | false => simpa only [logged] using before

end Keeps

/-- Whether the call appends only below the last offset. -/
def Call.fits (topics : List StreamTopic) : Call → Bool
  | .append _ _ _ name hint input =>
    (findTopic topics name).all fun t => (t.part (choosePart t hint input.key)).next != uint64Max
  | .appendBatch _ now _ name hint inputs =>
    (findTopic topics name).all fun t =>
      (batchItems t hint now (t.parts.map (·.next)) inputs).all fun items =>
        items.all fun i => i.record.offset != uint64Max
  | _ => true

namespace SoundTopics

variable {topics : List StreamTopic} {s : StreamStore} {t : StreamTopic}

theorem setEnforced (sound : SoundTopics topics) (soundT : t.Sound) (now : Nat) :
    SoundTopics (setTopic (setTopic topics t) (enforce now t).1) :=
  (sound.set soundT).set (sound_enforce now soundT).1

theorem declare (sound : SoundTopics s.topics) (compaction : Compaction) (fresh : StreamId)
    (name : Bytes) (partitions maxBytes maxAgeMs : Nat) :
    SoundTopics (streamDeclare s compaction fresh name partitions maxBytes maxAgeMs).1.topics := by
  refine guarded_keeps compaction sound fun s' same => ?_
  rw [← same] at sound
  cases added : addTopic s'.topics name partitions maxBytes maxAgeMs fresh with
  | none => exact sound
  | some topics =>
    have soundAdded := sound_addTopic sound added
    simp only
    split
    · exact sound
    · have logged := logEach_topics [.declare name partitions maxBytes maxAgeMs,
        .identity name fresh] { s' with topics := topics }
      rename_i new
      split
      · simp_all
      · rename_i s'' result
        rw [result] at logged
        simp only at logged ⊢
        rw [logged]
        -- the topic just linked is the first of the list
        have soundNew : (newTopic name partitions maxBytes maxAgeMs fresh).Sound := by
          unfold addTopic at added
          split at added
          · cases added
          · cases absent : findTopic s'.topics name with
            | some t => simp [absent] at new
            | none =>
              simp only [absent, Option.some.injEq] at added
              exact soundAdded.each _ (by rw [← added]; exact List.mem_cons_self)
        exact soundAdded.set (soundNew.congr rfl rfl rfl rfl rfl)

theorem truncate (sound : SoundTopics s.topics) (compaction : Compaction) (name : Bytes)
    (p base expected : Nat) :
    SoundTopics (streamTruncateIfRevision s compaction name p base expected).1.topics := by
  refine guarded_keeps compaction sound fun s' same => ?_
  rw [← same] at sound
  cases found : findTopic s'.topics name with
  | none => exact sound
  | some t =>
    simp only
    split
    · exact sound
    · rename_i inside
      split
      · exact sound
      · split
        · exact sound
        · rename_i range
          have soundT := sound.found found
          have inside := Nat.lt_of_not_le inside
          have bound := (soundT.whole.parts _ (StreamTopic.part_mem inside)).bounded
          exact logThenApply_keeps _ sound (sound.set (sound_trimPart soundT inside (by omega)))

theorem setRetention (sound : SoundTopics s.topics) (compaction : Compaction) (now : Nat)
    (name : Bytes) (maxBytes maxAgeMs expected : Nat) :
    SoundTopics
      (streamSetRetentionIfRevision s compaction now name maxBytes maxAgeMs expected).1.topics := by
  unfold streamSetRetentionIfRevision
  split
  · exact sound
  · refine guarded_keeps compaction sound fun s' same => ?_
    rw [← same] at sound
    cases found : findTopic s'.topics name with
    | none => exact sound
    | some t =>
      simp only
      split
      · exact sound
      · refine logThenEnforce_keeps _ now sound (sound.setEnforced ?_ now)
        exact (sound.found found).congr rfl rfl rfl rfl rfl

theorem delete (sound : SoundTopics s.topics) (compaction : Compaction) (name : Bytes)
    (expected : Nat) :
    SoundTopics (streamDeleteIfRevision s compaction name expected).1.topics := by
  unfold streamDeleteIfRevision
  split
  · exact sound
  · refine guarded_keeps compaction sound fun s' same => ?_
    rw [← same] at sound
    cases found : findTopic s'.topics name with
    | none => exact sound
    | some t =>
      simp only
      split
      · exact sound
      · cases result : logEach s' [.delete name] with
        | mk s'' ok =>
          have logged : s''.topics = s'.topics := by
            simpa [result] using logEach_topics [.delete name] s'
          cases ok with
          | false => simpa only [logged] using sound
          | true => simpa only [logged] using sound.drop name

theorem fetchMetadata (sound : SoundTopics s.topics) (now : Nat) (name : Bytes) (p : Nat) :
    SoundTopics (streamFetchMetadata s now name p).1.topics := by
  unfold streamFetchMetadata
  cases found : findTopic s.topics name with
  | none => exact sound
  | some t =>
    have kept : SoundTopics (enforceAndLog s now t).1.topics := by
      rw [enforceAndLog, applyThenLog_topics]
      exact sound.set (sound_enforce now (sound.found found)).1
    simp only
    split
    · exact sound
    · split <;> simp_all

end SoundTopics

/-! ### Appends -/

/-- The ends of the partitions of a topic. -/
def Ends (t : StreamTopic) (nexts : List Nat) : Prop :=
  nexts.length = t.partitions ∧ ∀ q < t.partitions, nexts.getD q 0 = (t.part q).next

theorem ends_parts (t : StreamTopic) : Ends t (t.parts.map (·.next)) := by
  refine ⟨by simp [StreamTopic.partitions], fun q within => ?_⟩
  have within' : q < t.parts.length := within
  simp [StreamTopic.part, List.getD_eq_getElem?_getD, within']

theorem Ends.link {t : StreamTopic} {nexts : List Nat} (ends : Ends t nexts) {p : Nat}
    (inside : p < t.partitions) (r : StreamRecord) :
    Ends (partLink t p r) (nexts.set p (bump (nexts.getD p 0))) := by
  refine ⟨by rw [List.length_set, partLink_partitions, ends.1], fun q within => ?_⟩
  rw [partLink_partitions] at within
  rw [partLink_part inside]
  by_cases same : q = p
  · subst same
    rw [if_pos rfl, List.getD_eq_getElem _ _ (by rw [List.length_set, ends.1]; exact within),
      List.getElem_set_self, ends.2 q within]
    rfl
  · rw [if_neg same, ← ends.2 q within]
    simp [List.getD_eq_getElem?_getD, List.getElem?_set_ne (Ne.symm same)]

/-- The offsets given out to a batch are the ones replay expects. -/
theorem appendItems_batch (t : StreamTopic) (hint now : Nat) : ∀ (inputs : List AppendInput)
    {nexts : List Nat} {items : List BatchItem} {u : StreamTopic}, u.partitions = t.partitions →
    Ends u nexts → batchItems t hint now nexts inputs = some items →
    appendItems u items = (linkItems u items, true)
  | [], _, _, _, _, _, given => by
    cases given
    rfl
  | input :: rest, nexts, items, u, count, ends, given => by
    rw [batchItems] at given
    simp only at given
    split at given
    · cases given
    · rename_i inside
      have inside : choosePart t hint input.key < u.partitions := count ▸ Nat.lt_of_not_le inside
      obtain ⟨more, later, eq⟩ := Option.map_eq_some_iff.mp given
      subst eq
      have here : appendMemory u (choosePart t hint input.key)
          ⟨nexts.getD (choosePart t hint input.key) 0, now, input.key, input.body⟩ = some _ :=
        if_neg (by
          rw [not_or, not_le, not_not]
          exact ⟨inside, ends.2 _ inside⟩)
      rw [appendItems, here]
      exact appendItems_batch t hint now rest ((partLink_partitions ..).trans count)
        (ends.link inside _) later

theorem appendItems_of_batch {t : StreamTopic} {hint now : Nat} {inputs : List AppendInput}
    {items : List BatchItem} (given : batchItems t hint now (t.parts.map (·.next)) inputs = some items) :
    appendItems t items = (linkItems t items, true) :=
  appendItems_batch t hint now inputs rfl (ends_parts t) given

theorem batchItems_length {t : StreamTopic} {hint now : Nat} : ∀ {inputs : List AppendInput}
    {nexts : List Nat} {items : List BatchItem}, batchItems t hint now nexts inputs = some items →
    items.length = inputs.length
  | [], _, _, given => by
    cases given
    rfl
  | input :: rest, nexts, items, given => by
    rw [batchItems] at given
    simp only at given
    split at given
    · cases given
    · obtain ⟨more, later, rfl⟩ := Option.map_eq_some_iff.mp given
      simpa using batchItems_length later

theorem append_fits {name : Bytes} {input : AppendInput} {offset now : Nat}
    (size : input.body.length + appendOverhead name input.key ≤ recordMax) :
    RecordFits name ⟨offset, now, input.key, input.body⟩ := by
  simp only [RecordFits, LogRecord.len, recordBytes, appendOverhead] at size ⊢
  by_cases key : input.key = []
  · simp only [key, if_true, List.length_nil] at size ⊢
    omega
  · simp only [key, if_false] at size ⊢
    omega

namespace SoundTopics

variable {s : StreamStore}

theorem append (sound : SoundTopics s.topics) (compaction : Compaction) (now enforceNow : Nat)
    (name : Bytes) (hint : Nat) (input : AppendInput)
    (fits : (Call.append compaction now enforceNow name hint input).fits s.topics = true) :
    SoundTopics (streamAppend s compaction now enforceNow name hint input).1.topics := by
  unfold streamAppend
  split
  · exact sound
  · rename_i size
    refine guarded_keeps compaction sound fun s' same => ?_
    rw [← same] at sound fits
    cases found : findTopic s'.topics name with
    | none => exact sound
    | some t =>
      simp only
      split
      · exact sound
      · rename_i inside
        have inside := Nat.lt_of_not_le inside
        have room : (t.part (choosePart t hint input.key)).next ≠ uint64Max := by
          simpa [Call.fits, found] using fits
        have sized : RecordFits t.name
            ⟨(t.part (choosePart t hint input.key)).next, now, input.key, input.body⟩ := by
          rw [(findTopic_some found).2]
          exact append_fits (Nat.le_of_not_lt size)
        exact logThenEnforce_keeps _ enforceNow sound
          (sound.setEnforced (sound_partLink (sound.found found) inside rfl room sized) enforceNow)

theorem appendBatch (sound : SoundTopics s.topics) (compaction : Compaction) (now enforceNow : Nat)
    (name : Bytes) (hint : Nat) (inputs : List AppendInput)
    (fits : (Call.appendBatch compaction now enforceNow name hint inputs).fits s.topics = true) :
    SoundTopics (streamAppendBatch s compaction now enforceNow name hint inputs).1.topics := by
  unfold streamAppendBatch
  split
  · exact sound
  · refine guarded_keeps compaction sound fun s' same => ?_
    rw [← same] at sound fits
    cases found : findTopic s'.topics name with
    | none => exact sound
    | some t =>
      cases given : batchItems t hint now (t.parts.map (·.next)) inputs with
      | none => simpa only [given] using sound
      | some items =>
        simp only [given]
        split
        · exact sound
        · rename_i len
          have room : ∀ i ∈ items, i.record.offset ≠ uint64Max := by
            simpa [Call.fits, found, given] using fits
          have sized : ∀ i ∈ items, RecordFits t.name i.record := by
            rw [(findTopic_some found).2]
            exact fun i mem => batch_item_fits mem (Nat.le_of_not_lt len)
          have linked := (sound_appendItems items (sound.found found) room sized).1
          rw [appendItems_of_batch given] at linked
          exact logThenEnforce_keeps _ enforceNow sound (sound.setEnforced linked enforceNow)

end SoundTopics

/-! ### Groups -/

/-- A change of a group that keeps its name and the number of its offsets. -/
theorem GroupFits.congr {t u : StreamTopic} {g h : StreamGroup} (fits : GroupFits t g)
    (topicName : u.name = t.name) (count : u.partitions = t.partitions) (name : h.name = g.name)
    (offsets : h.offsets.length = g.offsets.length) : GroupFits u h :=
  ⟨offsets.trans (fits.offsets.trans count.symm), by
    rw [topicName, name]
    exact fits.name⟩

theorem StreamTopic.Sound.mapGroups {t : StreamTopic} (sound : t.Sound)
    {change : StreamGroup → StreamGroup}
    (keeps : ∀ g, (change g).name = g.name ∧ (change g).offsets = g.offsets) :
    { t with groups := t.groups.map change }.Sound := by
  refine sound.withGroups ?_ fun g mem => ?_
  · have names : (t.groups.map change).map StreamGroup.name = t.groups.map StreamGroup.name := by
      rw [List.map_map]
      exact List.map_congr_left fun g _ => (keeps g).1
    rw [names]
    exact sound.fit.distinct
  · obtain ⟨h, memH, rfl⟩ := List.mem_map.mp mem
    exact (sound.fit.groups h memH).congr rfl rfl (keeps h).1 (by rw [(keeps h).2])

namespace SoundTopics

variable {s : StreamStore} {t : StreamTopic} {g : StreamGroup}

theorem commitGroup (sound : SoundTopics s.topics) (soundT : t.Sound) (fits : GroupFits t g)
    (commits : List (Nat × Nat)) : SoundTopics (commitGroup s t g commits).1.topics :=
  logThenApply_keeps _ sound (sound.set (soundT.setGroup (fits.commitAll commits).1))

theorem onGroup (sound : SoundTopics s.topics) (name group : Bytes) (mono : Nat) (missing : Int)
    {call : StreamStore → StreamTopic → StreamGroup → StreamStore × Int}
    (body : ∀ s' t g, SoundTopics s'.topics → t.Sound → GroupFits t g →
      SoundTopics (call s' t g).1.topics) :
    SoundTopics (onGroup s name group mono missing call).1.topics := by
  unfold Stream.onGroup
  cases found : findTopic s.topics name with
  | none => exact sound
  | some t =>
    cases foundG : findGroup t group with
    | none => simpa only [foundG] using sound
    | some g =>
      simp only [foundG]
      have soundT := sound.found found
      have fits : GroupFits t (g.reap mono) := (soundT.foundGroup foundG).1.congr rfl rfl rfl rfl
      exact body _ _ _ (sound.set (soundT.setGroup fits)) (soundT.setGroup fits)
        (fits.congr rfl rfl rfl rfl)

theorem commit (sound : SoundTopics s.topics) (compaction : Compaction) (name group : Bytes)
    (p offset : Nat) : SoundTopics (streamCommit s compaction name group p offset).1.topics := by
  unfold streamCommit
  split
  · exact sound
  · rename_i limits
    simp only [not_or, not_lt] at limits
    refine guarded_keeps compaction sound fun s' same => ?_
    rw [← same] at sound
    cases found : findTopic s'.topics name with
    | none => exact sound
    | some t =>
      simp only
      split
      · exact sound
      · have soundT := sound.found found
        obtain ⟨soundU, fitsG, -, -, -⟩ :=
          soundT.ensureGroup group (commit_len_le soundT.fit.named.2 limits.2)
        split
        · exact sound.set soundU
        · exact (sound.set soundU).commitGroup soundU fitsG _

theorem commitIfGeneration (sound : SoundTopics s.topics) (compaction : Compaction) (mono : Nat)
    (name group : Bytes) (p offset expected : Nat) :
    SoundTopics
      (streamCommitIfGeneration s compaction mono name group p offset expected).1.topics := by
  unfold streamCommitIfGeneration
  split
  · exact sound
  · refine guarded_keeps compaction sound fun s' same => ?_
    rw [← same] at sound
    split
    · exact sound
    · refine sound.onGroup name group mono 3 fun s'' t g sound'' soundT fits => ?_
      split
      · exact sound''
      · split
        · exact sound''
        · exact sound''.commitGroup soundT fits _

theorem commitBatchIfGeneration (sound : SoundTopics s.topics) (compaction : Compaction)
    (mono : Nat) (name group : Bytes) (commits : List (Nat × Nat)) (expected : Nat) :
    SoundTopics
      (streamCommitBatchIfGeneration s compaction mono name group commits expected).1.topics := by
  unfold streamCommitBatchIfGeneration
  split
  · exact sound
  · refine guarded_keeps compaction sound fun s' same => ?_
    rw [← same] at sound
    refine sound.onGroup name group mono 3 fun s'' t g sound'' soundT fits => ?_
    split
    · exact sound''
    · split
      · exact sound''
      · exact sound''.commitGroup soundT fits _

theorem resetOffsets (sound : SoundTopics s.topics) (compaction : Compaction) (mono : Nat)
    (name group : Bytes) (expected : Nat) (strategy : ResetStrategy) (force : Bool) :
    SoundTopics (streamGroupResetOffsetsIfGeneration s compaction mono name group expected strategy
      force).1.topics := by
  unfold streamGroupResetOffsetsIfGeneration
  split
  · exact sound
  · refine guarded_keeps compaction sound fun s' same => ?_
    rw [← same] at sound
    refine sound.onGroup name group mono 3 fun s'' t g sound'' soundT fits => ?_
    split
    · exact sound''
    · split
      · exact sound''
      · split
        · exact sound''
        · exact sound''.commitGroup soundT fits _

theorem commitForOwner (sound : SoundTopics s.topics) (compaction : Compaction) (mono : Nat)
    (name group : Bytes) (p offset owner : Nat) :
    SoundTopics (streamCommitForOwner s compaction mono name group p offset owner).1.topics := by
  unfold streamCommitForOwner
  split
  · exact sound
  · refine guarded_keeps compaction sound fun s' same => ?_
    rw [← same] at sound
    split
    · exact sound
    · refine sound.onGroup name group mono (-1) fun s'' t g sound'' soundT fits => ?_
      split
      · exact sound''
      · exact sound''.commitGroup soundT fits _

theorem commitForOwnerIfGeneration (sound : SoundTopics s.topics) (compaction : Compaction)
    (mono : Nat) (name group : Bytes) (p offset owner expected : Nat) :
    SoundTopics (streamCommitForOwnerIfGeneration s compaction mono name group p offset owner
      expected).1.topics := by
  unfold streamCommitForOwnerIfGeneration
  split
  · exact sound
  · refine guarded_keeps compaction sound fun s' same => ?_
    rw [← same] at sound
    split
    · exact sound
    · refine sound.onGroup name group mono 3 fun s'' t g sound'' soundT fits => ?_
      split
      · exact sound''
      · split
        · exact sound''
        · split
          · exact sound''
          · exact sound''.commitGroup soundT fits _

theorem commitBatchForOwner (sound : SoundTopics s.topics) (compaction : Compaction) (mono : Nat)
    (name group : Bytes) (owner : Nat) (commits : List (Nat × Nat)) :
    SoundTopics
      (streamCommitBatchForOwner s compaction mono name group owner commits).1.topics := by
  unfold streamCommitBatchForOwner
  split
  · exact sound
  · rename_i limits
    simp only [not_or, not_lt] at limits
    refine guarded_keeps compaction sound fun s' same => ?_
    rw [← same] at sound
    split
    · cases found : findTopic s'.topics name with
      | none => exact sound
      | some t =>
        have soundT := sound.found found
        obtain ⟨soundU, fitsG, -, -, -⟩ :=
          soundT.ensureGroup group (commit_len_le soundT.fit.named.2 limits.2.1)
        simp only
        split
        · exact sound.set soundU
        · exact (sound.set soundU).commitGroup soundU fitsG _
    · split
      · exact sound
      · refine sound.onGroup name group mono (-1) fun s'' t g sound'' soundT fits => ?_
        split
        · exact sound''
        · exact sound''.commitGroup soundT fits _

theorem join (sound : SoundTopics s.topics) (mono : Nat) (name group : Bytes) (owner lease : Nat) :
    SoundTopics (streamGroupJoin s mono name group owner lease).1.topics := by
  unfold streamGroupJoin
  split
  · exact sound
  · rename_i limits
    simp only [not_or, not_lt] at limits
    cases found : findTopic s.topics name with
    | none => exact sound
    | some t =>
      have soundT := sound.found found
      obtain ⟨soundU, fitsG, -, -, -⟩ :=
        soundT.ensureGroup group (commit_len_le soundT.fit.named.2 limits.2.1)
      simp only
      split
      · exact sound.set (soundU.setGroup (fitsG.congr rfl rfl rfl rfl))
      · split
        · exact sound.set (soundU.setGroup (fitsG.congr rfl rfl rfl rfl))
        · exact sound.set (soundU.setGroup (fitsG.congr rfl rfl rfl rfl))

theorem leaveMember (sound : SoundTopics s.topics) (name group : Bytes) (owner : Nat) :
    SoundTopics (streamGroupLeaveMember s name group owner).1.topics := by
  unfold streamGroupLeaveMember
  split
  · exact sound
  · cases found : findTopic s.topics name with
    | none => exact sound
    | some t =>
      cases foundG : findGroup t group with
      | none => simpa only [foundG] using sound
      | some g =>
        simp only [foundG]
        split
        · have soundT := sound.found found
          have left : (g.leave owner).name = g.name ∧ (g.leave owner).offsets = g.offsets := by
            unfold StreamGroup.leave
            split <;> exact ⟨rfl, rfl⟩
          exact sound.set (soundT.setGroup
            ((soundT.foundGroup foundG).1.congr rfl rfl left.1 (by rw [left.2])))
        · exact sound

theorem onEveryGroup (sound : SoundTopics s.topics) {change : StreamGroup → StreamGroup}
    (keeps : ∀ g, (change g).name = g.name ∧ (change g).offsets = g.offsets) :
    SoundTopics (onEveryGroup s change).topics :=
  sound.map fun _ soundT => ⟨soundT.mapGroups keeps, rfl⟩

end SoundTopics

/-- Every call keeps the topics sound, whether its writes succeed or not. -/
theorem sound_run {s : StreamStore} (sound : SoundTopics s.topics) (call : Call)
    (fits : call.fits s.topics = true) : SoundTopics (call.run s).1.topics := by
  cases call with
  | declare => exact sound.declare ..
  | append => exact sound.append _ _ _ _ _ _ fits
  | appendBatch => exact sound.appendBatch _ _ _ _ _ _ fits
  | truncate => exact sound.truncate ..
  | setRetention => exact sound.setRetention ..
  | delete => exact sound.delete ..
  | fetchMetadata => exact sound.fetchMetadata ..
  | commit => exact sound.commit ..
  | commitIfGeneration => exact sound.commitIfGeneration ..
  | commitBatchIfGeneration => exact sound.commitBatchIfGeneration ..
  | resetOffsets => exact sound.resetOffsets ..
  | commitForOwner => exact sound.commitForOwner ..
  | commitForOwnerIfGeneration => exact sound.commitForOwnerIfGeneration ..
  | commitBatchForOwner => exact sound.commitBatchForOwner ..
  | join => exact sound.join ..
  | leaveMember => exact sound.leaveMember ..
  | leaveOwner owner =>
    simp only [Call.run, streamGroupLeaveOwner]
    split
    · exact sound
    · exact sound.onEveryGroup fun _ => ⟨rfl, rfl⟩
  | reap mono => exact sound.onEveryGroup fun _ => ⟨rfl, rfl⟩
  | checkpointMaybe compaction =>
    exact guarded_keeps compaction sound fun s' same => by simpa only [same] using sound

/-! ## Runs -/

/-- A step of a run: a file is opened, a call is made, or the disk turns out to take only so many
more writes. -/
inductive Step where
  | openFile (fresh : Bytes → StreamId) (now : Nat) (file : List LogRecord)
  | call (made : Call)
  | disk (writes : Option Nat)

def Step.run (s : StreamStore) : Step → StreamStore
  | .openFile fresh now file => openLog fresh now file
  | .call made => (made.run s).1
  | .disk writes => { s with writes := writes }

/-- No append of the step, live or by replay, is at offset `2 ^ 64 - 1`. -/
def Step.fits (s : StreamStore) : Step → Bool
  | .openFile _ _ file => file.all LogRecord.fits
  | .call made => made.fits s.topics
  | .disk _ => true

def runSteps (s : StreamStore) (steps : List Step) : StreamStore := steps.foldl Step.run s

def fitSteps : StreamStore → List Step → Bool
  | _, [] => true
  | s, step :: rest => step.fits s && fitSteps (step.run s) rest

theorem sound_step {s : StreamStore} (sound : SoundTopics s.topics) (step : Step)
    (fits : step.fits s = true) : SoundTopics (step.run s).topics := by
  cases step with
  | openFile fresh now file => exact sound_openLog fresh now (List.all_eq_true.mp fits)
  | call made => exact sound_run sound made fits
  | disk writes => exact sound

theorem sound_steps : ∀ (steps : List Step) {s : StreamStore}, SoundTopics s.topics →
    fitSteps s steps = true → SoundTopics (runSteps s steps).topics
  | [], _, sound, _ => sound
  | step :: rest, s, sound, fits => by
    obtain ⟨here, later⟩ := Bool.and_eq_true_iff.mp fits
    exact sound_steps rest (sound_step sound step here) later

/-! ## Offsets and counters -/

/-- The records of the partition are numbered `base`, …, `next - 1` in list order, the tail pointer
designates the last one (there is none, and `base = next`, when the list is empty), and the byte
counter is their sum. -/
structure StreamPart.Numbered (x : StreamPart) : Prop where
  ordered : x.base ≤ x.next
  offsets : x.chain.map StreamRecord.offset = List.range' x.base (x.next - x.base)
  tail : x.tail.bind (fun i => x.chain[i]?) = x.chain.getLast?
  noTail : x.chain = [] → x.tail = none ∧ x.base = x.next
  bytes : x.bytes = (x.chain.map recordBytes).sum

theorem StreamPart.Whole.numbered {x : StreamPart} (whole : x.Whole) : x.Numbered := by
  have next := whole.next_eq
  have length : x.next - x.base = x.chain.length := by omega
  refine ⟨by omega, length ▸ whole.offsets, ?_, ?_, whole.bytes_eq⟩
  · rw [whole.tail_eq, List.getLast?_eq_getElem?]
    by_cases none : x.chain = [] <;> simp [none]
  · intro none
    rw [none] at next
    exact ⟨by simp [whole.tail_eq, none], by simpa using next.symm⟩

/-- In every state of a run of openings, calls and compactions in which no record is appended at
offset `2 ^ 64 - 1`. -/
theorem partitions_numbered (steps : List Step) (fits : fitSteps .fresh steps = true)
    (t : StreamTopic) (mem : t ∈ (runSteps .fresh steps).topics) :
    (∀ x ∈ t.parts, x.Numbered) ∧
      t.bytes = (t.parts.map (fun x => (x.chain.map recordBytes).sum)).sum ∧
      t.records = (t.parts.map (fun x => x.chain.length)).sum := by
  have whole := ((sound_steps steps SoundTopics.nil fits).each t mem).whole
  refine ⟨fun x part => (whole.parts x part).numbered, ?_, whole.records_eq⟩
  rw [whole.bytes_eq]
  exact congrArg List.sum (List.map_congr_left fun x part => (whole.parts x part).bytes_eq)

/-- A topic with a size limit, three appends to it, and a truncation. -/
def sampleSteps : List Step :=
  [.call (.declare .notDue 7 [116] 2 6 0),
   .call (.append .notDue 10 10 [116] 0 ⟨[1], [2, 3]⟩),
   .call (.appendBatch .done 11 11 [116] uint32Max [⟨[], [4, 5]⟩, ⟨[], [6, 7, 8]⟩]),
   .call (.truncate .notDue [116] 0 2 5)]

theorem sampleSteps_numbered :
    fitSteps .fresh sampleSteps = true ∧
      ∀ t ∈ (runSteps .fresh sampleSteps).topics, ∀ x ∈ t.parts, x.Numbered :=
  ⟨by decide +kernel, fun t mem => (partitions_numbered sampleSteps (by decide +kernel) t mem).1⟩

/-- A log that moves an empty partition to the last offset and appends there. -/
def lastOffsetFile : List LogRecord :=
  [.declare [116] 1 0 0, .identity [116] 7, .trim [116] 0 uint64Max,
   .append [116] ⟨0, ⟨uint64Max, 10, [], [1]⟩⟩]

/-- Replay accepts the file; the next offset wraps to 0 with a record retained at `2 ^ 64 - 1`. -/
theorem last_offset_wraps :
    ∃ t ∈ (runSteps .fresh [.openFile (fun _ => 0) 10 lastOffsetFile]).topics, ∃ x ∈ t.parts,
      ¬ x.Numbered := by
  refine ⟨⟨[116], 0, 0, 1, 1, 3, 7, true, [⟨[⟨uint64Max, 10, [], [1]⟩], some 0, uint64Max, 0, 1⟩], []⟩,
    by decide +kernel, ⟨[⟨uint64Max, 10, [], [1]⟩], some 0, uint64Max, 0, 1⟩, by decide +kernel, ?_⟩
  intro numbered
  exact absurd numbered.ordered (by decide)

end KuttiDB.Stream
