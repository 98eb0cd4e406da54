/- # KuttiDB.Stream.Topics -- the topics replay builds are sound

`SoundTopics` is the invariant of the whole list of topics: distinct names, each topic sound. It is
kept by every record replay applies (`sound_replay`), so a file opens to a sound store
(`sound_openLog`), as long as no append of the file is at the last 64-bit offset.
-/
import KuttiDB.Stream.Invariant

namespace KuttiDB.Stream

open KuttiDB.QueueStore (Bytes u64)
open KuttiDB.Theory

set_option autoImplicit false

/-! ## The list of topics -/

structure SoundTopics (topics : List StreamTopic) : Prop where
  distinct : (topics.map StreamTopic.name).Nodup
  each : ∀ t ∈ topics, t.Sound

theorem findTopic_some {topics : List StreamTopic} {name : Bytes} {t : StreamTopic}
    (found : findTopic topics name = some t) : t ∈ topics ∧ t.name = name :=
  lookup_some _ found

theorem setTopic_names (t : StreamTopic) (topics : List StreamTopic) :
    (setTopic topics t).map StreamTopic.name = topics.map StreamTopic.name :=
  map_key_replace _ rfl topics

theorem mem_setTopic {topics : List StreamTopic} {t u : StreamTopic} (mem : u ∈ setTopic topics t) :
    u = t ∨ u ∈ topics := by
  rcases mem_updateFirst mem with old | ⟨_, _, _, eq⟩
  · exact .inr old
  · exact .inl eq

namespace SoundTopics

variable {topics : List StreamTopic} {t : StreamTopic}

theorem nil : SoundTopics [] := ⟨List.nodup_nil, by simp⟩

theorem set (sound : SoundTopics topics) (soundT : t.Sound) : SoundTopics (setTopic topics t) := by
  refine ⟨by rw [setTopic_names]; exact sound.distinct, fun u mem => ?_⟩
  rcases mem_setTopic mem with rfl | old
  · exact soundT
  · exact sound.each u old

theorem found (sound : SoundTopics topics) {name : Bytes} (found : findTopic topics name = some t) :
    t.Sound :=
  sound.each t (findTopic_some found).1

theorem drop (sound : SoundTopics topics) (name : Bytes) : SoundTopics (dropTopic topics name) := by
  refine ⟨sound.distinct.sublist (List.eraseP_sublist.map _), fun u mem => ?_⟩
  exact sound.each u (List.mem_of_mem_eraseP mem)

/-- Topics changed one by one, each keeping its name. -/
theorem map (sound : SoundTopics topics) {f : StreamTopic → StreamTopic}
    (keeps : ∀ t, t.Sound → (f t).Sound ∧ (f t).name = t.name) : SoundTopics (topics.map f) := by
  have names : (topics.map f).map StreamTopic.name = topics.map StreamTopic.name := by
    rw [List.map_map]
    exact List.map_congr_left fun t mem => (keeps t (sound.each t mem)).2
  refine ⟨by rw [names]; exact sound.distinct, fun u mem => ?_⟩
  obtain ⟨t, memT, rfl⟩ := List.mem_map.mp mem
  exact (keeps t (sound.each t memT)).1

end SoundTopics

theorem sound_newTopic (maxBytes maxAgeMs : Nat) (fresh : StreamId) {name : Bytes} {partitions : Nat}
    (named : name ≠ [] ∧ name.length ≤ streamNameMax)
    (divided : 0 < partitions ∧ partitions ≤ streamPartitionsMax) :
    (newTopic name partitions maxBytes maxAgeMs fresh).Sound := by
  have parts : (newTopic name partitions maxBytes maxAgeMs fresh).parts
      = List.replicate partitions .empty := rfl
  have only : ∀ x ∈ List.replicate partitions StreamPart.empty, x = .empty :=
    fun x mem => (List.mem_replicate.mp mem).2
  refine ⟨⟨?_, ?_, ?_⟩, ⟨named, ?_, ?_, List.nodup_nil, ?_⟩⟩
  · intro x mem
    rw [only x mem]
    exact StreamPart.whole_empty
  · simp [StreamPart.empty, newTopic]
  · simp [StreamPart.empty, newTopic]
  · simpa [StreamTopic.partitions, parts] using divided
  · intro x mem r within
    rw [only x mem] at within
    simp [StreamPart.empty] at within
  · simp [newTopic]

theorem sound_addTopic {topics added : List StreamTopic} {name : Bytes}
    {partitions maxBytes maxAgeMs : Nat} {fresh : StreamId} (sound : SoundTopics topics)
    (accepted : addTopic topics name partitions maxBytes maxAgeMs fresh = some added) :
    SoundTopics added := by
  unfold addTopic at accepted
  split at accepted
  · cases accepted
  · rename_i limits
    simp only [not_or, not_lt, Nat.pos_iff_ne_zero.symm] at limits
    split at accepted
    · split at accepted
      · cases accepted
        exact sound
      · cases accepted
    · rename_i absent
      cases accepted
      have new : ∀ t ∈ topics, t.name ≠ name := (lookup_none _).mp absent
      refine ⟨?_, ?_⟩
      · rw [List.map_cons, List.nodup_cons]
        refine ⟨fun mem => ?_, sound.distinct⟩
        obtain ⟨t, memT, eq⟩ := List.mem_map.mp mem
        exact new t memT eq
      · intro t mem
        rcases List.mem_cons.mp mem with rfl | old
        · exact sound_newTopic _ _ _ ⟨limits.1, limits.2.1⟩ ⟨limits.2.2.1, limits.2.2.2⟩
        · exact sound.each t old

/-! ## Groups -/

namespace StreamTopic.Sound

variable {t u : StreamTopic} {g : StreamGroup}

/-- Nothing depends on the settings, the revision and the identity. -/
theorem congr (sound : t.Sound) (name : u.name = t.name) (parts : u.parts = t.parts)
    (groups : u.groups = t.groups) (bytes : u.bytes = t.bytes) (records : u.records = t.records) :
    u.Sound := by
  obtain ⟨⟨wholeParts, wholeBytes, wholeRecords⟩, ⟨named, divided, fitRecords, distinct, fitGroups⟩⟩ :=
    sound
  have count : u.partitions = t.partitions := by simp [StreamTopic.partitions, parts]
  refine ⟨⟨parts ▸ wholeParts, ?_, ?_⟩, ⟨name ▸ named, count ▸ divided, ?_, groups ▸ distinct, ?_⟩⟩
  · rw [bytes, parts, wholeBytes]
  · rw [records, parts, wholeRecords]
  · rw [parts, name]
    exact fitRecords
  · intro g mem
    rw [groups] at mem
    exact ⟨count ▸ (fitGroups g mem).offsets, name ▸ (fitGroups g mem).name⟩

theorem withGroups (sound : t.Sound) {groups : List StreamGroup}
    (distinct : (groups.map StreamGroup.name).Nodup) (fits : ∀ g ∈ groups, GroupFits t g) :
    { t with groups := groups }.Sound :=
  ⟨⟨sound.whole.parts, sound.whole.bytes_eq, sound.whole.records_eq⟩,
    ⟨sound.fit.named, sound.fit.divided, sound.fit.records, distinct,
      fun g mem => ⟨(fits g mem).offsets, (fits g mem).name⟩⟩⟩

theorem setGroup (sound : t.Sound) (fits : GroupFits t g) : (setGroup t g).Sound := by
  refine sound.withGroups ?_ fun h mem => ?_
  · rw [map_key_replace _ rfl]
    exact sound.fit.distinct
  rcases mem_updateFirst mem with old | ⟨_, _, _, rfl⟩
  · exact sound.fit.groups h old
  · exact fits

theorem ensureGroup (sound : t.Sound) (name : Bytes)
    (fits : (LogRecord.commit t.name name 0 0).len ≤ recordMax) :
    (ensureGroup t name).1.Sound ∧ GroupFits (ensureGroup t name).1 (ensureGroup t name).2 ∧
      (ensureGroup t name).1.name = t.name ∧ (ensureGroup t name).1.parts = t.parts ∧
      (ensureGroup t name).2.name = name := by
  unfold Stream.ensureGroup
  split
  · rename_i g found
    obtain ⟨mem, named⟩ := lookup_some _ found
    exact ⟨sound, sound.fit.groups g mem, rfl, rfl, named⟩
  · rename_i absent
    have new : ∀ h ∈ t.groups, h.name ≠ name := (lookup_none _).mp absent
    have zero : GroupFits t ⟨name, List.replicate t.partitions 0, [], 0⟩ :=
      ⟨List.length_replicate, fits⟩
    refine ⟨sound.withGroups ?_ ?_, ⟨zero.offsets, zero.name⟩, rfl, rfl, rfl⟩
    · rw [List.map_cons, List.nodup_cons]
      refine ⟨fun mem => ?_, sound.fit.distinct⟩
      obtain ⟨h, memH, eq⟩ := List.mem_map.mp mem
      exact new h memH eq
    · intro h mem
      rcases List.mem_cons.mp mem with rfl | old
      · exact zero
      · exact sound.fit.groups h old

theorem foundGroup (sound : t.Sound) {name : Bytes} (found : findGroup t name = some g) :
    GroupFits t g ∧ g.name = name :=
  ⟨sound.fit.groups g (lookup_some _ found).1, (lookup_some _ found).2⟩

end StreamTopic.Sound

theorem GroupFits.commitAll {t : StreamTopic} (commits : List (Nat × Nat)) :
    ∀ {g : StreamGroup}, GroupFits t g →
      GroupFits t (g.commitAll commits) ∧ (g.commitAll commits).name = g.name := by
  induction commits with
  | nil => exact fun fits => ⟨fits, rfl⟩
  | cons c rest ih =>
    intro g fits
    have one : GroupFits t (g.commit c.1 c.2) :=
      ⟨by simp [StreamGroup.commit, fits.offsets], fits.name⟩
    exact ih one

theorem commit_len_le {name group : Bytes} (named : name.length ≤ streamNameMax)
    (limit : group.length ≤ streamGroupMax) :
    (LogRecord.commit name group 0 0).len ≤ recordMax := by
  simp only [LogRecord.len, recordMax, streamNameMax, streamGroupMax] at *
  omega

/-! ## Replay -/

/-- The records a log record appends. -/
def LogRecord.items : LogRecord → List BatchItem
  | .append _ item => [item]
  | .appendBatch _ items => items
  | _ => []

/-- No append of the record is at the last offset. -/
def LogRecord.fits (r : LogRecord) : Bool :=
  r.items.all (fun i => i.record.offset != uint64Max)

theorem LogRecord.fits_iff {r : LogRecord} :
    r.fits = true ↔ ∀ i ∈ r.items, i.record.offset ≠ uint64Max := by
  simp [LogRecord.fits]

theorem le_sum_of_mem {x : Nat} : ∀ {xs : List Nat}, x ∈ xs → x ≤ xs.sum
  | y :: ys, mem => by
    rw [List.sum_cons]
    rcases List.mem_cons.mp mem with rfl | later
    · omega
    · have rest := le_sum_of_mem later
      omega

/-- An item that was logged in a batch can be logged alone. -/
theorem batch_item_fits {name : Bytes} {items : List BatchItem} {i : BatchItem} (mem : i ∈ items)
    (len : (LogRecord.appendBatch name items).len ≤ recordMax) : RecordFits name i.record := by
  have one : 24 + recordBytes i.record ≤ (items.map (fun i => 24 + recordBytes i.record)).sum :=
    le_sum_of_mem (List.mem_map_of_mem mem)
  have some_ : 0 < items.length := List.length_pos_of_mem mem
  simp only [RecordFits, LogRecord.len] at len ⊢
  by_cases key : i.record.key = []
  · rw [if_pos key]
    omega
  · have keyedItems : keyed items = true :=
      List.any_eq_true.mpr ⟨i, mem, by simpa using key⟩
    rw [keyedItems, if_pos rfl] at len
    rw [if_neg key]
    omega

theorem record_items_fit {r : LogRecord} (len : r.len ≤ recordMax) :
    ∀ i ∈ r.items, RecordFits r.name i.record := by
  cases r with
  | append name item =>
    intro i mem
    cases List.mem_singleton.mp mem
    exact len
  | appendBatch name items => exact fun i mem => batch_item_fits mem len
  | _ => exact fun i mem => absurd mem List.not_mem_nil

theorem sound_appendItems (items : List BatchItem) :
    ∀ {t : StreamTopic}, t.Sound → (∀ i ∈ items, i.record.offset ≠ uint64Max) →
      (∀ i ∈ items, RecordFits t.name i.record) →
      (appendItems t items).1.Sound ∧ (appendItems t items).1.name = t.name := by
  induction items with
  | nil => exact fun sound _ _ => ⟨sound, rfl⟩
  | cons item rest ih =>
    intro t sound room fits
    rw [appendItems]
    cases added : appendMemory t item.part item.record with
    | none => exact ⟨sound, rfl⟩
    | some u =>
      unfold appendMemory at added
      split at added
      · cases added
      · rename_i checks
        simp only [not_or, not_le, not_not] at checks
        cases added
        have linked := sound_partLink sound checks.1 checks.2
          (checks.2 ▸ room item List.mem_cons_self) (fits item List.mem_cons_self)
        exact ih linked (fun i mem => room i (List.mem_cons_of_mem _ mem))
          (fun i mem => fits i (List.mem_cons_of_mem _ mem))

theorem u64_le (n : Nat) : u64 n ≤ uint64Max := by
  simp only [KuttiDB.QueueStore.u64, uint64Max]
  omega

theorem sound_replayTopic {t : StreamTopic} {r : LogRecord} (sound : t.Sound) (named : t.name = r.name)
    (fits : r.fits = true) (len : r.len ≤ recordMax) :
    (replayTopic t r).1.Sound ∧ (replayTopic t r).1.name = t.name := by
  have room := LogRecord.fits_iff.mp fits
  have sized := record_items_fit len
  rw [← named] at sized
  cases r with
  | declare | delete => exact ⟨sound, rfl⟩
  | append name item => exact sound_appendItems _ sound room sized
  | appendBatch name items =>
    rw [replayTopic]
    split
    · exact ⟨sound, rfl⟩
    · exact sound_appendItems _ sound room sized
  | commit name group p offset =>
    rw [replayTopic]
    split
    · exact ⟨sound, rfl⟩
    · subst named
      obtain ⟨soundU, fitsG, nameU, -, -⟩ := sound.ensureGroup group len
      exact ⟨soundU.setGroup (fitsG.commitAll [(p, offset)]).1, nameU⟩
  | trim name p base =>
    rw [replayTopic]
    split
    · exact ⟨sound, rfl⟩
    · rename_i inside
      exact ⟨sound_trimPart sound (Nat.lt_of_not_le inside) (u64_le base), rfl⟩
  | retention | identity => exact ⟨sound.congr rfl rfl rfl rfl rfl, rfl⟩
  | revision name revision =>
    rw [replayTopic]
    split
    · exact ⟨sound, rfl⟩
    · exact ⟨sound.congr rfl rfl rfl rfl rfl, rfl⟩

/-- Every record but a declaration and a deletion changes the topic it names, if there is one. -/
theorem replay_cases (fresh : Bytes → StreamId) (topics : List StreamTopic) (r : LogRecord) :
    (∃ name partitions maxBytes maxAgeMs, r = .declare name partitions maxBytes maxAgeMs) ∨
      (∃ name, r = .delete name) ∨ replay fresh topics r = (topics, false) ∨
      ∃ t, findTopic topics r.name = some t ∧
        replay fresh topics r = (setTopic topics (replayTopic t r).1, (replayTopic t r).2) := by
  cases r with
  | declare name partitions maxBytes maxAgeMs =>
    exact .inl ⟨name, partitions, maxBytes, maxAgeMs, rfl⟩
  | delete name => exact .inr (.inl ⟨name, rfl⟩)
  | _ =>
    refine .inr (.inr ?_)
    simp only [replay]
    split
    · exact .inl rfl
    · split
      · exact .inl rfl
      · rename_i t found
        exact .inr ⟨t, found, rfl⟩

theorem sound_replay (fresh : Bytes → StreamId) {topics : List StreamTopic} {r : LogRecord}
    (sound : SoundTopics topics) (fits : r.fits = true) (len : r.len ≤ recordMax) :
    SoundTopics (replay fresh topics r).1 := by
  rcases replay_cases fresh topics r with
    ⟨name, partitions, maxBytes, maxAgeMs, rfl⟩ | ⟨name, rfl⟩ | same | ⟨t, found, after⟩
  · simp only [replay]
    cases added : addTopic topics name partitions maxBytes maxAgeMs (fresh name) with
    | none => exact sound
    | some ts => exact sound_addTopic sound added
  · simp only [replay]
    split
    · exact sound
    · exact sound.drop name
  · rw [same]
    exact sound
  · rw [after]
    exact sound.set (sound_replayTopic (sound.found found) (findTopic_some found).2 fits len).1

theorem sound_replayAll (fresh : Bytes → StreamId) : ∀ {records : List LogRecord}
    {topics : List StreamTopic}, SoundTopics topics → (∀ r ∈ records, r.fits = true) →
    SoundTopics (replayAll fresh topics records).1
  | [], _, sound, _ => sound
  | r :: rest, topics, sound, fits => by
    rw [replayAll]
    split
    · exact sound
    · rename_i len
      have one := sound_replay fresh sound (fits r List.mem_cons_self) (Nat.le_of_not_lt len)
      cases applied : replay fresh topics r with
      | mk after ok =>
        rw [applied] at one
        cases ok with
        | false => exact one
        | true => exact sound_replayAll fresh one (fun r mem => fits r (List.mem_cons_of_mem _ mem))

/-- A file without an append at the last offset opens to a sound store. -/
theorem sound_openLog (fresh : Bytes → StreamId) (now : Nat) {file : List LogRecord}
    (fits : ∀ r ∈ file, r.fits = true) : SoundTopics (openLog fresh now file).topics := by
  refine (sound_replayAll fresh SoundTopics.nil fits).map fun t sound => ?_
  exact sound_enforce now (t := { t with idPersisted := true }) (sound.congr rfl rfl rfl rfl rfl)

end KuttiDB.Stream
