/- # KuttiDB.Stream.LogReplay -- the log of a run replays to memory

`Tracks` says that the log of a store is accepted in full and that replay rebuilds each topic as
`SameTopic` has it. Every call whose writes succeed keeps it: a call on one topic logs records that
`Follows` the change (`Tracks.set`), declarations and deletions change the list on both sides, a
compaction starts the log afresh, and reopening runs retention without logging it.
-/
import KuttiDB.Stream.Mirror

namespace KuttiDB.Stream

open KuttiDB.QueueStore (Bytes u64)
open KuttiDB.Theory

set_option autoImplicit false

/-- Replay rebuilds the same topics, whatever their order. -/
def SameTopics (exact : Prop) (memory replayed : List StreamTopic) : Prop :=
  ∀ name, Option.Rel (SameTopic exact) (findTopic memory name) (findTopic replayed name)

/-- A stretch of calls: whether retention is all logged, the topics whose deletion is logged although
they are still in memory, the log it started from, and the topic list if no call changes it. -/
structure Window where
  exact : Prop
  hidden : List Bytes
  since : List LogRecord
  names : Option (List Bytes)

/-- Nothing is being deleted, and calls of every kind are made. -/
def Window.sequential (exact : Prop) : Window := ⟨exact, [], [], none⟩

/-- Replay rebuilds every topic that is not being deleted, and none of the others. -/
def Window.Same (w : Window) (memory replayed : List StreamTopic) : Prop :=
  ∀ name, if name ∈ w.hidden then findTopic replayed name = none
    else Option.Rel (SameTopic w.exact) (findTopic memory name) (findTopic replayed name)

structure Tracks (w : Window) (fresh : Bytes → StreamId) (s : StreamStore) : Prop where
  healthy : s.failed = false
  writing : s.writes = none
  sound : SoundTopics s.topics
  grown : w.since <+: s.log
  framed : ∀ names ∈ w.names, s.topics.map StreamTopic.name = names
  replayed : ∃ r, Replays fresh [] s.log r ∧ SoundTopics r ∧ w.Same s.topics r

theorem Window.Same.shown {w : Window} {memory replayed : List StreamTopic}
    (same : w.Same memory replayed) {name : Bytes} (shown : name ∉ w.hidden) :
    Option.Rel (SameTopic w.exact) (findTopic memory name) (findTopic replayed name) := by
  have here := same name
  rwa [if_neg shown] at here

/-- A change of one topic on both sides. -/
theorem Window.Same.change {w : Window} {memory replayed memory' replayed' : List StreamTopic}
    (same : w.Same memory replayed) (name : Bytes) (shown : name ∉ w.hidden)
    (here : Option.Rel (SameTopic w.exact) (findTopic memory' name) (findTopic replayed' name))
    (memoryOther : ∀ other, other ≠ name → findTopic memory' other = findTopic memory other)
    (replayedOther : ∀ other, other ≠ name → findTopic replayed' other = findTopic replayed other) :
    w.Same memory' replayed' := by
  intro other
  by_cases hit : other = name
  · rw [hit, if_neg shown]
    exact here
  · rw [memoryOther other hit, replayedOther other hit]
    exact same other

theorem Window.same_sequential {exact : Prop} {memory replayed : List StreamTopic} :
    (Window.sequential exact).Same memory replayed ↔ SameTopics exact memory replayed := by
  simp [Window.Same, Window.sequential, SameTopics]

/-! ## The rebuilt store mirrors the store -/

theorem sound_rebuilt {topics : List StreamTopic} (sound : SoundTopics topics) :
    SoundTopics (topics.map StreamTopic.rebuilt).reverse := by
  have each : SoundTopics (topics.map StreamTopic.rebuilt) := by
    refine sound.map fun t soundT => ⟨?_, rfl⟩
    have names : (t.groups.map StreamGroup.logged).map StreamGroup.name
        = t.groups.map StreamGroup.name := by
      rw [List.map_map]
      rfl
    have regrouped : { t with groups := (t.groups.map StreamGroup.logged).reverse }.Sound := by
      refine soundT.withGroups ?_ fun g mem => ?_
      · rw [List.map_reverse, List.nodup_reverse, names]
        exact soundT.fit.distinct
      · obtain ⟨h, memH, rfl⟩ := List.mem_map.mp (List.mem_reverse.mp mem)
        exact (soundT.fit.groups h memH).congr rfl rfl rfl rfl
    exact regrouped.congr rfl rfl rfl rfl rfl
  exact ⟨by rw [List.map_reverse, List.nodup_reverse]; exact each.distinct,
    fun t mem => each.each t (List.mem_reverse.mp mem)⟩

theorem lookup_reversed {α : Type} (key : α → Bytes) {f : α → α} (keeps : ∀ x, key (f x) = key x)
    {xs : List α} (distinct : (xs.map key).Nodup) (k : Bytes) :
    lookup key (xs.map f).reverse k = (lookup key xs k).map f := by
  have names : ((xs.map f).map key).Nodup := by
    have same : (xs.map f).map key = xs.map key := by
      rw [List.map_map]
      exact List.map_congr_left fun x _ => keeps x
    rwa [same]
  rw [← lookup_perm key names (List.reverse_perm _).symm, lookup_map key keeps]

theorem mirror_rebuilt {exact : Prop} {t : StreamTopic} (sound : t.Sound) :
    SameTopic exact t t.rebuilt := by
  refine ⟨rfl, rfl, rfl, rfl, rfl, rfl, fun p inside => ?_, fun group p => ?_⟩
  · exact Lag.refl (sound.whole.parts _ (StreamTopic.part_mem inside))
  · have found : findGroup t.rebuilt group = (findGroup t group).map StreamGroup.logged :=
      lookup_reversed StreamGroup.name (f := StreamGroup.logged) (fun _ => rfl) sound.fit.distinct group
    rw [groupOffset, groupOffset, found]
    cases findGroup t group <;> rfl

/-! ## Logging without failures -/

section Logging

variable {s : StreamStore} (writing : s.writes = none)
include writing

theorem logRecord_ok (r : LogRecord) : logRecord s r = ({ s with log := s.log ++ [r] }, true) := by
  rw [logRecord, writing]

theorem logEach_ok (records : List LogRecord) :
    logEach s records = ({ s with log := s.log ++ records }, true) := by
  induction records generalizing s with
  | nil => simp [logEach]
  | cons r rest ih =>
    rw [logEach, logRecord_ok writing]
    simp only
    rw [ih (by exact writing)]
    simp

end Logging

/-! ## Changes of the store -/

/-- A topic added to a list that does not have it. -/
theorem SoundTopics.cons {topics : List StreamTopic} {t : StreamTopic} (sound : SoundTopics topics)
    (soundT : t.Sound) (absent : findTopic topics t.name = none) : SoundTopics (t :: topics) := by
  refine ⟨List.nodup_cons.mpr ⟨fun mem => ?_, sound.distinct⟩, fun u mem => ?_⟩
  · obtain ⟨u, memU, eq⟩ := List.mem_map.mp mem
    exact (lookup_none _).mp absent u memU eq
  · rcases List.mem_cons.mp mem with rfl | old
    · exact soundT
    · exact sound.each u old

/-- A declaration and an identity, replayed on topics that do not have the name. -/
theorem replays_declared (fresh : Bytes → StreamId) {r : List StreamTopic} {name : Bytes}
    {partitions maxBytes maxAgeMs : Nat} {id : StreamId}
    (named : name ≠ [] ∧ name.length ≤ streamNameMax)
    (divided : 0 < partitions ∧ partitions ≤ streamPartitionsMax) (newR : findTopic r name = none) :
    Replays fresh r [.declare name partitions maxBytes maxAgeMs, .identity name id]
      ({ newTopic name partitions maxBytes maxAgeMs id with idPersisted := true } :: r) := by
  have added : addTopic r name partitions maxBytes maxAgeMs (fresh name)
      = some (newTopic name partitions maxBytes maxAgeMs (fresh name) :: r) := by
    have within : ¬ (name = [] ∨ name.length > streamNameMax ∨ partitions = 0
        ∨ partitions > streamPartitionsMax) := by
      simp only [not_or]
      exact ⟨named.1, by omega, by omega, by omega⟩
    rw [addTopic, if_neg within]
    simp only [newR]
  have short := named.2
  have first : Replays fresh r [.declare name partitions maxBytes maxAgeMs]
      (newTopic name partitions maxBytes maxAgeMs (fresh name) :: r) := by
    refine Replays.one ?_ (by simp only [replay, added])
    simp only [LogRecord.len, streamNameMax, recordMax] at short ⊢
    omega
  have second := replays_found fresh [.identity name id]
    (t := newTopic name partitions maxBytes maxAgeMs (fresh name))
    (lookup_cons_hit _ rfl r) named.2
    (by
      intro r' mem
      cases List.mem_singleton.mp mem
      refine ⟨rfl, ?_⟩
      simp only [LogRecord.len, streamNameMax, recordMax] at short ⊢
      omega) rfl
  have rest : setTopic (newTopic name partitions maxBytes maxAgeMs (fresh name) :: r)
      { newTopic name partitions maxBytes maxAgeMs id with idPersisted := true }
        = { newTopic name partitions maxBytes maxAgeMs id with idPersisted := true } :: r := by
    rw [setTopic, updateFirst_cons_hit (by simp [newTopic])]
  exact first.append (by rw [← rest]; exact second)

theorem replays_deleted (fresh : Bytes → StreamId) {r : List StreamTopic} {u : StreamTopic}
    {name : Bytes} (short : name.length ≤ streamNameMax) (there : findTopic r name = some u) :
    Replays fresh r [.delete name] (dropTopic r name) := by
  refine Replays.one ?_ (by simp [replay, there])
  simp only [LogRecord.len, streamNameMax, recordMax] at short ⊢
  omega

theorem findTopic_onEveryGroup (s : StreamStore) (change : StreamGroup → StreamGroup) (name : Bytes) :
    findTopic (onEveryGroup s change).topics name
      = (findTopic s.topics name).map (fun t => { t with groups := t.groups.map change }) :=
  lookup_map StreamTopic.name (f := fun t => { t with groups := t.groups.map change })
    (fun _ => rfl) name s.topics

theorem groupOffset_regrouped {change : StreamGroup → StreamGroup}
    (keeps : ∀ g, (change g).name = g.name ∧ (change g).offsets = g.offsets) (t : StreamTopic)
    (group : Bytes) (p : Nat) :
    groupOffset { t with groups := t.groups.map change } group p = groupOffset t group p := by
  have groups : findGroup { t with groups := t.groups.map change } group
      = (findGroup t group).map change :=
    lookup_map StreamGroup.name (fun g => (keeps g).1) group t.groups
  rw [groupOffset, groupOffset, groups]
  cases findGroup t group with
  | none => rfl
  | some g => simp only [Option.map_some, (keeps g).2]

namespace Tracks

variable {w : Window} {fresh : Bytes → StreamId} {s : StreamStore} {t t' : StreamTopic}
  {records : List LogRecord} {name : Bytes}

theorem start {exact : Prop} : Tracks (.sequential exact) fresh .fresh :=
  ⟨rfl, rfl, SoundTopics.nil, List.nil_prefix, nofun, [], Replays.nil, SoundTopics.nil,
    Window.same_sequential.mpr fun _ => .none⟩

theorem partner (tracks : Tracks w fresh s) (found : findTopic s.topics name = some t)
    (shown : name ∉ w.hidden) :
    ∃ r u, Replays fresh [] s.log r ∧ SoundTopics r ∧ w.Same s.topics r ∧
      findTopic r name = some u ∧ SameTopic w.exact t u := by
  obtain ⟨r, run, soundR, mirror⟩ := tracks.replayed
  have here := mirror.shown shown
  rw [found] at here
  cases found' : findTopic r name with
  | none =>
    rw [found'] at here
    cases here
  | some u =>
    rw [found'] at here
    cases here with
    | some same => exact ⟨r, u, run, soundR, mirror, found', same⟩

/-- The records of a change are replayed on the rebuilt topic. -/
theorem follow (tracks : Tracks w fresh s) (found : findTopic s.topics t.name = some t)
    (follows : Follows w.exact t t' records) {r : List StreamTopic} {u u' : StreamTopic}
    (run : Replays fresh [] s.log r) (partner : findTopic r t.name = some u) (named : u.name = t.name)
    (step : replayEach u records = some u') :
    Replays fresh [] (s.log ++ records) (setTopic r u') :=
  run.append (replays_found fresh records (by rw [named]; exact partner)
    (named ▸ (tracks.sound.found found).fit.named.2) (named ▸ follows.fits) step)

/-- A change of one topic with the records that follow it. -/
theorem set (tracks : Tracks w fresh s) (shown : t.name ∉ w.hidden)
    (found : findTopic s.topics t.name = some t) (follows : Follows w.exact t t' records) :
    Tracks w fresh { s with log := s.log ++ records, topics := setTopic s.topics t' } := by
  obtain ⟨r, u, run, soundR, mirror, partner, same⟩ := tracks.partner found shown
  obtain ⟨u', step, soundU', same'⟩ := follows.replays u (soundR.found partner) same
  have named : u.name = t.name := same.name
  have named' : u'.name = u.name := replayEach_name records step
  refine ⟨tracks.healthy, tracks.writing, tracks.sound.set follows.sound,
    tracks.grown.trans (List.prefix_append _ _), fun names frame => ?_, setTopic r u',
    tracks.follow found follows run partner named step, soundR.set soundU', ?_⟩
  · rw [setTopic_names]
    exact tracks.framed names frame
  · refine mirror.change t.name shown ?_ ?_ ?_
    · rw [findTopic_setTopic_same found follows.name]
      have foundU : findTopic (setTopic r u') t.name = some u' := by
        rw [← named]
        exact findTopic_setTopic_same (by rw [named]; exact partner) named'
      rw [foundU]
      exact .some same'
    · exact fun other miss => findTopic_setTopic_other _ (by rw [follows.name]; exact miss)
    · exact fun other miss => findTopic_setTopic_other _ (by rw [named', named]; exact miss)

theorem absent (tracks : Tracks w fresh s) (shown : name ∉ w.hidden)
    (none_ : findTopic s.topics name = none) :
    ∃ r, Replays fresh [] s.log r ∧ SoundTopics r ∧ w.Same s.topics r ∧ findTopic r name = none := by
  obtain ⟨r, run, soundR, mirror⟩ := tracks.replayed
  refine ⟨r, run, soundR, mirror, ?_⟩
  have here := mirror.shown shown
  rw [none_] at here
  cases partner : findTopic r name with
  | none => rfl
  | some u =>
    rw [partner] at here
    cases here

/-- The compacted log replaces the log. -/
theorem compacted (tracks : Tracks w fresh s) (counted : ∀ t ∈ s.topics, t.revision ≠ 0)
    (whole : w.hidden = []) {since : List LogRecord} (old : since <+: compactRecords s.topics) :
    Tracks { w with since := since } fresh { s with log := compactRecords s.topics } := by
  have rebuilt := replays_compacted fresh s.topics [] tracks.sound counted (by simp)
  rw [List.append_nil] at rebuilt
  refine ⟨tracks.healthy, tracks.writing, tracks.sound, old, tracks.framed, _, rebuilt,
    sound_rebuilt tracks.sound, fun name => ?_⟩
  rw [if_neg (by simp [whole])]
  have rebuiltName : findTopic (s.topics.map StreamTopic.rebuilt).reverse name
      = (findTopic s.topics name).map StreamTopic.rebuilt :=
    lookup_reversed StreamTopic.name (f := StreamTopic.rebuilt) (fun _ => rfl)
      tracks.sound.distinct name
  rw [rebuiltName]
  cases found : findTopic s.topics name with
  | none => exact .none
  | some t => exact .some (mirror_rebuilt (tracks.sound.found found))

/-- A new topic, logged as a declaration and an identity. -/
theorem declared (tracks : Tracks w fresh s) {partitions maxBytes maxAgeMs : Nat} {id : StreamId}
    (named : name ≠ [] ∧ name.length ≤ streamNameMax)
    (divided : 0 < partitions ∧ partitions ≤ streamPartitionsMax) (free : w.names = none)
    (shown : name ∉ w.hidden) (new : findTopic s.topics name = none) :
    Tracks w fresh { s with
      log := s.log ++ [.declare name partitions maxBytes maxAgeMs, .identity name id]
      topics := { newTopic name partitions maxBytes maxAgeMs id with idPersisted := true }
        :: s.topics } := by
  obtain ⟨r, run, soundR, mirror, newR⟩ := tracks.absent shown new
  have soundT : { newTopic name partitions maxBytes maxAgeMs id with idPersisted := true }.Sound :=
    (sound_newTopic maxBytes maxAgeMs id named divided).congr rfl rfl rfl rfl rfl
  refine ⟨tracks.healthy, tracks.writing, tracks.sound.cons soundT new,
    tracks.grown.trans (List.prefix_append _ _), by simp [free], _,
    run.append (replays_declared fresh named divided newR), soundR.cons soundT newR, ?_⟩
  refine mirror.change name shown ?_ ?_ ?_
  · have named : { newTopic name partitions maxBytes maxAgeMs id with idPersisted := true }.name
        = name := rfl
    rw [findTopic, lookup_cons_hit _ named, findTopic, lookup_cons_hit _ named]
    refine .some ⟨rfl, rfl, rfl, rfl, rfl, rfl, fun p inside => ?_, fun _ _ => rfl⟩
    exact Lag.refl (soundT.whole.parts _ (StreamTopic.part_mem inside))
  · exact fun other miss => lookup_cons_miss _ (Ne.symm miss) _
  · exact fun other miss => lookup_cons_miss _ (Ne.symm miss) _

/-- A deletion is logged; the topic is still in memory. -/
theorem deleteLogged (tracks : Tracks w fresh s) (shown : name ∉ w.hidden)
    (found : findTopic s.topics name = some t) :
    Tracks { w with hidden := name :: w.hidden } fresh
      { s with log := s.log ++ [.delete name] } := by
  obtain ⟨r, u, run, soundR, mirror, partner, -⟩ := tracks.partner found shown
  have short := (tracks.sound.found found).fit.named.2
  rw [(findTopic_some found).2] at short
  refine ⟨tracks.healthy, tracks.writing, tracks.sound, tracks.grown.trans (List.prefix_append _ _),
    tracks.framed, _, run.append (replays_deleted fresh short partner), soundR.drop name, fun other => ?_⟩
  by_cases hit : other = name
  · rw [if_pos (by simp [hit]), hit, findTopic, dropTopic, lookup_erase_same _ soundR.distinct]
  · have here := mirror other
    simpa only [List.mem_cons, hit, false_or, findTopic, dropTopic, lookup_erase_other _ hit]
      using here

/-- The topic of a logged deletion leaves memory. -/
theorem dropped (tracks : Tracks { w with hidden := name :: w.hidden } fresh s)
    (shown : name ∉ w.hidden) (free : w.names = none) :
    Tracks w fresh { s with topics := dropTopic s.topics name } := by
  obtain ⟨r, run, soundR, mirror⟩ := tracks.replayed
  refine ⟨tracks.healthy, tracks.writing, tracks.sound.drop name, tracks.grown, by simp [free], r, run,
    soundR, fun other => ?_⟩
  have here := mirror other
  by_cases hit : other = name
  · rw [if_pos (by simp [hit])] at here
    rw [if_neg (by rw [hit]; exact shown), here, hit, findTopic, dropTopic,
      lookup_erase_same _ tracks.sound.distinct]
    exact .none
  · simpa only [List.mem_cons, hit, false_or, findTopic, dropTopic, lookup_erase_other _ hit]
      using here

/-- Memberships changed everywhere. -/
theorem regrouped (tracks : Tracks w fresh s) {change : StreamGroup → StreamGroup}
    (keeps : ∀ g, (change g).name = g.name ∧ (change g).offsets = g.offsets) :
    Tracks w fresh (onEveryGroup s change) := by
  obtain ⟨healthy, writing, sound, grown, framed, r, run, soundR, mirror⟩ := tracks
  refine ⟨healthy, writing, sound.onEveryGroup keeps, grown, fun names frame => ?_, r, run, soundR,
    fun name => ?_⟩
  · rw [← framed names frame, onEveryGroup, List.map_map]
    rfl
  have here := mirror name
  split
  · rwa [if_pos ‹_›] at here
  · rw [if_neg ‹_›] at here
    rw [findTopic_onEveryGroup]
    revert here
    cases findTopic s.topics name <;> cases findTopic r name <;> intro here <;> cases here
    · exact .none
    · rename_i t u same
      exact .some ⟨same.name, same.maxBytes, same.maxAgeMs, same.id, same.persisted, same.count,
        same.parts, fun group p => (groupOffset_regrouped keeps t group p).trans (same.offsets group p)⟩

/-- Reopening a log whose topics all have their identity: replay, then retention, and not a record
more. -/
theorem opened {exact : Prop} {r : List StreamTopic} (run : Replays fresh [] s.log r)
    (soundR : SoundTopics r) (mirror : SameTopics exact s.topics r) (now : Nat) :
    (∀ u ∈ r, u.idPersisted = true) ∧
      openLog fresh now s.log = ⟨r.map (fun t => (enforce now t).1), s.log, false, none⟩ := by
  have persisted : ∀ u ∈ r, u.idPersisted = true := by
    intro u mem
    have here := mirror u.name
    rw [show findTopic r u.name = some u from lookup_of_mem _ soundR.distinct mem] at here
    cases found : findTopic s.topics u.name with
    | none =>
      rw [found] at here
      cases here
    | some t =>
      rw [found] at here
      cases here with
      | some same => exact same.persisted
  have noUpgrade : identityRecords r = [] := by
    have none_ : r.filter (fun t => !t.idPersisted) = [] :=
      List.filter_eq_nil_iff.mpr fun u mem => by simp [persisted u mem]
    rw [identityRecords, none_, List.map_nil]
  have marked : ∀ u ∈ r, { u with idPersisted := true } = u := by
    intro u mem
    have same := persisted u mem
    cases u
    simp_all
  have passes : r.map (fun t => (enforce now { t with idPersisted := true }).1)
      = r.map (fun t => (enforce now t).1) :=
    List.map_congr_left fun u mem => by rw [marked u mem]
  refine ⟨persisted, ?_⟩
  rw [openLog, run]
  simp only [noUpgrade, List.append_nil, passes]

/-- What a topic becomes when the store is reopened. -/
theorem findTopic_opened {r : List StreamTopic} (soundR : SoundTopics r) (now : Nat) (name : Bytes) :
    findTopic (r.map (fun t => (enforce now t).1)) name
      = (findTopic r name).map (fun t => (enforce now t).1) := by
  cases partner : findTopic r name with
  | none =>
    refine (lookup_none _).mpr fun u mem => ?_
    obtain ⟨v, memV, rfl⟩ := List.mem_map.mp mem
    rw [(sound_enforce now (soundR.each v memV)).2]
    exact (lookup_none _).mp partner v memV
  | some u =>
    obtain ⟨memU, nameU⟩ := findTopic_some partner
    have distinct := (soundR.map fun v soundV => sound_enforce now soundV).distinct
    have mem : (enforce now u).1 ∈ r.map (fun t => (enforce now t).1) := List.mem_map_of_mem memU
    have byName := lookup_of_mem StreamTopic.name distinct mem
    rwa [(sound_enforce now (soundR.each u memU)).2, nameU] at byName

/-- Reopening: replay, then retention that is not logged. -/
theorem reopened {exact : Prop} (tracks : Tracks (.sequential exact) fresh s) (now : Nat) :
    Tracks (.sequential False) fresh (openLog fresh now s.log) := by
  obtain ⟨r, run, soundR, same⟩ := tracks.replayed
  obtain ⟨persisted, eq⟩ := opened run soundR (Window.same_sequential.mp same) now
  rw [eq]
  refine ⟨rfl, rfl, soundR.map fun u soundU => sound_enforce now soundU, List.nil_prefix, nofun, r,
    run, soundR, Window.same_sequential.mpr fun name => ?_⟩
  rw [findTopic_opened soundR]
  cases partner : findTopic r name with
  | none => exact .none
  | some u =>
    have memU := (findTopic_some partner).1
    exact .some (mirror_enforced now (soundR.each u memU) (persisted u memU))

end Tracks

end KuttiDB.Stream
