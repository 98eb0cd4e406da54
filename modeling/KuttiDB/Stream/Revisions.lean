/- # KuttiDB.Stream.Revisions -- what a topic revision names, across reopenings

A revision is raised once per appended record, once per change of retention settings, and once per
record that leaves by a trim. Replay raises it once per trim record, and the log holds one for each
partition a retention pass touched, so the two agree only as long as no pass drops two records of one
partition. In such a run, with reopenings that drop nothing, a reopened topic has the revision it had,
and a revision seen earlier is met again only on the same contents, unless the topic was deleted
(`revisions_name_contents`). `revision_reused` is the run in which a pass drops two records.

The counting: along a retention pass, live or replayed one record at a time, `revision + records`
stays what it was.
-/
import KuttiDB.Stream.FailingRuns

namespace KuttiDB.Stream

open KuttiDB.QueueStore (Bytes u64)
open KuttiDB.Theory

set_option autoImplicit false

/-! ## Counting -/

theorem linkItems_revision (items : List BatchItem) : ∀ t : StreamTopic,
    (linkItems t items).revision = bump^[items.length] t.revision := by
  induction items with
  | nil => exact fun _ => rfl
  | cons item rest ih => exact fun t => ih (partLink t item.part item.record)

theorem iterate_bump {n : Nat} : ∀ (k : Nat), n + k ≤ uint64Max → bump^[k] n = n + k
  | 0, _ => rfl
  | k + 1, room => by
    rw [Function.iterate_succ_apply', iterate_bump k (by omega), bump_of_lt (by omega)]
    rfl

/-- A record more or less in one partition. -/
theorem part_length_le {t : StreamTopic} (sound : t.Sound) {p : Nat} (inside : p < t.partitions) :
    (t.part p).chain.length ≤ t.records := by
  rw [sound.whole.records_eq]
  exact le_sum_map (fun x : StreamPart => x.chain.length) .empty inside

/-- Trimming one record off a partition. -/
theorem trimPart_count {t : StreamTopic} (sound : t.Sound) {p : Nat} (inside : p < t.partitions)
    (within : (t.part p).base + 1 ≤ (t.part p).next) (room : t.revision + t.records ≤ uint64Max) :
    let u := trimPart t p ((t.part p).base + 1)
    u.revision = t.revision + 1 ∧ u.revision + u.records = t.revision + t.records := by
  have whole := sound.whole.parts _ (StreamTopic.part_mem inside)
  have next := whole.next_eq
  have some_ := part_length_le sound inside
  have below : ((t.part p).below ((t.part p).base + 1)).length = 1 := by
    rw [whole.below_eq, List.length_take]
    omega
  have moved : ((t.part p).trim ((t.part p).base + 1)).base ≠ (t.part p).base := by
    simp only [StreamPart.trim]
    omega
  have revision : (trimPart t p ((t.part p).base + 1)).revision = t.revision + 1 := by
    simp only [trimPart, if_neg moved]
    exact bump_of_lt (by omega)
  have records : (trimPart t p ((t.part p).base + 1)).records = t.records - 1 := by
    simp only [trimPart, below]
  refine ⟨revision, ?_⟩
  rw [revision, records]
  omega

/-! ## What a revision names -/

/-- What a topic holds, groups apart. -/
def StreamTopic.contents (t : StreamTopic) : Nat × Nat × StreamId × List StreamPart :=
  (t.maxBytes, t.maxAgeMs, t.id, t.parts)

/-- The revision has not gone back, and has risen if the contents changed. -/
structure Later (t t' : StreamTopic) : Prop where
  le : t.revision ≤ t'.revision
  same : t'.revision = t.revision → t'.contents = t.contents

theorem Later.refl (t : StreamTopic) : Later t t := ⟨Nat.le_refl _, fun _ => rfl⟩

theorem Later.trans {t u v : StreamTopic} (first : Later t u) (second : Later u v) : Later t v := by
  have le := first.le
  have le' := second.le
  refine ⟨Nat.le_trans le le', fun eq => ?_⟩
  exact (second.same (by omega)).trans (first.same (by omega))

theorem Later.of_lt {t t' : StreamTopic} (less : t.revision < t'.revision) : Later t t' :=
  ⟨Nat.le_of_lt less, fun eq => absurd eq (Nat.ne_of_gt less)⟩

theorem Later.of_eq {t t' : StreamTopic} (revision : t'.revision = t.revision)
    (contents : t'.contents = t.contents) : Later t t' :=
  ⟨Nat.le_of_eq revision.symm, fun _ => contents⟩

/-- The retention pass: one revision for each record dropped. -/
theorem enforce_count (now : Nat) {t : StreamTopic} (sound : t.Sound)
    (room : t.revision + t.records ≤ uint64Max) :
    (enforce now t).1.revision + (enforce now t).1.records = t.revision + t.records ∧
      Later t (enforce now t).1 := by
  have passed := enforce_rule
    (P := fun u _ => u.Sound ∧ u.revision + u.records = t.revision + t.records ∧ Later t u) ?_ now
    ⟨sound, rfl, .refl t⟩
  · exact passed.2
  · rintro u touched p r ⟨soundU, count, later⟩ inside head
    obtain ⟨eq, within, bound⟩ := Sound.head_bump soundU inside head
    rw [eq]
    obtain ⟨raised, counted⟩ := trimPart_count soundU inside within (by omega)
    exact ⟨Nat.succ_ne_zero _, sound_trimPart soundU inside bound, counted.trans count,
      later.trans (.of_lt (by omega))⟩

/-- Trimming where a partition already starts changes nothing. -/
theorem trimPart_later {t : StreamTopic} (sound : t.Sound) {p b : Nat} (inside : p < t.partitions)
    (room : t.revision < uint64Max) : Later t (trimPart t p b) := by
  have whole := sound.whole.parts _ (StreamTopic.part_mem inside)
  by_cases still : b ≤ (t.part p).base
  · have same : (t.part p).trim b = t.part p := whole.trim_of_le still
    have parts : t.parts.set p (t.part p) = t.parts := by
      rw [StreamTopic.part, List.getD_eq_getElem t.parts .empty inside]
      exact List.set_getElem_self _
    refine .of_eq ?_ ?_
    · simp only [trimPart, same, if_true]
    · simp only [StreamTopic.contents, trimPart, same, parts]
  · refine .of_lt ?_
    have moved : ((t.part p).trim b).base ≠ (t.part p).base := by
      simp only [StreamPart.trim]
      omega
    simp only [trimPart, if_neg moved]
    rw [bump_of_lt room]
    exact Nat.lt_succ_self _

/-- No revision wraps during the call: there is room for what it may append, and for what its
retention pass may drop. -/
def Call.roomy (topics : List StreamTopic) (c : Call) : Bool :=
  topics.all (fun t => t.revision + streamFetchMax < uint64Max) &&
    (c.pass topics).all (fun (_, u) => u.revision + u.records ≤ uint64Max)

theorem Call.roomy_iff {topics : List StreamTopic} {c : Call} : c.roomy topics = true ↔
    (∀ t ∈ topics, t.revision + streamFetchMax < uint64Max) ∧
      ∀ now u, c.pass topics = some (now, u) → u.revision + u.records ≤ uint64Max := by
  simp [Call.roomy, Option.all_eq_true]

theorem Edit.later {c : Call} {start : List StreamTopic} {t t' : StreamTopic}
    {records : List LogRecord} (edit : Edit c start t t' records) (sound : t.Sound)
    (roomy : c.roomy start = true) : Later t t' := by
  obtain ⟨room, pass⟩ := Call.roomy_iff.mp roomy
  have known : findTopic start t.name = some t → t.revision + streamFetchMax < uint64Max :=
    fun first => room t (findTopic_some first).1
  cases edit with
  | link first =>
    have here := known first
    refine .of_lt ?_
    simp only [partLink]
    rw [bump_of_lt (by omega)]
    exact Nat.lt_succ_self _
  | @batch items first _ _ some_ limit =>
    have here := known first
    have length := List.length_pos_of_ne_nil some_
    refine .of_lt ?_
    rw [linkItems_revision, iterate_bump _ (by omega)]
    omega
  | trim first inside =>
    have here := known first
    exact trimPart_later sound inside (by omega)
  | retention first =>
    have here := known first
    refine .of_lt ?_
    simp only
    rw [bump_of_lt (by omega)]
    exact Nat.lt_succ_self _
  | enforce due => exact (enforce_count _ sound (pass _ _ due)).2
  | commit => exact .of_eq rfl rfl
  | members regrouped =>
    rw [regrouped.rest]
    exact .of_eq rfl rfl

/-! ## Replay keeps pace -/

/-- The pass drops at most one record of each partition. -/
def gentlePass (now : Nat) (t : StreamTopic) : Bool :=
  (enforce now t).2.all fun x => x.2 == (t.part x.1).base + 1

def Call.gentle (topics : List StreamTopic) (c : Call) : Bool :=
  (c.pass topics).all fun (now, t) => gentlePass now t

theorem SameTopic.parts_eq {t u : StreamTopic} (mirror : SameTopic True t u) : u.parts = t.parts := by
  have count : u.parts.length = t.parts.length := mirror.count
  refine List.ext_getElem count fun p insideU insideT => ?_
  have here := (mirror.parts p insideT).same trivial
  rw [StreamTopic.part, StreamTopic.part, List.getD_eq_getElem _ _ insideU,
    List.getD_eq_getElem _ _ insideT] at here
  exact here.symm

theorem SameTopic.records_eq {t u : StreamTopic} (mirror : SameTopic True t u) (soundT : t.Sound)
    (soundU : u.Sound) : u.records = t.records := by
  rw [soundT.whole.records_eq, soundU.whole.records_eq, mirror.parts_eq]

/-- Replaying boundaries that each drop one record. -/
theorem replayEach_trims_count (name : Bytes) : ∀ (touched : List (Nat × Nat)) {u u' : StreamTopic},
    u.Sound → (touched.map Prod.fst).Nodup →
    (∀ x ∈ touched, x.1 < u.partitions ∧ x.2 = (u.part x.1).base + 1 ∧ x.2 ≤ (u.part x.1).next) →
    u.revision + u.records ≤ uint64Max → replayEach u (trimRecords name touched) = some u' →
    u'.revision + u'.records = u.revision + u.records
  | [], u, u', _, _, _, _, run => by
    cases run
    rfl
  | (p, b) :: touched, u, u', sound, distinct, ones, room, run => by
    obtain ⟨head, tail⟩ := List.nodup_cons.mp distinct
    obtain ⟨inside, one, within⟩ := ones (p, b) List.mem_cons_self
    simp only at inside one within
    have whole := sound.whole.parts _ (StreamTopic.part_mem inside)
    have bound := Nat.le_trans within whole.bounded
    have width : u64 b = b := by
      simp only [KuttiDB.QueueStore.u64, uint64Max] at bound ⊢
      omega
    have here : replayTopic u (.trim name p b) = (trimPart u p b, true) := by
      simp only [replayTopic, width, if_neg (Nat.not_le.mpr inside)]
    rw [trimRecords, List.map_cons, replayEach_cons here] at run
    subst one
    obtain ⟨-, count⟩ := trimPart_count sound inside within room
    rw [← count]
    refine replayEach_trims_count name touched (sound_trimPart sound inside bound) tail ?_
      (by rw [count]; exact room) run
    intro x mem
    have other : x.1 ≠ p := fun eq => head (List.mem_map.mpr ⟨x, mem, eq⟩)
    rw [trimPart_partitions, trimPart_part inside, if_neg other]
    exact ones x (List.mem_cons_of_mem _ mem)

/-- A batch that was accepted was linked item by item. -/
theorem appendItems_true : ∀ {items : List BatchItem} {t u : StreamTopic},
    appendItems t items = (u, true) → u = linkItems t items
  | [], _, _, accepted => by
    cases accepted
    rfl
  | item :: rest, t, u, accepted => by
    rw [appendItems] at accepted
    cases added : appendMemory t item.part item.record with
    | none => simp [added] at accepted
    | some v =>
      rw [added] at accepted
      rw [appendItems_true accepted]
      unfold appendMemory at added
      split at added
      · cases added
      · cases added
        rfl

theorem ensureGroup_revision (t : StreamTopic) (group : Bytes) :
    (ensureGroup t group).1.revision = t.revision := by
  unfold ensureGroup
  split <;> rfl

theorem replayEach_commits_revision (name group : Bytes) : ∀ (commits : List (Nat × Nat))
    {u u' : StreamTopic},
    replayEach u (commits.map (fun e => .commit name group e.1 e.2)) = some u' →
    u'.revision = u.revision
  | [], _, _, run => by
    cases run
    rfl
  | e :: rest, u, u', run => by
    rw [List.map_cons, replayEach, replayTopic] at run
    split at run
    · rename_i v ok
      split at ok
      · cases ok
      · cases ok
        rw [replayEach_commits_revision name group rest run]
        exact ensureGroup_revision u group
    · cases run

/-- Replay raises the revision as the call did. -/
theorem Edit.revision_eq {c : Call} {start : List StreamTopic} {t t' u u' : StreamTopic}
    {records : List LogRecord} (edit : Edit c start t t' records) (soundT : t.Sound)
    (soundU : u.Sound) (mirror : SameTopic True t u) (revision : u.revision = t.revision)
    (roomy : c.roomy start = true) (gentle : c.gentle start = true)
    (run : replayEach u records = some u') : u'.revision = t'.revision := by
  have part : ∀ p < t.partitions, u.part p = t.part p :=
    fun p inside => ((mirror.parts p inside).same trivial).symm
  have follows : Follows True t t' records := edit.follows soundT
  obtain ⟨v, run', soundV, mirror'⟩ := follows.replays u soundU mirror
  cases run.symm.trans run'
  cases edit with
  | link _ inside here =>
    rw [replayEach_cons (replayTopic_append t.name (mirror.count ▸ inside)
      (here.trans (by rw [part _ inside])))] at run
    cases run
    exact congrArg bump revision
  | @batch items _ accepted _ some_ limit _ =>
    rw [replayEach, replayTopic, if_neg (by simp [some_, Nat.not_lt.mpr limit])] at run
    split at run
    · rename_i v accepted
      cases run
      rw [appendItems_true accepted, linkItems_revision, linkItems_revision, revision]
    · cases run
  | @trim p b _ inside above within =>
    have bound := Nat.le_trans within (soundT.whole.parts _ (StreamTopic.part_mem inside)).bounded
    have width : u64 b = b := by
      simp only [KuttiDB.QueueStore.u64, uint64Max] at bound ⊢
      omega
    rw [replayEach, replayTopic, if_neg (Nat.not_le.mpr (mirror.count ▸ inside)), width] at run
    cases run
    simp only [trimPart, part p inside, revision]
  | retention =>
    cases run
    exact congrArg bump revision
  | @enforce now due =>
    have room := (Call.roomy_iff.mp roomy).2 now t due
    have ones : ∀ x ∈ (Stream.enforce now t).2, x.2 = (t.part x.1).base + 1 := by
      have gentle' : gentlePass now t = true := by simpa [Call.gentle, due] using gentle
      simpa [gentlePass] using gentle'
    have passed := passed_enforce now soundT
    have records := mirror.records_eq soundT soundU
    have counted := replayEach_trims_count t.name _ soundU passed.distinct (fun x mem => by
      obtain ⟨inside, within⟩ := passed.inside x mem
      rw [part x.1 inside]
      exact ⟨mirror.count ▸ inside, ones x mem, within⟩) (by rw [revision, records]; exact room) run
    have counted' := (enforce_count now soundT room).1
    have records' := mirror'.records_eq follows.sound soundV
    omega
  | commit =>
    rw [replayEach_commits_revision _ _ _ run]
    exact revision
  | members regrouped =>
    cases run
    rw [regrouped.rest]
    exact revision

/-! ## The log and the revisions -/

/-- The log rebuilds memory to the record, with the same revisions. -/
structure Revised (fresh : Bytes → StreamId) (s : StreamStore) : Prop where
  tracks : Tracks (.sequential True) fresh s
  revisions : ∀ r, Replays fresh [] s.log r → ∀ name t u, findTopic s.topics name = some t →
    findTopic r name = some u → u.revision = t.revision

theorem Revised.start {fresh : Bytes → StreamId} : Revised fresh .fresh :=
  ⟨Tracks.start, fun _ _ _ _ _ found => by cases found⟩

/-- Another log and other topics of which the same is known, name by name. -/
theorem Revised.of_rebuilt {fresh : Bytes → StreamId} {s : StreamStore} {r : List StreamTopic}
    (tracks : Tracks (.sequential True) fresh s) (run : Replays fresh [] s.log r)
    (same : ∀ name t u, findTopic s.topics name = some t → findTopic r name = some u →
      u.revision = t.revision) : Revised fresh s :=
  ⟨tracks, fun _ again => Replays.unique run again ▸ same⟩

namespace Revised

variable {fresh : Bytes → StreamId} {s s' : StreamStore} {c : Call} {start : List StreamTopic}

theorem compacted (revised : Revised fresh s) (counted : ∀ t ∈ s.topics, t.revision ≠ 0) :
    Revised fresh { s with log := compactRecords s.topics } := by
  have tracks := revised.tracks
  have rebuilt := replays_compacted fresh s.topics [] tracks.sound counted (by simp)
  rw [List.append_nil] at rebuilt
  refine .of_rebuilt (tracks.compacted counted rfl List.nil_prefix) rebuilt fun name t u found foundU => ?_
  have byName : findTopic (s.topics.map StreamTopic.rebuilt).reverse name
      = (findTopic s.topics name).map StreamTopic.rebuilt :=
    lookup_reversed StreamTopic.name (f := StreamTopic.rebuilt) (fun _ => rfl)
      tracks.sound.distinct name
  rw [byName, show findTopic s.topics name = some t from found] at foundU
  cases foundU
  rfl

theorem edited {t t' : StreamTopic} {records : List LogRecord} (revised : Revised fresh s)
    (found : findTopic s.topics t.name = some t) (edit : Edit c start t t' records)
    (roomy : c.roomy start = true) (gentle : c.gentle start = true) :
    Revised fresh { s with log := s.log ++ records, topics := setTopic s.topics t' } := by
  have tracks := revised.tracks
  have soundT := tracks.sound.found found
  have follows : Follows True t t' records := edit.follows soundT
  obtain ⟨r, u, run, soundR, -, partner, same⟩ := tracks.partner found List.not_mem_nil
  have soundU := soundR.found partner
  obtain ⟨u', step, -, same'⟩ := follows.replays u soundU same
  have named : u.name = t.name := same.name
  have named' : u'.name = t.name := (replayEach_name records step).trans named
  have revision := edit.revision_eq soundT soundU same (revised.revisions r run _ t u found partner)
    roomy gentle step
  refine .of_rebuilt (tracks.set List.not_mem_nil found follows)
    (tracks.follow found follows run partner named step) fun name v w foundV foundW => ?_
  by_cases hit : name = t.name
  · subst hit
    rw [findTopic_setTopic_same found follows.name] at foundV
    have foundU' : findTopic (setTopic r u') t.name = some u' := by
      rw [← named]
      exact findTopic_setTopic_same (by rw [named]; exact partner) (named'.trans named.symm)
    rw [foundU'] at foundW
    cases foundV
    cases foundW
    exact revision
  · rw [findTopic_setTopic_other _ (by rw [follows.name]; exact hit)] at foundV
    rw [findTopic_setTopic_other _ (by rw [named']; exact hit)] at foundW
    exact revised.revisions r run name v w foundV foundW

theorem declared {name : Bytes} {partitions maxBytes maxAgeMs : Nat} {id : StreamId}
    (revised : Revised fresh s) (named : name ≠ [] ∧ name.length ≤ streamNameMax)
    (divided : 0 < partitions ∧ partitions ≤ streamPartitionsMax)
    (absent : findTopic s.topics name = none) :
    Revised fresh { s with
      log := s.log ++ [.declare name partitions maxBytes maxAgeMs, .identity name id]
      topics := { newTopic name partitions maxBytes maxAgeMs id with idPersisted := true }
        :: s.topics } := by
  have tracks := revised.tracks
  obtain ⟨r, run, soundR, -, absentR⟩ := tracks.absent List.not_mem_nil absent
  refine .of_rebuilt (tracks.declared named divided rfl List.not_mem_nil absent)
    (run.append (replays_declared fresh named divided absentR)) fun other v w foundV foundW => ?_
  by_cases hit : name = other
  · subst hit
    cases (lookup_cons_hit StreamTopic.name (by rfl) _).symm.trans foundV
    cases (lookup_cons_hit StreamTopic.name (by rfl) _).symm.trans foundW
    rfl
  · rw [findTopic, lookup_cons_miss _ (by exact hit)] at foundV foundW
    exact revised.revisions r run other v w foundV foundW

theorem dropped {t : StreamTopic} (revised : Revised fresh s)
    (found : findTopic s.topics t.name = some t) :
    Revised fresh { s with
      log := s.log ++ [.delete t.name], topics := dropTopic s.topics t.name } := by
  have tracks := revised.tracks
  obtain ⟨r, u, run, soundR, -, partner, -⟩ := tracks.partner found List.not_mem_nil
  have next := (tracks.deleteLogged List.not_mem_nil found).dropped List.not_mem_nil rfl
  refine .of_rebuilt next (run.append (replays_deleted fresh
    (tracks.sound.found found).fit.named.2 partner)) fun other v w foundV foundW => ?_
  by_cases hit : other = t.name
  · rw [hit, findTopic, dropTopic, lookup_erase_same _ tracks.sound.distinct] at foundV
    cases foundV
  · rw [findTopic, dropTopic, lookup_erase_other _ hit] at foundV foundW
    exact revised.revisions r run other v w foundV foundW

theorem regrouped (revised : Revised fresh s) {change : StreamGroup → StreamGroup}
    (keeps : ∀ g, (change g).name = g.name ∧ (change g).offsets = g.offsets) :
    Revised fresh (onEveryGroup s change) := by
  refine ⟨revised.tracks.regrouped keeps, fun r run name v w foundV foundW => ?_⟩
  rw [findTopic_onEveryGroup] at foundV
  obtain ⟨t, found, rfl⟩ := Option.map_eq_some_iff.mp foundV
  exact revised.revisions r run name t w found foundW

/-- A change that did not fail, in a call whose retention pass is gentle. -/
theorem change (revised : Revised fresh s.unlimited) (change : Change c start s s')
    (counted : c.Counted start) (roomy : c.roomy start = true) (gentle : c.gentle start = true)
    (unfailed : s'.failed = false) : Revised fresh s'.unlimited := by
  cases change with
  | compacted due first => exact revised.compacted (first ▸ counted due)
  | broken => cases unfailed
  | edited _ found edit logged =>
    obtain ⟨log, failed, -⟩ := logEach_true logged
    have next := revised.edited found edit roomy gentle
    simpa only [StreamStore.unlimited, log, failed] using next
  | refused logged => simp [logEach_false logged] at unfailed
  | unlogged _ _ _ logged => simp [logEach_false logged] at unfailed
  | @declared name partitions maxBytes maxAgeMs id s₁ ok _ _ nonempty divided absent logged =>
    cases ok with
    | false => simp [logEach_false logged] at unfailed
    | true =>
      obtain ⟨log, failed, -⟩ := logEach_true logged
      have next : Revised fresh { s.unlimited with
          log := s.log ++ [.declare name partitions maxBytes maxAgeMs, .identity name id]
          topics := { newTopic name partitions maxBytes maxAgeMs id with idPersisted := true }
            :: s.topics } := revised.declared nonempty divided absent
      simpa only [StreamStore.unlimited, log, failed] using next
  | dropped _ _ found logged =>
    obtain ⟨log, failed, -⟩ := logEach_true logged
    have next := revised.dropped found
    simpa only [StreamStore.unlimited, log, failed] using next
  | regrouped keeps => exact revised.regrouped keeps

end Revised

/-! ## Runs -/

/-- The condition on a step: no revision wraps, a retention pass drops at most one record of each
partition, and a reopening, which is of a store that did not fail, drops none. -/
def FileStep.gentle (fresh : Bytes → StreamId) (s : StreamStore) (step : FileStep) : Bool :=
  step.counted s && match step with
    | .call made => made.roomy s.topics && made.gentle s.topics
    | .reopen now => (replayAll fresh [] s.log).1.all fun t => (enforce now t).2.isEmpty
    | .disk _ => true

/-- A step that does not delete the topic. -/
def FileStep.spares (name : Bytes) : FileStep → Bool
  | .call made => !made.isDelete || made.topic != some name
  | _ => true

/-- A pass that reports nothing has done nothing. -/
theorem enforce_idle (now : Nat) {t : StreamTopic} (sound : t.Sound) (idle : (enforce now t).2 = []) :
    (enforce now t).1 = t := by
  have passed := enforce_rule (P := fun u touched => u.Sound ∧ (touched = [] → u = t)) ?_ now
    ⟨sound, fun _ => rfl⟩
  · exact passed.2 idle
  · rintro u touched p r ⟨soundU, -⟩ inside head
    obtain ⟨eq, -, bound⟩ := Sound.head_bump soundU inside head
    rw [eq]
    refine ⟨Nat.succ_ne_zero _, sound_trimPart soundU inside bound, fun none_ => ?_⟩
    have here := lookup_touch touched p ((u.part p).base + 1) p
    rw [none_, if_pos rfl] at here
    cases here

theorem SameTopic.self {t : StreamTopic} (sound : t.Sound) (persisted : t.idPersisted = true) :
    SameTopic True t t :=
  ⟨rfl, rfl, rfl, rfl, persisted, rfl,
    fun _ inside => Lag.refl (sound.whole.parts _ (StreamTopic.part_mem inside)), fun _ _ => rfl⟩

section Reopening

variable {fresh : Bytes → StreamId} {s : StreamStore} {now : Nat}

/-- A reopening that drops nothing leaves exactly what the log says. -/
theorem Revised.reopen (revised : Revised fresh s)
    (idle : ∀ t ∈ (replayAll fresh [] s.log).1, (enforce now t).2 = []) :
    Revised fresh (openLog fresh now s.log) ∧
      ∀ name, Option.Rel (fun t u => u.revision = t.revision ∧ u.contents = t.contents)
        (findTopic s.topics name) (findTopic (openLog fresh now s.log).topics name) := by
  have tracks := revised.tracks
  obtain ⟨r, run, soundR, same⟩ := tracks.replayed
  have mirror := Window.same_sequential.mp same
  obtain ⟨persisted, eq⟩ := Tracks.opened run soundR mirror now
  have still : r.map (fun t => (enforce now t).1) = r := by
    rw [run] at idle
    exact (List.map_congr_left fun t mem => enforce_idle now (soundR.each t mem) (idle t mem)).trans
      (List.map_id' r)
  rw [eq, still]
  constructor
  · refine .of_rebuilt ⟨rfl, rfl, soundR, List.nil_prefix, nofun, r, run, soundR,
      Window.same_sequential.mpr fun name => ?_⟩ run ?_
    · cases found : findTopic r name with
      | none => exact .none
      | some u => exact .some (.self (soundR.found found) (persisted u (findTopic_some found).1))
    · intro name t u found foundU
      cases found.symm.trans foundU
      rfl
  · intro name
    have here := mirror name
    have revisions := revised.revisions r run name
    revert here revisions
    cases findTopic s.topics name <;> cases findTopic r name <;> intro here revisions <;> cases here
    · exact .none
    · rename_i t u same
      refine .some ⟨revisions t u rfl rfl, ?_⟩
      simp only [StreamTopic.contents, same.maxBytes, same.maxAgeMs, same.id, same.parts_eq]

end Reopening

/-- The invariant of a gentle run. -/
structure Steady (fresh : Bytes → StreamId) (s : StreamStore) : Prop where
  sound : SoundTopics s.topics
  revised : s.failed = false → Revised fresh s.unlimited

section Steady

variable {fresh : Bytes → StreamId} {s : StreamStore} {name : Bytes}

theorem Steady.start : Steady fresh .fresh := ⟨SoundTopics.nil, fun _ => Revised.start⟩

theorem Steady.call (steady : Steady fresh s) {c : Call} (fits : c.fits s.topics = true)
    (counted : c.Counted s.topics) (roomy : c.roomy s.topics = true)
    (gentle : c.gentle s.topics = true) : Steady fresh (c.run s).1 := by
  refine ⟨sound_run steady.sound c fits, (changes_run s c fits).unfailed_rule
    (P := fun s => Revised fresh s.unlimited) steady.revised fun u v revised change still => ?_⟩
  exact revised.change change counted roomy gentle still

/-- One step: the invariant, and what becomes of a topic that is not deleted. -/
theorem Steady.run (name : Bytes) (steady : Steady fresh s) (step : FileStep)
    (gentle : step.gentle fresh s = true) :
    Steady fresh (step.run fresh s) ∧ (step.spares name = true →
      Continues (fun t t' => Later t t' ∧ (step.isReopen = true → t'.revision = t.revision)) name
        s.topics (step.run fresh s).topics) := by
  obtain ⟨counted, rest⟩ := Bool.and_eq_true_iff.mp gentle
  cases step with
  | call c =>
    obtain ⟨fits, nonzero⟩ := FileStep.counted_call counted
    obtain ⟨roomy, calm⟩ := Bool.and_eq_true_iff.mp rest
    refine ⟨steady.call fits nonzero roomy calm, fun spares t found => ?_⟩
    have stays : c.isDelete = true → c.topic ≠ some name := by
      intro deletes
      simpa [FileStep.spares, deletes] using spares
    obtain ⟨t', found', later⟩ := call_continues (R := Later) steady.sound fits
      (fun _ _ _ => Later.trans) (fun _ _ _ edit soundT => edit.later soundT roomy) stays t found
    exact ⟨t', found', later, fun reopens => absurd reopens Bool.false_ne_true⟩
  | reopen now =>
    have unfailed : s.failed = false := by simpa [FileStep.counted] using counted
    have idle : ∀ t ∈ (replayAll fresh [] s.log).1, (enforce now t).2 = [] := by simpa using rest
    obtain ⟨revised, same⟩ := (steady.revised unfailed).reopen idle
    refine ⟨⟨revised.tracks.sound, fun _ => revised⟩, fun _ t found => ?_⟩
    have here := same name
    rw [show findTopic s.unlimited.topics name = some t from found] at here
    cases found' : findTopic (openLog fresh now s.log).topics name with
    | none =>
      rw [show openLog fresh now s.unlimited.log = openLog fresh now s.log from rfl, found'] at here
      cases here
    | some u =>
      rw [show openLog fresh now s.unlimited.log = openLog fresh now s.log from rfl, found'] at here
      cases here with
      | some eq => exact ⟨u, found', .of_eq eq.1 eq.2, fun _ => eq.1⟩
  | disk =>
    refine ⟨⟨steady.sound, steady.revised⟩, fun _ t found => ⟨t, found, .refl t, fun reopens => ?_⟩⟩
    exact absurd reopens Bool.false_ne_true

theorem Steady.runs (name : Bytes) : ∀ (steps : List FileStep) {s : StreamStore}, Steady fresh s →
    meets fresh (FileStep.gentle fresh) s steps = true →
    Steady fresh (runFile fresh s steps) ∧ ((∀ step ∈ steps, step.spares name = true) →
      Continues (fun t t' => Later t t' ∧
        ((∀ step ∈ steps, step.isReopen = true) → t'.revision = t.revision)) name
        s.topics (runFile fresh s steps).topics)
  | [], s, steady, _ => ⟨steady, fun _ t found => ⟨t, found, .refl t, fun _ => rfl⟩⟩
  | step :: rest, s, steady, met => by
    obtain ⟨here, later⟩ := Bool.and_eq_true_iff.mp met
    obtain ⟨next, first⟩ := Steady.run name steady step here
    obtain ⟨final, second⟩ := Steady.runs name rest next later
    refine ⟨final, fun spares t found => ?_⟩
    obtain ⟨u, foundU, laterU, sameU⟩ := first (spares _ List.mem_cons_self) t found
    obtain ⟨v, foundV, laterV, sameV⟩ :=
      second (fun step mem => spares step (List.mem_cons_of_mem _ mem)) u foundU
    refine ⟨v, foundV, laterU.trans laterV, fun reopens => ?_⟩
    exact (sameV fun step mem => reopens step (List.mem_cons_of_mem _ mem)).trans
      (sameU (reopens _ List.mem_cons_self))

end Steady

/-! ## Conditional calls -/

/-- The topic and the revision a conditional call is made for. -/
def Call.expects : Call → Option (Bytes × Nat)
  | .truncate _ name _ _ expected => some (name, expected)
  | .setRetention _ _ name _ _ expected => some (name, expected)
  | .delete _ name expected => some (name, expected)
  | _ => none

theorem expected_revision {s : StreamStore} {c : Call} {name : Bytes} {expected : Nat}
    (expects : c.expects = some (name, expected)) (accepted : (c.run s).2 = 0) :
    ∃ t, findTopic s.topics name = some t ∧ t.revision = expected := by
  cases c with
  | truncate =>
    cases expects
    obtain ⟨s', same, -, accepted⟩ := guarded_accepts accepted
    cases found : findTopic s'.topics name with
    | none => simp [found] at accepted
    | some t =>
      simp only [found] at accepted
      split at accepted
      · simp at accepted
      · split at accepted
        · simp at accepted
        · exact ⟨t, same ▸ found, not_not.mp ‹_›⟩
  | setRetention =>
    cases expects
    simp only [Call.run, streamSetRetentionIfRevision] at accepted
    split at accepted
    · simp at accepted
    · obtain ⟨s', same, -, accepted⟩ := guarded_accepts accepted
      cases found : findTopic s'.topics name with
      | none => simp [found] at accepted
      | some t =>
        simp only [found] at accepted
        split at accepted
        · simp at accepted
        · exact ⟨t, same ▸ found, not_not.mp ‹_›⟩
  | delete =>
    cases expects
    simp only [Call.run, streamDeleteIfRevision] at accepted
    split at accepted
    · simp at accepted
    · obtain ⟨s', same, -, accepted⟩ := guarded_accepts accepted
      cases found : findTopic s'.topics name with
      | none => simp [found] at accepted
      | some t =>
        simp only [found] at accepted
        split at accepted
        · simp at accepted
        · exact ⟨t, same ▸ found, not_not.mp ‹_›⟩
  | _ => cases expects

/-- In a gentle run, a topic that is not deleted after its revision was seen: reopening alone leaves
the revision as it is, the revision never goes back, and where it is the same the contents are, so
that a conditional call made for the revision that was seen finds the contents that were seen. -/
theorem revisions_name_contents (fresh : Bytes → StreamId) (before after : List FileStep)
    (gentle : meets fresh (FileStep.gentle fresh) .fresh (before ++ after) = true) {name : Bytes}
    {t : StreamTopic} (seen : findTopic (runFile fresh .fresh before).topics name = some t)
    (spares : ∀ step ∈ after, step.spares name = true) :
    let s := runFile fresh .fresh (before ++ after)
    ∃ t', findTopic s.topics name = some t' ∧
      ((∀ step ∈ after, step.isReopen = true) → t'.revision = t.revision) ∧
      t.revision ≤ t'.revision ∧ (t'.revision = t.revision → t'.contents = t.contents) ∧
      ∀ c : Call, c.expects = some (name, t.revision) → (c.run s).2 = 0 →
        t'.contents = t.contents := by
  intro s
  rw [meets_append, Bool.and_eq_true_iff] at gentle
  obtain ⟨earlier, later⟩ := gentle
  have steady := (Steady.runs name before Steady.start earlier).1
  obtain ⟨t', found, monotone, reopens⟩ := (Steady.runs name after steady later).2 spares t seen
  have split : s = runFile fresh (runFile fresh .fresh before) after := List.foldl_append
  rw [← split] at found
  refine ⟨t', found, reopens, monotone.le, monotone.same, fun c expects accepted => ?_⟩
  obtain ⟨u, foundU, revision⟩ := expected_revision expects accepted
  cases found.symm.trans foundU
  exact monotone.same revision

/-- A topic of at most four bytes whose third record drops the two before it. -/
def droppedTwice : List FileStep :=
  [.call (.declare .notDue 7 [116] 1 4 0),
   .call (.append .notDue 10 10 [116] 0 ⟨[], [1, 2]⟩),
   .call (.append .notDue 11 11 [116] 0 ⟨[], [3, 4]⟩),
   .call (.append .notDue 12 12 [116] 0 ⟨[], [5, 6, 7, 8]⟩)]

/-- A topic with one record, deleted and declared again with another record. -/
def declaredAgain : List FileStep :=
  [.call (.delete .notDue [116] 2), .call (.declare .notDue 8 [116] 1 0 0),
   .call (.append .notDue 12 12 [116] 0 ⟨[], [9]⟩)]

/-- The pass raised the revision twice and logged one boundary: reopening takes the revision back from
6 to 5, the next change makes it 6 again, and a deletion meant for the first 6 is carried out. Without
any retention, a topic declared again starts over, and a truncation meant for revision 2 of the old
topic is carried out on the new one. -/
theorem revision_reused :
    (let s := runFile (fun _ => 0) .fresh droppedTwice
     let s' := runFile (fun _ => 0) s [.reopen 13]
     let s'' := runFile (fun _ => 0) s' [.call (.setRetention .notDue 14 [116] 9 0 5)]
     let shown (s : StreamStore) := (findTopic s.topics [116]).map fun t => (t.revision, t.maxBytes)
     shown s = some (6, 4) ∧ shown s' = some (5, 4) ∧ shown s'' = some (6, 9) ∧
       ((Call.delete .notDue [116] 6).run s'').2 = 0) ∧
    (let s := runFile (fun _ => 0) .fresh [.call (.declare .notDue 7 [116] 1 0 0),
       .call (.append .notDue 10 10 [116] 0 ⟨[], [1]⟩)]
     let s' := runFile (fun _ => 0) s declaredAgain
     let shown (s : StreamStore) := (findTopic s.topics [116]).map fun t =>
       (t.revision, (t.part 0).chain.map (·.body))
     shown s = some (2, [[1]]) ∧ shown s' = some (2, [[9]]) ∧
       ((Call.truncate .notDue [116] 0 1 2).run s').2 = 0) := by
  decide +kernel

/-- Retention that drops one record at a time, a reopening and a change made for the revision. -/
theorem droppedOnce_names :
    let before : List FileStep := [.call (.declare .notDue 7 [116] 1 4 0),
      .call (.append .notDue 10 10 [116] 0 ⟨[], [1, 2]⟩),
      .call (.append .notDue 11 11 [116] 0 ⟨[], [3, 4, 5, 6]⟩)]
    let after : List FileStep := [.reopen 12]
    let s := runFile (fun _ => 0) .fresh (before ++ after)
    meets (fun _ => 0) (FileStep.gentle fun _ => 0) .fresh (before ++ after) = true ∧
      ∃ t t', findTopic (runFile (fun _ => 0) .fresh before).topics [116] = some t ∧
        findTopic s.topics [116] = some t' ∧ t'.revision = t.revision ∧
        ((Call.truncate .notDue [116] 0 2 t.revision).run s).2 = 0 ∧ t'.contents = t.contents := by
  intro before after s
  have gentle : meets (fun _ => 0) (FileStep.gentle fun _ => 0) .fresh (before ++ after) = true := by
    decide +kernel
  refine ⟨gentle, ?_⟩
  have there : (findTopic (runFile (fun _ => 0) .fresh before).topics [116]).isSome = true := by
    decide +kernel
  obtain ⟨t, seen⟩ := Option.isSome_iff_exists.mp there
  have four : t.revision = 4 := by
    have shown : (findTopic (runFile (fun _ => 0) .fresh before).topics [116]).map (·.revision)
        = some 4 := by decide +kernel
    rw [seen] at shown
    exact Option.some.inj shown
  obtain ⟨t', found, reopens, -, -, conditional⟩ := revisions_name_contents (fun _ => 0) before after
    gentle seen (by decide)
  have accepted : ((Call.truncate .notDue [116] 0 2 t.revision).run s).2 = 0 := by
    rw [four]
    decide +kernel
  exact ⟨t, t', seen, found, reopens (by decide), accepted, conditional _ rfl accepted⟩

end KuttiDB.Stream
