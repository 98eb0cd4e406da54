/- # KuttiDB.Stream.DeleteRaces -- deletions among the calls of other threads

A deletion lets the lock of the store go between its record and the unlinking. `Orderly` is what all
threads keep as long as nothing gets in between: the log replays to memory without the topic that is
being deleted, the pointer a deletion found still leads to its topic, and acknowledged calls rest on
synced records.

`Admitted` says when a thread may come in: while a deletion waits only calls on other topics that
neither change the list nor compact the log; and a topic is not declared again before its declaration
is synced, as that is acknowledged without a wait. Then every interleaving keeps the log replayable
and loses nothing (`deletes_keep_log`). Both conditions matter: an append behind the record of the
deletion makes the log unreadable from there on, and a declaration is taken out of memory together
with the topic deleted (`deletion_breaks_log`).
-/
import KuttiDB.Stream.ListPointers

namespace KuttiDB.Stream

open KuttiDB.QueueStore (Bytes)
open KuttiDB.Theory

set_option autoImplicit false

/-! ## The invariant -/

/-- What a crash may leave: the log without up to that many of its last records. -/
def Shared.without (s : Shared) (lost : Nat) : List LogRecord :=
  s.store.log.take (s.store.log.length - lost)

/-- The topics that stand behind all records but the last ones. -/
def Shared.declared (origin : Bytes → Bool) (s : Shared) (lost : Nat) (name : Bytes) : Bool :=
  standing (origin name) (s.history.take (s.walSeq - lost)) name

/-- `origin` has the topics of the store when it was opened. -/
structure Orderly (exact : Prop) (fresh : Bytes → StreamId) (origin : Bytes → Bool) (s : Shared) :
    Prop where
  tracks : Tracks ⟨exact, s.hidden, [], none⟩ fresh s.store
  recorded : ∀ lost ≤ s.walSeq - s.durable, ∀ name,
    s.declared origin lost name = (findTopic (replayAll fresh [] (s.without lost)).1 name).isSome
  aligned : s.cells.length = s.store.topics.length
  distinct : s.cells.Nodup
  known : ∀ cell ∈ s.cells, cell < s.allocated
  alone : s.deleting.length ≤ 1
  linked : ∀ entry ∈ s.deleting, ∃ t, findLink s.store.topics s.cells entry.name none
    = some (t, entry.cell, entry.link)
  intact : s.corrupt = false
  synced : s.syncedSeq ≤ s.durable
  covered : s.durable ≤ s.walSeq
  acked : ∀ n ∈ s.acked, n ≤ s.durable

/-- A thread may take the lock for this call, and compact if `due`. -/
def Admitted (c : Call) (due : Bool) (s : Shared) : Prop :=
  c.fits s.store.topics = true ∧
    (due = true → s.deleting = [] ∧ ∀ t ∈ s.store.topics, t.revision ≠ 0) ∧
    (∀ entry ∈ s.deleting, c.relists = false ∧ c.topic ≠ some entry.name) ∧
    ∀ name ∈ c.declares, (findTopic s.store.topics name).isSome = true →
      lastDeclare name s.history ≤ s.syncedSeq

instance (c : Call) (due : Bool) (s : Shared) : Decidable (Admitted c due s) := by
  unfold Admitted
  infer_instance

def admitted : StreamSite → StreamLock → Shared → Prop
  | .enter c due, _, s => Admitted c due s
  | .compacting c, _, s => Admitted c true s
  | .waiting, _, _ => True
  | .logged, _, _ => True

instance : ∀ (site : StreamSite) (l : StreamLock) (s : Shared), Decidable (admitted site l s)
  | .enter c due, _, s => inferInstanceAs (Decidable (Admitted c due s))
  | .compacting c, _, s => inferInstanceAs (Decidable (Admitted c true s))
  | .waiting, _, _ => .isTrue trivial
  | .logged, _, _ => .isTrue trivial

/-- What a thread with these locks may do. -/
structure MayChange (exact : Prop) (fresh : Bytes → StreamId) (origin : Bytes → Bool)
    (held : Set StreamLock) (s s' : Shared) : Prop where
  keeps : Orderly exact fresh origin s → Orderly exact fresh origin s'
  outside : .mu ∉ held → s' = { s with durable := s'.durable }
  durable : s.durable ≤ s'.durable
  counted : s.walSeq ≤ s'.walSeq
  deleting : ∀ entry ∈ s.deleting, .record entry.seq ∉ held → entry ∈ s'.deleting

/-- The threads of a stream store. -/
def streamDiscipline (exact : Prop) (fresh : Bytes → StreamId) (origin : Bytes → Bool) :
    Discipline Shared StreamLock where
  inv := Orderly exact fresh origin
  lockInv := fun _ _ => True
  may := MayChange exact fresh origin
  may_refl := fun _ _ => ⟨id, fun _ => rfl, le_rfl, le_rfl, fun _ mem _ => mem⟩
  inv_step := fun inv may => may.keeps inv
  lockInv_step := fun _ _ _ _ => trivial

/-! ## Calls that work in one piece -/

namespace Orderly

variable {exact : Prop} {fresh : Bytes → StreamId} {origin : Bytes → Bool} {s : Shared} {c : Call}
  {due : Bool} {name : Bytes}

/-- A declaration that is not due to compact changes nothing or adds one topic. -/
theorem declare_cases {s : StreamStore} (healthy : s.failed = false) (writing : s.writes = none)
    (id : StreamId) (name : Bytes) (partitions maxBytes maxAgeMs : Nat) :
    let result := streamDeclare s .notDue id name partitions maxBytes maxAgeMs
    (result.1 = s ∧ (result.2 = 0 → (findTopic s.topics name).isSome = true)) ∨
      ∃ t records, result.1.topics = t :: s.topics ∧ records ≠ [] ∧
        result.1.log = s.log ++ records := by
  simp only [streamDeclare, guarded, healthy, Bool.false_eq_true, if_false, compactMaybeLocked]
  cases added : addTopic s.topics name partitions maxBytes maxAgeMs id with
  | none => exact .inl ⟨rfl, nofun⟩
  | some topics =>
    cases known : findTopic s.topics name with
    | some t => exact .inl ⟨rfl, fun _ => rfl⟩
    | none =>
      refine .inr ?_
      unfold addTopic at added
      split at added
      · cases added
      · simp only [known, Option.some.injEq] at added
        subst added
        simp only [Option.isSome_none, Bool.false_eq_true, if_false]
        rw [logEach_ok (by exact writing)]
        refine ⟨{ newTopic name partitions maxBytes maxAgeMs id with idPersisted := true },
          [.declare name partitions maxBytes maxAgeMs, .identity name id], ?_,
          List.cons_ne_nil _ _, rfl⟩
        simp only
        rw [setTopic, updateFirst_cons_hit (by simp [newTopic])]

/-- The window of one call: the log grows, and only calls that relist change the list. -/
theorem runs (inv : Orderly exact fresh origin s) (plain : c.compaction = .notDue)
    (admitted : Admitted c due s) :
    Tracks ⟨exact, s.hidden, s.store.log,
      if c.relists then none else some (s.store.topics.map StreamTopic.name)⟩ fresh
      (c.run s.store).1 := by
  obtain ⟨fits, -, apart, -⟩ := admitted
  have tracks := inv.tracks
  have narrowed : Tracks ⟨exact, s.hidden, s.store.log,
      if c.relists then none else some (s.store.topics.map StreamTopic.name)⟩ fresh s.store := by
    refine ⟨tracks.healthy, tracks.writing, tracks.sound, List.prefix_rfl, fun names frame => ?_,
      tracks.replayed⟩
    simp only [Option.mem_def] at frame
    split at frame
    · cases frame
    · exact Option.some.inj frame
  refine tracks_run narrowed c (by simp [Call.clean, fits, plain, Compaction.clean])
    ⟨fun name named mem => ?_, .inl plain, fun relists => by simp [relists]⟩
  obtain ⟨entry, memE, rfl⟩ := List.mem_map.mp mem
  exact (apart entry memE).2 named

/-- What a call logged stands behind what the log had. -/
theorem logs (inv : Orderly exact fresh origin s) (plain : c.compaction = .notDue)
    (admitted : Admitted c due s) :
    (c.run s.store).1.log
      = s.store.log ++ (c.run s.store).1.log.drop s.store.log.length := by
  obtain ⟨more, eq⟩ := (inv.runs plain admitted).grown
  rw [← eq, List.drop_left]

/-- The replay of a longer log goes on where the shorter one ended. -/
theorem standing_longer {log more history : List LogRecord} {r r' : List StreamTopic}
    (recorded : standing (origin name) history name = (findTopic r name).isSome)
    (first : Replays fresh [] log r) (run : Replays fresh [] (log ++ more) r') :
    standing (origin name) (history ++ more) name = (findTopic r' name).isSome := by
  have empty : (([] : List StreamTopic).map StreamTopic.name).Nodup := List.nodup_nil
  rw [standing_replays empty run name, standing_append, standing_append, recorded,
    standing_replays empty first name]

/-- Records behind the log, and what a crash may leave of them. -/
theorem recorded_append (inv : Orderly exact fresh origin s) {more : List LogRecord}
    {r : List StreamTopic} (lost : Nat) (run : Replays fresh [] (s.store.log ++ more) r)
    (within : lost ≤ s.walSeq + more.length - s.durable) (name : Bytes) :
    standing (origin name) ((s.history ++ more).take (s.walSeq + more.length - lost)) name
      = (findTopic (replayAll fresh []
        ((s.store.log ++ more).take (s.store.log.length + more.length - lost))).1 name).isSome := by
  rcases Nat.le_total lost more.length with few | many
  · -- all of the old log is left
    have history : (s.history ++ more).take (s.walSeq + more.length - lost)
        = s.history ++ more.take (more.length - lost) := by
      rw [Nat.add_sub_assoc few, Shared.walSeq, List.take_length_add_append]
    have log : (s.store.log ++ more).take (s.store.log.length + more.length - lost)
        = s.store.log ++ more.take (more.length - lost) := by
      rw [Nat.add_sub_assoc few, List.take_length_add_append]
    have old := inv.recorded 0 (Nat.zero_le _) name
    obtain ⟨before, first, -, -⟩ := inv.tracks.replayed
    rw [Shared.declared, Shared.without, Nat.sub_zero, Nat.sub_zero, Shared.walSeq, List.take_length,
      List.take_length, show replayAll fresh [] s.store.log = (before, s.store.log) from first] at old
    have split : s.store.log ++ more = s.store.log ++ more.take (more.length - lost)
        ++ more.drop (more.length - lost) := by
      rw [List.append_assoc, List.take_append_drop]
    rw [split] at run
    obtain ⟨mid, partial_⟩ := run.front
    rw [history, log, standing_longer old first partial_,
      show replayAll fresh [] (s.store.log ++ more.take (more.length - lost)) = (mid, _)
        from partial_]
  · have history : (s.history ++ more).take (s.walSeq + more.length - lost)
        = s.history.take (s.walSeq - (lost - more.length)) := by
      rw [List.take_append_of_le_length (by rw [Shared.walSeq]; omega)]
      congr 1
      omega
    have log : (s.store.log ++ more).take (s.store.log.length + more.length - lost)
        = s.store.log.take (s.store.log.length - (lost - more.length)) := by
      rw [List.take_append_of_le_length (by omega)]
      congr 1
      omega
    rw [history, log]
    exact inv.recorded (lost - more.length) (by omega) name

theorem widen {w : Window} {store : StreamStore} (tracks : Tracks w fresh store) :
    Tracks ⟨w.exact, w.hidden, [], none⟩ fresh store :=
  ⟨tracks.healthy, tracks.writing, tracks.sound, List.nil_prefix, nofun, tracks.replayed⟩

/-- The cells after a call, with the pointers that deletions hold. -/
theorem cells_apply (inv : Orderly exact fresh origin s) (plain : c.compaction = .notDue)
    (other : ∀ compaction name expected, c ≠ .delete compaction name expected)
    (admitted : Admitted c due s) :
    (s.apply c).1.cells.length = (s.apply c).1.store.topics.length ∧ (s.apply c).1.cells.Nodup ∧
      (∀ cell ∈ (s.apply c).1.cells, cell < (s.apply c).1.allocated) ∧
      ∀ entry ∈ s.deleting, ∃ t, findLink (s.apply c).1.store.topics (s.apply c).1.cells entry.name
        none = some (t, entry.cell, entry.link) := by
  have tracks := inv.runs plain admitted
  have later : ∀ cell ∈ s.cells, cell < s.allocated + 1 :=
    fun cell mem => Nat.lt_succ_of_lt (inv.known cell mem)
  simp only [Shared.apply]
  by_cases relists : c.relists = true
  · -- a declaration: nothing is being deleted
    have quiet : s.deleting = [] := List.eq_nil_iff_forall_not_mem.mpr fun entry mem => by
      have fixed := (admitted.2.2.1 entry mem).1
      rw [relists] at fixed
      cases fixed
    rw [quiet]
    cases c with
    | declare compaction id name partitions maxBytes maxAgeMs =>
      cases plain
      rcases declare_cases inv.tracks.healthy inv.tracks.writing id name partitions maxBytes maxAgeMs
        with ⟨same, -⟩ | ⟨t, records, topics, -, -⟩
      · simp only [Call.run, same, if_true]
        exact ⟨inv.aligned, inv.distinct, later, List.forall_mem_nil _⟩
      · simp only [Call.run, topics, List.length_cons]
        rw [if_neg (by omega)]
        refine ⟨by simp [inv.aligned], List.nodup_cons.mpr ⟨fun mem => ?_, inv.distinct⟩,
          fun cell mem => ?_, List.forall_mem_nil _⟩
        · exact absurd (inv.known _ mem) (lt_irrefl _)
        · rcases List.mem_cons.mp mem with rfl | old
          · exact Nat.lt_succ_self _
          · exact later cell old
    | delete compaction name expected => exact absurd rfl (other compaction name expected)
    | _ => cases relists
  · have names : (c.run s.store).1.topics.map StreamTopic.name
        = s.store.topics.map StreamTopic.name :=
      tracks.framed _ (by simp [relists])
    have lengths : (c.run s.store).1.topics.length = s.store.topics.length := by
      simpa using congrArg List.length names
    rw [if_pos lengths]
    refine ⟨by rw [lengths]; exact inv.aligned, inv.distinct, later, fun entry mem => ?_⟩
    obtain ⟨t, here⟩ := inv.linked entry mem
    exact findLink_names names here

/-- A call keeps what acknowledged calls rest on. -/
theorem acked_apply (inv : Orderly exact fresh origin s) (plain : c.compaction = .notDue)
    (admitted : Admitted c due s) : ∀ n ∈ (s.apply c).1.acked, n ≤ s.durable := by
  intro n mem
  simp only [Shared.apply] at mem
  cases c with
  | declare compaction id name partitions maxBytes maxAgeMs =>
    cases plain
    simp only [Call.declares] at mem
    split at mem
    · rename_i quick
      rcases List.mem_cons.mp mem with rfl | old
      · -- declared again, which is acknowledged on the strength of the synced declaration
        have there : (findTopic s.store.topics name).isSome = true := by
          rcases declare_cases inv.tracks.healthy inv.tracks.writing id name partitions maxBytes
            maxAgeMs with ⟨-, there⟩ | ⟨t, records, -, some_, log⟩
          · exact there quick.1
          · have empty := quick.2
            simp only [Call.run, log, List.drop_left] at empty
            exact absurd empty some_
        exact (admitted.2.2.2 name rfl there).trans inv.synced
      · exact inv.acked n old
    · exact inv.acked n mem
  | _ => exact inv.acked n mem

theorem apply (inv : Orderly exact fresh origin s) (plain : c.compaction = .notDue)
    (other : ∀ compaction name expected, c ≠ .delete compaction name expected)
    (admitted : Admitted c due s) : Orderly exact fresh origin (s.apply c).1 := by
  have tracks := inv.runs plain admitted
  have logs := inv.logs plain admitted
  obtain ⟨aligned, distinct, known, linked⟩ := inv.cells_apply plain other admitted
  obtain ⟨r, run, -, -⟩ := tracks.replayed
  refine ⟨widen tracks, fun lost within name => ?_, aligned, distinct, known, inv.alone, linked,
    inv.intact, inv.synced, inv.covered.trans ?_, inv.acked_apply plain admitted⟩
  · have length : (c.run s.store).1.log.length = s.store.log.length
        + ((c.run s.store).1.log.drop s.store.log.length).length := by
      rw [← List.length_append, ← logs]
    rw [logs] at run
    have appended := inv.recorded_append lost run
      (by simpa [Shared.apply, Shared.walSeq] using within) name
    rw [← logs, ← length] at appended
    simpa [Shared.declared, Shared.without, Shared.apply, Shared.walSeq] using appended
  · simp [Shared.apply, Shared.walSeq]

/-! ## Compactions, deletions and syncs -/

theorem compact (inv : Orderly exact fresh origin s) (quiet : s.deleting = [])
    (counted : ∀ t ∈ s.store.topics, t.revision ≠ 0) : Orderly exact fresh origin s.compact := by
  have whole : s.hidden = [] := by simp [Shared.hidden, quiet]
  have tracks : Tracks ⟨exact, s.hidden, [], none⟩ fresh s.compact.store :=
    inv.tracks.compacted counted whole List.nil_prefix
  refine ⟨tracks, fun lost within name => ?_, inv.aligned, inv.distinct, inv.known, inv.alone,
    inv.linked, inv.intact, le_rfl, le_rfl, fun n mem => (inv.acked n mem).trans inv.covered⟩
  -- both logs replay to the topics in memory
  obtain ⟨r, run, -, mirror⟩ := inv.tracks.replayed
  obtain ⟨r', run', -, mirror'⟩ := tracks.replayed
  have shown : name ∉ s.hidden := by simp [whole]
  have same : ∀ {topics : List StreamTopic}, Window.Same ⟨exact, s.hidden, [], none⟩ s.store.topics
      topics → (findTopic topics name).isSome = (findTopic s.store.topics name).isSome := by
    intro topics mirror
    have here := mirror.shown shown
    revert here
    cases findTopic s.store.topics name <;> cases findTopic topics name <;> intro here <;> cases here
    · rfl
    · rfl
  have none_ : lost = 0 := by simpa [Shared.compact, Shared.walSeq] using within
  have old := inv.recorded 0 (Nat.zero_le _) name
  rw [Shared.without, Nat.sub_zero, List.take_length,
    show replayAll fresh [] s.store.log = (r, s.store.log) from run, same mirror] at old
  rw [none_, Shared.without, Nat.sub_zero, List.take_length,
    show replayAll fresh [] s.compact.store.log = (r', s.compact.store.log) from run']
  exact old.trans (same mirror').symm

/-- The record of a deletion, while nothing else is being deleted. -/
theorem logDelete (inv : Orderly exact fresh origin s) (quiet : s.deleting = []) (expected : Nat) :
    Orderly exact fresh origin (s.logDelete name expected).1 := by
  unfold Shared.logDelete
  rw [if_neg (by simp [inv.tracks.healthy])]
  cases here : findLink s.store.topics s.cells name none with
  | none => exact inv
  | some found =>
    obtain ⟨t, cell, link⟩ := found
    simp only
    split
    · exact inv
    · rw [logEach_ok inv.tracks.writing]
      have shown : name ∉ s.hidden := by simp [Shared.hidden, quiet]
      have found : findTopic s.store.topics name = some t := by
        rw [← findLink_found inv.aligned, here]
        rfl
      have tracks := inv.tracks.deleteLogged shown found
      obtain ⟨r, run, -, -⟩ := tracks.replayed
      refine ⟨tracks, fun lost within other => ?_, inv.aligned, inv.distinct, inv.known,
        by simp [quiet], ?_, inv.intact, inv.synced, inv.covered.trans ?_, inv.acked⟩
      · have appended := inv.recorded_append lost run
          (by simpa [Shared.walSeq] using within) other
        simpa [Shared.declared, Shared.without, Shared.walSeq] using appended
      · intro entry mem
        rw [quiet] at mem
        cases List.mem_singleton.mp mem
        exact ⟨t, here⟩
      · simp [Shared.walSeq]

/-- A deletion that has waited takes its topic out of the list. -/
theorem unlink (inv : Orderly exact fresh origin s) {entry : Waiting} (mem : entry ∈ s.deleting) :
    Orderly exact fresh origin (s.unlink entry) := by
  have only : s.deleting = [entry] := by
    have alone := inv.alone
    match deleting : s.deleting, mem, alone with
    | [_], mem, _ => rw [List.mem_singleton.mp mem]
    | _ :: _ :: _, _, alone => simp at alone
  obtain ⟨t, here⟩ := inv.linked entry mem
  obtain ⟨nodes, unlinked, topics, cells⟩ := unlinkNode_found inv.aligned inv.distinct here
  have hidden : s.hidden = [entry.name] := by simp [Shared.hidden, only]
  have tracks := inv.tracks
  rw [hidden] at tracks
  have dropped := Tracks.dropped (w := ⟨exact, [], [], none⟩) tracks List.not_mem_nil rfl
  have erased : s.cells.erase entry.cell ⊆ s.cells := List.erase_subset
  unfold Shared.unlink
  rw [unlinked]
  simp only [topics, cells, only, List.erase_cons_head]
  refine ⟨dropped, inv.recorded, ?_, inv.distinct.erase _, fun cell mem => inv.known cell (erased mem),
    by simp, nofun, inv.intact, inv.synced, inv.covered, inv.acked⟩
  change (s.cells.erase entry.cell).length = (dropTopic s.store.topics entry.name).length
  rw [← cells, ← topics, List.length_map, List.length_map]

theorem synced_ (inv : Orderly exact fresh origin s) {target : Nat} (counted : target ≤ s.walSeq) :
    Orderly exact fresh origin (s.synced target) :=
  ⟨inv.tracks, fun lost within => inv.recorded lost (within.trans
      (Nat.sub_le_sub_left (le_max_left _ _) _)), inv.aligned, inv.distinct, inv.known, inv.alone,
    inv.linked, inv.intact, inv.synced.trans (le_max_left _ _), max_le inv.covered counted,
    fun n mem => (inv.acked n mem).trans (le_max_left _ _)⟩

theorem publish (inv : Orderly exact fresh origin s) {target : Nat} (covered : target ≤ s.durable) :
    Orderly exact fresh origin (s.publish target) :=
  ⟨inv.tracks, inv.recorded, inv.aligned, inv.distinct, inv.known, inv.alone, inv.linked, inv.intact,
    max_le inv.synced covered, inv.covered, inv.acked⟩

theorem lead (inv : Orderly exact fresh origin s) : Orderly exact fresh origin s.lead :=
  ⟨inv.tracks, inv.recorded, inv.aligned, inv.distinct, inv.known, inv.alone, inv.linked, inv.intact,
    inv.synced, inv.covered, inv.acked⟩

theorem ack (inv : Orderly exact fresh origin s) {target : Nat} (covered : target ≤ s.durable) :
    Orderly exact fresh origin (s.ack target) := by
  refine ⟨inv.tracks, inv.recorded, inv.aligned, inv.distinct, inv.known, inv.alone, inv.linked,
    inv.intact, inv.synced, inv.covered, fun n mem => ?_⟩
  rcases List.mem_cons.mp mem with rfl | old
  · exact covered
  · exact inv.acked n old

end Orderly

end KuttiDB.Stream
