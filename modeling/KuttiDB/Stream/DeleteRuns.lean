/- # KuttiDB.Stream.DeleteRuns -- every interleaving of stream calls

Each call keeps to `streamDiscipline` where `admitted` lets it in. What a thread relies on is little:
with the lock of the store it knows that nothing but the sync count changes, a deletion that waits
knows that its own entry stays, and a thread that synced knows what it covered.

`deletes_keep_log` draws the conclusion for every run that keeps to the condition, and
`deletion_breaks_log` has two runs that do not: an append behind the record of a deletion, and a
declaration in front of the topic that is being deleted.
-/
import KuttiDB.Stream.DeleteRaces

namespace KuttiDB.Stream

open KuttiDB.QueueStore (Bytes)
open KuttiDB.Theory

set_option autoImplicit false

section Threads

variable {exact : Prop} {fresh : Bytes → StreamId} {origin : Bytes → Bool} {held : Set StreamLock}
  {c : Call} {due : Bool} {s : Shared}

/-! ## Knowledge of a thread -/

/-- With the lock of the store, only the sync count changes behind a thread's back. -/
theorem stable_locked (mine : StreamLock.mu ∈ held) {P : Shared → Prop}
    (blind : ∀ s durable, P s → P { s with durable := durable }) :
    (streamDiscipline exact fresh origin).Stable held P := by
  intro others s s' apart _ know may
  rw [may.outside (apart .mu mine)]
  exact blind s s'.durable know

theorem stable_durable (target : Nat) :
    (streamDiscipline exact fresh origin).Stable held (fun s => target ≤ s.durable) :=
  fun _ _ _ _ _ know may => know.trans may.durable

theorem stable_counted (target : Nat) :
    (streamDiscipline exact fresh origin).Stable held (fun s => target ≤ s.walSeq) :=
  fun _ _ _ _ _ know may => know.trans may.counted

theorem stable_deleting {entry : Waiting} (mine : .record entry.seq ∈ held) :
    (streamDiscipline exact fresh origin).Stable held (fun s => entry ∈ s.deleting) :=
  fun _ _ _ apart _ know may => may.deleting entry know (apart _ mine)

/-- A change under the lock that leaves the deletions alone. -/
theorem may_locked (mine : StreamLock.mu ∈ held) {s' : Shared}
    (keeps : Orderly exact fresh origin s → Orderly exact fresh origin s')
    (durable : s.durable ≤ s'.durable) (counted : s.walSeq ≤ s'.walSeq)
    (deleting : s'.deleting = s.deleting) :
    (streamDiscipline exact fresh origin).may held s s' :=
  ⟨keeps, fun outside => absurd mine outside, durable, counted,
    fun _ mem _ => by rw [deleting]; exact mem⟩

theorem secure_leave (code : Int) (s : Shared) :
    (streamDiscipline exact fresh origin).Secure admitted (leaveThread code) {.mu} s := by
  refine .unlock _ (Discipline.stable_true _ _) trivial (Set.mem_singleton _) fun s _ _ =>
    ⟨trivial, ?_⟩
  rw [Set.sdiff_self]
  exact .done code

/-! ## The two waits -/

/-- The durability wait keeps what its caller knows about the deletions. -/
theorem secure_wait {Q : List Waiting → Prop} (free : StreamLock.mu ∉ held)
    (stable : (streamDiscipline exact fresh origin).Stable held (fun s => Q s.deleting))
    {target : Nat} {covered : StreamThread} {out : Int → StreamThread}
    (onCovered : ∀ s, Orderly exact fresh origin s → Q s.deleting → target ≤ s.durable →
      (streamDiscipline exact fresh origin).Secure admitted covered (insert .mu held) s)
    (onOut : ∀ s code, Q s.deleting →
      (streamDiscipline exact fresh origin).Secure admitted (out code) (insert .mu held) s) :
    ∀ (rounds : Nat) (s : Shared), Q s.deleting → (streamDiscipline exact fresh origin).Secure admitted
      (waitThread target covered out rounds) (insert .mu held) s
  | 0, s, know => onOut s 2 know
  | round + 1, s, know => by
    have again := secure_wait free stable onCovered onOut round
    have mine : StreamLock.mu ∈ insert StreamLock.mu held := Set.mem_insert _ _
    have released : insert StreamLock.mu held \ {StreamLock.mu} = held :=
      Set.insert_sdiff_self_of_notMem free
    have outer := stable.mono (Set.subset_insert StreamLock.mu held)
    refine .act _ outer know fun s inv know => ?_
    by_cases failed : s.store.failed = true
    · simp only [failed, true_or, if_true]
      exact ⟨Discipline.may_refl _ _ _, onOut s (-1) know⟩
    simp only [failed, Bool.false_eq_true, false_or, if_false]
    by_cases reached : target ≤ s.syncedSeq
    · simp only [reached, true_or, if_true]
      exact ⟨Discipline.may_refl _ _ _, onCovered s inv know (reached.trans inv.synced)⟩
    simp only [reached, false_or, if_false]
    by_cases busy : s.syncer = true
    · simp only [busy, if_true]
      refine ⟨Discipline.may_refl _ _ _, .unlock _ outer know mine fun s _ know => ⟨trivial, ?_⟩⟩
      rw [released]
      exact .lock _ stable know free fun s _ know _ _ => again s know
    · simp only [busy, Bool.false_eq_true, if_false]
      refine ⟨may_locked mine Orderly.lead le_rfl le_rfl rfl, ?_⟩
      -- the leader: what it has counted is covered when its sync is done
      have counted : (streamDiscipline exact fresh origin).Stable held
          (fun later => s.walSeq ≤ later.walSeq) := stable_counted s.walSeq
      refine .unlock _ ((counted.and stable).mono (Set.subset_insert StreamLock.mu held))
        ⟨le_rfl, know⟩ mine fun s₁ _ know₁ => ⟨trivial, ?_⟩
      rw [released]
      refine .write _ (counted.and stable) know₁ fun s₂ _ know₂ => ⟨?_, ?_⟩
      · exact ⟨fun inv => inv.synced_ know₂.1, fun _ => rfl, le_max_left _ _, le_rfl,
          fun _ mem _ => mem⟩
      · have covering : (streamDiscipline exact fresh origin).Stable held
            (fun later => s.walSeq ≤ later.durable) := stable_durable s.walSeq
        refine .lock _ (covering.and stable) ⟨le_max_right _ _, know₂.2⟩ free
          fun s₃ _ know₃ _ _ => ?_
        refine .write _ ((covering.and stable).mono (Set.subset_insert StreamLock.mu held)) know₃
          fun s₄ _ know₄ => ⟨?_, again _ know₄.2⟩
        exact may_locked mine (fun inv => inv.publish know₄.1) le_rfl le_rfl rfl

theorem Admitted.compact {s : Shared} (admitted : Admitted c due s) : Admitted c due s.compact :=
  ⟨admitted.1, admitted.2.1, admitted.2.2.1, fun _ _ _ => Nat.sub_le _ _⟩

theorem stable_admitted (mine : StreamLock.mu ∈ held) :
    (streamDiscipline exact fresh origin).Stable held (Admitted c due) :=
  stable_locked mine fun _ _ admitted => admitted

/-- A due compaction, in a state that admits it. -/
theorem secure_compact {next out : StreamThread}
    (onNext : ∀ s, Admitted c true s →
      (streamDiscipline exact fresh origin).Secure admitted next {.mu} s)
    (onOut : ∀ s, (streamDiscipline exact fresh origin).Secure admitted out {.mu} s) :
    ∀ (rounds : Nat) (s : Shared), Admitted c true s →
      (streamDiscipline exact fresh origin).Secure admitted (compactThread c next out rounds) {.mu} s
  | 0, s, _ => onOut s
  | round + 1, s, admits => by
    have again := secure_compact onNext onOut round
    have mine : StreamLock.mu ∈ ({StreamLock.mu} : Set StreamLock) := Set.mem_singleton _
    refine .act _ (stable_admitted mine) admits fun s inv admits => ?_
    by_cases busy : s.syncer = true ∧ s.store.failed = false
    · rw [if_pos busy, if_pos busy]
      refine ⟨Discipline.may_refl _ _ _,
        .unlock _ (Discipline.stable_true _ _) trivial mine fun s _ _ => ⟨trivial, ?_⟩⟩
      rw [Set.sdiff_self]
      refine .lock _ (Discipline.stable_true _ _) trivial (Set.notMem_empty _)
        fun s _ _ _ admits => ?_
      rw [insert_empty_eq]
      exact again s admits
    · rw [if_neg busy, if_neg busy]
      obtain ⟨quiet, counted⟩ := admits.2.1 rfl
      exact ⟨may_locked mine (fun inv => inv.compact quiet counted) inv.covered le_rfl rfl,
        onNext _ admits.compact⟩

theorem secure_enter {body : StreamThread}
    (onBody : ∀ s, Admitted c due s →
      (streamDiscipline exact fresh origin).Secure admitted body {.mu} s) (rounds : Nat) :
    (streamDiscipline exact fresh origin).Secure admitted (enterThread c due rounds body) ∅ s := by
  refine .lock _ (Discipline.stable_true _ _) trivial (Set.notMem_empty _) fun s _ _ _ admits => ?_
  rw [insert_empty_eq]
  cases due with
  | false => exact onBody s admits
  | true =>
    refine .read _ (stable_admitted (Set.mem_singleton _)) admits fun s _ admits => ?_
    split
    · exact secure_leave (-1) s
    · exact secure_compact onBody (secure_leave 2) rounds s admits

/-! ## The calls -/

theorem secure_call (plain : c.compaction = .notDue)
    (other : ∀ compaction name expected, c ≠ .delete compaction name expected) (rounds : Nat) :
    (streamDiscipline exact fresh origin).Secure admitted (callThread c due rounds) ∅ s := by
  have mine : StreamLock.mu ∈ ({StreamLock.mu} : Set StreamLock) := Set.mem_singleton _
  refine secure_enter (fun s admits => ?_) rounds
  refine .act _ (stable_admitted mine) admits fun s _ admits => ⟨?_, ?_⟩
  · exact may_locked mine (fun inv => inv.apply plain other admits) le_rfl
      (by simp [Shared.apply, Shared.walSeq]) rfl
  · simp only
    split
    · rw [← insert_empty_eq]
      refine secure_wait (Q := fun _ => True) (Set.notMem_empty _) (Discipline.stable_true _ _)
        (fun s inv _ covered => ?_) (fun s code _ => ?_) rounds _ trivial
      · rw [insert_empty_eq]
        refine .write _ (stable_durable _) covered fun s _ covered => ⟨?_, secure_leave 0 _⟩
        exact may_locked mine (fun inv => inv.ack covered) le_rfl le_rfl rfl
      · rw [insert_empty_eq]
        exact secure_leave code s
    · exact secure_leave _ _

/-- A deletion that was logged has its entry. -/
theorem logDelete_entry {name : Bytes} {expected : Nat} {entry : Waiting}
    (logged : (s.logDelete name expected).2 = .ok entry) :
    entry ∈ (s.logDelete name expected).1.deleting := by
  unfold Shared.logDelete at logged ⊢
  split at logged
  · cases logged
  · split at logged
    · cases logged
    · split at logged
      · cases logged
      · split at logged
        · cases logged
        · cases logged
          simp_all

theorem logDelete_grows (name : Bytes) (expected : Nat) (s : Shared) :
    s.durable = (s.logDelete name expected).1.durable ∧
      s.walSeq ≤ (s.logDelete name expected).1.walSeq ∧
      ∀ entry ∈ s.deleting, entry ∈ (s.logDelete name expected).1.deleting := by
  unfold Shared.logDelete
  split
  · exact ⟨rfl, le_rfl, fun _ mem => mem⟩
  · split
    · exact ⟨rfl, le_rfl, fun _ mem => mem⟩
    · split
      · exact ⟨rfl, le_rfl, fun _ mem => mem⟩
      · split
        · exact ⟨rfl, le_rfl, fun _ mem => mem⟩
        · exact ⟨rfl, by simp [Shared.walSeq], fun _ mem => List.mem_cons_of_mem _ mem⟩

theorem unlink_durable (entry : Waiting) (s : Shared) :
    (s.unlink entry).durable = s.durable ∧ (s.unlink entry).walSeq = s.walSeq ∧
      (s.unlink entry).deleting = s.deleting.erase entry := by
  unfold Shared.unlink
  split <;> exact ⟨rfl, rfl, rfl⟩

theorem secure_delete (name : Bytes) (expected : Nat) (rounds : Nat) :
    (streamDiscipline exact fresh origin).Secure admitted (deleteThread name expected due rounds) ∅
      s := by
  have mine : StreamLock.mu ∈ ({StreamLock.mu} : Set StreamLock) := Set.mem_singleton _
  unfold deleteThread
  split
  · exact .done (-1)
  refine secure_enter (fun s admits => ?_) rounds
  refine .act _ (stable_admitted mine) admits fun s _ admits => ?_
  have quiet : s.deleting = [] := List.eq_nil_iff_forall_not_mem.mpr fun entry mem =>
    absurd (admits.2.2.1 entry mem).1 (by simp [Call.relists])
  obtain ⟨durable, counted, stay⟩ := logDelete_grows name expected s
  refine ⟨⟨fun inv => inv.logDelete quiet expected, fun outside => absurd mine outside, durable.le,
    counted, fun entry mem _ => stay entry mem⟩, ?_⟩
  cases logged : (s.logDelete name expected).2 with
  | error code => exact secure_leave code _
  | ok entry =>
    simp only
    refine .lock _ (stable_locked mine (P := fun s => entry ∈ s.deleting) fun _ _ mem => mem)
      (logDelete_entry logged) (by simp) fun s _ mem _ _ => ?_
    rw [Set.pair_comm]
    have here : StreamLock.record entry.seq ∈ ({.record entry.seq} : Set StreamLock) :=
      Set.mem_singleton _
    have dropped : insert StreamLock.mu {StreamLock.record entry.seq}
        \ {StreamLock.record entry.seq} = ({.mu} : Set StreamLock) := by
      rw [Set.pair_comm]
      exact Set.insert_sdiff_self_of_notMem (by simp)
    refine secure_wait (Q := fun deleting => entry ∈ deleting) (by simp) (stable_deleting here)
      (fun s inv mem _ => ?_) (fun s code _ => ?_) rounds s mem
    · refine .write _ (stable_deleting (Set.mem_insert_of_mem _ here)) mem fun s inv mem =>
        ⟨?_, ?_⟩
      · obtain ⟨durable, walSeq, deleting⟩ := unlink_durable entry s
        refine ⟨fun inv => inv.unlink mem, fun outside => absurd (Set.mem_insert _ _) outside,
          durable.ge, walSeq.ge, fun other memO others => ?_⟩
        rw [deleting]
        refine (List.mem_erase_of_ne ?_).mpr memO
        rintro rfl
        exact others (Set.mem_insert_of_mem _ here)
      · refine .unlock _ (Discipline.stable_true _ _) trivial (Set.mem_insert_of_mem _ here)
          fun s _ _ => ⟨trivial, ?_⟩
        rw [dropped]
        exact secure_leave 0 s
    · refine .unlock _ (Discipline.stable_true _ _) trivial (Set.mem_insert_of_mem _ here)
        fun s _ _ => ⟨trivial, ?_⟩
      rw [dropped]
      exact secure_leave code s

theorem secure_streamCalls {p : StreamThread} (call : p ∈ StreamCalls) (s : Shared) :
    (streamDiscipline exact fresh origin).Secure admitted p ∅ s := by
  cases call with
  | call c due rounds plain other => exact secure_call plain other rounds
  | delete name expected due rounds => exact secure_delete name expected rounds

end Threads

/-! ## Runs -/

/-- A store just opened, with no call running. -/
def openedWorld (store : StreamStore) : World Shared StreamLock StreamSite Int :=
  .resting (.opened store) 0

def StreamStore.has (store : StreamStore) (name : Bytes) : Bool := (findTopic store.topics name).isSome

/-- Replay has the topics of memory, but for those being deleted. -/
theorem isSome_same {w : Window} {memory replayed : List StreamTopic} (same : w.Same memory replayed)
    {name : Bytes} (shown : name ∉ w.hidden) :
    (findTopic replayed name).isSome = (findTopic memory name).isSome := by
  have here := same.shown shown
  revert here
  cases findTopic memory name <;> cases findTopic replayed name <;> intro here <;> cases here
  · rfl
  · rfl

theorem orderly_opened {exact : Prop} {fresh : Bytes → StreamId} {store : StreamStore}
    (tracks : Tracks (.sequential exact) fresh store) :
    Orderly exact fresh store.has (.opened store) := by
  refine ⟨tracks, fun lost within name => ?_, by simp [Shared.opened], List.nodup_range,
    fun cell mem => List.mem_range.mp mem, Nat.zero_le 1, nofun, rfl, le_rfl, le_rfl, nofun⟩
  have none_ : lost = 0 := by simpa [Shared.opened, Shared.walSeq] using within
  obtain ⟨r, run, -, same⟩ := tracks.replayed
  rw [none_, Shared.without, Nat.sub_zero, List.take_length]
  change store.has name = (findTopic (replayAll fresh [] store.log).1 name).isSome
  rw [show replayAll fresh [] store.log = (r, store.log) from run]
  exact (isSome_same same List.not_mem_nil).symm

/-- No freed topic was used; the log replays to memory, but for the topics being deleted; memory has
the topics that were declared and not deleted; and whatever a crash takes of the records not synced,
what is left replays to the topics declared by then and holds all that acknowledged calls rest on. -/
structure Kept (exact : Prop) (fresh : Bytes → StreamId) (origin : Bytes → Bool) (s : Shared) :
    Prop where
  intact : s.corrupt = false
  replays : ∃ replayed, replayAll fresh [] s.store.log = (replayed, s.store.log) ∧
    ∀ name, name ∉ s.hidden →
      Option.Rel (SameTopic exact) (findTopic s.store.topics name) (findTopic replayed name)
  present : ∀ name, name ∉ s.hidden → s.store.has name = s.declared origin 0 name
  survives : ∀ lost ≤ s.walSeq - s.durable,
    (replayAll fresh [] (s.without lost)).2 = s.without lost ∧
    (∀ name, (findTopic (replayAll fresh [] (s.without lost)).1 name).isSome
      = s.declared origin lost name) ∧
    ∀ n ∈ s.acked, n ≤ s.walSeq - lost

theorem Orderly.kept {exact : Prop} {fresh : Bytes → StreamId} {origin : Bytes → Bool} {s : Shared}
    (inv : Orderly exact fresh origin s) : Kept exact fresh origin s := by
  obtain ⟨r, run, -, same⟩ := inv.tracks.replayed
  refine ⟨inv.intact, ⟨r, run, fun name shown => same.shown shown⟩, fun name shown => ?_,
    fun lost within => ⟨?_, fun name => (inv.recorded lost within name).symm, fun n mem => ?_⟩⟩
  · rw [inv.recorded 0 (Nat.zero_le _) name, Shared.without, Nat.sub_zero, List.take_length,
      show replayAll fresh [] s.store.log = (r, s.store.log) from run]
    exact (isSome_same same shown).symm
  · have split : s.store.log = s.without lost ++ s.store.log.drop (s.store.log.length - lost) :=
      (List.take_append_drop _ _).symm
    rw [split] at run
    obtain ⟨mid, front⟩ := run.front
    rw [show replayAll fresh [] (s.without lost) = (mid, s.without lost) from front]
  · have acked := inv.acked n mem
    have covered := inv.covered
    omega

/-- Threads may call what they like on a store from any run: as long as none comes in the way of a
deletion that waits, and none declares a topic again before its declaration is synced, the log stays
replayable, no other topic disappears, and nothing acknowledged is lost. -/
theorem deletes_keep_log (fresh : Bytes → StreamId) (steps : List LogStep)
    (clean : cleanLog fresh .fresh steps = true) {w : World Shared StreamLock StreamSite Int}
    (run : Reaches StreamCalls admitted (openedWorld (runLog fresh .fresh steps)) w) :
    Kept (∀ step ∈ steps, step.isCall = true) fresh (runLog fresh .fresh steps).has w.shared := by
  have start := orderly_opened (tracks_runLog fresh steps clean)
  have sound := Reaches.sound (D := streamDiscipline (∀ step ∈ steps, step.isCall = true) fresh
    (runLog fresh .fresh steps).has) (fun p call s _ => secure_streamCalls call s)
    (World.sound_resting 0 start fun _ => trivial) run
  exact sound.inv.kept

/-- A deletion waits while another topic is appended to; the topic is declared anew afterwards. -/
def apartTurns : List (Turn Shared StreamLock StreamSite Int) :=
  [.start 0 (callThread (.declare .notDue 1 [97] 1 0 0) false 2), .steps 0 20,
   .start 0 (callThread (.declare .notDue 2 [98] 1 0 0) true 2), .steps 0 20,
   .start 1 (deleteThread [97] 1 false 3), .steps 1 5,
   .start 2 (callThread (.append .notDue 5 5 [98] 0 ⟨[], [1]⟩) false 3), .steps 2 4,
   .steps 1 20, .steps 2 20,
   .start 0 (callThread (.declare .notDue 3 [97] 2 0 0) false 2), .steps 0 20]

theorem starts_apartTurns : ∀ turn ∈ apartTurns, Turn.Starts StreamCalls turn := by
  intro turn mem
  simp only [apartTurns, List.mem_cons, List.not_mem_nil, or_false] at mem
  rcases mem with rfl | rfl | rfl | rfl | rfl | rfl | rfl | rfl | rfl | rfl | rfl | rfl
  · exact .call _ false 2 rfl nofun
  · trivial
  · exact .call _ true 2 rfl nofun
  · trivial
  · exact .delete [97] 1 false 3
  · trivial
  · exact .call _ false 3 rfl nofun
  · trivial
  · trivial
  · trivial
  · exact .call _ false 2 rfl nofun
  · trivial

theorem deletes_keep_log_apart :
    ((openedWorld .fresh).play apartTurns).shared.acked = [8, 6, 4, 2] ∧
      Kept (∀ step ∈ ([] : List LogStep), step.isCall = true) (fun _ => 0)
        (runLog (fun _ => 0) .fresh []).has ((openedWorld .fresh).play apartTurns).shared :=
  ⟨by decide +kernel, deletes_keep_log (fun _ => 0) [] rfl
    (World.reaches_steady (openedWorld .fresh) starts_apartTurns (by decide +kernel))⟩

/-- An append to the topic while its deletion waits; another topic is declared when both are done. -/
def appendTurns : List (Turn Shared StreamLock StreamSite Int) :=
  [.start 0 (callThread (.declare .notDue 1 [97] 1 0 0) false 2), .steps 0 20,
   .start 1 (deleteThread [97] 1 false 3), .steps 1 5,
   .start 2 (callThread (.append .notDue 5 5 [97] 0 ⟨[], [1]⟩) false 3), .steps 2 4,
   .steps 1 20, .steps 2 20,
   .start 0 (callThread (.declare .notDue 2 [98] 1 0 0) false 2), .steps 0 20]

/-- A declaration while the deletion of the first topic waits. -/
def declareTurns : List (Turn Shared StreamLock StreamSite Int) :=
  [.start 0 (callThread (.declare .notDue 1 [97] 1 0 0) false 2), .steps 0 20,
   .start 1 (deleteThread [97] 1 false 3), .steps 1 5,
   .start 2 (callThread (.declare .notDue 2 [98] 1 0 0) false 3), .steps 2 4,
   .steps 1 20, .steps 2 20]

/-- The append is logged behind the record of the deletion. Replay refuses it and with it all that
follows: the declaration, acknowledged and in memory, is lost when the store is opened again. And a
declaration acknowledged meanwhile is taken out of memory by the pointer the deletion had found. -/
theorem deletion_breaks_log :
    (∃ w, Reaches StreamCalls (fun _ _ _ => True) (openedWorld .fresh) w ∧
      w.result? 0 = some 0 ∧ w.result? 1 = some 0 ∧ w.result? 2 = some 0 ∧
      (replayAll (fun _ => 0) [] w.shared.store.log).2 = w.shared.store.log.take 3 ∧
      w.shared.store.log.length = 6 ∧ w.shared.store.has [98] = true ∧
      findTopic (replayAll (fun _ => 0) [] w.shared.store.log).1 [98] = none) ∧
    ∃ w, Reaches StreamCalls (fun _ _ _ => True) (openedWorld .fresh) w ∧
      w.result? 1 = some 0 ∧ w.result? 2 = some 0 ∧ w.shared.corrupt = false ∧
      w.shared.declared (StreamStore.has .fresh) 0 [98] = true ∧
      w.shared.store.has [98] = false := by
  refine ⟨⟨(openedWorld .fresh).play appendTurns, World.reaches_play _ ?_, by decide +kernel⟩,
    ⟨(openedWorld .fresh).play declareTurns, World.reaches_play _ ?_, by decide +kernel⟩⟩
  · intro turn mem
    simp only [appendTurns, List.mem_cons, List.not_mem_nil, or_false] at mem
    rcases mem with rfl | rfl | rfl | rfl | rfl | rfl | rfl | rfl | rfl | rfl
    · exact .call _ false 2 rfl nofun
    · trivial
    · exact .delete [97] 1 false 3
    · trivial
    · exact .call _ false 3 rfl nofun
    · trivial
    · trivial
    · trivial
    · exact .call _ false 2 rfl nofun
    · trivial
  · intro turn mem
    simp only [declareTurns, List.mem_cons, List.not_mem_nil, or_false] at mem
    rcases mem with rfl | rfl | rfl | rfl | rfl | rfl | rfl | rfl
    · exact .call _ false 2 rfl nofun
    · trivial
    · exact .delete [97] 1 false 3
    · trivial
    · exact .call _ false 3 rfl nofun
    · trivial
    · trivial
    · trivial

end KuttiDB.Stream
