/- # KuttiDB.Stream.Durability -- what an acknowledged call of the stream store rests on

Calls as threads make them: a call works under the lock in one piece, then waits until its records are
synced, and lets the lock go while it waits and while it syncs. One thread at a time leads a sync; it
notes how far the log is (`syncTarget`), lets the lock go, reads the descriptor, and syncs the file
behind it. A due compaction waits for a sync in flight, unless the store has failed, then writes
memory to a new file and replaces file and descriptor.

`file` numbers the files, `begun` is what the current one began with, `base` how many records had been
logged when it was begun: their effect is in `begun`. `history` has all records logged since the store
was opened, so its length is `wal_seq`. `safe` counts the records that are durable: those whose effect
the current file began with, and those written to it before a sync of it began that has ended well.
What the store found in the file when it was opened counts as durable. That a new file has the effect
of the records `base` counts is `compact_rebuilds`.

In every interleaving `synced_seq` stays within `safe`, and so do the records of a call that waited.
Two calls may return 0 without a record of their own and without a wait: the declaration of a topic
that exists and a commit at or below the committed offset. They are covered if the record they repeat
is (`acks_are_durable`); `repeats_not_durable` has the interleavings in which it is not.

`stream_delete_if_revision`, which changes the list of topics behind its wait, is not among the calls.
-/
import KuttiDB.Stream.LogGrowth

namespace KuttiDB.Stream

open KuttiDB.QueueStore (Bytes u64)
open KuttiDB.Theory

set_option autoImplicit false

/-! ## State -/

/-- A call that returned 0: on records of its own, those numbered from `first` to below `target`, or
on the first `target` records without any of its own. -/
inductive Ack where
  | logged (c : Call) (first target : Nat)
  | silent (c : Call) (target : Nat)
  deriving DecidableEq, Repr

/-- Where a thread stands: outside the store, waiting to compact, waiting for its records, leading a
sync before it has read the descriptor, in the sync of a file that had `mark` records, and behind it. -/
inductive Phase where
  | idle
  | compacting (c : Call) (compaction : Compaction)
  | waiting (c : Call) (first target : Nat)
  | leading (c : Call) (first target : Nat)
  | syncing (c : Call) (first target file mark : Nat)
  | synced (c : Call) (first target : Nat) (ok : Bool)
  deriving DecidableEq, Repr

structure SyncState where
  store : StreamStore
  file : Nat
  begun : List LogRecord
  base : Nat
  safe : Nat
  history : List LogRecord
  syncedSeq : Nat
  syncTarget : Nat
  syncer : Bool
  acked : List Ack
  threads : Nat → Phase

/-- How many records there were when the last of a kind was logged. -/
def lastRecord (kind : LogRecord → Bool) (history : List LogRecord) : Nat :=
  history.length - (history.reverse.takeWhile (fun r => !kind r)).length

/-- The records a silent call repeats. -/
def Call.repeated : Call → LogRecord → Bool
  | .declare _ _ name .., .declare name' .. => name == name'
  | .declare _ _ name .., .identity name' _ => name == name'
  | .commit _ name group p _, .commit name' group' p' _ => name == name' && group == group' && p == p'
  | _, _ => false

def Call.restsOn (c : Call) (history : List LogRecord) : Nat := lastRecord c.repeated history

theorem Call.restsOn_le (c : Call) (history : List LogRecord) : c.restsOn history ≤ history.length :=
  Nat.sub_le ..

namespace SyncState

def walSeq (s : SyncState) : Nat := s.history.length

/-- A store just opened. -/
def opened (store : StreamStore) : SyncState :=
  ⟨store, 0, store.log, 0, 0, [], 0, 0, false, [], fun _ => .idle⟩

/-- What a crash leaves at least. -/
def durable (s : SyncState) : List LogRecord :=
  s.begun ++ (s.history.drop s.base).take (s.safe - s.base)

/-- Thread `i` goes on from `phase`. -/
def goto (s : SyncState) (i : Nat) (phase : Phase) : SyncState :=
  { s with threads := Function.update s.threads i phase }

def ack (s : SyncState) (a : Ack) : SyncState := { s with acked := a :: s.acked }

/-- The store after work under the lock, and what that work added to the log. -/
def logged (s : SyncState) (store : StreamStore) : SyncState :=
  { s with store := store, history := s.history ++ store.log.drop s.store.log.length }

/-- `stream_compact_locked`: memory is written to a new file, which is synced before it is put in the
place of the log. -/
def compact (s : SyncState) : SyncState :=
  { s with
    store := { s.store with log := compactRecords s.store.topics }
    file := s.file + 1
    begun := compactRecords s.store.topics
    base := s.walSeq
    safe := s.walSeq
    syncedSeq := s.walSeq }

def fail (s : SyncState) : SyncState := { s with store := { s.store with failed := true } }

/-! ## Steps -/

/-- What the call does behind its compaction check. A store that failed while the thread waited to
compact is not looked at again. -/
def work (s : SyncState) (c : Call) : StreamStore × Int :=
  let result := c.run { s.store with failed := false }
  ({ result.1 with failed := s.store.failed || result.1.failed }, result.2)

def body (s : SyncState) (i : Nat) (c : Call) : SyncState :=
  let s' := s.logged (s.work c).1
  if (s.work c).2 ≠ 0 then s'.goto i .idle
  else if s'.walSeq = s.walSeq then (s'.ack (.silent c (c.restsOn s.history))).goto i .idle
  else s'.goto i (.waiting c s.walSeq s'.walSeq)

def perform (s : SyncState) (i : Nat) (c : Call) : Compaction → SyncState
  | .notDue => s.body i c
  | .done => s.compact.body i c
  | .failed => s.fail.goto i .idle

/-- A round of `stream_wait_durable_locked`. -/
def await (s : SyncState) (i : Nat) (c : Call) (first target : Nat) : SyncState :=
  if s.store.failed then s.goto i .idle
  else if target ≤ s.syncedSeq then (s.ack (.logged c first target)).goto i .idle
  else if s.syncer then s
  else { s with syncer := true, syncTarget := s.walSeq }.goto i (.leading c first target)

/-- The leader has the lock again. -/
def publish (s : SyncState) (i : Nat) (c : Call) (first target : Nat) (ok : Bool) : SyncState :=
  if ok then
    { s with syncer := false, syncedSeq := max s.syncedSeq s.syncTarget }.goto i
      (.waiting c first target)
  else { s.fail with syncer := false }.goto i .idle

end SyncState

/-- `enter` is a call by a thread outside the store, `wake` the next step of a thread, `fsync` the end
of the sync a thread is in, `aside` a call that neither compacts nor waits, and `disk` says how many
more writes succeed. -/
inductive SyncEvent where
  | enter (i : Nat) (c : Call) (compaction : Compaction)
  | wake (i : Nat)
  | fsync (i : Nat) (ok : Bool)
  | aside (c : Call)
  | disk (writes : Option Nat)
  deriving DecidableEq, Repr

namespace SyncState

def step (s : SyncState) : SyncEvent → SyncState
  | .enter i c compaction =>
    if s.threads i ≠ .idle ∨ c.compaction ≠ .notDue ∨ c.waits = false ∨ s.store.failed then s
    else if compaction ≠ .notDue ∧ s.syncer then s.goto i (.compacting c compaction)
    else s.perform i c compaction
  | .wake i =>
    match s.threads i with
    | .compacting c compaction =>
      if s.syncer ∧ s.store.failed = false then s else s.perform i c compaction
    | .waiting c first target => s.await i c first target
    | .leading c first target => s.goto i (.syncing c first target s.file s.walSeq)
    | .synced c first target ok => s.publish i c first target ok
    | .idle | .syncing .. => s
  | .fsync i ok =>
    match s.threads i with
    | .syncing c first target file mark =>
      -- the sync of a file that was replaced covers nothing
      { s with safe := if ok ∧ file = s.file then max s.safe mark else s.safe }.goto i
        (.synced c first target ok)
    | _ => s
  | .aside c => if c.waits ∨ c.isDelete then s else s.logged (c.run s.store).1
  | .disk writes => { s with store := { s.store with writes := writes } }

def run (s : SyncState) (events : List SyncEvent) : SyncState := events.foldl step s

/-- A silent call that finds no compaction due repeats a record that is synced. -/
def settles (s : SyncState) : SyncEvent → Bool
  | .enter _ c .notDue =>
    s.store.failed || !c.silent s.store.topics || decide (c.restsOn s.history ≤ s.syncedSeq)
  | _ => true

def settled (s : SyncState) : List SyncEvent → Bool
  | [] => true
  | e :: rest => s.settles e && (s.step e).settled rest

end SyncState

/-! ## Invariant -/

/-- What an acknowledged call rests on is durable; of silent calls this is asked in an `exact` run. -/
def Ack.Covered (exact : Prop) (safe : Nat) : Ack → Prop
  | .logged _ first target => first < target ∧ target ≤ safe
  | .silent _ target => exact → target ≤ safe

theorem Ack.Covered.mono {exact : Prop} {safe safe' : Nat} (more : safe ≤ safe') {a : Ack}
    (covered : a.Covered exact safe) : a.Covered exact safe' := by
  cases a with
  | logged c first target => exact ⟨covered.1, covered.2.trans more⟩
  | silent c target => exact fun given => (covered given).trans more

/-- The thread leads a sync. -/
def Phase.syncs : Phase → Bool
  | .leading .. | .syncing .. | .synced .. => true
  | .idle | .compacting .. | .waiting .. => false

namespace SyncState

/-- What a thread's phase says of the store. -/
def Sees (s : SyncState) : Phase → Prop
  | .idle => True
  | .compacting c compaction => c.waits = true ∧ c.compaction = .notDue ∧ compaction ≠ .notDue
  | .waiting _ first target | .leading _ first target => first < target ∧ target ≤ s.walSeq
  | .syncing _ first target file mark => (first < target ∧ target ≤ s.walSeq) ∧
      s.syncTarget ≤ mark ∧ mark ≤ s.walSeq ∧ (file = s.file ∨ s.syncTarget ≤ s.base)
  | .synced _ first target ok => (first < target ∧ target ≤ s.walSeq) ∧
      (ok = true → s.syncTarget ≤ s.safe)

/-- The store and its counters, the threads apart. -/
structure Sound (exact : Prop) (s : SyncState) : Prop where
  log : s.store.log = s.begun ++ s.history.drop s.base
  base : s.base ≤ s.safe
  safe : s.safe ≤ s.walSeq
  synced : s.syncedSeq ≤ s.safe
  target : s.syncTarget ≤ s.walSeq
  acked : ∀ a ∈ s.acked, a.Covered exact s.safe

structure Covered (exact : Prop) (s : SyncState) : Prop where
  sound : s.Sound exact
  sees : ∀ i, s.Sees (s.threads i)
  leads : ∀ i, (s.threads i).syncs = true → s.syncer = true
  single : ∀ i j, (s.threads i).syncs = true → (s.threads j).syncs = true → i = j

/-- The store moved on: nothing durable was lost, and a file that was replaced has its records in the
new one. -/
structure Onward (s s' : SyncState) : Prop where
  walSeq : s.walSeq ≤ s'.walSeq
  base : s.base ≤ s'.base
  safe : s.safe ≤ s'.safe
  target : s'.syncTarget = s.syncTarget
  file : s'.file = s.file ∨ s.syncTarget ≤ s'.base

variable {exact : Prop} {s s' : SyncState} {c : Call}

theorem Sees.onward (onward : Onward s s') {phase : Phase} (sees : s.Sees phase) : s'.Sees phase := by
  have grown := onward.walSeq
  have based := onward.base
  have safe := onward.safe
  cases phase with
  | idle => trivial
  | compacting => exact sees
  | waiting | leading =>
    simp only [Sees] at sees ⊢
    omega
  | syncing c first target file mark =>
    simp only [Sees, onward.target] at sees ⊢
    rcases onward.file with same | replaced
    · rw [same]
      omega
    · exact ⟨by omega, by omega, by omega, .inr replaced⟩
  | synced c first target ok =>
    simp only [Sees, onward.target] at sees ⊢
    exact ⟨by omega, fun done => Nat.le_trans (sees.2 done) safe⟩

/-- A thread that does not lead looks at no target. -/
theorem Sees.quiet {phase : Phase} (quiet : phase.syncs = false) (grown : s.walSeq ≤ s'.walSeq)
    (sees : s.Sees phase) : s'.Sees phase := by
  cases phase with
  | idle => trivial
  | compacting => exact sees
  | waiting => exact ⟨sees.1, sees.2.trans grown⟩
  | leading | syncing | synced => cases quiet

/-- Steps that leave the threads and the leader alone. -/
theorem Covered.onward (covered : s.Covered exact) (sound : s'.Sound exact) (onward : Onward s s')
    (threads : s'.threads = s.threads) (syncer : s'.syncer = s.syncer) : s'.Covered exact where
  sound := sound
  sees i := threads ▸ (covered.sees i).onward onward
  leads i := by rw [threads, syncer]; exact covered.leads i
  single i j := by rw [threads]; exact covered.single i j

/-- A thread that does not lead, or goes on leading. -/
theorem Covered.goto (covered : s.Covered exact) {i : Nat} {phase : Phase} (sees : s.Sees phase)
    (syncs : phase.syncs = true → (s.threads i).syncs = true) : (s.goto i phase).Covered exact := by
  have was : ∀ j, ((s.goto i phase).threads j).syncs = true → (s.threads j).syncs = true :=
    (Function.forall_update_iff s.threads fun j now => now.syncs = true → (s.threads j).syncs = true).mpr
      ⟨syncs, fun _ _ => id⟩
  obtain ⟨log, base, bound, synced, target, acked⟩ := covered.sound
  have still : Onward s (s.goto i phase) :=
    ⟨Nat.le_refl _, Nat.le_refl _, Nat.le_refl _, rfl, .inl rfl⟩
  refine ⟨⟨log, base, bound, synced, target, acked⟩, ?_, fun j now => covered.leads j (was j now),
    fun j k now also => covered.single j k (was j now) (was k also)⟩
  exact (Function.forall_update_iff s.threads fun _ now => (s.goto i phase).Sees now).mpr
    ⟨sees.onward still, fun j _ => (covered.sees j).onward still⟩

theorem Covered.ack (covered : s.Covered exact) {a : Ack} (safe : a.Covered exact s.safe) :
    (s.ack a).Covered exact := by
  obtain ⟨log, base, bound, synced, target, acked⟩ := covered.sound
  refine covered.onward ⟨log, base, bound, synced, target, ?_⟩
    ⟨Nat.le_refl _, Nat.le_refl _, Nat.le_refl _, rfl, .inl rfl⟩ rfl rfl
  intro b mem
  rcases List.mem_cons.mp mem with rfl | before
  · exact safe
  · exact acked b before

theorem Covered.sameLog (covered : s.Covered exact) {store : StreamStore}
    (same : store.log = s.store.log) : ({ s with store := store } : SyncState).Covered exact := by
  obtain ⟨log, base, bound, synced, target, acked⟩ := covered.sound
  exact covered.onward ⟨same.trans log, base, bound, synced, target, acked⟩
    ⟨Nat.le_refl _, Nat.le_refl _, Nat.le_refl _, rfl, .inl rfl⟩ rfl rfl

theorem Covered.fail (covered : s.Covered exact) : s.fail.Covered exact := covered.sameLog rfl

theorem walSeq_logged (s : SyncState) (store : StreamStore) :
    (s.logged store).walSeq = s.walSeq + (store.log.length - s.store.log.length) := by
  simp [logged, walSeq]

theorem Covered.logged (covered : s.Covered exact) {store : StreamStore} (more : s.store.log <+: store.log) :
    (s.logged store).Covered exact := by
  obtain ⟨log, base, bound, synced, target, acked⟩ := covered.sound
  have grown : s.walSeq ≤ (s.logged store).walSeq := by
    rw [walSeq_logged]
    exact Nat.le_add_right ..
  refine covered.onward ⟨?_, base, bound.trans grown, synced, target.trans grown, acked⟩
    ⟨grown, Nat.le_refl _, Nat.le_refl _, rfl, .inl rfl⟩ rfl rfl
  obtain ⟨added, eq⟩ := more
  show store.log = s.begun ++ (s.history ++ store.log.drop s.store.log.length).drop s.base
  rw [← eq, List.drop_left, List.drop_append_of_le_length (base.trans bound), log,
    List.append_assoc]

theorem Covered.compact (covered : s.Covered exact) : s.compact.Covered exact := by
  obtain ⟨_, base, bound, _, target, acked⟩ := covered.sound
  refine covered.onward ⟨?_, Nat.le_refl _, Nat.le_refl _, Nat.le_refl _, target,
    fun a mem => (acked a mem).mono bound⟩
    ⟨Nat.le_refl _, base.trans bound, bound, rfl, .inr target⟩ rfl rfl
  show compactRecords s.store.topics
    = compactRecords s.store.topics ++ s.history.drop s.history.length
  rw [List.drop_length, List.append_nil]

/-! ## Steps keep it -/

/-- The work of a call that waits, from the log's point of view. -/
theorem work_logs (waits : c.waits = true) (free : c.compaction = .notDue) :
    LogsOr (c.silent s.store.topics) s.store.log (s.work c) :=
  logs_run { s.store with failed := false } c waits free

theorem Covered.body (covered : s.Covered exact) {i : Nat} (waits : c.waits = true)
    (free : c.compaction = .notDue)
    (rests : exact → c.silent s.store.topics = true → c.restsOn s.history ≤ s.safe) :
    (s.body i c).Covered exact := by
  have logs := work_logs (s := s) waits free
  have more : s.store.log <+: (s.work c).1.log := by
    rcases logs with grows | ⟨_, same⟩
    · exact grows.1
    · exact same ▸ List.prefix_refl _
  have after := covered.logged more
  unfold SyncState.body
  simp only
  split
  · exact after.goto trivial nofun
  · rename_i accepted
    split
    · rename_i none_
      -- a call that returned 0 without a record is a silent one
      have silent : c.silent s.store.topics = true := by
        rcases logs with grows | ⟨silent, _⟩
        · have longer := grows.2 (not_not.mp accepted)
          rw [walSeq_logged] at none_
          omega
        · exact silent
      exact (after.ack (a := .silent c (c.restsOn s.history)) fun given => rests given silent).goto trivial nofun
    · rename_i some_
      refine after.goto ⟨?_, Nat.le_refl _⟩ nofun
      rw [walSeq_logged] at some_ ⊢
      omega

theorem Covered.perform (covered : s.Covered exact) {i : Nat} {compaction : Compaction}
    (waits : c.waits = true) (free : c.compaction = .notDue)
    (rests : compaction = .notDue → exact → c.silent s.store.topics = true →
      c.restsOn s.history ≤ s.safe) :
    (s.perform i c compaction).Covered exact := by
  cases compaction with
  | notDue => exact covered.body waits free (rests rfl)
  | done =>
    -- the new file has everything
    exact covered.compact.body waits free fun _ _ => c.restsOn_le s.history
  | failed => exact covered.fail.goto trivial nofun

theorem Covered.await (covered : s.Covered exact) {i first target : Nat}
    (here : s.threads i = .waiting c first target) : (s.await i c first target).Covered exact := by
  have sees := covered.sees i
  rw [here] at sees
  unfold SyncState.await
  split
  · exact covered.goto trivial nofun
  · split
    · rename_i reached
      exact (covered.ack (a := .logged c first target)
        ⟨sees.1, reached.trans covered.sound.synced⟩).goto trivial nofun
    · split
      · exact covered
      · rename_i free
        -- nobody leads, so no thread looks at the target that is set here
        have quiet (j : Nat) : (s.threads j).syncs = false := by
          by_contra leads
          exact free (covered.leads j (by simpa using leads))
        obtain ⟨log, base, bound, synced, _, acked⟩ := covered.sound
        have only : ∀ j, (Function.update s.threads i (.leading c first target) j).syncs = true →
            j = i :=
          (Function.forall_update_iff s.threads fun j now => now.syncs = true → j = i).mpr
            ⟨fun _ => rfl, fun j _ leads => absurd leads (by simp [quiet j])⟩
        refine ⟨⟨log, base, bound, synced, Nat.le_refl _, acked⟩, ?_, fun _ _ => rfl,
          fun j k leadsJ leadsK => (only j leadsJ).trans (only k leadsK).symm⟩
        exact (Function.forall_update_iff s.threads fun _ now => Sees _ now).mpr
          ⟨sees, fun j _ => (covered.sees j).quiet (quiet j) (Nat.le_refl s.walSeq)⟩

/-- The leader steps down and was the only one. -/
theorem Covered.stepDown (covered : s.Covered exact) {i : Nat} {phase : Phase}
    (leader : (s.threads i).syncs = true) (sound : s'.Sound exact)
    (threads : s'.threads = Function.update s.threads i phase) (idle : phase.syncs = false)
    (sees : s'.Sees phase) (same : s'.walSeq = s.walSeq) : s'.Covered exact := by
  have quiet (j : Nat) (other : j ≠ i) : (s.threads j).syncs = false := by
    by_contra leads
    exact other (covered.single j i (by simpa using leads) leader)
  have down : ∀ j, (s'.threads j).syncs = false := by
    rw [threads]
    exact (Function.forall_update_iff s.threads fun _ now => now.syncs = false).mpr ⟨idle, quiet⟩
  refine ⟨sound, ?_, fun j leads => absurd leads (Bool.not_eq_true _ ▸ down j),
    fun j _ leads => absurd leads (Bool.not_eq_true _ ▸ down j)⟩
  rw [threads]
  exact (Function.forall_update_iff s.threads fun _ now => s'.Sees now).mpr
    ⟨sees, fun j other => (covered.sees j).quiet (quiet j other) same.ge⟩

theorem Covered.publish (covered : s.Covered exact) {i first target : Nat} {ok : Bool}
    (here : s.threads i = .synced c first target ok) : (s.publish i c first target ok).Covered exact := by
  have sees := covered.sees i
  rw [here] at sees
  have leader : (s.threads i).syncs = true := by rw [here]; rfl
  obtain ⟨log, base, bound, synced, aim, acked⟩ := covered.sound
  unfold SyncState.publish
  split
  · rename_i done
    exact covered.stepDown leader
      ⟨log, base, bound, Nat.max_le.mpr ⟨synced, sees.2 done⟩, aim, acked⟩ rfl rfl sees.1 rfl
  · exact covered.stepDown leader ⟨log, base, bound, synced, aim, acked⟩ rfl rfl trivial rfl

theorem Covered.fsync (covered : s.Covered exact) {i first target file mark : Nat} (ok : Bool)
    (here : s.threads i = .syncing c first target file mark) :
    (s.step (.fsync i ok)).Covered exact := by
  have sees := covered.sees i
  rw [here] at sees
  obtain ⟨waits, aimed, written, current⟩ := sees
  obtain ⟨log, base, bound, synced, aim, acked⟩ := covered.sound
  have leader : (s.threads i).syncs = true := by rw [here]; rfl
  have grown : s.safe ≤ (if ok ∧ file = s.file then max s.safe mark else s.safe) := by
    split
    · exact Nat.le_max_left ..
    · exact Nat.le_refl _
  have within : (if ok ∧ file = s.file then max s.safe mark else s.safe) ≤ s.walSeq := by
    split
    · exact Nat.max_le.mpr ⟨bound, written⟩
    · exact bound
  have moved : ({ s with safe := if ok ∧ file = s.file then max s.safe mark else s.safe } :
      SyncState).Covered exact :=
    covered.onward ⟨log, base.trans grown, within, synced.trans grown, aim,
      fun a mem => (acked a mem).mono grown⟩
      ⟨Nat.le_refl _, Nat.le_refl _, grown, rfl, .inl rfl⟩ rfl rfl
  simp only [SyncState.step, here]
  refine moved.goto ⟨waits, fun done => ?_⟩ (fun _ => leader)
  -- a file that was replaced began with all the sync was to cover
  rcases current with same | replaced
  · simp only [done, same, and_self, if_true]
    exact aimed.trans (Nat.le_max_right ..)
  · exact (replaced.trans base).trans grown

theorem Covered.step (covered : s.Covered exact) (e : SyncEvent)
    (settles : exact → s.settles e = true) :
    (s.step e).Covered exact := by
  cases e with
  | enter i c compaction =>
    simp only [SyncState.step]
    split
    · exact covered
    · rename_i accepted
      simp only [not_or, not_not, Bool.not_eq_false, Bool.not_eq_true] at accepted
      obtain ⟨_, free, waits, healthy⟩ := accepted
      split
      · rename_i due
        exact covered.goto ⟨waits, free, due.1⟩ nofun
      · refine covered.perform waits free fun notDue given silent => ?_
        subst notDue
        have repeated := settles given
        simp only [SyncState.settles, healthy, silent, Bool.not_true, Bool.or_false,
          Bool.false_or, decide_eq_true_eq] at repeated
        exact repeated.trans covered.sound.synced
  | wake i =>
    have sees := covered.sees i
    cases here : s.threads i with
    | idle | syncing => simpa only [SyncState.step, here] using covered
    | compacting c compaction =>
      rw [here] at sees
      simp only [SyncState.step, here]
      split
      · exact covered
      · exact covered.perform sees.1 sees.2.1 fun notDue => absurd notDue sees.2.2
    | waiting c first target => simpa only [SyncState.step, here] using covered.await here
    | leading c first target =>
      rw [here] at sees
      simp only [SyncState.step, here]
      exact covered.goto ⟨sees, covered.sound.target, Nat.le_refl _, .inl rfl⟩
        (fun _ => by rw [here]; rfl)
    | synced c first target ok => simpa only [SyncState.step, here] using covered.publish here
  | fsync i ok =>
    cases here : s.threads i with
    | syncing c first target file mark => exact covered.fsync ok here
    | idle | compacting | waiting | leading | synced =>
      simpa only [SyncState.step, here] using covered
  | aside c =>
    simp only [SyncState.step]
    split
    · exact covered
    · rename_i free
      simp only [not_or, Bool.not_eq_true] at free
      exact covered.logged (extends_run s.store c free.1 free.2)
  | disk writes => exact covered.sameLog rfl

theorem Covered.opened (store : StreamStore) : (SyncState.opened store).Covered exact where
  sound := ⟨by simp [SyncState.opened], Nat.le_refl _, Nat.zero_le _, Nat.le_refl _, Nat.zero_le _,
    nofun⟩
  sees _ := trivial
  leads _ := nofun
  single _ _ := nofun

theorem Covered.run : ∀ (events : List SyncEvent) {s : SyncState}, s.Covered exact →
    (exact → s.settled events = true) → (s.run events).Covered exact
  | [], _, covered, _ => covered
  | e :: rest, s, covered, settled => by
    simp only [SyncState.settled, Bool.and_eq_true] at settled
    exact Covered.run rest (covered.step e fun given => (settled given).1)
      fun given => (settled given).2

/-- The durable part is a part of the log. -/
theorem Sound.durable (sound : s.Sound exact) : s.durable <+: s.store.log := by
  rw [sound.log]
  exact (List.prefix_append_right_inj _).mpr (List.take_prefix ..)

/-! ## What a new file begins with -/

/-- No append of the step is at offset `2 ^ 64 - 1`. -/
def fits (s : SyncState) : SyncEvent → Bool
  | .enter _ c _ | .aside c => c.fits s.store.topics
  | .wake i =>
    match s.threads i with
    | .compacting c _ => c.fits s.store.topics
    | _ => true
  | .fsync .. | .disk _ => true

def fitRun (s : SyncState) : List SyncEvent → Bool
  | [] => true
  | e :: rest => s.fits e && (s.step e).fitRun rest

theorem sound_body (sound : SoundTopics s.store.topics) (i : Nat) (fits : c.fits s.store.topics = true) :
    SoundTopics (s.body i c).store.topics := by
  have worked : SoundTopics (s.work c).1.topics :=
    sound_run (s := { s.store with failed := false }) sound c fits
  unfold SyncState.body
  simp only
  split
  · exact worked
  · split <;> exact worked

theorem sound_perform (sound : SoundTopics s.store.topics) (i : Nat) (compaction : Compaction)
    (fits : c.fits s.store.topics = true) : SoundTopics (s.perform i c compaction).store.topics := by
  cases compaction with
  | notDue => exact sound_body sound i fits
  | done => exact sound_body (s := s.compact) sound i fits
  | failed => exact sound

theorem sound_event (sound : SoundTopics s.store.topics) (e : SyncEvent) (fits : s.fits e = true) :
    SoundTopics (s.step e).store.topics := by
  cases e with
  | enter i c compaction =>
    simp only [SyncState.step]
    split
    · exact sound
    · split
      · exact sound
      · exact sound_perform sound i compaction fits
  | wake i =>
    cases here : s.threads i with
    | compacting c compaction =>
      simp only [SyncState.fits, here] at fits
      simp only [SyncState.step, here]
      split
      · exact sound
      · exact sound_perform sound i compaction fits
    | waiting c first target =>
      simp only [SyncState.step, here, SyncState.await]
      split
      · exact sound
      · split
        · exact sound
        · split <;> exact sound
    | synced c first target ok =>
      simp only [SyncState.step, here, SyncState.publish]
      split <;> exact sound
    | idle | leading | syncing =>
      simp only [SyncState.step, here]
      exact sound
  | fsync i ok =>
    cases here : s.threads i <;>
    · simp only [SyncState.step, here]
      exact sound
  | aside c =>
    simp only [SyncState.step]
    split
    · exact sound
    · exact sound_run sound c fits
  | disk writes => exact sound

theorem sound_events : ∀ (events : List SyncEvent) {s : SyncState}, SoundTopics s.store.topics →
    s.fitRun events = true → SoundTopics (s.run events).store.topics
  | [], _, sound, _ => sound
  | e :: rest, _, sound, fits => by
    obtain ⟨here, later⟩ := Bool.and_eq_true_iff.mp fits
    exact sound_events rest (sound_event sound e here) later

/-- The records `base` counts are those memory has the effect of, and the new file rebuilds memory:
this is what counting them as durable rests on. -/
theorem compact_rebuilds (store : StreamStore) (sound : SoundTopics store.topics)
    (events : List SyncEvent) (fits : (opened store).fitRun events = true) (fresh : Bytes → StreamId)
    (counted : ∀ t ∈ ((opened store).run events).store.topics, t.revision ≠ 0) :
    let s := (opened store).run events
    s.compact.base = s.walSeq ∧
      Replays fresh [] s.compact.durable (s.compact.store.topics.map StreamTopic.rebuilt).reverse := by
  intro s
  refine ⟨rfl, ?_⟩
  have all : s.compact.durable = compactRecords s.store.topics := by
    show compactRecords s.store.topics ++ (s.history.drop s.walSeq).take (s.walSeq - s.walSeq) = _
    rw [Nat.sub_self, List.take_zero, List.append_nil]
  have rebuilt := replays_compacted fresh s.store.topics [] (sound_events events sound fits) counted
    (fun _ _ _ no => absurd no List.not_mem_nil)
  rw [all, ← List.append_nil (List.reverse _)]
  exact rebuilt

end SyncState

/-! ## Runs -/

/-- In every interleaving a call that logged returns 0 only when its records are durable, and
`synced_seq` counts durable records only. Silent calls rest on durable records as well if each of them
that finds no compaction due repeats a record that is synced. -/
theorem acks_are_durable (store : StreamStore) (events : List SyncEvent) :
    let s := (SyncState.opened store).run events
    (∀ c first target, .logged c first target ∈ s.acked → first < target ∧ target ≤ s.safe) ∧
    ((SyncState.opened store).settled events = true →
      ∀ c target, .silent c target ∈ s.acked → target ≤ s.safe) ∧
    s.syncedSeq ≤ s.safe ∧ s.safe ≤ s.walSeq ∧ s.base ≤ s.safe ∧ s.durable <+: s.store.log := by
  intro s
  have covered : s.Covered ((SyncState.opened store).settled events = true) :=
    SyncState.Covered.run events (SyncState.Covered.opened store) id
  have sound := covered.sound
  refine ⟨fun c first target mem => sound.acked _ mem, fun settled c target mem => ?_, sound.synced,
    sound.safe, sound.base, sound.durable⟩
  exact sound.acked _ mem settled

/-- A thread syncs what it waits for. -/
def syncRound (i : Nat) : List SyncEvent := [.wake i, .wake i, .fsync i true, .wake i, .wake i]

def declareJobs : Call := .declare .notDue 7 [106] 1 0 0
def appendJob : Call := .append .notDue 5 5 [106] 0 ⟨[], [1]⟩
def commitJob : Call := .commit .notDue [106] [103] 0 1

/-- A thread declares a topic, appends and commits; then another declares and commits the same. -/
def repeatsAfter : List SyncEvent :=
  [.enter 0 declareJobs .notDue] ++ syncRound 0 ++ [.enter 0 appendJob .notDue] ++ syncRound 0
    ++ [.enter 0 commitJob .notDue] ++ syncRound 0
    ++ [.enter 1 declareJobs .notDue, .enter 1 commitJob .notDue]

theorem repeatsAfter_durable :
    (SyncState.opened .fresh).settled repeatsAfter = true ∧
    .silent commitJob 4 ∈ ((SyncState.opened .fresh).run repeatsAfter).acked ∧
    4 ≤ ((SyncState.opened .fresh).run repeatsAfter).safe := by
  have settled : (SyncState.opened .fresh).settled repeatsAfter = true := by decide +kernel
  have acked : .silent commitJob 4 ∈ ((SyncState.opened .fresh).run repeatsAfter).acked := by
    decide +kernel
  exact ⟨settled, acked, (acks_are_durable .fresh repeatsAfter).2.1 settled commitJob 4 acked⟩

/-- The other thread repeats the declaration, or the commit, before the first has synced its own. -/
def declaresTwice : List SyncEvent :=
  [.enter 0 declareJobs .notDue, .enter 1 declareJobs .notDue]

def commitsTwice : List SyncEvent :=
  [.enter 0 declareJobs .notDue] ++ syncRound 0 ++ [.enter 0 appendJob .notDue] ++ syncRound 0
    ++ [.enter 0 commitJob .notDue, .enter 1 commitJob .notDue]

/-- The second call has returned 0. Nothing of the topic is durable; nor is the commit record. -/
theorem repeats_not_durable :
    (.silent declareJobs 2 ∈ ((SyncState.opened .fresh).run declaresTwice).acked ∧
      ((SyncState.opened .fresh).run declaresTwice).safe = 0 ∧
      ((SyncState.opened .fresh).run declaresTwice).durable = []) ∧
    (.silent commitJob 4 ∈ ((SyncState.opened .fresh).run commitsTwice).acked ∧
      ((SyncState.opened .fresh).run commitsTwice).safe = 3 ∧
      .commit [106] [103] 0 1 ∉ ((SyncState.opened .fresh).run commitsTwice).durable) := by
  decide +kernel

end KuttiDB.Stream
