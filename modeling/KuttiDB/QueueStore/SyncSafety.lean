/- # KuttiDB.QueueStore.SyncSafety -- the programs of the log keep to its discipline

What a thread knows, at the points where it can be interrupted:

* with a lock of the queue store or the state lock held, no snapshot is taken, so the file stays and
  its log only grows;
* with the log lock held outside of the swap, the log and the counters stay as they are;
* between its append and its report an addition is counted in the file it was written to, or kept;
* a leader has the flag, so nobody begins a swap before its round is over.
-/
import KuttiDB.QueueStore.SyncSteps
import Mathlib.Order.BooleanAlgebra.Set

namespace KuttiDB.QueueStore.GroupSync

open KuttiDB.Theory
open KuttiDB.Theory.Discipline

set_option autoImplicit false

/-- State mutations append only while no snapshot is taken. If the counters are to be trusted, too,
no durability wait takes the log lock in a swap, and no swap begins with a group sync under way. -/
def CheckpointApart (grouped : Prop) : WalSite → WalLock → Wal → Prop
  | .stateAppend, _, s => s.cut = none
  | .enter, _, s => grouped → s.swapping = false
  | .wait, _, s => grouped → s.swapping = false
  | .swap, _, s => grouped → s.syncer = false
  | _, _, _ => True

variable {queues : List Nat} {grouped : Prop} {held : Set WalLock} {s s' : Wal}

/-- The thread can run this program from here. -/
abbrev Can (queues : List Nat) (grouped : Prop) (p : WalThread) (held : Set WalLock) (s : Wal) :
    Prop :=
  (syncDiscipline queues grouped).Secure (CheckpointApart grouped) p held s

abbrev Stays (queues : List Nat) (grouped : Prop) (held : Set WalLock) (P : Wal → Prop) : Prop :=
  (syncDiscipline queues grouped).Stable held P

/-! ## What stays -/

/-- A thread that a checkpoint has to wait for before it takes its snapshot. -/
def Guarded (queues : List Nat) (held : Set WalLock) : Prop :=
  .state ∈ held ∨ ∃ l ∈ storeLocks queues, l ∈ held

theorem Guarded.mono {more : Set WalLock} (guarded : Guarded queues held) (sub : held ⊆ more) :
    Guarded queues more :=
  guarded.imp (fun mem => sub mem) (fun ⟨l, guard, mem⟩ => ⟨l, guard, sub mem⟩)

theorem stays_cut (guarded : Guarded queues held) :
    Stays queues grouped held (fun s => s.cut = none) := by
  intro others s s' apart sound cut may
  rcases may.2.cut cut with none | ⟨state, all⟩
  · exact none
  · rcases guarded with mine | ⟨l, guard, mine⟩
    · exact absurd state (apart _ mine)
    · exact absurd (all l guard) (apart l mine)

/-- Under a guard the file stays and its log grows. -/
theorem stays_onward (guarded : Guarded queues held) {P : Wal → Prop}
    (onward : ∀ s s', P s → Onward s s' → (∀ op, Listed op s → Listed op s') → P s') :
    Stays queues grouped held (fun s => s.cut = none ∧ P s) := by
  intro others s s' apart sound know may
  have cut := stays_cut guarded others s s' apart sound know.1 may
  exact ⟨cut, onward s s' know.2
    (may.2.onward (sound.closed know.1) ((may.1 sound).closed cut)) may.2.listed⟩

/-- What the others leave alone while a thread has the log lock. -/
structure Still (s s' : Wal) : Prop extends SameLog s s' where
  walSeq : s'.walSeq = s.walSeq
  syncedSeq : s'.syncedSeq = s.syncedSeq
  safe : s.file.safe ≤ s'.file.safe

theorem Still.log (still : Still s s') : s'.log = s.log := by
  rw [Wal.log, Wal.log, still.records, still.staged]

theorem closed_of_wal {others : Set WalLock} (out : .wal ∉ others) (closed : s.swapping = false)
    (rely : Rely queues grouped others s s') : s'.swapping = false := by
  cases phase : s'.swapping with
  | false => rfl
  | true => exact absurd (rely.opens closed phase).1 out

theorem still_of_wal {others : Set WalLock} (out : .wal ∉ others) (closed : s.swapping = false)
    (rely : Rely queues grouped others s s') : Still s s' := by
  obtain ⟨same, walSeq, syncedSeq⟩ := rely.quiet out closed
  exact ⟨same, walSeq, syncedSeq, (rely.onward closed (closed_of_wal out closed rely)).safe⟩

/-- Under a guard and the log lock nothing of the log moves. -/
theorem stays_locked (wal : .wal ∈ held) (guarded : Guarded queues held) {P E : Wal → Prop}
    (stable : Stays queues grouped held P) (still : ∀ s s', E s → Still s s' → E s') :
    Stays queues grouped held (fun s => P s ∧ s.cut = none ∧ E s) := by
  intro others s s' apart sound know may
  obtain ⟨known, cut, extra⟩ := know
  exact ⟨stable others s s' apart sound known may, stays_cut guarded others s s' apart sound cut may,
    still s s' extra (still_of_wal (apart _ wal) (sound.closed cut) may.2)⟩

/-- A sync that began on the file `gen` with `count` records. -/
def SyncBegun (gen count : Nat) (s : Wal) : Prop :=
  gen ≤ s.gen ∧ (s.gen = gen → count ≤ s.file.records.length)

theorem stays_syncBegun (gen count : Nat) :
    Stays queues grouped held (SyncBegun gen count) := by
  intro others s s' apart sound know may
  refine ⟨know.1.trans may.2.gen, fun same => ?_⟩
  have before : s.gen = gen := le_antisymm (may.2.gen.trans same.le) know.1
  exact (know.2 before).trans (may.2.grows (same.trans before.symm)).length_le

/-! ## Where an operation stands -/

theorem Onward.logged {op : Nat} (onward : Onward s s') (logged : Logged op s) : Logged op s' := by
  obtain ⟨m, mem, found⟩ := logged
  exact ⟨m, onward.marks.subset mem, (List.IsPrefix.take onward.log m).subset found⟩

theorem Onward.marked {op target : Nat} (onward : Onward s s') (marked : Marked op target s) :
    Marked op target s' := by
  obtain ⟨m, mem, found⟩ := marked
  refine ⟨m, ?_, (List.IsPrefix.take onward.log m).subset found⟩
  rw [onward.folded]
  exact (List.IsPrefix.take onward.marks _).subset mem

theorem Onward.covered {target : Nat} (onward : Onward s s') (covered : Covered target s) :
    Covered target s' := by
  obtain ⟨le, safe⟩ := covered
  have longer := onward.marks.length_le
  refine ⟨by rw [onward.folded]; omega, fun m mem => ?_⟩
  obtain ⟨rest, eq⟩ := onward.marks
  rw [← eq, onward.folded, List.take_append_of_le_length (by omega)] at mem
  exact (safe m mem).trans onward.safe

/-- Written to the file `gen` behind the number `start`, or kept. -/
def Entered (gen start op : Nat) (s : Wal) : Prop :=
  Kept op s ∨ Listed op s ∧ s.gen = gen ∧ start < s.walSeq ∧ Logged op s

/-- Counted by `target` in the file `gen`, or kept. -/
def Awaited (gen target op : Nat) (s : Wal) : Prop :=
  Kept op s ∨ Listed op s ∧ s.gen = gen ∧ Marked op target s

theorem stays_entered (gen start op : Nat) :
    Stays queues grouped held (Entered gen start op) := by
  intro others s s' apart sound know may
  rcases know with kept | ⟨listed, same, seq, logged⟩
  · exact .inl (may.2.kept op kept)
  · rcases may.2.replaced with onward | all
    · exact .inr ⟨may.2.listed op listed, onward.gen.trans same, seq.trans_le onward.seq,
        onward.logged logged⟩
    · exact .inl (all op listed)

theorem stays_awaited (gen target op : Nat) :
    Stays queues grouped held (Awaited gen target op) := by
  intro others s s' apart sound know may
  rcases know with kept | ⟨listed, same, marked⟩
  · exact .inl (may.2.kept op kept)
  · rcases may.2.replaced with onward | all
    · exact .inr ⟨may.2.listed op listed, onward.gen.trans same, onward.marked marked⟩
    · exact .inl (all op listed)

theorem stays_kept (op : Nat) : Stays queues grouped held (Kept op) :=
  fun _ _ _ _ _ kept may => may.2.kept op kept

/-- The counter counts every mark, so it counts whatever is logged. -/
theorem Entered.awaited {gen start op : Nat} (sound : Sound grouped s) (trusted : grouped)
    (closed : s.swapping = false) (entered : Entered gen start op s) :
    Awaited gen s.walSeq op s := by
  rcases entered with kept | ⟨listed, same, -, m, mem, found⟩
  · exact .inl kept
  · refine .inr ⟨listed, same, m, ?_, found⟩
    rw [sound.counted trusted closed, Nat.add_sub_cancel_left, List.take_length]
    exact mem

theorem Awaited.kept {gen target op : Nat} (sound : Sound grouped s) (covered : Covered target s)
    (awaited : Awaited gen target op s) : Kept op s := by
  rcases awaited with kept | ⟨listed, -, marked⟩
  · exact kept
  · exact kept_of_durable sound listed (marked.mem_durable sound covered)

/-! ## Syncs and appends -/

/-- `P` is what the thread knows before, `Q` what it knows of the file while the sync runs. -/
theorem can_sync {ok : Bool} {covered refused : WalThread} {P : Wal → Prop}
    {Q : Nat → Nat → Wal → Prop} (stable : Stays queues grouped held P)
    (during : ∀ gen count, Stays queues grouped held (Q gen count))
    (begins : ∀ s, Sound grouped s → P s → Q s.gen s.file.records.length s)
    (ends : ∀ gen count s, Sound grouped s → Q gen count s → SyncBegun gen count s →
      Can queues grouped covered held (s.synced gen count))
    (fails : ∀ s, Sound grouped s → P s → Can queues grouped refused held s) (now : P s) :
    Can queues grouped (syncThread ok covered refused) held s := by
  refine .read P stable now (fun s sound known => ?_)
  split
  · refine .write (fun s' => Q s.gen s.file.records.length s' ∧
      SyncBegun s.gen s.file.records.length s')
      ((during _ _).and (stays_syncBegun _ _)) ⟨begins s sound known, le_rfl, fun _ => le_rfl⟩ ?_
    intro s' sound' know
    exact ⟨may_synced know.2.2, ends _ _ s' sound' know.1 know.2⟩
  · exact fails s sound known

theorem can_refuse {refused : WalThread} {P : Wal → Prop} (out : .wal ∉ held)
    (stable : Stays queues grouped (insert .wal held) P)
    (latched : ∀ s, P s → P s.fail)
    (refuses : ∀ s, Sound grouped s → P s → Can queues grouped refused held s) (now : P s) :
    Can queues grouped (refuseThread refused) (insert .wal held) s := by
  refine .write P stable now (fun s sound known => ⟨may_fail, ?_⟩)
  refine .unlock P stable (latched s known) (Set.mem_insert _ _) (fun s sound known => ⟨trivial, ?_⟩)
  rw [Set.insert_sdiff_self_of_notMem out]
  exact refuses s sound known

section Append

variable {site : WalSite} {mode : AppendMode} {op start : Nat} {io : Io}
  {written refused : WalThread} {P : Wal → Prop}

/-- The record is in the log and its number is still to come. -/
def Uncounted (op : Nat) (s : Wal) : Prop := s.marks.length < s.log.length ∧ op ∈ s.log

theorem Uncounted.still (known : Uncounted op s) (still : Still s s') : Uncounted op s' := by
  unfold Uncounted
  rw [still.log, still.marks]
  exact known

theorem uncounted_stage (sound : Sound grouped s) (closed : s.swapping = false) :
    Uncounted op (s.stage op) := by
  have := sound.marks_le closed
  refine ⟨?_, ?_⟩
  · rw [log_stage, List.length_append]
    exact Nat.lt_succ_of_le this
  · rw [log_stage]
    exact List.mem_append.2 (.inr List.mem_cons_self)

theorem uncounted_flush (known : Uncounted op s) : Uncounted op s.flush := by
  unfold Uncounted
  rw [log_flush]
  exact known

theorem logged_bump (known : Uncounted op s) : Logged op s.bump := by
  refine ⟨s.log.length, List.mem_append.2 (.inr List.mem_cons_self), ?_⟩
  show op ∈ s.log.take s.log.length
  rw [List.take_length]
  exact known.2

/-- What a thread knows across its own append: nothing of it is lost as the log grows. -/
structure Carried (queues : List Nat) (grouped : Prop) (held : Set WalLock) (start : Nat)
    (P : Wal → Prop) : Prop where
  stays : Stays queues grouped held P
  onward : ∀ s s', P s → Onward s s' → s'.applied = s.applied → s'.cut = s.cut → P s'
  seen : ∀ s, P s → start ≤ s.walSeq

/-- The last part of an append: count the record, publish if it was synced, let the lock go. -/
theorem can_count (out : .wal ∉ held) (guarded : Guarded queues held)
    (carried : Carried queues grouped held start P)
    (goesOn : ∀ s, Sound grouped s → P s → s.cut = none → start < s.walSeq → Logged op s →
      Can queues grouped written held s)
    (known : P s ∧ s.cut = none ∧ Uncounted op s) :
    Can queues grouped (.write Wal.bump (.unlock .wal written)) (insert .wal held) s := by
  have wal := Set.mem_insert WalLock.wal held
  have guarded' := guarded.mono (Set.subset_insert WalLock.wal held)
  have stays := carried.stays.mono (Set.subset_insert WalLock.wal held)
  refine .write _ (stays_locked wal guarded' stays (fun _ _ known still => Uncounted.still known still))
    known (fun s sound known => ⟨may_bump wal (sound.closed known.2.1) known.2.2.1, ?_⟩)
  have after : start < s.bump.walSeq ∧ Logged op s.bump :=
    ⟨Nat.lt_succ_of_le (carried.seen s known.1), logged_bump known.2.2⟩
  refine .unlock (fun s => P s ∧ s.cut = none ∧ start < s.walSeq ∧ Logged op s)
    (stays_locked wal guarded' stays ?_)
    ⟨carried.onward s _ known.1 (onward_bump s) rfl rfl, known.2.1, after⟩ wal ?_
  · rintro s s' ⟨seq, logged⟩ still
    refine ⟨still.walSeq ▸ seq, ?_⟩
    unfold Logged
    rw [still.log, still.marks]
    exact logged
  · intro s sound known
    refine ⟨trivial, ?_⟩
    rw [Set.insert_sdiff_self_of_notMem out]
    exact goesOn s sound known.1 known.2.1 known.2.2.1 known.2.2.2

/-- Written and synced, with the log lock still held. -/
def Flushed (s : Wal) : Prop := s.staged = [] ∧ s.file.records.length ≤ s.file.safe

theorem Flushed.still (known : Flushed s) (still : Still s s') : Flushed s' := by
  refine ⟨still.staged.trans known.1, ?_⟩
  rw [still.records]
  exact known.2.trans still.safe

theorem Flushed.mem_durable (known : Flushed s) (mem : op ∈ s.log) : op ∈ s.file.durable := by
  simp only [Wal.log, known.1, List.append_nil] at mem
  refine List.mem_append.2 (.inr ?_)
  rwa [List.take_of_length_le known.2]

theorem flushed_synced (staged : s.staged = []) :
    Flushed (s.synced s.gen s.file.records.length) := by
  simp only [Wal.synced, if_true]
  exact ⟨staged, le_max_right _ _⟩

/-- The same with the sync done: the record is durable when the lock goes. -/
theorem can_countSynced (out : .wal ∉ held) (guarded : Guarded queues held)
    (carried : Carried queues grouped held start P)
    (goesOn : ∀ s, Sound grouped s → P s → s.cut = none → op ∈ s.file.durable →
      Can queues grouped written held s)
    (known : P s ∧ s.cut = none ∧ Uncounted op s ∧ Flushed s) :
    Can queues grouped (.write Wal.bump (.write Wal.publishAll (.unlock .wal written)))
      (insert .wal held) s := by
  have wal := Set.mem_insert WalLock.wal held
  have guarded' := guarded.mono (Set.subset_insert WalLock.wal held)
  have stays := carried.stays.mono (Set.subset_insert WalLock.wal held)
  refine .write _ (stays_locked wal guarded' stays
    (fun _ _ known still => And.intro (Uncounted.still known.1 still) (Flushed.still known.2 still)))
    known (fun s sound known => ⟨may_bump wal (sound.closed known.2.1) known.2.2.1.1, ?_⟩)
  refine .write (fun s => P s ∧ s.cut = none ∧ Flushed s ∧ op ∈ s.log)
    (stays_locked wal guarded' stays
      (fun _ _ known still => ⟨Flushed.still known.1 still, still.log ▸ known.2⟩))
    ⟨carried.onward s _ known.1 (onward_bump s) rfl rfl, known.2.1, known.2.2.2, known.2.2.1.2⟩
    (fun s sound known => ⟨may_publishAll sound wal known.2.2.1.1 known.2.2.1.2, ?_⟩)
  have sameFile : Onward s s.publishAll := (ordinary_storeTarget _ s).toOnward
  refine .unlock (fun s => P s ∧ s.cut = none ∧ Flushed s ∧ op ∈ s.log)
    (stays_locked wal guarded' stays
      (fun _ _ known still => ⟨Flushed.still known.1 still, still.log ▸ known.2⟩))
    ⟨carried.onward s _ known.1 sameFile rfl rfl, known.2.1, known.2.2.1, known.2.2.2⟩ wal
    (fun s sound known => ⟨trivial, ?_⟩)
  rw [Set.insert_sdiff_self_of_notMem out]
  exact goesOn s sound known.1 known.2.1 (known.2.2.1.mem_durable known.2.2.2)

theorem can_append (out : .wal ∉ held) (guarded : Guarded queues held)
    (carried : Carried queues grouped held start P)
    (clear : ∀ s, Sound grouped s → P s → CheckpointApart grouped site .wal s → s.cut = none)
    (goesOn : ∀ s, Sound grouped s → P s → s.cut = none →
      (mode = .synced ∧ op ∈ s.file.durable ∨
        mode ≠ .synced ∧ start < s.walSeq ∧ Logged op s) → Can queues grouped written held s)
    (refuses : ∀ s, Sound grouped s → P s → Can queues grouped refused held s) (now : P s) :
    Can queues grouped (appendThread site mode op io written refused) held s := by
  have wal := Set.mem_insert WalLock.wal held
  have guarded' := guarded.mono (Set.subset_insert WalLock.wal held)
  have stays := carried.stays.mono (Set.subset_insert WalLock.wal held)
  have refuse : ∀ s, Sound grouped s → P s →
      Can queues grouped (refuseThread refused) (insert .wal held) s :=
    fun s _ known => can_refuse out stays
      (fun s known => carried.onward s _ known (onward_fail s) rfl rfl) refuses known
  have inside : Stays queues grouped (insert .wal held)
      (fun s => P s ∧ s.cut = none ∧ Uncounted op s) :=
    stays_locked wal guarded' stays (fun _ _ known still => Uncounted.still known still)
  refine .read P carried.stays now (fun s sound known => ?_)
  split
  · exact refuses s sound known
  refine .lock P carried.stays known out (fun s sound known _ met => ?_)
  have cut := clear s sound known met
  split
  · exact refuse s sound known
  refine .write (fun s => P s ∧ s.cut = none) (stays.and (stays_cut guarded')) ⟨known, cut⟩
    (fun s sound known => ⟨may_stage op wal (sound.closed known.2), ?_⟩)
  have staged : P (s.stage op) ∧ (s.stage op).cut = none ∧ Uncounted op (s.stage op) :=
    ⟨carried.onward s _ known.1 (onward_stage op s) rfl rfl, known.2,
      uncounted_stage sound (sound.closed known.2)⟩
  -- The buffer is written; `next` goes on from there.
  have flushes : ∀ next : WalThread,
      (∀ s, Sound grouped s → P s ∧ s.cut = none ∧ Uncounted op s ∧ s.staged = [] →
        Can queues grouped next (insert .wal held) s) →
      Can queues grouped
        (if !io.writes then refuseThread refused else .write Wal.flush next)
        (insert .wal held) (s.stage op) := by
    intro next go
    split
    · have sound' := (@may_stage queues grouped (insert WalLock.wal held) s op wal
        (sound.closed known.2)).1 sound
      exact refuse _ sound' staged.1
    · refine .write _ inside staged (fun s sound known => ?_)
      have may : May queues grouped (insert .wal held) s s.flush := may_flush sound wal
      exact ⟨may, go _ (may.1 sound) ⟨carried.onward s _ known.1 (onward_flush s) rfl rfl,
        known.2.1, uncounted_flush known.2.2, rfl⟩⟩
  cases mode with
  | deferred =>
      exact can_count out guarded carried
        (fun s sound known cut seq logged =>
          goesOn s sound known cut (.inr ⟨by decide, seq, logged⟩)) staged
  | plain =>
      refine flushes _ (fun s _ known => ?_)
      exact can_count out guarded carried
        (fun s sound known cut seq logged =>
          goesOn s sound known cut (.inr ⟨by decide, seq, logged⟩)) ⟨known.1, known.2.1, known.2.2.1⟩
  | synced =>
      refine flushes _ (fun s sound known => ?_)
      refine can_sync (Q := fun gen count s => P s ∧ s.cut = none ∧
          (Uncounted op s ∧ s.staged = [] ∧ s.gen = gen ∧ s.file.records.length = count))
        (stays_locked wal guarded' stays
          (fun _ _ known still => And.intro (Uncounted.still known.1 still)
            (still.staged.trans known.2)))
        (fun gen count => stays_locked wal guarded' stays (fun _ _ known still =>
          ⟨Uncounted.still known.1 still, still.staged.trans known.2.1,
            still.gen.trans known.2.2.1, still.records ▸ known.2.2.2⟩))
        (fun s _ known => ⟨known.1, known.2.1, known.2.2.1, known.2.2.2, rfl, rfl⟩)
        (fun gen count s sound known _ => ?_)
        (fun s sound known => refuse s sound known.1) known
      obtain ⟨known, cut, uncounted, staged, rfl, rfl⟩ := known
      have same : (s.synced s.gen s.file.records.length).cut = none := by
        simpa [Wal.synced] using cut
      have still : Uncounted op (s.synced s.gen s.file.records.length) := by
        simpa [Wal.synced, Uncounted, Wal.log] using uncounted
      have applied : (s.synced s.gen s.file.records.length).applied = s.applied := by
        simp [Wal.synced]
      exact can_countSynced out guarded carried
        (fun s sound known cut durable => goesOn s sound known cut (.inl ⟨rfl, durable⟩))
        ⟨carried.onward s _ known (onward_synced _ _ s) applied (same.trans cut.symm), same, still,
          flushed_synced staged⟩

end Append

/-! ## Several records -/

/-- The records of a call so far: counted behind `start` in the file `gen`, and in memory if each is
applied right away. -/
structure Progress (applies : Bool) (gen start : Nat) (done : List Nat) (s : Wal) : Prop where
  gen : s.gen = gen
  seen : start ≤ s.walSeq
  logged : ∀ op ∈ done, start < s.walSeq ∧ Logged op s
  listed : applies = true → ∀ op ∈ done, Listed op s

section Several

variable {mode : AppendMode} {applies : Bool} {gen start : Nat} {done ops : List Nat} {io : Io}
  {written refused : WalThread}

theorem Progress.onward (known : Progress applies gen start done s) (onward : Onward s s')
    (listed : ∀ op, Listed op s → Listed op s') : Progress applies gen start done s' where
  gen := onward.gen.trans known.gen
  seen := known.seen.trans onward.seq
  logged := fun op mem =>
    ⟨(known.logged op mem).1.trans_le onward.seq, onward.logged (known.logged op mem).2⟩
  listed := fun each op mem => listed op (known.listed each op mem)

theorem listed_of_same {op : Nat} (applied : s'.applied = s.applied) (cut : s'.cut = s.cut)
    (known : Listed op s) : Listed op s' :=
  ⟨applied ▸ known.1, fun f taken => known.2 f (cut ▸ taken)⟩

theorem carried_progress (guarded : Guarded queues held) :
    Carried queues grouped held start
      (fun s => s.cut = none ∧ Progress applies gen start done s) where
  stays := stays_onward guarded (fun _ _ known onward listed => known.onward onward listed)
  onward := fun _ _ known onward applied cut =>
    ⟨cut.trans known.1, known.2.onward onward (fun _ => listed_of_same applied cut)⟩
  seen := fun _ known => known.2.seen

theorem Progress.add {op : Nat} (known : Progress applies gen start done s)
    (seq : start < s.walSeq) (logged : Logged op s) (listed : applies = true → Listed op s) :
    Progress applies gen start (done ++ [op]) s where
  gen := known.gen
  seen := known.seen
  logged := by
    intro other mem
    rcases List.mem_append.1 mem with old | new
    · exact known.logged other old
    · rw [List.mem_singleton.1 new]
      exact ⟨seq, logged⟩
  listed := by
    intro each other mem
    rcases List.mem_append.1 mem with old | new
    · exact known.listed each other old
    · rw [List.mem_singleton.1 new]
      exact listed each

theorem can_appendEach (out : .wal ∉ held) (guarded : Guarded queues held) (plain : mode ≠ .synced)
    (goesOn : ∀ s, Sound grouped s → s.cut = none → Progress applies gen start (done ++ ops) s →
      Can queues grouped written held s)
    (refuses : ∀ s, Sound grouped s → s.cut = none → Can queues grouped refused held s)
    (sound : Sound grouped s) (cut : s.cut = none) (now : Progress applies gen start done s) :
    Can queues grouped (appendEachThread mode applies io written refused ops) held s := by
  -- Induction on the records still to append, with those done so far in `done`.
  induction ops generalizing done s with
  | nil => exact goesOn s sound cut (by simpa using now)
  | cons op rest ih =>
      have ih' : ∀ s, Sound grouped s → s.cut = none → Progress applies gen start (done ++ [op]) s →
          Can queues grouped (appendEachThread mode applies io written refused rest) held s :=
        fun s sound cut known =>
          ih (fun s sound cut known => goesOn s sound cut (by simpa using known)) sound cut known
      refine can_append out guarded (carried_progress guarded) (fun _ _ known _ => known.1)
        (fun s sound known cut how => ?_) (fun s sound known => refuses s sound known.1) ⟨cut, now⟩
      obtain ⟨-, seq, logged⟩ : mode ≠ .synced ∧ start < s.walSeq ∧ Logged op s :=
        how.resolve_left (fun synced => plain synced.1)
      cases applies with
      | false => exact ih' s sound cut (known.2.add seq logged (by simp))
      | true =>
          refine .write (fun s => s.cut = none ∧
              (Progress true gen start done s ∧ start < s.walSeq ∧ Logged op s))
            (stays_onward guarded (fun _ _ known onward listed =>
              ⟨known.1.onward onward listed, known.2.1.trans_le onward.seq,
                onward.logged known.2.2⟩))
            ⟨cut, known.2, seq, logged⟩ (fun s sound known => ?_)
          obtain ⟨cut, known, seq, logged⟩ := known
          have may : May queues grouped held s (s.apply [op]) := may_apply [op]
          refine ⟨may, ih' _ (may.1 sound) cut (Progress.add ?_ seq logged (fun _ => ?_))⟩
          · exact known.onward (onward_apply [op] s) may.2.listed
          · exact ⟨List.mem_append.2 (.inl List.mem_cons_self), fun f taken =>
              absurd (cut.symm.trans taken) (by simp)⟩

theorem can_stageEach {next : WalThread} (wal : .wal ∈ held) (guarded : Guarded queues held)
    (goesOn : ∀ s, Sound grouped s → s.cut = none → Progress false gen start (done ++ ops) s →
      Can queues grouped next held s)
    (sound : Sound grouped s) (cut : s.cut = none) (now : Progress false gen start done s) :
    Can queues grouped (stageEachThread next ops) held s := by
  induction ops generalizing done s with
  | nil => exact goesOn s sound cut (by simpa using now)
  | cons op rest ih =>
      have carried : Carried queues grouped held start _ :=
        @carried_progress queues grouped held false gen start done guarded
      have ih' : ∀ s, Sound grouped s → s.cut = none → Progress false gen start (done ++ [op]) s →
          Can queues grouped (stageEachThread next rest) held s :=
        fun s sound cut known =>
          ih (fun s sound cut known => goesOn s sound cut (by simpa using known)) sound cut known
      refine .write _ carried.stays ⟨cut, now⟩ (fun s sound known =>
        ⟨may_stage op wal (sound.closed known.1), ?_⟩)
      refine .write _ (stays_locked wal guarded carried.stays
          (fun _ _ known still => Uncounted.still known still))
        ⟨carried.onward s _ known (onward_stage op s) rfl rfl, known.1,
          uncounted_stage sound (sound.closed known.1)⟩ (fun s sound known => ?_)
      have may : May queues grouped held s s.bump :=
        may_bump wal (sound.closed known.2.1) known.2.2.1
      have bumped := carried.onward s _ known.1 (onward_bump s) rfl rfl
      exact ⟨may, ih' _ (may.1 sound) bumped.1
        (bumped.2.add (Nat.lt_succ_of_le known.1.2.seen) (logged_bump known.2.2) (by simp))⟩

theorem can_appendBatch (out : .wal ∉ held) (guarded : Guarded queues held)
    (goesOn : ∀ s, Sound grouped s → s.cut = none → Progress false gen start ops s →
      Can queues grouped written held s)
    (refuses : ∀ s, Sound grouped s → s.cut = none → Can queues grouped refused held s)
    (sound : Sound grouped s) (cut : s.cut = none) (now : Progress false gen start [] s) :
    Can queues grouped (appendBatchThread io ops written refused) held s := by
  have wal := Set.mem_insert WalLock.wal held
  have guarded' := guarded.mono (Set.subset_insert WalLock.wal held)
  have refuse : ∀ s, Sound grouped s → s.cut = none →
      Can queues grouped (refuseThread refused) (insert .wal held) s :=
    fun s _ known => can_refuse out (stays_cut guarded') (fun _ known => known) refuses known
  have carried : ∀ done, Carried queues grouped (insert .wal held) start _ :=
    fun done => @carried_progress queues grouped (insert .wal held) false gen start done guarded'
  unfold appendBatchThread
  split
  · rename_i none
    exact goesOn s sound cut (none ▸ now)
  refine .read _ (carried_progress guarded).stays ⟨cut, now⟩ (fun s sound known => ?_)
  split
  · exact refuses s sound known.1
  refine .lock _ (carried_progress guarded).stays known out (fun s sound known _ _ => ?_)
  split
  · exact refuse s sound known.1
  refine can_stageEach wal guarded' (fun s sound cut known => ?_) sound known.1 known.2
  split
  · exact refuse s sound cut
  refine .write _ (carried ops).stays ⟨cut, known⟩ (fun s sound known =>
    ⟨may_flush sound wal, ?_⟩)
  refine .unlock _ (carried ops).stays ((carried ops).onward s _ known (onward_flush s) rfl rfl) wal
    (fun s sound known => ⟨trivial, ?_⟩)
  rw [Set.insert_sdiff_self_of_notMem out]
  exact goesOn s sound known.1 known.2

end Several

/-! ## Rounds of syncs -/

/-- The records that `target` counts are among the first `count` of the file. -/
def Aimed (target count : Nat) (s : Wal) : Prop :=
  target ≤ s.file.folded + s.marks.length ∧
    ∀ m ∈ s.marks.take (target - s.file.folded), m ≤ count

theorem Onward.aimed {target count : Nat} (onward : Onward s s') (aimed : Aimed target count s) :
    Aimed target count s' := by
  have longer := onward.marks.length_le
  refine ⟨by rw [onward.folded]; exact aimed.1.trans (by omega), fun m mem => ?_⟩
  obtain ⟨rest, eq⟩ := onward.marks
  rw [← eq, onward.folded, List.take_append_of_le_length (by have := aimed.1; omega)] at mem
  exact aimed.2 m mem

theorem Aimed.covered {target count : Nat} (aimed : Aimed target count s)
    (safe : count ≤ s.file.safe) : Covered target s :=
  ⟨aimed.1, fun m mem => (aimed.2 m mem).trans safe⟩

theorem Aimed.of_le {target count : Nat} (sound : Sound grouped s) (trusted : grouped)
    (closed : s.swapping = false) (le : target ≤ s.walSeq) (staged : s.log.length ≤ count) :
    Aimed target count s :=
  ⟨le.trans (sound.counted trusted closed).le,
    fun m mem => (sound.bound closed m (List.mem_of_mem_take mem)).trans staged⟩

theorem safe_synced {gen count : Nat} (same : s.gen = gen) :
    count ≤ (s.synced gen count).file.safe := by
  simp only [Wal.synced, same, if_true]
  exact le_max_right _ _

theorem records_flush (s : Wal) : s.flush.file.records.length = s.log.length :=
  congrArg List.length rfl

/-- The operations are counted by `target`, whose records are among the first `count`. -/
def Reaching (grouped : Prop) (target : Nat) (ops : List Nat) (count : Nat) (s : Wal) : Prop :=
  grouped → Aimed target count s ∧ ∀ op ∈ ops, Marked op target s

/-- The operations are counted by `target`, which is covered. -/
def Reached (grouped : Prop) (target : Nat) (ops : List Nat) (s : Wal) : Prop :=
  grouped → Covered target s ∧ ∀ op ∈ ops, Marked op target s

section SyncLog

variable {gen start target count : Nat} {ops : List Nat} {io : Io} {done refused : WalThread}

theorem Reaching.onward (known : Reaching grouped target ops count s) (onward : Onward s s') :
    Reaching grouped target ops count s' :=
  fun trusted => ⟨onward.aimed (known trusted).1,
    fun op mem => onward.marked ((known trusted).2 op mem)⟩

theorem Reaching.mono {more : Nat} (known : Reaching grouped target ops count s)
    (le : count ≤ more) : Reaching grouped target ops more s :=
  fun trusted => ⟨⟨(known trusted).1.1, fun m mem => ((known trusted).1.2 m mem).trans le⟩,
    (known trusted).2⟩

theorem Reaching.synced (known : Reaching grouped target ops count s) (same : s.gen = gen) :
    Reached grouped target ops (s.synced gen count) := fun trusted =>
  have after := known.onward (onward_synced gen count s) trusted
  ⟨after.1.covered (safe_synced same), after.2⟩

theorem Reached.onward (known : Reached grouped target ops s) (onward : Onward s s') :
    Reached grouped target ops s' :=
  fun trusted => ⟨onward.covered (known trusted).1,
    fun op mem => onward.marked ((known trusted).2 op mem)⟩

theorem Reached.mem_durable (known : Reached grouped target ops s) (sound : Sound grouped s) :
    grouped → ∀ op ∈ ops, op ∈ s.file.durable :=
  fun trusted op mem => ((known trusted).2 op mem).mem_durable sound (known trusted).1

theorem stays_reached (guarded : Guarded queues held) :
    Stays queues grouped held (fun s => s.cut = none ∧ Reached grouped target ops s) :=
  stays_onward guarded (fun _ _ known onward _ => known.onward onward)

theorem marked_of_logged {op : Nat} (sound : Sound grouped s) (trusted : grouped)
    (closed : s.swapping = false) (logged : Logged op s) : Marked op s.walSeq s := by
  obtain ⟨m, mark, found⟩ := logged
  refine ⟨m, ?_, found⟩
  rw [sound.counted trusted closed, Nat.add_sub_cancel_left, List.take_length]
  exact mark

/-- After the sync: take the log lock again and publish. -/
theorem can_publishTarget (out : .wal ∉ held) (guarded : Guarded queues held)
    (goesOn : ∀ s, Sound grouped s → s.cut = none →
      (grouped → ∀ op ∈ ops, op ∈ s.file.durable) → Can queues grouped done held s)
    (known : s.cut = none ∧ Reached grouped target ops s) :
    Can queues grouped
      (.lock .sync .wal (.write (Wal.publish target) (.unlock .wal done))) held s := by
  have wal := Set.mem_insert WalLock.wal held
  have guarded' := guarded.mono (Set.subset_insert WalLock.wal held)
  refine .lock _ (stays_reached guarded) known out (fun s sound known _ _ => ?_)
  refine .write _ (stays_reached guarded') known (fun s sound known =>
    ⟨may_publish sound wal (fun trusted _ => (known.2 trusted).1), ?_⟩)
  have same : Onward s (s.publish target) := (ordinary_storeTarget _ s).toOnward
  refine .unlock _ (stays_reached guarded') ⟨known.1, known.2.onward same⟩ wal
    (fun s sound known => ⟨trivial, ?_⟩)
  rw [Set.insert_sdiff_self_of_notMem out]
  exact goesOn s sound known.1 (known.2.mem_durable sound)

/-- The round itself: the guard keeps the file in place while the log lock is let go. -/
theorem can_syncRound (out : .wal ∉ held) (guarded : Guarded queues held)
    (goesOn : ∀ s, Sound grouped s → s.cut = none →
      (grouped → ∀ op ∈ ops, op ∈ s.file.durable) → Can queues grouped done held s)
    (refuses : ∀ s, Sound grouped s → s.cut = none →
      Can queues grouped (refuseThread refused) (insert .wal held) s)
    (cut : s.cut = none) (written : count ≤ s.file.records.length)
    (reaching : Reaching grouped target ops count s) :
    Can queues grouped
      (syncThread io.syncs (.lock .sync .wal (.write (Wal.publish target) (.unlock .wal done)))
        (.lock .sync .wal (refuseThread refused))) held s := by
  refine can_sync
    (P := fun s => s.cut = none ∧
      (count ≤ s.file.records.length ∧ Reaching grouped target ops count s))
    (Q := fun gen count s => s.cut = none ∧ (s.gen = gen ∧ Reaching grouped target ops count s))
    (stays_onward guarded (fun _ _ known step _ =>
      ⟨known.1.trans step.records.length_le, known.2.onward step⟩))
    (fun gen count => stays_onward guarded (fun _ _ known step _ =>
      ⟨step.gen.trans known.1, known.2.onward step⟩))
    (fun s _ known => ⟨known.1, rfl, known.2.2.mono known.2.1⟩)
    (fun gen count s _ known _ => ?_) (fun s _ known => ?_) ⟨cut, written, reaching⟩
  · have cut' : (s.synced gen count).cut = none := by
      simpa [Wal.synced, known.2.1] using known.1
    exact can_publishTarget out guarded goesOn ⟨cut', known.2.2.synced known.2.1⟩
  · exact .lock _ (stays_cut guarded) known.1 out (fun s sound cut _ _ => refuses s sound cut)

theorem can_syncLog (out : .wal ∉ held) (guarded : Guarded queues held)
    (goesOn : ∀ s, Sound grouped s → s.cut = none →
      (grouped → ∀ op ∈ ops, op ∈ s.file.durable) → Can queues grouped done held s)
    (refuses : ∀ s, Sound grouped s → s.cut = none → Can queues grouped refused held s)
    (cut : s.cut = none) (logged : ∀ op ∈ ops, Logged op s) :
    Can queues grouped (syncLogThread io done refused) held s := by
  have wal := Set.mem_insert WalLock.wal held
  have guarded' := guarded.mono (Set.subset_insert WalLock.wal held)
  have free : (insert WalLock.wal held : Set WalLock) \ {.wal} = held :=
    Set.insert_sdiff_self_of_notMem out
  have stays : ∀ {more : Set WalLock}, Guarded queues more → Stays queues grouped more
      (fun s => s.cut = none ∧ ∀ op ∈ ops, Logged op s) :=
    fun guarded => stays_onward guarded (fun _ _ known onward _ op mem => onward.logged (known op mem))
  have refuse : ∀ s, Sound grouped s → s.cut = none →
      Can queues grouped (refuseThread refused) (insert .wal held) s :=
    fun s _ known => can_refuse out (stays_cut guarded') (fun _ known => known) refuses known
  refine .lock _ (stays guarded) ⟨cut, logged⟩ out (fun s sound known _ _ => ?_)
  refine .read _ (stays guarded') known (fun s sound known => ?_)
  have closed := sound.closed known.1
  -- Whatever is logged is counted by the number read here.
  have marked : grouped → ∀ op ∈ ops, Marked op s.walSeq s :=
    fun trusted op mem => marked_of_logged sound trusted closed (known.2 op mem)
  split
  · rename_i le
    have reached : Reached grouped s.syncedSeq ops s := fun trusted =>
      ⟨sound.covered trusted closed, fun op mem => (marked trusted op mem).mono le⟩
    refine .unlock _ (stays_reached guarded') ⟨known.1, reached⟩ wal
      (fun s sound known => ⟨trivial, ?_⟩)
    rw [free]
    exact goesOn s sound known.1 (known.2.mem_durable sound)
  split
  · exact refuse s sound known.1
  refine .write (fun s' => s'.cut = none ∧
      (grouped → s.walSeq ≤ s'.walSeq ∧ ∀ op ∈ ops, Marked op s.walSeq s'))
    (stays_onward guarded' (fun _ _ known onward _ trusted =>
      ⟨(known trusted).1.trans onward.seq, fun op mem => onward.marked ((known trusted).2 op mem)⟩))
    ⟨known.1, fun trusted => ⟨le_rfl, marked trusted⟩⟩
    (fun s' sound known => ⟨may_flush sound wal, ?_⟩)
  have flushed : Reaching grouped s.walSeq ops s'.flush.file.records.length s'.flush :=
    fun trusted =>
      ⟨(onward_flush s').aimed (Aimed.of_le sound trusted (sound.closed known.1)
          (known.2 trusted).1 (records_flush s').ge),
        fun op mem => (onward_flush s').marked ((known.2 trusted).2 op mem)⟩
  refine .unlock (fun s₁ => s₁.cut = none ∧
      (s'.flush.file.records.length ≤ s₁.file.records.length ∧
        Reaching grouped s.walSeq ops s'.flush.file.records.length s₁))
    (stays_onward guarded' (fun _ _ known step _ =>
      ⟨known.1.trans step.records.length_le, known.2.onward step⟩))
    ⟨known.1, le_rfl, flushed⟩ wal (fun s₁ _ known => ⟨trivial, ?_⟩)
  rw [free]
  exact can_syncRound out guarded goesOn refuse known.1 known.2.1 known.2.2

end SyncLog

end KuttiDB.QueueStore.GroupSync
