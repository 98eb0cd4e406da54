/- # KuttiDB.QueueStore.SyncRuns -- the calls that write the log, interleaved

Every call of the queue store that writes the log, and the checkpoint, run in any number of threads.
If state mutations append only while no snapshot is taken, no mutation that was reported as done is
lost. If, besides, a swap and a group sync do not overlap, nothing reported as done is lost and the
synced counter stays within the records that are covered.

Neither holds of all interleavings: `mutation_lost` appends between the snapshot and the swap,
`publish_lost` lets a leader publish a number from before the swap.
-/
import KuttiDB.QueueStore.SyncWaits

namespace KuttiDB.QueueStore.GroupSync

open KuttiDB.Theory
open KuttiDB.Theory.Discipline

set_option autoImplicit false

variable {queues : List Nat} {grouped : Prop} {held base : Set WalLock} {s s' : Wal}
  {gen start : Nat} {ops : List Nat} {guards : List WalLock}

/-! ## Waiting and reporting -/

/-- The operations of an addition between its append and its report. -/
def EnteredAll (gen start : Nat) (ops : List Nat) (s : Wal) : Prop :=
  ∀ op ∈ ops, Entered gen start op s

theorem stays_enteredAll : Stays queues grouped held (EnteredAll gen start ops) :=
  fun others s s' apart sound known may op mem =>
    stays_entered gen start op others s s' apart sound (known op mem) may

theorem stays_keptAll :
    Stays queues grouped held (fun s => grouped → ∀ op ∈ ops, Kept op s) :=
  fun _ _ _ _ _ known may trusted op mem => may.2.kept op (known trusted op mem)

theorem can_durable (calm : Prop) {io : Nat → Io} {limit : Nat} {leave : Int → WalThread}
    (guarded : calm → Guarded queues held) (out : .wal ∉ held) (free : .syncer ∉ held)
    (leaves : ∀ s code, Sound grouped s → Calm calm s → Can queues grouped (leave code) held s)
    (quiet : Calm calm s) (now : EnteredAll gen start ops s) :
    Can queues grouped (durableThread io limit ops leave) held s := by
  have wal := Set.mem_insert WalLock.wal held
  have free' : WalLock.syncer ∉ (insert WalLock.wal held : Set WalLock) := by simp [free]
  have without : (insert WalLock.wal held : Set WalLock) \ {.wal} = held :=
    Set.insert_sdiff_self_of_notMem out
  have guarded' : calm → Guarded queues (insert WalLock.wal held) :=
    fun quiet => (guarded quiet).mono (Set.subset_insert _ held)
  have leaveWith : ∀ target code s, Calm calm s → Can queues grouped
      (.write (Wal.leave target) (.unlock .wal (leave code))) (insert .wal held) s := by
    intro target code s known
    refine .write _ (stays_calm guarded') known (fun s _ known => ⟨may_leave target, ?_⟩)
    refine .unlock (Calm calm) (stays_calm guarded') known wal (fun s sound known => ⟨trivial, ?_⟩)
    rw [without]
    exact leaves s code sound known
  refine .lock _ ((stays_calm guarded).and stays_enteredAll) ⟨quiet, now⟩ out
    (fun s _ known _ met => ?_)
  refine .act (fun s => Calm calm s ∧ EnteredAll gen start ops s ∧
      (grouped → s.swapping = false))
    ((stays_calm guarded').and (stays_enteredAll.and (fun others s s' apart _ closed may trusted =>
      closed_of_wal (apart _ wal) (closed trusted) may.2)))
    ⟨known.1, known.2, met⟩ (fun s sound known => ?_)
  have may : May queues grouped (insert .wal held) s s.await := may_await
  have pending : grouped → Pending gen s.walSeq ops s := fun trusted op mem =>
    (known.2.1 op mem).awaited sound trusted (known.2.2 trusted)
  have waits : Waits grouped calm gen s.walSeq ops (fun _ => True) s.await :=
    ⟨known.1, fun trusted => ⟨known.2.2 trusted, pending trusted, trivial⟩⟩
  exact ⟨may, can_wait (without.symm ▸ guarded) wal free'
    (fun s _ quiet kept => .write _ (stays_keptAll.and (stays_calm guarded')) ⟨kept, quiet⟩
      (fun s _ known => ⟨may_ack known.1, leaveWith _ _ _ known.2⟩))
    (fun s _ quiet => leaveWith _ _ s quiet) (fun s _ quiet => leaveWith _ _ s quiet) limit
    (may.1 sound) waits⟩

/-! ## Guards -/

/-- The locks of a call: a lock of the queue store first, possibly the state lock among the rest. -/
structure GuardList (queues : List Nat) (guards : List WalLock) : Prop where
  first : ∃ l rest, guards = l :: rest ∧ l ∈ storeLocks queues
  all : ∀ l ∈ guards, l = .state ∨ l ∈ storeLocks queues
  nodup : guards.Nodup

def lockSet (guards : List WalLock) : Set WalLock := {l | l ∈ guards}

theorem mem_lockSet {l : WalLock} : l ∈ lockSet guards ↔ l ∈ guards := Iff.rfl

theorem insert_union_lockSet (l : WalLock) (rest : List WalLock) (base : Set WalLock) :
    insert l base ∪ lockSet rest = base ∪ lockSet (l :: rest) := by
  ext l'
  simp only [Set.mem_union, Set.mem_insert_iff, mem_lockSet, List.mem_cons]
  tauto

theorem lockSet_sdiff {l : WalLock} {rest : List WalLock} (apart : l ∉ rest) :
    lockSet (l :: rest) \ {l} = lockSet rest := by
  ext l'
  simp only [Set.mem_sdiff, mem_lockSet, List.mem_cons, Set.mem_singleton_iff]
  constructor
  · rintro ⟨rfl | mem, other⟩
    · exact absurd rfl other
    · exact mem
  · exact fun mem => ⟨.inr mem, fun eq => apart (eq ▸ mem)⟩

theorem storeLock_ne {l : WalLock} (mem : l ∈ storeLocks queues) :
    l ≠ .wal ∧ l ≠ .syncer ∧ l ≠ .state := by
  rcases List.mem_cons.1 mem with rfl | queue
  · decide
  · obtain ⟨i, -, rfl⟩ := List.mem_map.1 queue
    exact ⟨nofun, nofun, nofun⟩

theorem GuardList.ne (list : GuardList queues guards) {l : WalLock} (mem : l ∈ guards) :
    l ≠ .wal ∧ l ≠ .syncer := by
  rcases list.all l mem with rfl | store
  · exact ⟨nofun, nofun⟩
  · exact ⟨(storeLock_ne store).1, (storeLock_ne store).2.1⟩

theorem GuardList.wal (list : GuardList queues guards) : .wal ∉ lockSet guards :=
  fun mem => (list.ne mem).1 rfl

theorem GuardList.syncer (list : GuardList queues guards) : .syncer ∉ lockSet guards :=
  fun mem => (list.ne mem).2 rfl

theorem GuardList.guarded (list : GuardList queues guards) : Guarded queues (lockSet guards) := by
  obtain ⟨l, rest, rfl, store⟩ := list.first
  exact .inr ⟨l, store, List.mem_cons_self⟩

theorem guarded_of_mem {l : WalLock} (kind : l = .state ∨ l ∈ storeLocks queues) (mem : l ∈ held) :
    Guarded queues held := by
  rcases kind with rfl | store
  · exact .inl mem
  · exact .inr ⟨l, store, mem⟩

/-- Any lock but the leader's may be let go while no snapshot is taken. -/
theorem lockFree_of_cut {l : WalLock} (sound : Sound grouped s) (cut : s.cut = none)
    (ne : l ≠ .syncer) : LockFree queues l s := by
  cases l with
  | store =>
      refine ⟨cut, ?_, sound.closed cut⟩
      cases renamed : s.renamed with
      | none => rfl
      | some f => exact absurd ((sound.renamed f renamed).symm.trans cut) (by simp)
  | queue i => exact fun _ => cut
  | state => trivial
  | wal => trivial
  | syncer => exact absurd rfl ne

theorem cut_of_lockFree {l : WalLock} (store : l ∈ storeLocks queues) (free : LockFree queues l s) :
    s.cut = none := by
  rcases List.mem_cons.1 store with rfl | queue
  · exact free.1
  · obtain ⟨i, mem, rfl⟩ := List.mem_map.1 queue
    exact free mem

theorem can_lockAll {site : WalSite} {next : WalThread} {P : Wal → Prop}
    (stays : Stays queues grouped base P) (nodup : guards.Nodup) (fresh : ∀ l ∈ guards, l ∉ base)
    (goesOn : ∀ s, Sound grouped s → P s → Can queues grouped next (base ∪ lockSet guards) s)
    (sound : Sound grouped s) (now : P s) :
    Can queues grouped (lockAll site next guards) base s := by
  induction guards generalizing base s with
  | nil =>
      have none : base ∪ lockSet [] = base := by simp [lockSet]
      exact none ▸ goesOn s sound now
  | cons l rest ih =>
      obtain ⟨apart, nodup⟩ := List.nodup_cons.1 nodup
      refine .lock P stays now (fresh l List.mem_cons_self) (fun s sound known _ _ => ?_)
      refine ih (stays.mono (Set.subset_insert l base)) nodup (fun l' mem inside => ?_)
        (fun s sound known => ?_) sound known
      · rcases Set.mem_insert_iff.1 inside with rfl | old
        · exact apart mem
        · exact fresh l' (List.mem_cons_of_mem l mem) old
      · rw [insert_union_lockSet]
        exact goesOn s sound known

theorem can_unlockAll {next : WalThread} {R : Wal → Prop} (stays : Stays queues grouped ∅ R)
    (kinds : ∀ l ∈ guards, l = .state ∨ l ∈ storeLocks queues) (nodup : guards.Nodup)
    (goesOn : ∀ s, Sound grouped s → R s → Can queues grouped next ∅ s)
    (sound : Sound grouped s) (cut : s.cut = none) (now : R s) :
    Can queues grouped (unlockAll next guards) (lockSet guards) s := by
  induction guards generalizing s with
  | nil =>
      have none : lockSet [] = ∅ := by simp [lockSet]
      exact none ▸ goesOn s sound now
  | cons l rest ih =>
      obtain ⟨apart, nodup⟩ := List.nodup_cons.1 nodup
      have mine : l ∈ lockSet (l :: rest) := List.mem_cons_self
      have ne : l ≠ .syncer := by
        rcases kinds l List.mem_cons_self with rfl | store
        · decide
        · exact (storeLock_ne store).2.1
      refine .unlock (fun s => s.cut = none ∧ R s)
        ((stays_cut (guarded_of_mem (kinds l List.mem_cons_self) mine)).and
          (stays.mono (Set.empty_subset _)))
        ⟨cut, now⟩ mine (fun s sound known => ⟨lockFree_of_cut sound known.1 ne, ?_⟩)
      rw [lockSet_sdiff apart]
      exact ih (fun l' mem => kinds l' (List.mem_cons_of_mem l mem)) nodup sound known.1 known.2

/-- Giving up under the guards. -/
theorem can_leave (list : GuardList queues guards) (code : Int) (sound : Sound grouped s)
    (cut : s.cut = none) :
    Can queues grouped (unlockAll (.done code) guards) (lockSet guards) s :=
  can_unlockAll (stable_true _ _) list.all list.nodup (fun _ _ _ => .done code) sound cut trivial

theorem can_guarded {next : WalThread} (list : GuardList queues guards)
    (goesOn : ∀ s, Sound grouped s → s.cut = none → Can queues grouped next (lockSet guards) s) :
    Can queues grouped (lockAll .guard next guards) ∅ s := by
  obtain ⟨l, rest, rfl, store⟩ := list.first
  obtain ⟨apart, nodup⟩ := List.nodup_cons.1 list.nodup
  refine .lock _ (stable_true _ _) trivial (Set.notMem_empty l) (fun s sound _ free _ => ?_)
  refine can_lockAll (P := fun s => s.cut = none)
    (stays_cut (.inr ⟨l, store, Set.mem_insert l ∅⟩)) nodup (fun l' mem inside => ?_)
    (fun s sound cut => ?_) sound (cut_of_lockFree store free)
  · rcases Set.mem_insert_iff.1 inside with rfl | none
    · exact apart mem
    · exact none
  · have whole : insert l ∅ ∪ lockSet rest = lockSet (l :: rest) := by
      ext l'
      simp [lockSet]
    exact whole ▸ goesOn s sound cut

/-! ## Operations -/

theorem Progress.enteredAll (known : Progress true gen start ops s) :
    EnteredAll gen start ops s :=
  fun op mem => .inr ⟨known.listed rfl op mem, known.gen, (known.logged op mem).1,
    (known.logged op mem).2⟩

/-- A counter that did not move has counted nothing of this call, unless the file was replaced. -/
theorem EnteredAll.kept_of_eq (known : EnteredAll gen start ops s) (eq : s.walSeq = start) :
    ∀ op ∈ ops, Kept op s := by
  intro op mem
  rcases known op mem with kept | ⟨-, -, moved, -⟩
  · exact kept
  · omega

theorem can_report {next : WalThread} {P : Wal → Prop} (stays : Stays queues grouped held P)
    (kept : grouped → ∀ op ∈ ops, Kept op s) (now : P s)
    (goesOn : ∀ s, Sound grouped (s.ack ops) → P s → Can queues grouped next held (s.ack ops)) :
    Can queues grouped (.write (Wal.ack ops) next) held s := by
  refine .write _ (stays_keptAll.and stays) ⟨kept, now⟩ (fun s sound known => ?_)
  have may : May queues grouped held s (s.ack ops) := may_ack known.1
  exact ⟨may, goesOn s (may.1 sound) known.2⟩

section Operations

variable {io : Io} {rounds : Nat → Io} {limit : Nat}

theorem can_settleDown {look : Look} (list : GuardList queues guards) (sound : Sound grouped s)
    (cut : s.cut = none) (now : Progress true gen start ops s) :
    Can queues grouped (settleDownThread look guards ops start rounds limit) (lockSet guards) s := by
  have stays := (@carried_progress queues grouped _ true gen start ops list.guarded).stays
  have wait : ∀ s, EnteredAll gen start ops s →
      Can queues grouped (durableThread rounds limit ops (fun code => .done code)) ∅ s :=
    fun s known => can_durable False nofun (Set.notMem_empty _) (Set.notMem_empty _)
      (fun _ code _ _ => .done code) nofun known
  have report : ∀ s, (∀ op ∈ ops, Kept op s) →
      Can queues grouped (.write (Wal.ack ops) (.done 0)) ∅ s :=
    fun s kept => can_report (stable_true _ _) (fun _ => kept) trivial (fun _ _ _ => .done 0)
  cases look with
  | never =>
      exact can_unlockAll stays_enteredAll list.all list.nodup (fun s _ known => wait s known)
        sound cut now.enteredAll
  | inside =>
      refine .read _ stays ⟨cut, now⟩ (fun s sound known => ?_)
      refine can_unlockAll (R := fun s' => EnteredAll gen start ops s' ∧
          (s.walSeq = start → ∀ op ∈ ops, Kept op s'))
        (stays_enteredAll.and (fun _ _ _ _ _ kept may eq op mem =>
          may.2.kept op (kept eq op mem)))
        list.all list.nodup (fun s' _ known' => ?_) sound known.1
        ⟨known.2.enteredAll, known.2.enteredAll.kept_of_eq⟩
      split
      · rename_i eq
        exact report s' (known'.2 eq)
      · exact wait s' known'.1
  | outside =>
      refine can_unlockAll stays_enteredAll list.all list.nodup (fun s _ known => ?_)
        sound cut now.enteredAll
      refine .read _ stays_enteredAll known (fun s _ known => ?_)
      split
      · rename_i eq
        exact report s (known.kept_of_eq eq)
      · exact wait s known
  | holding =>
      refine .read _ stays ⟨cut, now⟩ (fun s sound known => ?_)
      split
      · rename_i eq
        exact can_report (stays_cut list.guarded) (fun _ => known.2.enteredAll.kept_of_eq eq)
          known.1 (fun s sound cut => can_leave list 0 sound cut)
      · exact can_durable True (fun _ => list.guarded) list.wal list.syncer
          (fun s code sound quiet => can_leave list code sound (quiet trivial))
          (fun _ => known.1) known.2.enteredAll

theorem Progress.fresh (applies : Bool) (s : Wal) : Progress applies s.gen s.walSeq [] s :=
  ⟨rfl, le_rfl, fun _ mem => absurd mem List.not_mem_nil,
    fun _ _ mem => absurd mem List.not_mem_nil⟩

theorem can_addition {look : Look} (list : GuardList queues guards) :
    Can queues grouped (additionThread look guards ops io rounds limit) ∅ s := by
  refine can_guarded list (fun s _ cut => ?_)
  refine .read _ (stays_cut list.guarded) cut (fun s sound cut => ?_)
  exact can_appendEach list.wal list.guarded (by decide)
    (fun s sound cut known => can_settleDown list sound cut known)
    (fun s sound cut => can_leave list (-1) sound cut) sound cut (.fresh _ _)

theorem can_batch (list : GuardList queues guards) :
    Can queues grouped (batchThread guards ops io rounds limit) ∅ s := by
  refine can_guarded list (fun s _ cut => ?_)
  refine .read _ (stays_cut list.guarded) cut (fun s₀ sound cut => ?_)
  refine can_appendBatch list.wal list.guarded (fun s sound cut known => ?_)
    (fun s sound cut => can_leave list (-1) sound cut) sound cut (.fresh _ _)
  refine .write _ (carried_progress list.guarded).stays ⟨cut, known⟩ (fun s sound known => ?_)
  have may : May queues grouped (lockSet guards) s (s.apply ops) := may_apply ops
  have after := known.2.onward (onward_apply ops s) may.2.listed
  refine ⟨may, can_settleDown list (may.1 sound) known.1
    ⟨after.gen, after.seen, after.logged, fun _ op mem => ?_⟩⟩
  exact ⟨List.mem_append.2 (.inl mem), fun f taken => absurd (known.1.symm.trans taken) (by simp)⟩

/-- Durable in the file and applied under a guard: kept. -/
theorem kept_apply {op : Nat} (sound : Sound grouped s) (cut : s.cut = none)
    (durable : op ∈ s.file.durable) (mem : op ∈ ops) : Kept op (s.apply ops) := by
  refine ⟨⟨List.mem_append.2 (.inl mem), fun f taken => absurd (cut.symm.trans taken) (by simp)⟩, ?_⟩
  have same : (s.apply ops).path = s.file := sound.path_file cut
  rwa [same]

/-- Apply and report what is durable. -/
theorem can_finish {code : Int} (list : GuardList queues guards) (cut : s.cut = none)
    (durable : grouped → ∀ op ∈ ops, op ∈ s.file.durable) :
    Can queues grouped
      (.write (Wal.apply ops) (.write (Wal.ack ops) (unlockAll (.done code) guards)))
      (lockSet guards) s := by
  refine .write (fun s => s.cut = none ∧ (grouped → ∀ op ∈ ops, op ∈ s.file.durable))
    (stays_onward list.guarded (fun _ _ known onward _ trusted op mem =>
      mem_durable_mono onward.base onward.records onward.safe (known trusted op mem)))
    ⟨cut, durable⟩ (fun s sound known => ⟨may_apply ops, ?_⟩)
  exact can_report (stays_cut list.guarded)
    (fun trusted op mem => kept_apply sound known.1 (known.2 trusted op mem) mem) known.1
    (fun s sound cut => can_leave list code sound cut)

theorem can_settle {mode : AppendMode} {looks : Bool} {sync : Io} (list : GuardList queues guards)
    (plain : mode ≠ .synced) :
    Can queues grouped (settleThread mode looks guards ops io sync) ∅ s := by
  refine can_guarded list (fun s _ cut => ?_)
  refine .read _ (stays_cut list.guarded) cut (fun s₀ sound cut => ?_)
  refine can_appendEach list.wal list.guarded plain (fun s _ cut known => ?_)
    (fun s sound cut => can_leave list (-1) sound cut) sound cut (.fresh _ _)
  have covered : ∀ s, s.cut = none → Progress false s₀.gen s₀.walSeq ops s → Can queues grouped
      (syncLogThread sync
        (.write (Wal.apply ops) (.write (Wal.ack ops) (unlockAll (.done 1) guards)))
        (unlockAll (.done (-1)) guards)) (lockSet guards) s :=
    fun s cut known => can_syncLog list.wal list.guarded
      (fun s _ cut durable => can_finish list cut durable)
      (fun s sound cut => can_leave list (-1) sound cut) cut
      (fun op mem => (known.logged op mem).2)
  split
  · refine .read _ (carried_progress list.guarded).stays ⟨cut, known⟩ (fun s _ known => ?_)
    split
    · -- The counter did not move, so there was nothing to log.
      rename_i eq
      refine can_finish list known.1 (fun _ op mem => ?_)
      have moved := (known.2.logged op mem).1
      omega
    · exact covered s known.1 known.2
  · exact covered s cut known

theorem can_record {op : Nat} (list : GuardList queues guards) :
    Can queues grouped (recordThread guards op io) ∅ s := by
  refine can_guarded list (fun s sound cut => ?_)
  have carried : Carried queues grouped (lockSet guards) 0 (fun s => s.cut = none) :=
    ⟨stays_cut list.guarded, fun _ _ known _ _ same => same.trans known, fun _ _ => Nat.zero_le _⟩
  refine can_append list.wal list.guarded carried (fun _ _ known _ => known)
    (fun s sound _ cut how => ?_) (fun s sound cut => can_leave list (-1) sound cut) cut
  have durable : op ∈ s.file.durable := (how.resolve_right (fun other => other.1 rfl)).2
  refine can_finish list cut (fun _ other mem => ?_)
  rw [List.mem_singleton.1 mem]
  exact durable

theorem can_mutation {op : Nat} : Can queues grouped (mutationThread op io) ∅ s := by
  have state := Set.mem_insert WalLock.state ∅
  have guarded : Guarded queues (insert WalLock.state ∅) := .inl state
  have out : WalLock.wal ∉ (insert WalLock.state ∅ : Set WalLock) := by simp
  have empty : (insert WalLock.state ∅ : Set WalLock) \ {.state} = ∅ :=
    Set.insert_sdiff_self_of_notMem (Set.notMem_empty _)
  have leave : ∀ (code : Int) s, Can queues grouped
      (.unlock .state (.done code)) (insert .state ∅) s := by
    intro code s
    refine .unlock _ (stable_true _ _) trivial state (fun s _ _ => ⟨trivial, ?_⟩)
    rw [empty]
    exact .done code
  refine .lock _ (stable_true _ _) trivial (Set.notMem_empty _) (fun s _ _ _ _ => ?_)
  have carried : Carried queues grouped (insert .state ∅) 0 (fun _ => True) :=
    ⟨stable_true _ _, fun _ _ _ _ _ _ => trivial, fun _ _ => Nat.zero_le _⟩
  refine can_append out guarded carried (fun _ _ _ met => met) (fun s sound _ cut how => ?_)
    (fun s _ _ => leave (-1) s) trivial
  have durable : op ∈ s.file.durable := (how.resolve_right (fun other => other.1 rfl)).2
  refine .write (fun s => s.cut = none ∧ op ∈ s.file.durable)
    (stays_onward guarded (fun _ _ known onward _ =>
      mem_durable_mono onward.base onward.records onward.safe known))
    ⟨cut, durable⟩ (fun s sound known => ⟨may_apply [op], ?_⟩)
  refine .write _ (stays_kept op) (kept_apply sound known.1 known.2 List.mem_cons_self)
    (fun s _ kept => ⟨may_ackMutation kept, leave 0 _⟩)

end Operations

/-! ## Checkpoint -/

section Checkpoint

variable {f : LogFile} {count : List Nat → Nat} {expired : List Nat} {outcome : CheckpointEnd}

theorem guardList_storeLocks (distinct : queues.Nodup) :
    GuardList queues (storeLocks queues) where
  first := ⟨.store, queues.map .queue, rfl, List.mem_cons_self⟩
  all := fun _ mem => .inr mem
  nodup := by
    refine List.nodup_cons.2 ⟨?_,
      List.Pairwise.map _ (fun _ _ ne eq => ne (WalLock.queue.inj eq)) distinct⟩
    rintro mem
    obtain ⟨i, -, eq⟩ := List.mem_map.1 mem
    cases eq

/-- The phase of a checkpoint is its own. -/
theorem stays_phase (store : .store ∈ held) (cut renamed : Option LogFile) (swapping : Bool) :
    Stays queues grouped held
      (fun s => s.cut = cut ∧ s.renamed = renamed ∧ s.swapping = swapping) := by
  intro others s s' apart sound known may
  obtain ⟨sameCut, sameRenamed, sameSwapping⟩ := may.2.owner (apart _ store)
  exact ⟨sameCut.trans known.1, sameRenamed.trans known.2.1, sameSwapping.trans known.2.2⟩

/-- After the new file is opened, with nothing logged in it yet. -/
structure Reopened (grouped : Prop) (f : LogFile) (numbered : Bool) (s : Wal) : Prop where
  cut : s.cut = some f
  renamed : s.renamed = none
  swapping : s.swapping = true
  folded : s.file.folded = f.folded
  marks : s.marks = []
  seq : numbered = true → grouped → s.walSeq = f.folded

theorem stays_reopened (store : .store ∈ held) (numbered : Bool) :
    Stays queues grouped held (Reopened grouped f numbered) := by
  intro others s s' apart sound known may
  obtain ⟨cut, renamed, swapping⟩ := may.2.owner (apart _ store)
  obtain ⟨same, seq⟩ := may.2.still (apart _ store) known.swapping
  exact ⟨cut.trans known.cut, renamed.trans known.renamed, swapping.trans known.swapping,
    same.folded.trans known.folded, same.marks.trans known.marks,
    fun done trusted => (seq trusted).trans (known.seq done trusted)⟩

/-- From the opened file to the end of the swap. -/
theorem can_renumber (distinct : queues.Nodup) (known : Reopened grouped f false s) :
    Can queues grouped
      (.lock .swap .wal (.unlock .wal
        (.write (Wal.storeWalSeq f.folded)
          (.write (Wal.storeSyncedSeq f.folded) (unlockAll (.done 1) (storeLocks queues))))))
      (lockSet (storeLocks queues)) s := by
  have list := guardList_storeLocks distinct
  have store : WalLock.store ∈ lockSet (storeLocks queues) := List.mem_cons_self
  refine .lock _ (stays_reopened store false) known list.wal (fun s _ known _ _ => ?_)
  refine .unlock _ (stays_reopened (Set.mem_insert_of_mem _ store) false) known (Set.mem_insert _ _)
    (fun s _ known => ⟨trivial, ?_⟩)
  rw [Set.insert_sdiff_self_of_notMem list.wal]
  refine .write _ (stays_reopened store false) known (fun s sound known =>
    ⟨may_storeWalSeq sound f.folded store known.swapping, ?_⟩)
  have numbered : Reopened grouped f true (s.storeWalSeq f.folded) :=
    ⟨known.cut, known.renamed, known.swapping, known.folded, known.marks, fun _ _ => rfl⟩
  refine .write _ (stays_reopened store true) numbered (fun s sound known => ?_)
  have may : May queues grouped (lockSet (storeLocks queues)) s (s.storeSyncedSeq f.folded) := by
    rw [← known.folded]
    exact may_storeSyncedSeq sound store known.swapping known.renamed known.marks
      (fun trusted => (known.seq rfl trusted).trans known.folded.symm)
  exact ⟨may, can_leave list 1 (may.1 sound) rfl⟩

/-- From the rename on. -/
theorem can_publishFile (distinct : queues.Nodup) (fresh : f.safe ≤ f.records.length)
    (known : s.cut = some f ∧ s.renamed = none ∧ s.swapping = false) :
    Can queues grouped
      (swapThread f .published (fun code => unlockAll (.done code) (storeLocks queues)))
      (lockSet (storeLocks queues)) s := by
  have list := guardList_storeLocks distinct
  have store : WalLock.store ∈ lockSet (storeLocks queues) := List.mem_cons_self
  have store' := Set.mem_insert_of_mem WalLock.wal store
  have wal := Set.mem_insert WalLock.wal (lockSet (storeLocks queues))
  refine .write _ (stays_phase store _ _ _) known (fun s _ known =>
    ⟨may_rename store known.1 known.2.2, ?_⟩)
  refine .lock (fun s => s.cut = some f ∧ s.renamed = some f ∧ s.swapping = false)
    (stays_phase store _ _ _) ⟨known.1, rfl, known.2.2⟩ list.wal (fun s _ known _ met => ?_)
  refine .write (fun s => (s.cut = some f ∧ s.renamed = some f ∧ s.swapping = false) ∧
      (grouped → s.syncer = false))
    ((stays_phase store' _ _ _).and (fun others s s' apart _ down may trusted =>
      (may.2.flagged (apart _ wal)).trans (down trusted)))
    ⟨known, met⟩ (fun s _ known => ⟨may_discard store' wal known.1.1 known.1.2.1 known.2, ?_⟩)
  refine .unlock (fun s => s.cut = some f ∧ s.renamed = some f ∧ s.swapping = true)
    (stays_phase store' _ _ _) ⟨known.1.1, known.1.2.1, rfl⟩ wal (fun s _ known => ⟨trivial, ?_⟩)
  rw [Set.insert_sdiff_self_of_notMem list.wal]
  refine .write _ (stays_phase store _ _ _) known (fun s _ known =>
    ⟨may_reopenFile store known.1 known.2.2 fresh, ?_⟩)
  exact can_renumber distinct ⟨known.1, rfl, known.2.2, rfl, rfl, nofun⟩

theorem can_checkpoint {io : Io} (distinct : queues.Nodup)
    (clean : outcome = .unwritten ∨ outcome = .published) :
    Can queues grouped (checkpointThread (storeLocks queues) count expired io outcome) ∅ s := by
  have list := guardList_storeLocks distinct
  have store : WalLock.store ∈ lockSet (storeLocks queues) := List.mem_cons_self
  have wal := Set.mem_insert WalLock.wal ∅
  have none : WalLock.wal ∉ (∅ : Set WalLock) := Set.notMem_empty _
  refine .lock _ (stable_true _ _) trivial none (fun s _ _ _ _ => ?_)
  split
  · exact can_refuse none (stable_true _ _) (fun _ _ => trivial) (fun _ _ _ => .done (-1)) trivial
  refine .write _ (stable_true _ _) trivial (fun s sound _ => ⟨may_flush sound wal, ?_⟩)
  refine .unlock _ (stable_true _ _) trivial wal (fun s _ _ => ⟨trivial, ?_⟩)
  rw [Set.insert_sdiff_self_of_notMem none]
  -- The store lock comes first; with it the phase is known.
  refine .lock _ (stable_true _ _) trivial (Set.notMem_empty _) (fun s sound _ free _ => ?_)
  refine can_lockAll (stays_phase (Set.mem_insert _ _) _ _ _) (List.nodup_cons.1 list.nodup).2
    (fun l mem inside => ?_) (fun s sound known => ?_) sound free
  · rcases Set.mem_insert_iff.1 inside with rfl | other
    · exact (List.nodup_cons.1 list.nodup).1 mem
    · exact other
  have whole : insert WalLock.store ∅ ∪ lockSet (queues.map .queue) = lockSet (storeLocks queues) := by
    ext l
    simp [mem_lockSet, storeLocks]
  rw [whole]
  have apart : WalLock.state ∉ lockSet (storeLocks queues) :=
    fun mem => (storeLock_ne mem).2.2 rfl
  have store' := Set.mem_insert_of_mem WalLock.state store
  refine .lock _ (stays_phase store _ _ _) known apart (fun s _ known _ _ => ?_)
  refine .act _ (stays_phase store' _ _ _) known (fun s _ known =>
    ⟨may_takeCut known.1 (Set.mem_insert _ _) (fun l mem => Set.mem_insert_of_mem _ mem), ?_⟩)
  refine .unlock (fun s' => s'.cut = some (s.snapshot count expired) ∧ s'.renamed = Option.none ∧
      s'.swapping = false)
    (stays_phase store' _ _ _) ⟨rfl, known.2.1, known.2.2⟩ (Set.mem_insert _ _)
    (fun s' sound' known' => ⟨trivial, ?_⟩)
  rw [Set.insert_sdiff_self_of_notMem apart]
  rcases clean with rfl | rfl
  · refine .write _ (stays_phase store _ _ _) known' (fun s' sound' known' => ?_)
    have may : May queues grouped (lockSet (storeLocks queues)) s' s'.dropCut :=
      may_dropCut store known'.2.1 known'.2.2
    exact ⟨may, can_leave list (-1) (may.1 sound') rfl⟩
  · exact can_publishFile distinct le_rfl known'

end Checkpoint

/-! ## Runs -/

/-- The calls that write the log. A checkpoint writes its file and swaps it in, or fails before the
rename. -/
inductive WalCall (queues : List Nat) (count : List Nat → Nat) : WalThread → Prop where
  | addition (look : Look) (guards : List WalLock) (ops : List Nat) (io : Io) (rounds : Nat → Io)
      (limit : Nat) (list : GuardList queues guards) :
      WalCall queues count (additionThread look guards ops io rounds limit)
  | batch (guards : List WalLock) (ops : List Nat) (io : Io) (rounds : Nat → Io) (limit : Nat)
      (list : GuardList queues guards) :
      WalCall queues count (batchThread guards ops io rounds limit)
  | settle (mode : AppendMode) (looks : Bool) (guards : List WalLock) (ops : List Nat)
      (io sync : Io) (list : GuardList queues guards) (plain : mode ≠ .synced) :
      WalCall queues count (settleThread mode looks guards ops io sync)
  | record (guards : List WalLock) (op : Nat) (io : Io) (list : GuardList queues guards) :
      WalCall queues count (recordThread guards op io)
  | mutation (op : Nat) (io : Io) : WalCall queues count (mutationThread op io)
  | checkpoint (expired : List Nat) (io : Io) (outcome : CheckpointEnd)
      (clean : outcome = .unwritten ∨ outcome = .published) :
      WalCall queues count (checkpointThread (storeLocks queues) count expired io outcome)

def walCalls (queues : List Nat) (count : List Nat → Nat) : Set WalThread :=
  {p | WalCall queues count p}

/-- An empty log and no call running. -/
def freshLog : World Wal WalLock WalSite Int := World.resting Wal.initial 0

theorem sound_initial : Sound grouped Wal.initial where
  renamed := nofun
  swapped := nofun
  safe := le_rfl
  bound := fun _ m mem => absurd mem List.not_mem_nil
  low := fun _ k pos le => absurd (pos.trans_le le) (by decide)
  counted := fun _ _ => rfl
  covered := fun _ _ => ⟨le_rfl, fun m mem => absurd mem List.not_mem_nil⟩
  mutated := fun op mem => absurd mem List.not_mem_nil
  acked := fun _ op mem => absurd mem List.not_mem_nil

theorem can_call {count : List Nat → Nat} (distinct : queues.Nodup) {p : WalThread}
    (call : WalCall queues count p) (s : Wal) : Can queues grouped p ∅ s := by
  cases call with
  | addition look guards ops io rounds limit list => exact can_addition list
  | batch guards ops io rounds limit list => exact can_batch list
  | settle mode looks guards ops io sync list plain => exact can_settle list plain
  | record guards op io list => exact can_record list
  | mutation op io => exact can_mutation
  | checkpoint expired io outcome clean => exact can_checkpoint distinct clean

theorem sound_of_reaches {count : List Nat → Nat} (distinct : queues.Nodup)
    {w : World Wal WalLock WalSite Int}
    (run : Reaches (walCalls queues count) (CheckpointApart grouped) freshLog w) :
    Sound grouped w.shared := by
  have start : World.Sound (syncDiscipline queues grouped) (CheckpointApart grouped) freshLog :=
    World.sound_resting 0 sound_initial (fun l => by
      cases l <;> first | exact ⟨rfl, rfl, rfl⟩ | exact fun _ => rfl | rfl | trivial)
  exact (Reaches.sound (fun p call s _ => can_call distinct call s) start run).inv

instance (grouped : Prop) [Decidable grouped] (s : Wal) :
    ∀ (site : WalSite) (l : WalLock), Decidable (CheckpointApart grouped site l s)
  | .stateAppend, _ => inferInstanceAs (Decidable (s.cut = none))
  | .enter, _ => inferInstanceAs (Decidable (grouped → s.swapping = false))
  | .wait, _ => inferInstanceAs (Decidable (grouped → s.swapping = false))
  | .swap, _ => inferInstanceAs (Decidable (grouped → s.syncer = false))
  | .guard, _ => .isTrue trivial
  | .append, _ => .isTrue trivial
  | .lead, _ => .isTrue trivial
  | .sync, _ => .isTrue trivial
  | .checkpoint, _ => .isTrue trivial

/-! ## Schedules -/

/-- Every write and sync succeeds. -/
def Io.well : Io := ⟨true, true, true⟩

/-- One record, whatever there is to write. -/
def oneRecord (_ : List Nat) : Nat := 1

/-- A publish to the only queue, or one that is routed to it several times. -/
def publishTo (ops : List Nat) (limit : Nat) : WalThread :=
  additionThread .outside [.queue 0] ops Io.well (fun _ => Io.well) limit

/-- A checkpoint that finds the receipts of these mutations expired. -/
def checkpointAfter (expired : List Nat) : WalThread :=
  checkpointThread (storeLocks [0]) oneRecord expired Io.well .published

def checkpointOf : WalThread := checkpointAfter []

theorem call_publishTo (ops : List Nat) (limit : Nat) :
    publishTo ops limit ∈ walCalls [0] oneRecord :=
  .addition .outside [.queue 0] ops Io.well (fun _ => Io.well) limit
    ⟨⟨.queue 0, [], rfl, by decide⟩, by decide, by decide⟩

theorem call_checkpointAfter (expired : List Nat) : checkpointAfter expired ∈ walCalls [0] oneRecord :=
  .checkpoint expired Io.well .published (.inr rfl)

theorem call_checkpointOf : checkpointOf ∈ walCalls [0] oneRecord := call_checkpointAfter []

/-- A mutation, a checkpoint after its receipt has expired, and another mutation. -/
def mutationTurns : List (Turn Wal WalLock WalSite Int) :=
  [.start 1 (mutationThread 1 Io.well), .steps 1 20, .start 0 (checkpointAfter [1]), .steps 0 40,
    .start 2 (mutationThread 2 Io.well), .steps 2 20]

theorem starts_mutationTurns :
    ∀ turn ∈ mutationTurns, Turn.Starts (walCalls [0] oneRecord) turn := by
  simp only [mutationTurns, List.forall_mem_cons]
  exact ⟨.mutation 1 Io.well, trivial, call_checkpointAfter [1], trivial, .mutation 2 Io.well, trivial,
    List.forall_mem_nil _⟩

/-- The mutation runs between the snapshot and the rename. -/
def lostMutationTurns : List (Turn Wal WalLock WalSite Int) :=
  [.start 0 checkpointOf, .steps 0 8, .start 1 (mutationThread 1 Io.well), .steps 1 20,
    .steps 0 40]

/-- The checkpoint begins when the mutation has returned. -/
def refusedTurns : List (Turn Wal WalLock WalSite Int) :=
  [.start 1 (mutationThread 1 Io.well), .steps 1 20, .start 0 checkpointOf, .steps 0 40]

/-- Both calls of the schedule succeed and the mutation is not found. -/
def LosesMutation (turns : List (Turn Wal WalLock WalSite Int)) : Prop :=
  ∃ w, Reaches (walCalls [0] oneRecord) (fun _ _ _ => True) freshLog w ∧
    w = freshLog.play turns ∧ w.result? 0 = some 1 ∧ w.result? 1 = some 0 ∧
    w.shared.mutated = [1] ∧ w.shared.path.found = []

/-- A publish that leads a group sync, a checkpoint, a publish on the fast path. -/
def publishTurns : List (Turn Wal WalLock WalSite Int) :=
  [.start 1 (publishTo [1, 2, 3] 3), .steps 1 60, .start 0 checkpointOf, .steps 0 40,
    .start 2 (publishTo [4] 3), .steps 2 60]

theorem starts_publishTurns :
    ∀ turn ∈ publishTurns, Turn.Starts (walCalls [0] oneRecord) turn := by
  simp only [publishTurns, List.forall_mem_cons]
  exact ⟨call_publishTo [1, 2, 3] 3, trivial, call_checkpointOf, trivial, call_publishTo [4] 3, trivial,
    List.forall_mem_nil _⟩

/-- The leader has read the number 3 and syncs the old file while the checkpoint runs. -/
def lostPublishTurns : List (Turn Wal WalLock WalSite Int) :=
  [.start 1 (publishTo [1, 2, 3] 3), .steps 1 38, .start 0 checkpointOf, .steps 0 40, .steps 1 40,
    .start 2 (publishTo [4] 3), .steps 2 60]

end KuttiDB.QueueStore.GroupSync
