/- # KuttiDB.QueueStore.SyncSteps -- every effect on the log keeps to the discipline

One lemma per effect of `GroupSync`, with what the thread has to know and to hold. Appends need to
know that no checkpoint has replaced the file below them; publishing a number needs to know that the
records it counts are covered; a checkpoint needs its locks and, to swap, the flag down.
-/
import KuttiDB.QueueStore.SyncDiscipline

namespace KuttiDB.QueueStore.GroupSync

open KuttiDB.Theory

set_option autoImplicit false

variable {queues : List Nat} {grouped : Prop} {held : Set WalLock} {s s' : Wal}

/-- A step of a thread that holds `held`. -/
abbrev May (queues : List Nat) (grouped : Prop) (held : Set WalLock) (s s' : Wal) : Prop :=
  (syncDiscipline queues grouped).may held s s'

theorem Sound.counts (sound : Sound grouped s) (closed : s.swapping = false) :
    (∀ m ∈ s.marks, m ≤ s.log.length) ∧
      (∀ k, 0 < k → k ≤ s.marks.length → ∃ m ∈ s.marks.take k, k ≤ m) ∧
      (grouped → s.walSeq = s.file.folded + s.marks.length ∧ Covered s.syncedSeq s) :=
  ⟨sound.bound closed, sound.low closed,
    fun trusted => ⟨sound.counted trusted closed, sound.covered trusted closed⟩⟩

/-! ## Effects beside the log -/

/-- The log, the counters and the phase are as before. -/
structure Untouched (s s' : Wal) : Prop where
  file : s'.file = s.file
  gen : s'.gen = s.gen
  renamed : s'.renamed = s.renamed
  staged : s'.staged = s.staged
  walSeq : s'.walSeq = s.walSeq
  syncedSeq : s'.syncedSeq = s.syncedSeq
  syncer : s'.syncer = s.syncer
  cut : s'.cut = s.cut
  swapping : s'.swapping = s.swapping
  marks : s'.marks = s.marks

theorem Untouched.log (same : Untouched s s') : s'.log = s.log := by
  rw [Wal.log, Wal.log, same.file, same.staged]

theorem Untouched.sameLog (same : Untouched s s') : SameLog s s' :=
  ⟨same.gen, by rw [same.file], by rw [same.file], by rw [same.file], same.staged, same.marks⟩

theorem Untouched.ordinary (same : Untouched s s') (applied : s.applied ⊆ s'.applied) :
    Ordinary s s' where
  gen := same.gen
  base := by rw [same.file]
  folded := by rw [same.file]
  records := by rw [same.file]
  log := by rw [same.log]
  marks := by rw [same.marks]
  safe := by rw [same.file]
  seq := same.walSeq.ge
  renamed := same.renamed
  cut := same.cut
  swapping := same.swapping
  applied := applied

theorem Untouched.may (same : Untouched s s') (applied : s.applied ⊆ s'.applied)
    (mutated : ∀ op ∈ s'.mutated, op ∈ s.mutated ∨ Kept op s')
    (acked : grouped → ∀ op ∈ s'.acked, op ∈ s.acked ∨ Kept op s') :
    May queues grouped held s s' := by
  have step := same.ordinary applied
  refine ⟨fun sound => step.sound sound (fun _ => same.sameLog) ?_ ?_ mutated acked,
    step.rely (fun _ => ⟨same.sameLog, fun _ => same.walSeq⟩)
      (fun _ => ⟨same.sameLog, same.walSeq, same.syncedSeq⟩) (.inl same.syncer)⟩
  · rw [same.file]
    exact sound.safe
  · intro closed
    simp only [Covered, same.marks, same.log, same.file, same.walSeq, same.syncedSeq]
    exact sound.counts closed

theorem may_fail : May queues grouped held s s.fail :=
  Untouched.may (by constructor <;> rfl) (List.Subset.refl _) (fun _ => .inl) (fun _ _ => .inl)

theorem may_await : May queues grouped held s s.await :=
  Untouched.may (by constructor <;> rfl) (List.Subset.refl _) (fun _ => .inl) (fun _ _ => .inl)

theorem may_leave (target : Nat) : May queues grouped held s (s.leave target) :=
  Untouched.may (by constructor <;> rfl) (List.Subset.refl _) (fun _ => .inl) (fun _ _ => .inl)

theorem may_apply (ops : List Nat) : May queues grouped held s (s.apply ops) :=
  Untouched.may (by constructor <;> rfl) (List.subset_append_right ops s.applied) (fun _ => .inl)
    (fun _ _ => .inl)

theorem may_ack {ops : List Nat} (kept : grouped → ∀ op ∈ ops, Kept op s) :
    May queues grouped held s (s.ack ops) :=
  Untouched.may (by constructor <;> rfl) (List.Subset.refl _) (fun _ => .inl)
    (fun trusted op mem => (List.mem_append.1 mem).elim (fun new => .inr (kept trusted op new)) .inl)

theorem may_ackMutation {op : Nat} (kept : Kept op s) :
    May queues grouped held s (s.ackMutation op) := by
  refine Untouched.may (by constructor <;> rfl) (List.Subset.refl _) (fun other mem => ?_)
    (fun _ _ => .inl)
  rcases List.mem_cons.1 mem with rfl | old
  · exact .inr kept
  · exact .inl old

/-! ## Effects on the log -/

theorem log_stage (op : Nat) (s : Wal) : (s.stage op).log = s.log ++ [op] :=
  (List.append_assoc s.file.records s.staged [op]).symm

theorem log_flush (s : Wal) : s.flush.log = s.log := List.append_nil s.log

theorem onward_fail (s : Wal) : Onward s s.fail :=
  ⟨rfl, rfl, rfl, List.prefix_rfl, List.prefix_rfl, List.prefix_rfl, le_rfl, le_rfl⟩

theorem onward_apply (ops : List Nat) (s : Wal) : Onward s (s.apply ops) :=
  ⟨rfl, rfl, rfl, List.prefix_rfl, List.prefix_rfl, List.prefix_rfl, le_rfl, le_rfl⟩

theorem onward_stage (op : Nat) (s : Wal) : Onward s (s.stage op) :=
  ⟨rfl, rfl, rfl, List.prefix_rfl, log_stage op s ▸ List.prefix_append s.log [op],
    List.prefix_rfl, le_rfl, le_rfl⟩

theorem onward_flush (s : Wal) : Onward s s.flush :=
  ⟨rfl, rfl, rfl, List.prefix_append s.file.records s.staged, (log_flush s).symm ▸ List.prefix_rfl,
    List.prefix_rfl, le_rfl, le_rfl⟩

theorem onward_bump (s : Wal) : Onward s s.bump :=
  ⟨rfl, rfl, rfl, List.prefix_rfl, List.prefix_rfl, List.prefix_append s.marks _, le_rfl,
    Nat.le_succ _⟩

theorem onward_synced (gen count : Nat) (s : Wal) : Onward s (s.synced gen count) := by
  unfold Wal.synced
  split
  · exact ⟨rfl, rfl, rfl, List.prefix_rfl, List.prefix_rfl, List.prefix_rfl, le_max_left _ _, le_rfl⟩
  · exact .refl s

theorem ordinary_stage (op : Nat) (s : Wal) : Ordinary s (s.stage op) :=
  ⟨onward_stage op s, rfl, rfl, rfl, List.Subset.refl _⟩

theorem ordinary_flush (s : Wal) : Ordinary s s.flush :=
  ⟨onward_flush s, rfl, rfl, rfl, List.Subset.refl _⟩

theorem ordinary_bump (s : Wal) : Ordinary s s.bump :=
  ⟨onward_bump s, rfl, rfl, rfl, List.Subset.refl _⟩

theorem ordinary_synced (gen count : Nat) (s : Wal) : Ordinary s (s.synced gen count) := by
  refine { onward_synced gen count s with renamed := ?_, cut := ?_, swapping := ?_, applied := ?_ }
  all_goals
    unfold Wal.synced
    split <;> simp

theorem ordinary_setSyncer (flag : Bool) (s : Wal) : Ordinary s (s.setSyncer flag) :=
  ⟨⟨rfl, rfl, rfl, List.prefix_rfl, List.prefix_rfl, List.prefix_rfl, le_rfl, le_rfl⟩,
    rfl, rfl, rfl, List.Subset.refl _⟩

theorem ordinary_storeTarget (number : Nat) (s : Wal) : Ordinary s (s.storeTarget number) :=
  ⟨⟨rfl, rfl, rfl, List.prefix_rfl, List.prefix_rfl, List.prefix_rfl, le_rfl, le_rfl⟩,
    rfl, rfl, rfl, List.Subset.refl _⟩

theorem may_stage (op : Nat) (wal : .wal ∈ held) (closed : s.swapping = false) :
    May queues grouped held s (s.stage op) := by
  have step := ordinary_stage op s
  refine ⟨fun sound => step.sound sound (fun opened => ?_) sound.safe (fun _ => ⟨?_, ?_⟩)
    (fun _ => .inl) (fun _ _ => .inl), step.rely (fun opened => ?_) (fun out => absurd wal out)
    (.inl rfl)⟩
  · exact absurd (closed.symm.trans opened) (by decide)
  · intro m mem
    have := sound.bound closed m mem
    simp only [log_stage, List.length_append, List.length_singleton]
    omega
  · exact (sound.counts closed).2
  · exact absurd (closed.symm.trans opened) (by decide)

theorem may_flush (sound : Sound grouped s) (wal : .wal ∈ held) :
    May queues grouped held s s.flush := by
  have step := ordinary_flush s
  -- In the swap the buffer is empty, so nothing is written into the new file.
  have still : s.swapping = true → SameLog s s.flush := by
    intro opened
    have empty := (sound.swapped opened).1
    exact ⟨rfl, rfl, rfl, by simp [Wal.flush, empty], empty.symm, rfl⟩
  refine ⟨fun sound => step.sound sound still ?_ (fun closed => ⟨?_, (sound.counts closed).2⟩)
    (fun _ => .inl) (fun _ _ => .inl),
    step.rely (fun opened => ⟨still opened, fun _ => rfl⟩) (fun out => absurd wal out) (.inl rfl)⟩
  · have := sound.safe
    simp only [Wal.flush, List.length_append]
    omega
  · rw [log_flush]
    exact sound.bound closed

theorem may_synced {gen count : Nat} (bound : s.gen = gen → count ≤ s.file.records.length) :
    May queues grouped held s (s.synced gen count) := by
  unfold Wal.synced
  split
  · rename_i same
    have step : Ordinary s { s with file := { s.file with safe := max s.file.safe count } } := by
      simpa only [Wal.synced, if_pos same] using ordinary_synced gen count s
    have sameLog : SameLog s { s with file := { s.file with safe := max s.file.safe count } } :=
      ⟨rfl, rfl, rfl, rfl, rfl, rfl⟩
    refine ⟨fun sound => step.sound sound (fun _ => sameLog) (max_le sound.safe (bound same))
      (fun closed => ⟨sound.bound closed, sound.low closed, fun trusted => ?_⟩)
      (fun _ => .inl) (fun _ _ => .inl),
      step.rely (fun _ => ⟨sameLog, fun _ => rfl⟩) (fun _ => ⟨sameLog, rfl, rfl⟩) (.inl rfl)⟩
    have covered := sound.covered trusted closed
    exact ⟨sound.counted trusted closed, covered.1,
      fun m mem => (covered.2 m mem).trans (le_max_left _ _)⟩
  · exact (syncDiscipline queues grouped).may_refl held s

theorem take_marks_bump {k : Nat} (le : k ≤ s.marks.length) :
    s.bump.marks.take k = s.marks.take k :=
  List.take_append_of_le_length le

theorem may_bump (wal : .wal ∈ held) (closed : s.swapping = false)
    (room : s.marks.length < s.log.length) : May queues grouped held s s.bump := by
  have step := ordinary_bump s
  refine ⟨fun sound => step.sound sound (fun opened => ?_) sound.safe
    (fun _ => ⟨?_, ?_, fun trusted => ⟨?_, ?_⟩⟩) (fun _ => .inl) (fun _ _ => .inl),
    step.rely (fun opened => ?_) (fun out => absurd wal out) (.inl rfl)⟩
  · exact absurd (closed.symm.trans opened) (by decide)
  · intro m mem
    rcases List.mem_append.1 mem with old | new
    · exact sound.bound closed m old
    · exact (List.mem_singleton.1 new).le
  · intro k pos le
    rcases Nat.lt_or_ge s.marks.length k with last | old
    · -- The new number marks the end of the log, which is longer than the numbers so far.
      have all : s.bump.marks.take k = s.bump.marks := List.take_of_length_le (by
        simp only [Wal.bump, List.length_append, List.length_singleton] at le ⊢
        omega)
      have mem : s.log.length ∈ s.bump.marks := List.mem_append.2 (.inr List.mem_cons_self)
      refine ⟨s.log.length, by rwa [all], ?_⟩
      simp only [Wal.bump, List.length_append, List.length_singleton] at le
      omega
    · rw [take_marks_bump old]
      exact sound.low closed k pos old
  · have := sound.counted trusted closed
    simp only [Wal.bump, List.length_append, List.length_singleton]
    omega
  · have covered := sound.covered trusted closed
    refine ⟨?_, fun m mem => ?_⟩
    · have := covered.1
      simp only [Wal.bump, List.length_append, List.length_singleton]
      omega
    · refine covered.2 m ?_
      have le : s.syncedSeq - s.file.folded ≤ s.marks.length := by
        have := covered.1
        omega
      exact take_marks_bump le ▸ mem
  · exact absurd (closed.symm.trans opened) (by decide)

/-! ## Effects on the synced counter and the flag -/

/-- Storing a number that is covered. -/
theorem may_storeTarget {target : Nat} (wal : .wal ∈ held)
    (covered : grouped → s.swapping = false → Covered target s) :
    May queues grouped held s (s.storeTarget target) := by
  have step := ordinary_storeTarget target s
  have sameLog : SameLog s (s.storeTarget target) := ⟨rfl, rfl, rfl, rfl, rfl, rfl⟩
  exact ⟨fun sound => step.sound sound (fun _ => sameLog) sound.safe
      (fun closed => ⟨sound.bound closed, sound.low closed,
        fun trusted => ⟨sound.counted trusted closed, covered trusted closed⟩⟩)
      (fun _ => .inl) (fun _ _ => .inl),
    step.rely (fun _ => ⟨sameLog, fun _ => rfl⟩) (fun out => absurd wal out) (.inl rfl)⟩

theorem Covered.max {target target' : Nat} (left : Covered target s) (right : Covered target' s) :
    Covered (max target target') s := by
  rcases le_total target target' with le | le
  · rwa [max_eq_right le]
  · rwa [max_eq_left le]

theorem may_publish {target : Nat} (sound : Sound grouped s) (wal : .wal ∈ held)
    (covered : grouped → s.swapping = false → Covered target s) :
    May queues grouped held s (s.publish target) :=
  may_storeTarget wal (fun trusted closed =>
    (sound.covered trusted closed).max (covered trusted closed))

/-- With the buffer written and the file synced every number is covered. -/
theorem covered_walSeq (sound : Sound grouped s) (trusted : grouped) (closed : s.swapping = false)
    (staged : s.staged = []) (safe : s.file.records.length ≤ s.file.safe) :
    Covered s.walSeq s := by
  refine ⟨(sound.counted trusted closed).le, fun m mem => ?_⟩
  have bound := sound.bound closed m (List.mem_of_mem_take mem)
  simp only [Wal.log, staged, List.append_nil] at bound
  exact bound.trans safe

theorem may_publishAll (sound : Sound grouped s) (wal : .wal ∈ held) (staged : s.staged = [])
    (safe : s.file.records.length ≤ s.file.safe) : May queues grouped held s s.publishAll :=
  may_storeTarget wal (fun trusted closed => covered_walSeq sound trusted closed staged safe)

theorem may_setSyncer (flag : Bool) (wal : .wal ∈ held) (mine : .syncer ∈ held) :
    May queues grouped held s (s.setSyncer flag) := by
  have step := ordinary_setSyncer flag s
  have sameLog : SameLog s (s.setSyncer flag) := ⟨rfl, rfl, rfl, rfl, rfl, rfl⟩
  exact ⟨fun sound => step.sound sound (fun _ => sameLog) sound.safe sound.counts
      (fun _ => .inl) (fun _ _ => .inl),
    step.rely (fun _ => ⟨sameLog, fun _ => rfl⟩) (fun out => absurd wal out) (.inr ⟨mine, wal⟩)⟩

/-! ## Effects of a checkpoint -/

section Checkpoint

variable {f : LogFile}

/-- Before the swap a checkpoint changes its phase only. It holds the store lock, so nobody else is
promised anything about that. -/
theorem may_phase {cut renamed : Option LogFile} (store : .store ∈ held)
    (closed : Sound grouped s → s.swapping = false)
    (own : Sound grouped s → ∀ g, renamed = some g → cut = some g)
    (listed : ∀ op, Listed op s → Listed op { s with cut, renamed })
    (kept : ∀ op, Kept op s → Kept op { s with cut, renamed })
    (taken : s.cut = none → cut = none ∨ .state ∈ held ∧ ∀ l ∈ storeLocks queues, l ∈ held) :
    May queues grouped held s { s with cut, renamed } := by
  have onward : Onward s { s with cut, renamed } :=
    ⟨rfl, rfl, rfl, List.prefix_rfl, List.prefix_rfl, List.prefix_rfl, le_rfl, le_rfl⟩
  refine ⟨fun sound => ?_, ?_⟩
  · exact
      { renamed := own sound
        swapped := fun opened => absurd ((closed sound).symm.trans opened) (by decide)
        safe := sound.safe, bound := sound.bound, low := sound.low, counted := sound.counted
        covered := sound.covered
        mutated := fun op mem => kept op (sound.mutated op mem)
        acked := fun trusted op mem => kept op (sound.acked trusted op mem) }
  · exact
      { listed := listed, kept := kept, onward := fun _ _ => onward, replaced := .inl onward
        gen := le_rfl, grows := fun _ => List.prefix_rfl
        cut := taken
        owner := fun out => absurd store out
        still := fun out => absurd store out
        quiet := fun _ _ => ⟨⟨rfl, rfl, rfl, rfl, rfl, rfl⟩, rfl, rfl⟩
        opens := fun closed opened => absurd (closed.symm.trans opened) (by decide)
        flag := fun _ => rfl, flagged := fun _ => rfl }

theorem may_takeCut {count : List Nat → Nat} {expired : List Nat} (cut : s.cut = none)
    (state : .state ∈ held) (all : ∀ l ∈ storeLocks queues, l ∈ held) :
    May queues grouped held s (s.takeCut count expired) := by
  have listed : ∀ op, Listed op s → Listed op (s.takeCut count expired) := by
    rintro op ⟨inside, -⟩
    refine ⟨inside, fun g taken => ?_⟩
    cases Option.some.inj taken
    exact inside
  refine may_phase (all .store List.mem_cons_self) (fun sound => sound.closed cut)
    (fun sound g taken => ?_) listed (fun op known => ⟨listed op known.1, known.2⟩)
    (fun _ => .inr ⟨state, all⟩)
  exact absurd ((sound.renamed g taken).symm.trans cut) (by simp)

theorem may_dropCut (store : .store ∈ held) (renamed : s.renamed = none)
    (closed : s.swapping = false) : May queues grouped held s s.dropCut := by
  have listed : ∀ op, Listed op s → Listed op s.dropCut :=
    fun op known => ⟨known.1, fun g taken => nomatch taken⟩
  refine may_phase store (fun _ => closed) (fun _ g taken => ?_) listed
    (fun op known => ⟨listed op known.1, known.2⟩) (fun _ => .inl rfl)
  exact absurd (renamed.symm.trans taken) (by simp)

theorem may_rename (store : .store ∈ held) (cut : s.cut = some f) (closed : s.swapping = false) :
    May queues grouped held s (s.rename f) :=
  may_phase store (fun _ => closed) (fun _ _ taken => cut.trans taken) (fun _ known => known)
    (fun _ known => ⟨known.1, List.mem_append.2 (.inl (known.1.2 f cut))⟩) .inl

theorem may_discard (store : .store ∈ held) (wal : .wal ∈ held) (cut : s.cut = some f)
    (renamed : s.renamed = some f) (down : grouped → s.syncer = false) :
    May queues grouped held s s.discard := by
  have sub : f.base ⊆ s.path.base := by simp [Wal.path, renamed]
  have opened : s.discard.swapping ≠ false := by simp [Wal.discard]
  refine ⟨fun sound => ?_, ?_⟩
  · exact
      { renamed := sound.renamed
        swapped := fun _ => ⟨rfl, f, cut, sub⟩
        safe := sound.safe
        bound := fun closed => absurd closed opened
        low := fun closed => absurd closed opened
        counted := fun _ closed => absurd closed opened
        covered := fun _ closed => absurd closed opened
        mutated := sound.mutated
        acked := sound.acked }
  · exact
      { listed := fun _ known => known, kept := fun _ known => known
        onward := fun _ closed => absurd closed opened
        replaced := .inr (fun _ => kept_of_published cut sub)
        gen := le_rfl, grows := fun _ => List.prefix_rfl
        cut := fun none => .inl none
        owner := fun out => absurd store out
        still := fun out => absurd store out
        quiet := fun out => absurd wal out
        opens := fun _ _ => ⟨wal, down⟩
        flag := fun _ => rfl, flagged := fun _ => rfl }

/-- From the swap on every operation listed is kept, and nobody else moves the log. -/
theorem rely_swap (store : .store ∈ held) (opened : s.swapping = true)
    (kept : ∀ op, Listed op s → Kept op s') (gen : s.gen ≤ s'.gen)
    (grows : s'.gen = s.gen → s.file.records <+: s'.file.records) (cut : s.cut = none → s'.cut = none)
    (syncer : s'.syncer = s.syncer) : Rely queues grouped held s s' where
  listed op known := (kept op known).1
  kept op known := kept op known.1
  onward closed := absurd (closed.symm.trans opened) (by decide)
  replaced := .inr kept
  gen := gen
  grows := grows
  cut none := .inl (cut none)
  owner out := absurd store out
  still out := absurd store out
  quiet _ closed := absurd (closed.symm.trans opened) (by decide)
  opens closed := absurd (closed.symm.trans opened) (by decide)
  flag _ := syncer
  flagged _ := syncer

/-- While the swap is on, nothing is asked of the counters. -/
theorem Sound.of_swapping (opened : s.swapping = true)
    (renamed : ∀ f, s.renamed = some f → s.cut = some f)
    (swapped : s.staged = [] ∧ ∃ f, s.cut = some f ∧ f.base ⊆ s.path.base)
    (safe : s.file.safe ≤ s.file.records.length) (mutated : ∀ op ∈ s.mutated, Kept op s)
    (acked : grouped → ∀ op ∈ s.acked, Kept op s) : Sound grouped s := by
  have off (closed : s.swapping = false) : False := absurd (closed.symm.trans opened) (by decide)
  exact ⟨renamed, fun _ => swapped, safe, fun closed => (off closed).elim,
    fun closed => (off closed).elim, fun _ closed => (off closed).elim,
    fun _ closed => (off closed).elim, mutated, acked⟩

theorem may_reopenFile (store : .store ∈ held) (cut : s.cut = some f) (opened : s.swapping = true)
    (safe : f.safe ≤ f.records.length) : May queues grouped held s (s.reopenFile f) := by
  have kept : ∀ op, Listed op s → Kept op (s.reopenFile f) :=
    fun op known => ⟨known, List.mem_append.2 (.inl (known.2 f cut))⟩
  refine ⟨fun sound => ?_, ?_⟩
  · exact .of_swapping opened nofun ⟨(sound.swapped opened).1, f, cut, List.Subset.refl _⟩ safe
      (fun op mem => kept op (sound.mutated op mem).1)
      (fun trusted op mem => kept op (sound.acked trusted op mem).1)
  · exact rely_swap store opened kept (Nat.le_succ _) (fun same => absurd same (Nat.succ_ne_self s.gen))
      id rfl

theorem may_storeWalSeq (sound : Sound grouped s) (count : Nat) (store : .store ∈ held)
    (opened : s.swapping = true) : May queues grouped held s (s.storeWalSeq count) := by
  obtain ⟨-, g, cut, sub⟩ := sound.swapped opened
  refine ⟨fun sound => ?_, ?_⟩
  · exact .of_swapping opened sound.renamed (sound.swapped opened) sound.safe sound.mutated
      sound.acked
  · exact rely_swap store opened (fun _ => kept_of_published cut sub) le_rfl (fun _ => List.prefix_rfl)
      id rfl

/-- The swap ends with the counters on the records of the new file. -/
theorem may_storeSyncedSeq (sound : Sound grouped s) (store : .store ∈ held)
    (opened : s.swapping = true) (renamed : s.renamed = none) (marks : s.marks = [])
    (seq : grouped → s.walSeq = s.file.folded) :
    May queues grouped held s (s.storeSyncedSeq s.file.folded) := by
  obtain ⟨-, g, cut, sub⟩ := sound.swapped opened
  have kept : ∀ op, Listed op s → Kept op (s.storeSyncedSeq s.file.folded) :=
    fun op known => ⟨⟨known.1, nofun⟩, (kept_of_published cut sub known).2⟩
  refine ⟨fun sound => ?_, ?_⟩
  · exact
      { renamed := fun h taken => absurd (renamed.symm.trans taken) (by simp)
        swapped := nofun
        safe := sound.safe
        bound := fun _ m mem => absurd (marks ▸ mem : m ∈ []) List.not_mem_nil
        low := fun _ k pos le => by
          have none : s.marks.length = 0 := by rw [marks]; rfl
          have : k ≤ s.marks.length := le
          omega
        counted := fun trusted _ => by
          have none : s.marks.length = 0 := by rw [marks]; rfl
          have := seq trusted
          show s.walSeq = s.file.folded + s.marks.length
          omega
        covered := fun _ _ => by
          refine ⟨Nat.le_add_right _ _, fun m mem => ?_⟩
          have inside : m ∈ s.marks := List.mem_of_mem_take mem
          rw [marks] at inside
          cases inside
        mutated := fun op mem => kept op (sound.mutated op mem).1
        acked := fun trusted op mem => kept op (sound.acked trusted op mem).1 }
  · exact rely_swap store opened kept le_rfl (fun _ => List.prefix_rfl) (fun _ => rfl) rfl

end Checkpoint

end KuttiDB.QueueStore.GroupSync
