/- # KuttiDB.QueueStore.SyncDiscipline -- what the threads of the log keep to

An operation is `Kept` once a restart finds it: its effect is in memory, in the snapshot of a
checkpoint that is running, and in the durable part of the file at the path.

`Sound` is what always holds. Outside of the swap the counter numbers the marks, and the numbers up
to the synced counter mark positions that a sync has covered. `Rely` is what a thread may do to the
others: the log of one file only grows, and whoever replaces the file has everything in the new one.

`grouped` is the condition under which the counters can be trusted; without it only the operations
that sync under the log lock are.
-/
import KuttiDB.QueueStore.GroupSync
import Mathlib.Data.List.Infix

namespace KuttiDB.QueueStore.GroupSync

open KuttiDB.Theory

set_option autoImplicit false

/-! ## Where an operation is -/

/-- In memory, and in the snapshot if one was taken. -/
def Listed (op : Nat) (s : Wal) : Prop := op ∈ s.applied ∧ ∀ f, s.cut = some f → op ∈ f.base

def Kept (op : Nat) (s : Wal) : Prop := Listed op s ∧ op ∈ s.path.durable

/-- Counted in the current file. -/
def Logged (op : Nat) (s : Wal) : Prop := ∃ m ∈ s.marks, op ∈ s.log.take m

/-- Among the records that `target` counts. -/
def Marked (op target : Nat) (s : Wal) : Prop :=
  ∃ m ∈ s.marks.take (target - s.file.folded), op ∈ s.log.take m

/-- A sync has covered the records that `target` counts. -/
def Covered (target : Nat) (s : Wal) : Prop :=
  target ≤ s.file.folded + s.marks.length ∧
    ∀ m ∈ s.marks.take (target - s.file.folded), m ≤ s.file.safe

/-- The same file, with more in it. -/
structure Onward (s s' : Wal) : Prop where
  gen : s'.gen = s.gen
  base : s'.file.base = s.file.base
  folded : s'.file.folded = s.file.folded
  records : s.file.records <+: s'.file.records
  log : s.log <+: s'.log
  marks : s.marks <+: s'.marks
  safe : s.file.safe ≤ s'.file.safe
  seq : s.walSeq ≤ s'.walSeq

/-- What the holder of the log lock has to itself. -/
structure SameLog (s s' : Wal) : Prop where
  gen : s'.gen = s.gen
  base : s'.file.base = s.file.base
  folded : s'.file.folded = s.file.folded
  records : s'.file.records = s.file.records
  staged : s'.staged = s.staged
  marks : s'.marks = s.marks

/-! ## What always holds -/

structure Sound (grouped : Prop) (s : Wal) : Prop where
  renamed : ∀ f, s.renamed = some f → s.cut = some f
  swapped : s.swapping = true → s.staged = [] ∧ ∃ f, s.cut = some f ∧ f.base ⊆ s.path.base
  safe : s.file.safe ≤ s.file.records.length
  bound : s.swapping = false → ∀ m ∈ s.marks, m ≤ s.log.length
  low : s.swapping = false → ∀ k, 0 < k → k ≤ s.marks.length → ∃ m ∈ s.marks.take k, k ≤ m
  counted : grouped → s.swapping = false → s.walSeq = s.file.folded + s.marks.length
  covered : grouped → s.swapping = false → Covered s.syncedSeq s
  mutated : ∀ op ∈ s.mutated, Kept op s
  acked : grouped → ∀ op ∈ s.acked, Kept op s

/-- The locks of the queue store, which a checkpoint takes all of. -/
def storeLocks (queues : List Nat) : List WalLock := .store :: queues.map .queue

/-- What a thread that holds `held` leaves to the others. -/
structure Rely (queues : List Nat) (grouped : Prop) (held : Set WalLock) (s s' : Wal) : Prop where
  listed : ∀ op, Listed op s → Listed op s'
  kept : ∀ op, Kept op s → Kept op s'
  onward : s.swapping = false → s'.swapping = false → Onward s s'
  replaced : Onward s s' ∨ ∀ op, Listed op s → Kept op s'
  gen : s.gen ≤ s'.gen
  grows : s'.gen = s.gen → s.file.records <+: s'.file.records
  cut : s.cut = none → s'.cut = none ∨ .state ∈ held ∧ ∀ l ∈ storeLocks queues, l ∈ held
  owner : .store ∉ held →
    s'.cut = s.cut ∧ s'.renamed = s.renamed ∧ s'.swapping = s.swapping
  still : .store ∉ held → s.swapping = true →
    SameLog s s' ∧ (grouped → s'.walSeq = s.walSeq)
  quiet : .wal ∉ held → s.swapping = false →
    SameLog s s' ∧ s'.walSeq = s.walSeq ∧ s'.syncedSeq = s.syncedSeq
  opens : s.swapping = false → s'.swapping = true → .wal ∈ held ∧ (grouped → s.syncer = false)
  flag : .syncer ∉ held → s'.syncer = s.syncer
  flagged : .wal ∉ held → s'.syncer = s.syncer

/-- The promises of the locks while nobody holds them. -/
def LockFree (queues : List Nat) : WalLock → Wal → Prop
  | .store, s => s.cut = none ∧ s.renamed = none ∧ s.swapping = false
  | .queue i, s => i ∈ queues → s.cut = none
  | .syncer, s => s.syncer = false
  | .state, _ => True
  | .wal, _ => True

theorem Onward.refl (s : Wal) : Onward s s :=
  ⟨rfl, rfl, rfl, List.prefix_rfl, List.prefix_rfl, List.prefix_rfl, le_rfl, le_rfl⟩

theorem SameLog.refl (s : Wal) : SameLog s s := ⟨rfl, rfl, rfl, rfl, rfl, rfl⟩

variable {queues : List Nat} {grouped : Prop} {held : Set WalLock} {s s' : Wal}

theorem Rely.refl (s : Wal) : Rely queues grouped held s s where
  listed := fun _ known => known
  kept := fun _ known => known
  onward := fun _ _ => .refl s
  replaced := .inl (.refl s)
  gen := le_rfl
  grows := fun _ => List.prefix_rfl
  cut := fun none => .inl none
  owner := fun _ => ⟨rfl, rfl, rfl⟩
  still := fun _ _ => ⟨.refl s, fun _ => rfl⟩
  quiet := fun _ _ => ⟨.refl s, rfl, rfl⟩
  opens := fun closed opened => absurd (closed.symm.trans opened) (by decide)
  flag := fun _ => rfl
  flagged := fun _ => rfl

theorem Rely.lockFree {l : WalLock} (rely : Rely queues grouped held s s') (apart : l ∉ held)
    (free : LockFree queues l s) : LockFree queues l s' := by
  cases l with
  | store =>
      obtain ⟨cut, renamed, swapping⟩ := rely.owner apart
      exact ⟨cut.trans free.1, renamed.trans free.2.1, swapping.trans free.2.2⟩
  | queue i =>
      intro mem
      rcases rely.cut (free mem) with cut | ⟨-, all⟩
      · exact cut
      · exact absurd (all _ (by simp [storeLocks, mem])) apart
  | syncer => exact (rely.flag apart).trans free
  | state => trivial
  | wal => trivial

/-- The discipline of the log. -/
def syncDiscipline (queues : List Nat) (grouped : Prop) : Discipline Wal WalLock where
  inv := Sound grouped
  lockInv := LockFree queues
  may := fun held s s' => (Sound grouped s → Sound grouped s') ∧ Rely queues grouped held s s'
  may_refl := fun _ s => ⟨fun sound => sound, .refl s⟩
  inv_step := fun sound may => may.1 sound
  lockInv_step := fun _ apart free may => may.2.lockFree apart free

/-! ## Facts about one state -/

theorem Sound.closed (sound : Sound grouped s) (cut : s.cut = none) : s.swapping = false := by
  cases phase : s.swapping with
  | false => rfl
  | true =>
      obtain ⟨-, f, some, -⟩ := sound.swapped phase
      rw [cut] at some
      cases some

theorem Sound.path_file (sound : Sound grouped s) (cut : s.cut = none) : s.path = s.file := by
  cases renamed : s.renamed with
  | none => simp [Wal.path, renamed]
  | some f =>
      have taken := sound.renamed f renamed
      rw [cut] at taken
      cases taken

theorem Sound.marks_le (sound : Sound grouped s) (closed : s.swapping = false) :
    s.marks.length ≤ s.log.length := by
  rcases Nat.eq_zero_or_pos s.marks.length with none | some
  · omega
  · obtain ⟨m, mem, le⟩ := sound.low closed s.marks.length some le_rfl
    exact le.trans (sound.bound closed m (List.mem_of_mem_take mem))

theorem mem_durable_mono {f g : LogFile} {op : Nat} (base : g.base = f.base)
    (records : f.records <+: g.records) (safe : f.safe ≤ g.safe) (mem : op ∈ f.durable) :
    op ∈ g.durable := by
  rcases List.mem_append.1 mem with old | logged
  · exact List.mem_append.2 (.inl (base ▸ old))
  · have shorter : f.records.take f.safe <+: g.records.take g.safe :=
      (List.take_prefix_take_left safe).trans (List.IsPrefix.take records g.safe)
    exact List.mem_append.2 (.inr (shorter.subset logged))

/-- While the renamed file is in place everything listed is in it. -/
theorem kept_of_published {op : Nat} {f : LogFile} (cut : s.cut = some f)
    (sub : f.base ⊆ s.path.base) (listed : Listed op s) : Kept op s :=
  ⟨listed, List.mem_append.2 (.inl (sub (listed.2 f cut)))⟩

theorem Marked.mem_durable {op target : Nat} (sound : Sound grouped s) (marked : Marked op target s)
    (covered : Covered target s) : op ∈ s.file.durable := by
  obtain ⟨m, mem, found⟩ := marked
  have safe : m ≤ s.file.safe := covered.2 m mem
  refine List.mem_append.2 (.inr ?_)
  have written : s.log.take m <+: s.file.records.take s.file.safe := by
    rw [Wal.log, List.take_append_of_le_length (safe.trans sound.safe)]
    exact List.take_prefix_take_left safe
  exact written.subset found

theorem Marked.mono {op target target' : Nat} (le : target ≤ target') (marked : Marked op target s) :
    Marked op target' s := by
  obtain ⟨m, mem, found⟩ := marked
  exact ⟨m, (List.take_subset_take_left _ (Nat.sub_le_sub_right le _)) mem, found⟩

/-- The counter never runs ahead of the records that are covered. -/
theorem Covered.le_covered {target : Nat} (sound : Sound grouped s) (closed : s.swapping = false)
    (covered : Covered target s) : target ≤ s.file.covered := by
  rcases Nat.lt_or_ge s.file.folded target with above | below
  · obtain ⟨m, mem, le⟩ := sound.low closed (target - s.file.folded) (by omega)
      (by have := covered.1; omega)
    have := covered.2 m mem
    unfold LogFile.covered
    omega
  · unfold LogFile.covered
    omega

/-- Durable in the current file is durable at the path, for what is listed. -/
theorem kept_of_durable {op : Nat} (sound : Sound grouped s) (listed : Listed op s)
    (durable : op ∈ s.file.durable) : Kept op s := by
  refine ⟨listed, ?_⟩
  cases renamed : s.renamed with
  | none => simpa [Wal.path, renamed] using durable
  | some f =>
      have inside := listed.2 f (sound.renamed f renamed)
      simp only [Wal.path, renamed, Option.getD_some]
      exact List.mem_append.2 (.inl inside)

/-! ## Ordinary steps -/

/-- A step that is no part of a checkpoint. -/
structure Ordinary (s s' : Wal) : Prop extends Onward s s' where
  renamed : s'.renamed = s.renamed
  cut : s'.cut = s.cut
  swapping : s'.swapping = s.swapping
  applied : s.applied ⊆ s'.applied

theorem Ordinary.listed {op : Nat} (step : Ordinary s s') (known : Listed op s) : Listed op s' :=
  ⟨step.applied known.1, fun f taken => known.2 f (step.cut ▸ taken)⟩

theorem Ordinary.kept {op : Nat} (step : Ordinary s s') (known : Kept op s) : Kept op s' := by
  refine ⟨step.listed known.1, ?_⟩
  have durable := known.2
  cases renamed : s.renamed with
  | none =>
      simp only [Wal.path, renamed, step.renamed, Option.getD_none] at durable ⊢
      exact mem_durable_mono step.base step.records step.safe durable
  | some f => simpa [Wal.path, renamed, step.renamed] using durable

theorem Ordinary.path_base (step : Ordinary s s') : s'.path.base = s.path.base := by
  cases renamed : s.renamed with
  | none => simpa [Wal.path, renamed, step.renamed] using step.base
  | some f => simp [Wal.path, renamed, step.renamed]

/-- What an ordinary step leaves to the others, given what it does with the log lock. -/
theorem Ordinary.rely (step : Ordinary s s')
    (still : s.swapping = true → SameLog s s' ∧ (grouped → s'.walSeq = s.walSeq))
    (quiet : .wal ∉ held → SameLog s s' ∧ s'.walSeq = s.walSeq ∧ s'.syncedSeq = s.syncedSeq)
    (flag : s'.syncer = s.syncer ∨ .syncer ∈ held ∧ .wal ∈ held) :
    Rely queues grouped held s s' where
  listed := fun _ => step.listed
  kept := fun _ => step.kept
  onward := fun _ _ => step.toOnward
  replaced := .inl step.toOnward
  gen := step.gen.ge
  grows := fun _ => step.records
  cut := fun none => .inl (step.cut.trans none)
  owner := fun _ => ⟨step.cut, step.renamed, step.swapping⟩
  still := fun _ => still
  quiet := fun out _ => quiet out
  opens := fun closed opened =>
    absurd (closed.symm.trans (step.swapping.symm.trans opened)) (by decide)
  flag := fun out => flag.resolve_right (fun both => out both.1)
  flagged := fun out => flag.resolve_right (fun both => out both.2)

/-- An ordinary step keeps what always holds, given what it does to the counts. -/
theorem Ordinary.sound (step : Ordinary s s') (sound : Sound grouped s)
    (still : s.swapping = true → SameLog s s')
    (safe : s'.file.safe ≤ s'.file.records.length)
    (counts : s.swapping = false → (∀ m ∈ s'.marks, m ≤ s'.log.length) ∧
      (∀ k, 0 < k → k ≤ s'.marks.length → ∃ m ∈ s'.marks.take k, k ≤ m) ∧
      (grouped → s'.walSeq = s'.file.folded + s'.marks.length ∧ Covered s'.syncedSeq s'))
    (mutated : ∀ op ∈ s'.mutated, op ∈ s.mutated ∨ Kept op s')
    (acked : grouped → ∀ op ∈ s'.acked, op ∈ s.acked ∨ Kept op s') : Sound grouped s' where
  renamed := fun f taken => step.cut.trans (sound.renamed f (step.renamed ▸ taken))
  swapped := by
    intro phase
    have before : s.swapping = true := step.swapping ▸ phase
    obtain ⟨staged, f, cut, sub⟩ := sound.swapped before
    exact ⟨(still before).staged.trans staged, f, step.cut.trans cut, step.path_base ▸ sub⟩
  safe := safe
  bound := fun phase => (counts (step.swapping ▸ phase)).1
  low := fun phase => (counts (step.swapping ▸ phase)).2.1
  counted := fun trusted phase => ((counts (step.swapping ▸ phase)).2.2 trusted).1
  covered := fun trusted phase => ((counts (step.swapping ▸ phase)).2.2 trusted).2
  mutated := fun op mem => (mutated op mem).elim (fun old => step.kept (sound.mutated op old)) id
  acked := fun trusted op mem =>
    (acked trusted op mem).elim (fun old => step.kept (sound.acked trusted op old)) id

end KuttiDB.QueueStore.GroupSync
