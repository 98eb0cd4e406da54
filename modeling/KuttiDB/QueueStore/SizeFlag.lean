/- # KuttiDB.QueueStore.SizeFlag -- when a sync of the log leaves out the file size

A reservation grows the log ahead of its records and clears `wal_size_synced`; the end of any sync
sets it, and while it is set a sync is of the data alone. `begin` and `finish` are what a sync does
under the log lock. `sync_log` and the leader of a group sync release the lock in between; the other
syncs finish at once.

The end of a sync cannot tell whether the log has grown since it began, so the flag may come to stand
for a size no sync has written (`growth_overtakes`). `size_flag_iff` says in which runs it does not.
-/
import Mathlib.Logic.Function.Basic

namespace KuttiDB.QueueStore.SizeFlag

set_option autoImplicit false

def queueWalPrealloc : Nat := 8 * 1024 * 1024
def walBufCap : Nat := 256 * 1024

/-- Whether the file system grants a reservation and whether the write after it succeeds. -/
structure Disk where
  granted : Bool
  wrote : Bool
  deriving DecidableEq, Repr

/-- A sync under way: whether it is of the data alone, and the growths before it began. -/
structure Sync where
  datasync : Bool
  start : Nat
  deriving DecidableEq, Repr

/-- The fields from `running` on are no fields of the store. `grown` counts the growths; `covered`
has, for every full sync that has ended, the growths before it began. -/
structure WalSize where
  walOff : Nat
  walAllocEnd : Nat := 0
  walSizeSynced : Bool := false
  walBufLen : Nat := 0
  running : Nat → Option Sync := fun _ => none
  grown : Nat := 0
  covered : List Nat := []

/-- `unstage`: a failed batch or a checkpoint takes bytes out of the buffer. `swap`: a checkpoint has
put a file of `size` bytes in the place of the log. -/
inductive SizeStep where
  | stage (buffer : Bool) (flush write : Disk) (total : Nat)
  | flush (disk : Disk)
  | unstage (len : Nat)
  | begin (i : Nat) (disk : Disk)
  | finish (i : Nat) (ok : Bool)
  | swap (size : Nat)
  deriving DecidableEq, Repr

namespace WalSize

def walReserveLocked (granted : Bool) (need : Nat) (w : WalSize) : WalSize :=
  if w.walOff + need ≤ w.walAllocEnd then w
  else if granted then
    { w with
      walAllocEnd := w.walOff + need + queueWalPrealloc, walSizeSynced := false, grown := w.grown + 1 }
  else { w with walAllocEnd := 0 }

/-- Reserves and writes; `next` is what follows a write that succeeds. -/
def writeAll (disk : Disk) (need : Nat) (w : WalSize) (next : WalSize → WalSize) : WalSize :=
  let w := w.walReserveLocked disk.granted need
  if disk.wrote then next { w with walOff := w.walOff + need } else w

def walFlushLocked (disk : Disk) (w : WalSize) (next : WalSize → WalSize) : WalSize :=
  if w.walBufLen = 0 then next w
  else w.writeAll disk w.walBufLen fun w => next { w with walBufLen := 0 }

/-- `buffer`: there is one, from now on or from before. -/
def walStageLocked (buffer : Bool) (flush write : Disk) (total : Nat) (w : WalSize) : WalSize :=
  let copy (w : WalSize) : WalSize := { w with walBufLen := w.walBufLen + total }
  if !buffer || total > walBufCap then w.walFlushLocked flush fun w => w.writeAll write total id
  else if w.walBufLen + total > walBufCap then w.walFlushLocked flush copy
  else copy w

def walSyncDatasyncLocked (w : WalSize) : Bool := w.walAllocEnd != 0 && w.walSizeSynced

def begin (i : Nat) (disk : Disk) (w : WalSize) : WalSize :=
  w.walFlushLocked disk fun w =>
    { w with running := Function.update w.running i (some ⟨w.walSyncDatasyncLocked, w.grown⟩) }

/-- With `wal_sync_done_locked` if the sync went well. -/
def finish (i : Nat) (ok : Bool) (w : WalSize) : WalSize :=
  match w.running i, ok with
  | none, _ => w
  | some _, false => { w with running := Function.update w.running i none }
  | some sync, true =>
    { w with
      running := Function.update w.running i none, walSizeSynced := true
      covered := if sync.datasync then w.covered else sync.start :: w.covered }

def step (w : WalSize) : SizeStep → WalSize
  | .stage buffer flush write total => w.walStageLocked buffer flush write total
  | .flush disk => w.walFlushLocked disk id
  | .unstage len => { w with walBufLen := len }
  | .begin i disk => w.begin i disk
  | .finish i ok => w.finish i ok
  | .swap size => { w with walOff := size, walAllocEnd := 0, walSizeSynced := false }

def run (w : WalSize) (steps : List SizeStep) : WalSize := steps.foldl step w

/-- A full sync that began after the last growth has ended. -/
def Durable (w : WalSize) : Prop := w.grown ∈ w.covered

/-- The flag is set only while the size is durable, and a sync of the data alone began when it was. -/
structure Right (w : WalSize) : Prop where
  flag : w.walSizeSynced = true → w.Durable
  datasync : ∀ i sync, w.running i = some sync → sync.datasync = true → sync.start ∈ w.covered

/-- The log has not grown during a sync that ends well, or its size is durable all the same. -/
def Timely (w : WalSize) : SizeStep → Prop
  | .finish i true => ∀ sync, w.running i = some sync → w.Durable ∨ sync.start = w.grown
  | _ => True

def TimelyRun (w : WalSize) : List SizeStep → Prop
  | [] => True
  | s :: rest => w.Timely s ∧ (w.step s).TimelyRun rest

variable {w : WalSize}

/-! ## Writing and beginning a sync -/

theorem Right.reserve (right : w.Right) (granted : Bool) (need : Nat) :
    (w.walReserveLocked granted need).Right := by
  unfold walReserveLocked
  split
  · exact right
  · split
    -- a growth clears the flag with the same store
    · exact { flag := Bool.noConfusion, datasync := right.datasync }
    · exact ⟨right.flag, right.datasync⟩

theorem Right.writeAll (right : w.Right) (disk : Disk) (need : Nat) {next : WalSize → WalSize}
    (go : ∀ v : WalSize, v.Right → (next v).Right) : (w.writeAll disk need next).Right := by
  have reserved := right.reserve disk.granted need
  simp only [WalSize.writeAll]
  split
  · exact go _ ⟨reserved.flag, reserved.datasync⟩
  · exact reserved

theorem Right.flush (right : w.Right) (disk : Disk) {next : WalSize → WalSize}
    (go : ∀ v : WalSize, v.Right → (next v).Right) : (w.walFlushLocked disk next).Right := by
  unfold walFlushLocked
  split
  · exact go w right
  · exact right.writeAll disk _ fun v right => go _ ⟨right.flag, right.datasync⟩

theorem Right.stage (right : w.Right) (buffer : Bool) (flush write : Disk) (total : Nat) :
    (w.walStageLocked buffer flush write total).Right := by
  simp only [walStageLocked]
  split
  · exact right.flush flush fun v right => right.writeAll write total fun _ => id
  · split
    · exact right.flush flush fun v right => ⟨right.flag, right.datasync⟩
    · exact ⟨right.flag, right.datasync⟩

theorem Right.begin (right : w.Right) (i : Nat) (disk : Disk) : (w.begin i disk).Right := by
  refine right.flush disk fun v right => ⟨right.flag, fun j sync found data => ?_⟩
  simp only [Function.update_apply] at found
  split at found
  · cases found
    exact right.flag (Bool.and_eq_true_iff.mp data).2
  · exact right.datasync j sync found data

/-! ## The end of a sync -/

theorem Right.stop (right : w.Right) (i j : Nat) {sync : Sync}
    (found : Function.update w.running i none j = some sync) (data : sync.datasync = true) :
    sync.start ∈ w.covered := by
  rw [Function.update_apply] at found
  split at found
  · cases found
  · exact right.datasync j sync found data

/-- What is covered once the sync has ended: a sync of the data alone adds nothing new. -/
theorem Right.covers_iff (right : w.Right) {i : Nat} {sync : Sync} (found : w.running i = some sync)
    (n : Nat) : (n ∈ if sync.datasync then w.covered else sync.start :: w.covered) ↔
      n ∈ w.covered ∨ sync.start = n := by
  cases data : sync.datasync with
  | false => simp [or_comm, eq_comm]
  | true =>
    have known := right.datasync i sync found data
    exact (or_iff_left_of_imp fun same => same ▸ known).symm

theorem Right.finish (right : w.Right) (i : Nat) (ok : Bool) :
    (w.finish i ok).Right ↔ w.Timely (.finish i ok) := by
  cases found : w.running i with
  | none =>
    have same : w.finish i ok = w := by simp only [WalSize.finish, found]
    rw [same]
    exact iff_of_true right (by cases ok <;> simp [Timely, found])
  | some sync =>
    simp only [WalSize.finish, found]
    cases ok with
    | false => exact iff_of_true ⟨right.flag, fun j _ => right.stop i j⟩ trivial
    | true =>
      have covers := right.covers_iff found
      simp only [Timely, found, Option.some.injEq, forall_eq']
      constructor
      · intro after
        exact (covers w.grown).mp (after.flag rfl)
      · intro timely
        exact ⟨fun _ => (covers w.grown).mpr timely,
          fun j other running data => (covers other.start).mpr (.inl (right.stop i j running data))⟩

/-! ## Runs -/

theorem Right.step (right : w.Right) (s : SizeStep) : (w.step s).Right ↔ w.Timely s := by
  cases s with
  | stage buffer flush write total => exact iff_of_true (right.stage buffer flush write total) trivial
  | flush disk => exact iff_of_true (right.flush disk fun _ => id) trivial
  | unstage len => exact iff_of_true ⟨right.flag, right.datasync⟩ trivial
  | begin i disk => exact iff_of_true (right.begin i disk) trivial
  | finish i ok => exact right.finish i ok
  | swap size => exact iff_of_true { flag := Bool.noConfusion, datasync := right.datasync } trivial

theorem Right.run (right : w.Right) (steps : List SizeStep) :
    (∀ done, done <+: steps → (w.run done).Right) ↔ w.TimelyRun steps := by
  induction steps generalizing w with
  | nil => exact iff_of_true (fun done empty => List.prefix_nil.mp empty ▸ right) trivial
  | cons s rest ih =>
    -- the empty prefix is the state itself
    simp only [List.prefix_cons_iff, or_imp, forall_and, forall_eq, forall_exists_index, and_imp]
    constructor
    · rintro ⟨-, all⟩
      have next : (w.step s).Right := all [s] [] rfl List.nil_prefix
      exact ⟨(right.step s).mp next, (ih next).mp fun done within => all _ done rfl within⟩
    · rintro ⟨timely, later⟩
      refine ⟨right, ?_⟩
      rintro _ done rfl within
      exact (ih ((right.step s).mpr timely)).mpr later done within

end WalSize

/-- From the opening of a log on, the flag and the choice of the syncs are right in every state of a
run exactly if no sync ends well that the log has outgrown. -/
theorem size_flag_iff (size : Nat) (steps : List SizeStep) :
    (∀ done, done <+: steps → (({ walOff := size } : WalSize).run done).Right) ↔
      ({ walOff := size } : WalSize).TimelyRun steps :=
  WalSize.Right.run { flag := Bool.noConfusion, datasync := fun _ _ found => by cases found } steps

/-- A record of nine MiB is published while a leader syncs two short ones. The end of that sync sets
the flag for a size it did not write, and the sync of the long record is of its data alone. -/
theorem growth_overtakes :
    let disk : Disk := ⟨true, true⟩
    let w := ({ walOff := 0 } : WalSize).run
      [.stage true disk disk 100, .flush disk, .stage true disk disk 100, .flush disk, .begin 0 disk,
        .stage true disk disk (9 * 1024 * 1024), .flush disk, .finish 0 true, .begin 1 disk]
    w.walSizeSynced = true ∧ w.running 1 = some ⟨true, 2⟩ ∧ w.grown = 2 ∧ w.covered = [1] ∧
      ¬ w.Right := by
  refine ⟨rfl, rfl, rfl, rfl, fun right => ?_⟩
  have durable : 2 ∈ [1] := right.flag rfl
  simp at durable

end KuttiDB.QueueStore.SizeFlag
