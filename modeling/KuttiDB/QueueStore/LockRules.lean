/- # KuttiDB.QueueStore.LockRules -- the lock order of the queue store

One derivation per operation: which locks it holds at each point, in which order it waits for further
ones, and that it adds a message only where it has found room. Balance of the locks, freedom from
deadlock and the bounds of the queues are all read off these derivations.

`asks` is the order: the store lock comes first, then queues, then the lock of the job engine, and the
log lock last. Among queues there are two orders, that of `exchange_publish` and `queue_job_commit`
and that of a checkpoint.
-/
import KuttiDB.QueueStore.Reservations
import Mathlib.Data.List.Dedup

namespace KuttiDB.QueueStore.Locks

open KuttiDB.Theory

set_option autoImplicit false

/-! ## The order -/

/-- What may be held where a thread waits for a lock. -/
def asks (held : Set QLock) : QSite → QLock → Prop
  | .store, l => l = .store ∧ held = ∅
  | .first, l => (∃ i, l = .queue i) ∧ (∀ j, .queue j ∉ held) ∧ .state ∉ held ∧ .wal ∉ held
  | .climb, l => (∃ i, l = .queue i ∧ ∀ j, .queue j ∈ held → j < i) ∧ .state ∉ held ∧ .wal ∉ held
  | .collect, l => (∃ i, l = .queue i) ∧ .store ∈ held ∧ .state ∉ held ∧ .wal ∉ held
  | .state, l => l = .state ∧ .wal ∉ held
  | .wal, l => l = .wal
  | .attempt, _ => False

/-- The path keeps to the order and to its grant. -/
abbrev Keeps (exit : Int → Set QLock → Prop) (p : Path) (held : Set QLock) (g : Grant) : Prop :=
  Prog.Paced Grant.account asks exit p held g

section Rules

variable {exit : Int → Set QLock → Prop} {held : Set QLock} {g : Grant} {i j count : Nat}
  {next usual other written refused synced reached : Path}

/-! ## Steps -/

theorem keeps_pick {next : Nat → Path} (go : ∀ n, Keeps exit (next n) held g) :
    Keeps exit (pick next) held g :=
  .act _ (Grant.allows_quiet (fun _ => rfl) fun _ => rfl) fun s => go (s.outcomes.headD 0)

theorem keeps_either (onUsual : Keeps exit usual held g) (onOther : Keeps exit other held g) :
    Keeps exit (either usual other) held g := by
  refine keeps_pick fun n => ?_
  split
  · exact onUsual
  · exact onOther

theorem keeps_read {next : Shared → Path} (go : ∀ s, Keeps exit (next s) held g) :
    Keeps exit (.read next) held g :=
  .read (Grant.allows_quiet (fun _ => rfl) fun _ => rfl) go

theorem keeps_remove (go : Keeps exit next held g) :
    Keeps exit (.write (Shared.remove i) next) held g :=
  .write (Grant.allows_remove i) go

/-! ## The log -/

theorem keeps_wal (noWal : .wal ∉ held) (go : Keeps exit next (insert .wal held) g) :
    Keeps exit (.lock .wal .wal next) held g :=
  .lock noWal rfl go

theorem keeps_unlockWal (noWal : .wal ∉ held) (go : Keeps exit next held g) :
    Keeps exit (.unlock .wal next) (insert .wal held) g :=
  .release noWal trivial go

theorem keeps_appendRecord (noWal : .wal ∉ held) (onWritten : Keeps exit written held g)
    (onRefused : Keeps exit refused held g) : Keeps exit (appendRecord written refused) held g :=
  keeps_either
    (keeps_wal noWal
      (keeps_either (keeps_unlockWal noWal onWritten) (keeps_unlockWal noWal onRefused)))
    (keeps_either onWritten onRefused)

theorem keeps_syncLog (noWal : .wal ∉ held) (onSynced : Keeps exit synced held g)
    (onRefused : Keeps exit refused held g) : Keeps exit (syncLog synced refused) held g := by
  have done := keeps_unlockWal noWal onSynced
  have again := keeps_wal noWal (keeps_either done (keeps_unlockWal noWal onRefused))
  exact keeps_either
    (keeps_wal noWal (keeps_either (keeps_unlockWal noWal (keeps_either again onRefused)) done))
    onRefused

theorem keeps_waitDurable (noWal : .wal ∉ held) (onReached : Keeps exit reached (insert .wal held) g)
    (onRefused : Keeps exit refused (insert .wal held) g) (rounds : Nat) :
    Keeps exit (waitDurable reached refused rounds) (insert .wal held) g := by
  induction rounds with
  | zero => exact onRefused
  | succ round again =>
    rw [waitDurable]
    refine keeps_pick fun n => ?_
    split
    · exact onReached
    · exact keeps_either
        (keeps_unlockWal noWal (keeps_wal noWal (keeps_either again onRefused))) onRefused
    · exact keeps_unlockWal noWal (keeps_wal noWal again)
    · exact keeps_either onReached onRefused
    · exact onRefused

theorem keeps_joinSync (noWal : .wal ∉ held) (onSynced : Keeps exit synced held g)
    (onRefused : Keeps exit refused held g) (rounds : Nat) :
    Keeps exit (joinSync rounds synced refused) held g :=
  keeps_either
    (keeps_wal noWal (keeps_waitDurable noWal (keeps_unlockWal noWal onSynced)
      (keeps_unlockWal noWal onRefused) rounds))
    onSynced

/-! ## Room -/

/-- What is known behind a look for room: the thread is inside only if no one was. -/
structure Admission (i : Nat) (mine : Bool) (held : Set QLock) (g : Grant) : Prop where
  fresh : mine = true → .inside i ∉ held
  covers : Grant.Covers held g

theorem noWal_entered (i : Nat) (mine : Bool) (noWal : .wal ∉ held) :
    .wal ∉ Grant.entered i mine held := by
  cases mine
  · exact noWal
  · simpa [Grant.entered] using noWal

theorem keeps_leave {mine : Bool} (count : Nat) (admission : Admission i mine held g)
    (go : Keeps exit next held g) :
    Keeps exit (leave i mine next) (Grant.entered i mine held) (g.granted i count mine) := by
  refine .weaken (Grant.implies_granted admission.covers admission.fresh) ?_
  cases mine with
  | false => exact go
  | true =>
    have fresh := admission.fresh rfl
    exact .release fresh (Grant.frees_inside admission.covers fresh) go

theorem keeps_findRoom {admitted : Bool → Path} {full : Path}
    (onAdmitted : ∀ mine, Admission i mine held g →
      Keeps exit (admitted mine) (Grant.entered i mine held) (g.granted i count mine))
    (onFull : Keeps exit full held g) : Keeps exit (findRoom i count admitted full) held g := by
  refine .tryLock (fun fresh covers => ?_) fun covers => .write Grant.allows_overlap ?_
  · refine .act _ (Grant.allows_look count (Set.mem_insert _ _)) fun s => ?_
    by_cases room : s.room i count = true
    · simp only [room, if_true]
      exact onAdmitted true ⟨fun _ => fresh, covers⟩
    · simp only [room, Bool.false_eq_true, if_false]
      exact .release fresh (Grant.frees_inside covers fresh) onFull
  · have admission : Admission i false held g := ⟨fun mine => Bool.noConfusion mine, covers⟩
    refine keeps_read fun s => ?_
    split
    · exact onAdmitted false admission
    · exact keeps_leave count admission onFull

theorem keeps_link {mine : Bool}
    (go : Keeps exit next held (g.granted i count mine)) :
    Keeps exit (.write (Shared.link i) next) held (g.granted i (count + 1) mine) := by
  refine .write (Grant.allows_link Grant.ready_granted) ?_
  rw [Grant.spend_granted]
  exact go

theorem frees_queue (single : g.doubled = none) : Grant.account.frees g (.queue i) := by
  simp [Grant.account, Grant.Frees, single]

/-! ## Dead-letter moves -/

theorem keeps_drop (under : Under) (go : Keeps exit next held g) :
    Keeps exit (drop under i next) held g := by
  cases under with
  | queue => exact keeps_remove go
  | both => exact keeps_remove go
  | store =>
    exact keeps_either (keeps_read fun s => .write (Grant.allows_storeDepth i _) go)
      (.write Grant.allows_forfeit go)

theorem keeps_deadLetterMove {next : Int → Path} (under : Under) (noWal : .wal ∉ held) (fresh : .queue j ∉ held)
    (single : g.doubled = none) (onNext : ∀ code, Keeps exit (next code) held g) :
    Keeps exit (deadLetterMove under i j next) (insert (.queue j) held) g := by
  have noWal' : .wal ∉ insert (QLock.queue j) held := by simpa using noWal
  have frees := frees_queue (i := j) single
  refine keeps_findRoom (fun mine admission => ?_) (.release fresh frees (onNext (-1)))
  have keep : Keeps exit (leave j mine (.unlock (.queue j) (next (-1))))
      (Grant.entered j mine (insert (.queue j) held)) (g.granted j 1 mine) :=
    keeps_leave 1 admission (.release fresh frees (onNext (-1)))
  have move := keeps_either
    (keeps_link (keeps_leave 0 admission
      (.release fresh frees (keeps_drop (i := i) under (onNext 1))))) keep
  have noWal'' := noWal_entered j mine noWal'
  exact keeps_either
    (keeps_appendRecord noWal''
      (keeps_appendRecord noWal'' (keeps_syncLog noWal'' move keep) keep) keep)
    move

theorem keeps_deadLetterEnter {next : Int → Path} (under : Under) (noWal : .wal ∉ held)
    (single : g.doubled = none) (onNext : ∀ code, Keeps exit (next code) held g) (found : Option Nat) :
    Keeps exit (deadLetterEnter under i next found) held g := by
  cases found with
  | none => exact onNext (-1)
  | some j =>
    exact .tryLock (fun fresh _ => keeps_deadLetterMove under noWal fresh single onNext)
      fun _ => onNext (-1)

theorem keeps_deadLetterResolve {next : Option Nat → Path} (noWal : .wal ∉ held)
    (onNext : ∀ found, Keeps exit (next found) held g) :
    Keeps exit (deadLetterResolve next) held g :=
  keeps_either (keeps_pick fun j => onNext (some j))
    (keeps_appendRecord noWal
      (keeps_either (.act _ (Grant.allows_create 0) fun s => onNext (some s.slots.length))
        (onNext none))
      (onNext none))

theorem keeps_deadLetter {next : Int → Path} (under : Under) (noWal : .wal ∉ held)
    (single : g.doubled = none) (onNext : ∀ code, Keeps exit (next code) held g) :
    Keeps exit (deadLetter under i next) held g := by
  have enter : ∀ found, Keeps exit (deadLetterEnter under i next found) held g :=
    keeps_deadLetterEnter under noWal single onNext
  refine keeps_either (onNext 0) ?_
  split
  · refine .tryLock (fun fresh _ => ?_) fun _ => onNext (-1)
    exact keeps_deadLetterResolve (by simpa using noWal) fun found =>
      .release fresh trivial (enter found)
  · exact keeps_deadLetterResolve noWal enter

theorem keeps_reapQueue (under : Under) (noWal : .wal ∉ held) (single : g.doubled = none)
    (go : Keeps exit next held g) : Keeps exit (reapQueue under i next) held g := by
  refine keeps_read fun s => ?_
  induction s.depth i with
  | zero => exact go
  | succ left ih =>
    refine keeps_either ih (keeps_deadLetter under noWal single fun code => ?_)
    split
    · exact keeps_drop under ih
    · exact ih

/-! ## Several queues -/

/-- The locks of these queues. -/
def queues (is : List Nat) : Set QLock := {l | ∃ i ∈ is, l = .queue i}

/-- The places inside these queues. -/
def insides (is : List Nat) : Set QLock := {l | ∃ i ∈ is, l = .inside i}

@[simp] theorem mem_queues (is : List Nat) (l : QLock) : l ∈ queues is ↔ ∃ i ∈ is, l = .queue i :=
  Iff.rfl

@[simp] theorem mem_insides (is : List Nat) (l : QLock) :
    l ∈ insides is ↔ ∃ i ∈ is, l = .inside i :=
  Iff.rfl

@[simp] theorem queues_nil : queues [] = ∅ := by
  simp [queues]

@[simp] theorem insides_nil : insides [] = ∅ := by
  simp [insides]

theorem queues_cons (i : Nat) (is : List Nat) :
    queues (i :: is) ∪ held = insert (.queue i) (queues is ∪ held) := by
  ext l
  simp [queues, or_assoc]

theorem insides_cons (i : Nat) (is : List Nat) :
    insides (i :: is) ∪ held = insert (.inside i) (insides is ∪ held) := by
  ext l
  simp [insides, or_assoc]

theorem queues_reverse (is : List Nat) : queues is.reverse = queues is := by
  simp [queues]

theorem keeps_climbTargets {is : List Nat} (ascending : is.Pairwise (· < ·))
    (above : ∀ j, .queue j ∈ held → ∀ i ∈ is, j < i) (noState : .state ∉ held) (noWal : .wal ∉ held)
    (go : Keeps exit next (queues is ∪ held) g) : Keeps exit (climbTargets next is) held g := by
  induction is generalizing held with
  | nil => simpa [climbTargets] using go
  | cons i rest ih =>
    obtain ⟨first, later⟩ := List.pairwise_cons.mp ascending
    have below : ∀ j, .queue j ∈ held → j < i := fun j mem => above j mem i List.mem_cons_self
    refine .lock (fun mem => lt_irrefl i (below i mem)) ⟨⟨i, rfl, below⟩, noState, noWal⟩ ?_
    refine ih later (fun j mem k tail => ?_) (by simpa using noState) (by simpa using noWal) ?_
    · rcases mem with same | mem
      · cases same
        exact first k tail
      · exact above j mem k (List.mem_cons_of_mem i tail)
    · rwa [Set.union_insert, ← queues_cons]

theorem keeps_lockTargets {is : List Nat} (ascending : is.Pairwise (· < ·))
    (noQueue : ∀ j, .queue j ∉ held) (noState : .state ∉ held) (noWal : .wal ∉ held)
    (go : Keeps exit next (queues is ∪ held) g) : Keeps exit (lockTargets next is) held g := by
  cases is with
  | nil => simpa [lockTargets] using go
  | cons i rest =>
    obtain ⟨first, later⟩ := List.pairwise_cons.mp ascending
    refine .lock (noQueue i) ⟨⟨i, rfl⟩, noQueue, noState, noWal⟩ ?_
    refine keeps_climbTargets later (fun j mem k tail => ?_) (by simpa using noState)
      (by simpa using noWal) (by rwa [Set.union_insert, ← queues_cons])
    rcases mem with same | mem
    · cases same
      exact first k tail
    · exact absurd mem (noQueue j)

theorem keeps_unlockTargets {is : List Nat} (nodup : is.Nodup) (noQueue : ∀ i ∈ is, .queue i ∉ held)
    (single : g.doubled = none) (go : Keeps exit next held g) :
    Keeps exit (unlockTargets next is) (queues is ∪ held) g := by
  induction is with
  | nil => simpa [unlockTargets] using go
  | cons i rest ih =>
    obtain ⟨notTail, nodup⟩ := List.nodup_cons.mp nodup
    rw [queues_cons]
    refine .release ?_ (frees_queue single)
      (ih nodup fun k tail => noQueue k (List.mem_cons_of_mem i tail))
    simp [notTail, noQueue i List.mem_cons_self]

theorem keeps_leaveAll {is : List Nat} (nodup : is.Nodup) (outside : ∀ i ∈ is, .inside i ∉ held)
    (go : Keeps exit next held .none) : Keeps exit (leaveAll next is) (insides is ∪ held) .none := by
  induction is with
  | nil => simpa [leaveAll] using go
  | cons i rest ih =>
    obtain ⟨notTail, nodup⟩ := List.nodup_cons.mp nodup
    rw [insides_cons]
    refine .release ?_ (.inr rfl) (ih nodup fun k tail => outside k (List.mem_cons_of_mem i tail))
    simp [notTail, outside i List.mem_cons_self]

/-- Forgets what was found and leaves every queue. -/
theorem keeps_leaveAll_of {is : List Nat} (nodup : is.Nodup) (outside : ∀ i ∈ is, .inside i ∉ held)
    (single : g.doubled = none) (go : Keeps exit next held .none) :
    Keeps exit (leaveAll next is) (insides is ∪ held) g :=
  .weaken (Grant.implies_none single) (keeps_leaveAll nodup outside go)

/-- A place was found in each of these queues, or the thread was not alone. -/
def Grant.Has (g : Grant) (is : List Nat) : Prop := g.lost = true ∨ ∀ i ∈ is, g.places i ≠ 0

theorem Grant.Has.tail {is : List Nat} (has : g.Has (i :: is)) (notTail : i ∉ is) :
    (g.spend i).Has is := by
  rcases has with lost | all
  · exact .inl (by simpa [Grant.spend] using lost)
  · by_cases lost : g.lost = true
    · exact .inl (by simpa [Grant.spend] using lost)
    · refine .inr fun k mem => ?_
      have ne : k ≠ i := fun same => notTail (same ▸ mem)
      rw [Grant.spend, Grant.reserve_places (by simpa using lost), Function.update_of_ne ne]
      exact all k (List.mem_cons_of_mem i mem)

/-- The pass over the targets; those that are left have not been looked at yet. -/
theorem keeps_capacityPass (under : Under) {room full : List Nat → Path} {targets : List Nat}
    (noWal : .wal ∉ held) (outside : ∀ i, .inside i ∉ held)
    (onRoom : ∀ owned (g : Grant), owned.Nodup → g.doubled = none → g.Has targets →
      Keeps exit (room owned) (insides owned ∪ held) g)
    (onFull : ∀ owned (g : Grant), owned.Nodup → g.doubled = none →
      Keeps exit (full owned) (insides owned ∪ held) g) :
    ∀ (left owned : List Nat) (g : Grant), owned.Nodup → g.doubled = none →
      (g.lost = true ∨ ∀ i ∈ targets, i ∈ left ∨ g.places i ≠ 0) →
      Keeps exit (capacityPass under room full left owned) (insides owned ∪ held) g
  | [], owned, g, nodup, single, has =>
    onRoom owned g nodup single (has.imp id fun all i mem => (all i mem).resolve_left (by simp))
  | i :: left, owned, g, nodup, single, has => by
    have again := keeps_capacityPass under noWal outside onRoom onFull left
    refine keeps_reapQueue under (by simpa using noWal) single ?_
    refine .tryLock (fun fresh _ => ?_) fun _ => .write Grant.allows_overlap ?_
    · have nodup' : (i :: owned).Nodup :=
        List.nodup_cons.mpr ⟨fun mem => fresh (.inl ⟨i, mem, rfl⟩), nodup⟩
      rw [← insides_cons]
      refine .act _ (Grant.allows_look 1 (.inl ⟨i, List.mem_cons_self, rfl⟩)) fun s => ?_
      by_cases room : s.room i 1 = true
      · simp only [room, if_true]
        refine again (i :: owned) (g.reserve i 1) nodup' (by simpa using single) ?_
        rcases has with lost | all
        · exact .inl (by simpa using lost)
        · by_cases lost : g.lost = true
          · exact .inl (by simpa using lost)
          · refine .inr fun k mem => ?_
            rw [Grant.reserve_places (by simpa using lost)]
            by_cases eq : k = i
            · simp [eq]
            · simpa [Function.update_of_ne eq, eq] using all k mem
      · simp only [room, Bool.false_eq_true, if_false]
        exact onFull (i :: owned) g nodup' single
    · refine keeps_read fun s => ?_
      split
      · exact again owned g.lose nodup single (.inl rfl)
      · exact onFull owned g.lose nodup single

/-- The whole pass, by a thread that has found nothing yet. -/
theorem keeps_capacityPass_all (under : Under) {room full : List Nat → Path}
    {targets : List Nat} (noWal : .wal ∉ held) (outside : ∀ i, .inside i ∉ held)
    (onRoom : ∀ owned (g : Grant), owned.Nodup → g.doubled = none → g.Has targets →
      Keeps exit (room owned) (insides owned ∪ held) g)
    (onFull : ∀ owned (g : Grant), owned.Nodup → g.doubled = none →
      Keeps exit (full owned) (insides owned ∪ held) g) :
    Keeps exit (capacityPass under room full targets []) held .none := by
  have pass := keeps_capacityPass under noWal outside onRoom onFull targets [] .none .nil rfl
    (.inr fun i mem => .inl mem)
  simpa using pass

theorem keeps_publishEach {published refused : Path} (noWal : .wal ∉ held)
    (onPublished : ∀ g : Grant, g.doubled = none → Keeps exit published held g)
    (onRefused : ∀ g : Grant, g.doubled = none → Keeps exit refused held g) :
    ∀ (is : List Nat) (g : Grant), is.Nodup → g.doubled = none → g.Has is →
      Keeps exit (publishEach published refused is) held g
  | [], g, _, single, _ => onPublished g single
  | i :: rest, g, nodup, single, has => by
    obtain ⟨notTail, nodup⟩ := List.nodup_cons.mp nodup
    have single' : (g.spend i).doubled = none := by simpa [Grant.spend] using single
    have again := keeps_publishEach noWal onPublished onRefused rest (g.spend i) nodup single'
      (has.tail notTail)
    have ready := has.imp id fun all => all i List.mem_cons_self
    exact keeps_appendRecord noWal
      (keeps_either (.write (Grant.allows_link ready) again) (onRefused g single))
      (onRefused g single)

theorem keeps_materialize {next : Path} (noQueue : ∀ i, .queue i ∉ held) (noState : .state ∉ held)
    (noWal : .wal ∉ held) (onNext : ∀ g : Grant, g.doubled = none → Keeps exit next held g) :
    ∀ (is : List Nat) (g : Grant), is.Nodup → g.doubled = none → g.Has is →
      Keeps exit (materialize next is) held g
  | [], g, _, single, _ => onNext g single
  | i :: rest, g, nodup, single, has => by
    obtain ⟨notTail, nodup⟩ := List.nodup_cons.mp nodup
    have single' : (g.spend i).doubled = none := by simpa [Grant.spend] using single
    have again := keeps_materialize noQueue noState noWal onNext rest
    have ready := has.imp id fun all => all i List.mem_cons_self
    have rests : g.Has rest := has.imp id fun all k mem => all k (List.mem_cons_of_mem i mem)
    refine .lock (noQueue i) ⟨⟨i, rfl⟩, noQueue, noState, noWal⟩ (keeps_either ?_ ?_)
    · exact .write (Grant.allows_link ready) (.release (noQueue i) (frees_queue single')
        (again (g.spend i) nodup single' (has.tail notTail)))
    · exact .release (noQueue i) (frees_queue single) (again g nodup single rests)

/-! ## Operations on the store -/

theorem keeps_store (go : Keeps exit next (insert .store ∅) g) :
    Keeps exit (.lock .store .store next) ∅ g :=
  .lock (Set.notMem_empty _) ⟨rfl, rfl⟩ go

theorem keeps_unlockStore (go : Keeps exit next ∅ g) :
    Keeps exit (.unlock .store next) (insert .store ∅) g :=
  .release (Set.notMem_empty _) trivial go

theorem keeps_leaveStore {code : Int} (ends : exit code ∅) :
    Keeps exit (leaveStore code) (insert .store ∅) g :=
  keeps_unlockStore (.done ends)

end Rules

section Operations

variable {g : Grant}

/-- The path of a whole operation. -/
abbrev Returns (p : Path) (held : Set QLock) : Prop := Keeps LeavesNone p held .none

theorem returns_done (code : Int) : Returns (.done code) ∅ := .done rfl

theorem returns_leaveStore (code : Int) : Returns (leaveStore code) (insert .store ∅) :=
  keeps_leaveStore rfl

theorem returns_leaveQueue (i : Nat) (code : Int) :
    Returns (leaveQueue i code) (insert (.queue i) ∅) :=
  .release (Set.notMem_empty _) (frees_queue rfl) (.done rfl)

theorem returns_joinSync (rounds : Nat) (code : Int) :
    Returns (joinSync rounds (.done code) (.done (-1))) ∅ :=
  keeps_joinSync (Set.notMem_empty _) (.done rfl) (.done rfl) rounds

theorem returns_storeRead : Returns storeRead ∅ :=
  keeps_store (keeps_either (returns_leaveStore 1) (returns_leaveStore 0))

theorem returns_storeRecord : Returns storeRecord ∅ :=
  keeps_store (keeps_either
    (keeps_appendRecord (by simp) (keeps_either (returns_leaveStore 1) (returns_leaveStore (-1)))
      (returns_leaveStore (-1)))
    (keeps_either (keeps_pick fun code => returns_leaveStore code) (returns_leaveStore (-1))))

theorem returns_queueDeclare (maxDepth rounds : Nat) : Returns (queueDeclare maxDepth rounds) ∅ :=
  keeps_store (keeps_either
    (keeps_appendRecord (by simp)
      (keeps_either
        (.write (Grant.allows_create maxDepth) (keeps_unlockStore (returns_joinSync rounds 0)))
        (returns_leaveStore (-1)))
      (returns_leaveStore (-1)))
    (keeps_either (returns_leaveStore 0) (returns_leaveStore (-1))))

theorem returns_jobRecordAppend : Returns jobRecordAppend ∅ := by
  refine .lock (Set.notMem_empty _) ⟨rfl, Set.notMem_empty _⟩ (keeps_appendRecord (by simp) ?_ ?_)
  · exact .release (Set.notMem_empty _) trivial (returns_done 0)
  · exact .release (Set.notMem_empty _) trivial (returns_done (-1))

/-- A walk over the queues that keeps the locks in its steps. -/
theorem returns_walkQueues {body : Nat → Path → Path}
    (onBody : ∀ i next, Returns next (insert (.queue i) (insert .store ∅)) →
      Returns (body i next) (insert (.queue i) (insert .store ∅))) :
    Returns (walkQueues body) ∅ := by
  refine keeps_store (keeps_read fun s => ?_)
  induction (List.range s.slots.length).reverse with
  | nil => exact returns_leaveStore 0
  | cons i rest ih =>
    refine keeps_either (.lock (by simp) ⟨⟨i, rfl⟩, by simp, by simp, by simp⟩ (onBody i _ ?_)) ih
    exact .release (by simp) (frees_queue rfl) ih

theorem returns_queueReap : Returns queueReap ∅ :=
  returns_walkQueues fun _ _ go => keeps_reapQueue .both (by simp) rfl go

theorem returns_queueWalk : Returns queueWalk ∅ := returns_walkQueues fun _ _ go => go

theorem returns_queueConsumerUnregister : Returns queueConsumerUnregister ∅ :=
  keeps_store (keeps_either
    (keeps_appendRecord (by simp) (keeps_unlockStore returns_queueWalk) (returns_leaveStore (-1)))
    (returns_leaveStore 0))

/-! ## Operations on one queue -/

theorem returns_withQueue {i : Nat} {missing deleted : Int} {body : Path}
    (onBody : Returns body (insert (.queue i) ∅)) : Returns (withQueue i missing deleted body) ∅ :=
  keeps_store (keeps_either
    (keeps_unlockStore (.lock (Set.notMem_empty _) ⟨⟨i, rfl⟩, by simp, by simp, by simp⟩
      (keeps_either onBody (returns_leaveQueue i deleted))))
    (returns_leaveStore missing))

theorem returns_queueRead (i : Nat) : Returns (queueRead i) ∅ :=
  returns_withQueue (keeps_either (returns_leaveQueue i 1)
    (keeps_pick fun n => returns_leaveQueue i (-(n : Int))))

theorem keeps_unlockQueue {i : Nat} {next : Path} (go : Returns next ∅) :
    Returns (.unlock (.queue i) next) (insert (.queue i) ∅) :=
  .release (Set.notMem_empty _) (frees_queue rfl) go

theorem returns_queuePublish (i rounds : Nat) : Returns (queuePublish i rounds) ∅ := by
  refine returns_withQueue (keeps_reapQueue .queue (by simp) rfl ?_)
  refine keeps_findRoom (fun mine admission => ?_) (returns_leaveQueue i (-1))
  have refused := keeps_leave 1 admission (returns_leaveQueue i (-1))
  refine keeps_appendRecord (noWal_entered i mine (by simp)) (keeps_either ?_ refused) refused
  exact keeps_link (keeps_leave 0 admission (keeps_unlockQueue (returns_joinSync rounds 0)))

/-- Adds what is left of a batch to a queue with that much room. -/
theorem keeps_linkEach {i : Nat} {mine : Bool} {held : Set QLock} {linked refused : Path}
    (onLinked : Keeps LeavesNone linked held (Grant.none.granted i 0 mine))
    (onRefused : ∀ count, Keeps LeavesNone refused held (Grant.none.granted i count mine))
    (count : Nat) :
    Keeps LeavesNone (linkEach i linked refused count) held (Grant.none.granted i count mine) := by
  induction count with
  | zero => exact onLinked
  | succ count ih => exact keeps_either (keeps_link ih) (onRefused (count + 1))

theorem returns_queuePublishBatch (i count rounds : Nat) :
    Returns (queuePublishBatch i count rounds) ∅ := by
  refine returns_withQueue (keeps_reapQueue .queue (by simp) rfl ?_)
  refine keeps_findRoom (fun mine admission => ?_) (returns_leaveQueue i (-1))
  have refused (count : Nat) := keeps_leave count admission (returns_leaveQueue i (-1))
  have joins : Returns (joinSync rounds (leaveQueue i 0) (leaveQueue i (-1)))
      (insert (.queue i) ∅) :=
    keeps_joinSync (by simp) (returns_leaveQueue i 0) (returns_leaveQueue i (-1)) rounds
  refine keeps_either (keeps_appendRecord (noWal_entered i mine (by simp)) ?_ (refused count))
    (refused count)
  exact keeps_linkEach (keeps_leave 0 admission joins) refused count

theorem returns_queuePurge (i rounds : Nat) : Returns (queuePurge i rounds) ∅ :=
  returns_withQueue (keeps_either
    (keeps_appendRecord (by simp)
      (.write (Grant.allows_purge i) (keeps_unlockQueue (returns_joinSync rounds 1)))
      (returns_leaveQueue i (-1)))
    (returns_leaveQueue i 2))

theorem returns_queueDelete (i rounds : Nat) : Returns (queueDelete i rounds) ∅ := by
  have free : Grant.account.frees .none (.queue i) := frees_queue rfl
  have refuse (code : Int) : Returns (.unlock (.queue i) (leaveStore code))
      (insert (.queue i) (insert .store ∅)) :=
    .release (by simp) free (returns_leaveStore code)
  refine keeps_store (keeps_either ?_ (returns_leaveStore 0))
  refine .lock (by simp) ⟨⟨i, rfl⟩, by simp, by simp, by simp⟩
    (keeps_either ?_ (keeps_either (refuse 2) (refuse 3)))
  refine keeps_appendRecord (by simp) (.write (Grant.allows_purge i) ?_) (refuse (-1))
  exact .release (by simp) free (keeps_unlockStore (returns_joinSync rounds 1))

theorem returns_deliver (i rounds : Nat) : Returns (deliver i rounds) (insert (.queue i) ∅) :=
  keeps_either
    (keeps_appendRecord (by simp) (keeps_unlockQueue (returns_joinSync rounds 1))
      (returns_leaveQueue i (-1)))
    (returns_leaveQueue i (-1))

theorem returns_queueConsume (i rounds : Nat) : Returns (queueConsume i rounds) ∅ := by
  refine returns_withQueue (keeps_reapQueue .queue (by simp) rfl (keeps_read fun s => ?_))
  induction s.depth i with
  | zero => exact returns_leaveQueue i 0
  | succ left ih =>
    rw [consumeScan]
    refine keeps_pick fun n => ?_
    split
    · exact returns_deliver i rounds
    · refine keeps_deadLetter .queue (by simp) rfl fun code => ?_
      split
      · exact returns_deliver i rounds
      · exact ih
    · exact ih

theorem returns_queueConsumeForConsumer (i rounds : Nat) :
    Returns (queueConsumeForConsumer i rounds) ∅ :=
  keeps_store (keeps_either (keeps_unlockStore (returns_queueConsume i rounds))
    (returns_leaveStore 0))

theorem returns_consumeBatchScan {i : Nat} {picked : Path}
    (onPicked : Returns picked (insert (.queue i) ∅)) (left : Nat) :
    Returns (consumeBatchScan i picked left) (insert (.queue i) ∅) := by
  induction left with
  | zero => exact onPicked
  | succ left ih =>
    rw [consumeBatchScan]
    have take := keeps_either ih (returns_leaveQueue i (-1))
    refine keeps_pick fun n => ?_
    split
    · exact take
    · refine keeps_deadLetter .queue (by simp) rfl fun code => ?_
      split
      · exact take
      · exact ih
    · exact onPicked
    · exact ih

theorem returns_queueConsumeBatch (i rounds : Nat) : Returns (queueConsumeBatch i rounds) ∅ := by
  refine returns_withQueue (keeps_reapQueue .queue (by simp) rfl (keeps_read fun s => ?_))
  refine keeps_pick fun n => ?_
  split
  · exact returns_consumeBatchScan (keeps_appendRecord (by simp)
      (keeps_joinSync (by simp) (returns_leaveQueue i 0) (returns_leaveQueue i (-1)) rounds)
      (returns_leaveQueue i (-1))) _
  · exact returns_leaveQueue i 0
  · exact returns_leaveQueue i (-1)

theorem returns_settle {i : Nat} {change : Shared → Shared}
    (allowed : Grant.account.Allows (insert (.queue i) ∅) .none change (fun _ => .none)) :
    Returns (settle change (leaveQueue i 1) (leaveQueue i (-1))) (insert (.queue i) ∅) := by
  have settled : Returns (.write change (leaveQueue i 1)) (insert (.queue i) ∅) :=
    .write allowed (returns_leaveQueue i 1)
  have refused := returns_leaveQueue i (-1)
  exact keeps_appendRecord (by simp)
    (keeps_either (keeps_syncLog (by simp) settled refused) settled) refused

theorem returns_queueAck (i : Nat) : Returns (queueAck i) ∅ :=
  returns_withQueue
    (keeps_either (returns_settle (Grant.allows_remove i)) (returns_leaveQueue i 0))

theorem returns_queueNack (i : Nat) : Returns (queueNack i) ∅ := by
  refine returns_withQueue (keeps_pick fun n => ?_)
  split
  · exact returns_settle (Grant.allows_quiet (fun _ => rfl) fun _ => rfl)
  · exact keeps_deadLetter .queue (by simp) rfl fun code => returns_leaveQueue i code
  · exact returns_settle (Grant.allows_remove i)
  · exact returns_leaveQueue i 0

/-- The batches, for any error path: it is entered with the queue lock and nothing else. -/
theorem keeps_settleBatch {exit : Int → Set QLock → Prop} {failed : Nat → Path} (i count : Nat)
    (ends : ∀ code ≤ 0, exit code ∅) (onFailed : Keeps exit (failed i) (insert (.queue i) ∅) .none) :
    Keeps exit (settleBatch failed i count) ∅ .none := by
  have done : Keeps exit (leaveQueue i 0) (insert (.queue i) ∅) .none :=
    .release (Set.notMem_empty _) (frees_queue rfl)
      (.done (ends 0 le_rfl))
  have applied : ∀ left, Keeps exit (applyTags i (leaveQueue i 0) left) (insert (.queue i) ∅) .none := by
    intro left
    induction left with
    | zero => exact done
    | succ left ih => exact keeps_either (keeps_remove ih) ih
  have settled : ∀ left, Keeps exit
      (settleTags i (failed i)
        (either (syncLog (applyTags i (leaveQueue i 0) count) (failed i))
          (applyTags i (leaveQueue i 0) count)) left) (insert (.queue i) ∅) .none := by
    intro left
    induction left with
    | zero => exact keeps_either (keeps_syncLog (by simp) (applied count) onFailed) (applied count)
    | succ left ih =>
      rw [settleTags]
      refine keeps_pick fun n => ?_
      split
      · exact keeps_appendRecord (by simp) ih onFailed
      · refine keeps_deadLetter .queue (by simp) rfl fun code => ?_
        split
        · exact onFailed
        · exact ih
      · exact ih
  have refused := ends (-1) (by decide)
  unfold settleBatch
  split
  · exact .done refused
  · refine keeps_store (keeps_either (keeps_unlockStore ?_) (keeps_leaveStore refused))
    exact .lock (by simp) ⟨⟨i, rfl⟩, by simp, by simp, by simp⟩ (settled count)

/-! ## Operations on several queues -/

theorem ascending_sorted (targets : List Nat) :
    (targets.dedup.insertionSort (· ≤ ·)).Pairwise (· < ·) := by
  have nodup : (targets.dedup.insertionSort (· ≤ ·)).Nodup :=
    (List.perm_insertionSort _ _).nodup_iff.mpr targets.nodup_dedup
  exact ((List.pairwise_insertionSort _ _).and nodup).imp fun both => lt_of_le_of_ne both.1 both.2

theorem nodup_of_ascending {is : List Nat} (ascending : is.Pairwise (· < ·)) : is.Nodup :=
  ascending.imp fun less => less.ne

theorem returns_unlockTargets {is : List Nat} {next : Path} (ascending : is.Pairwise (· < ·))
    (go : Returns next ∅) : Returns (unlockTargets next is) (queues is ∪ ∅) :=
  keeps_unlockTargets (nodup_of_ascending ascending) (by simp) rfl go

theorem returns_exchangePublish (targets : List Nat) (rounds : Nat) :
    Returns (exchangePublish targets rounds) ∅ := by
  have ascending := ascending_sorted targets
  unfold exchangePublish
  generalize targets.dedup.insertionSort (· ≤ ·) = sorted at ascending ⊢
  have nodup := nodup_of_ascending ascending
  have refuse : ∀ owned (g : Grant), owned.Nodup → g.doubled = none →
      Keeps LeavesNone (leaveAll (unlockTargets (.done (-1)) sorted) owned)
        (insides owned ∪ (queues sorted ∪ ∅)) g := fun owned g nodupOwned single =>
    keeps_leaveAll_of nodupOwned (by simp) single
      (returns_unlockTargets ascending (returns_done (-1)))
  refine keeps_store ?_
  split
  · exact keeps_either (returns_leaveStore 0) (returns_leaveStore (-1))
  · refine keeps_unlockStore (keeps_lockTargets ascending (by simp) (by simp) (by simp) ?_)
    refine keeps_capacityPass_all .queue (by simp) (by simp)
      (fun owned g nodupOwned single has => ?_) refuse
    refine keeps_publishEach (by simp) (fun g single => ?_)
      (fun g single => refuse owned g nodupOwned single) sorted g nodup single has
    exact keeps_leaveAll_of nodupOwned (by simp) single
      (returns_unlockTargets ascending (returns_joinSync rounds 0))

theorem ascending_jobQueues (i : Nat) (output : Option Nat) :
    (jobQueues i output).Pairwise (· < ·) := by
  unfold jobQueues
  split
  · simp
  · split
    · simp
    · split
      · simpa using ‹_›
      · simp
        omega

theorem mem_jobQueues (i : Nat) (output : Option Nat) : i ∈ jobQueues i output := by
  unfold jobQueues
  split
  · simp
  · split
    · simp
    · split <;> simp

theorem keeps_jobWrite {held : Set QLock} {i : Nat} {output : Option Nat} {leave : Int → Path}
    (noState : .state ∉ held) (noWal : .wal ∉ held)
    (onApply : Keeps LeavesNone (jobApply i output leave) held g)
    (onLeave : ∀ code, Keeps LeavesNone (leave code) held g) :
    Keeps LeavesNone (jobWrite i output leave) held g := by
  have noWal' : .wal ∉ insert QLock.state held := by simpa using noWal
  exact .lock noState ⟨rfl, noWal⟩ (keeps_either
    (keeps_appendRecord noWal' (.release noState trivial onApply)
      (.release noState trivial (onLeave (-1))))
    (.release noState trivial (onLeave 0)))

theorem single_double {i : Nat} (single : g.doubled = none) : (g.double i).single = g := by
  cases g
  simp_all [Grant.double, Grant.single]

theorem keeps_jobApply {held : Set QLock} {i j : Nat} {mine : Bool} {leave : Int → Path}
    (input : .queue i ∈ Grant.entered j mine held)
    (onLeave : ∀ count code, Keeps LeavesNone (leave code) (Grant.entered j mine held)
      (Grant.none.granted j count mine)) :
    Keeps LeavesNone (jobApply i (some j) leave) (Grant.entered j mine held)
      (Grant.none.granted j (if j = i then 0 else 1) mine) := by
  unfold jobApply
  by_cases same : j = i
  · subst same
    simp only [if_true]
    have single : (Grant.none.granted j 0 mine).doubled = none := by
      cases mine <;> simp [Grant.granted, Grant.none, Grant.lose]
    refine keeps_either ?_ (onLeave 0 (-1))
    refine .write (Grant.allows_linkBeside ?_ ?_ input single)
      (.write (Grant.allows_removeBeside input rfl) ?_)
    · cases mine with
      | false => exact .inl rfl
      | true => exact .inr (by simp [Grant.entered])
    · cases mine with
      | false => exact .inl rfl
      | true => exact .inr (by simp [Grant.granted, Grant.reserve, Grant.none])
    · rw [single_double single]
      exact onLeave 0 1
  · simp only [same, if_false]
    exact keeps_either (keeps_link (keeps_remove (onLeave 0 1))) (onLeave 1 (-1))

theorem keeps_jobLocked {held : Set QLock} {i : Nat} {leave : Int → Path} (output : Option Nat)
    (input : .queue i ∈ held) (noState : .state ∉ held) (noWal : .wal ∉ held)
    (onLeave : ∀ code, Returns (leave code) held) : Returns (jobLocked i output leave) held := by
  refine .lock noState ⟨rfl, noWal⟩ (.release noState trivial (keeps_either ?_ (onLeave 0)))
  cases output with
  | none => exact keeps_jobWrite noState noWal (keeps_remove (onLeave 1)) onLeave
  | some j =>
    refine keeps_findRoom (fun mine admission => ?_) (onLeave 0)
    have leaves (count : Nat) (code : Int) := keeps_leave count admission (onLeave code)
    refine keeps_jobWrite ?_ (noWal_entered j mine noWal) (keeps_jobApply ?_ leaves)
      (fun code => leaves _ code)
    · cases mine
      · exact noState
      · simpa [Grant.entered] using noState
    · cases mine
      · exact input
      · exact .inr input

theorem returns_queueJobCommit (i : Nat) (output : Option Nat) :
    Returns (queueJobCommit i output) ∅ := by
  have ascending := ascending_jobQueues i output
  have input := mem_jobQueues i output
  unfold queueJobCommit
  generalize jobQueues i output = is at ascending input ⊢
  refine keeps_store (keeps_unlockStore (keeps_either ?_ (returns_done 0)))
  refine keeps_store (keeps_unlockStore (keeps_either ?_ (returns_done 0)))
  refine keeps_lockTargets ascending (by simp) (by simp) (by simp) ?_
  exact keeps_jobLocked output (by simpa using input) (by simp) (by simp)
    fun code => returns_unlockTargets ascending (returns_done code)

/-! ## Transactions -/

section Transactions

variable {exit : Int → Set QLock → Prop} {targets owned : List Nat}

theorem keeps_queueTxPrepare {prepared : List Nat → Path} (fails : exit (-1) ∅) (unrouted : exit 1 ∅)
    (onPrepared : ∀ owned (g : Grant), owned.Nodup → g.doubled = none → g.Has targets.dedup →
      Keeps exit (prepared owned) (insides owned ∪ insert .store ∅) g) :
    Keeps exit (queueTxPrepare targets prepared) ∅ .none := by
  have refuse : ∀ owned (g : Grant), owned.Nodup → g.doubled = none →
      Keeps exit (leaveAll (leaveStore (-1)) owned) (insides owned ∪ insert .store ∅) g :=
    fun owned g nodup single =>
      keeps_leaveAll_of nodup (by simp) single (keeps_leaveStore fails)
  refine keeps_store (keeps_either ?_
    (keeps_either (keeps_leaveStore unrouted) (keeps_leaveStore fails)))
  refine keeps_capacityPass_all .store (by simp) (by simp) (fun owned g nodup single has => ?_) refuse
  exact keeps_either
    (keeps_appendRecord (by simp) (onPrepared owned g nodup single has)
      (refuse owned g nodup single))
    (refuse owned g nodup single)

theorem keeps_queueTxCommit (nodup : owned.Nodup) (single : g.doubled = none)
    (has : g.Has targets.dedup) :
    Keeps LeavesNone (queueTxCommit targets owned) (insides owned ∪ insert .store ∅) g := by
  have leaves (code : Int) (g : Grant) (single : g.doubled = none) :
      Keeps LeavesNone (leaveAll (leaveStore code) owned) (insides owned ∪ insert .store ∅) g :=
    keeps_leaveAll_of nodup (by simp) single (returns_leaveStore code)
  refine keeps_appendRecord (by simp) ?_ (leaves (-1) g single)
  exact keeps_materialize (by simp) (by simp) (by simp) (leaves 0) targets.dedup g
    targets.nodup_dedup single has

theorem keeps_queueTxAbort (nodup : owned.Nodup) (single : g.doubled = none) :
    Keeps LeavesNone (queueTxAbort owned) (insides owned ∪ insert .store ∅) g :=
  keeps_leaveAll_of nodup (by simp) single (returns_leaveStore 0)

theorem returns_transaction (targets : List Nat) : Returns (transaction targets) ∅ :=
  keeps_queueTxPrepare rfl rfl fun _ _ nodup single has =>
    keeps_either (keeps_queueTxCommit nodup single has) (keeps_queueTxAbort nodup single)

theorem returns_queueTxResolve (targets : List Nat) : Returns (queueTxResolve targets) ∅ := by
  refine keeps_store (keeps_either
    (keeps_either (keeps_appendRecord (by simp) (.write Grant.allows_overlap ?_)
      (returns_leaveStore (-1))) (returns_leaveStore 1)) (returns_leaveStore 0))
  exact keeps_materialize (by simp) (by simp) (by simp) (fun _ _ => keeps_leaveStore rfl)
    targets.dedup _ targets.nodup_dedup rfl (.inl rfl)

end Transactions

/-! ## Checkpoints -/

theorem keeps_collectQueues {held : Set QLock} {is : List Nat} {next : Path} (nodup : is.Nodup)
    (noQueue : ∀ i ∈ is, .queue i ∉ held) (store : .store ∈ held) (noState : .state ∉ held)
    (noWal : .wal ∉ held) (go : Returns next (queues is ∪ held)) :
    Returns (collectQueues next is) held := by
  induction is generalizing held with
  | nil => simpa [collectQueues] using go
  | cons i rest ih =>
    obtain ⟨notTail, nodup⟩ := List.nodup_cons.mp nodup
    refine .lock (noQueue i List.mem_cons_self) ⟨⟨i, rfl⟩, store, noState, noWal⟩ ?_
    refine ih nodup (fun k tail => ?_) (.inr store) (by simpa using noState) (by simpa using noWal)
      (by rwa [Set.union_insert, ← queues_cons])
    have ne : k ≠ i := fun same => notTail (same ▸ tail)
    simpa [ne] using noQueue k (List.mem_cons_of_mem i tail)

theorem keeps_engineCallback {held : Set QLock} {next : Path} (noState : .state ∉ held)
    (noWal : .wal ∉ held) (go : Returns next held) : Returns (engineCallback next) held :=
  keeps_either (.lock noState ⟨rfl, noWal⟩ (.release noState trivial go)) go

theorem returns_queueCheckpoint : Returns queueCheckpoint ∅ := by
  have noWal : QLock.wal ∉ (∅ : Set QLock) := Set.notMem_empty _
  refine keeps_wal noWal (keeps_unlockWal noWal (keeps_either ?_ (returns_done (-1))))
  refine keeps_store (keeps_read fun s => ?_)
  have nodup : (List.range s.slots.length).Nodup := List.nodup_range
  generalize List.range s.slots.length = is at nodup ⊢
  refine keeps_collectQueues (List.nodup_reverse.mpr nodup) (by simp) (by simp) (by simp) (by simp) ?_
  rw [queues_reverse]
  have leave (code : Int) : Returns (unlockTargets (leaveStore code) is)
      (queues is ∪ insert .store ∅) :=
    keeps_unlockTargets nodup (by simp) rfl (returns_leaveStore code)
  have noState' : QLock.state ∉ queues is ∪ insert .store ∅ := by simp
  have noWal' : QLock.wal ∉ queues is ∪ insert .store ∅ := by simp
  refine keeps_engineCallback noState' noWal' (keeps_pick fun n => ?_)
  split
  · refine keeps_engineCallback noState' noWal' (keeps_either ?_ (leave (-1)))
    exact keeps_wal noWal' (keeps_unlockWal noWal' (keeps_either
      (keeps_wal noWal' (keeps_unlockWal noWal' (leave 1))) (leave (-1))))
  · rw [← queues_reverse]
    exact keeps_unlockTargets (List.nodup_reverse.mpr nodup) (by simp) rfl (returns_leaveStore 0)
  · exact leave (-1)

theorem returns_call {p : Path} (call : p ∈ QueueCall) : Returns p ∅ := by
  cases call with
  | storeRead => exact returns_storeRead
  | storeRecord => exact returns_storeRecord
  | declare maxDepth rounds => exact returns_queueDeclare maxDepth rounds
  | jobRecordAppend => exact returns_jobRecordAppend
  | reap => exact returns_queueReap
  | walk => exact returns_queueWalk
  | consumerUnregister => exact returns_queueConsumerUnregister
  | read i => exact returns_queueRead i
  | publish i rounds => exact returns_queuePublish i rounds
  | publishBatch i count rounds => exact returns_queuePublishBatch i count rounds
  | purge i rounds => exact returns_queuePurge i rounds
  | delete i rounds => exact returns_queueDelete i rounds
  | consume i rounds => exact returns_queueConsume i rounds
  | consumeForConsumer i rounds => exact returns_queueConsumeForConsumer i rounds
  | consumeBatch i rounds => exact returns_queueConsumeBatch i rounds
  | ack i => exact returns_queueAck i
  | nack i => exact returns_queueNack i
  | exchangePublish targets rounds => exact returns_exchangePublish targets rounds
  | jobCommit i output => exact returns_queueJobCommit i output
  | transaction targets => exact returns_transaction targets
  | txResolve targets => exact returns_queueTxResolve targets
  | checkpoint => exact returns_queueCheckpoint

end Operations

end KuttiDB.QueueStore.Locks
