/- # KuttiDB.QueueStore.LockRuns -- balance, deadlocks and bounds in every run

What the derivations of `LockRules` give for single operations and for every interleaving.

* `locks_balanced`: operations release what they hold and return with nothing. The exceptions are
  `queue_tx_prepare`, which by design returns with the store lock, and the batches of
  acknowledgements, whose error path releases the store lock without having it
  (`batch_unlocks_store`).
* `calls_not_deadlocked`: threads wait for each other in a cycle only where a checkpoint that collects
  the queues meets a thread that climbs from one queue to a newer one; `checkpoint_deadlocks` is such
  a run.
* `depth_bounded`: a queue exceeds its bound only where a transaction was overtaken between prepare
  and commit; `transaction_overfills` has two such runs.
-/
import KuttiDB.QueueStore.LockRules
import Mathlib.Data.Prod.Lex

namespace KuttiDB.QueueStore.Locks

open KuttiDB.Theory

set_option autoImplicit false

/-! ## Balance -/

/-- The locks of the source among these. -/
def real (held : Set QLock) : Set QLock := {l | l ∈ held ∧ ∀ i, l ≠ .inside i}

theorem balanced_of_keeps {exit : Int → Set QLock → Prop} {p : Path} {held : Set QLock} {g : Grant}
    (covers : g.Covers held) (keeps : Keeps exit p held g) : p.Balanced exit held :=
  (Prog.Paced.orderly covers keeps).balanced

/-- The error path of a batch with the queue lock only, as its callers expect it. -/
def queueLeft (i : Nat) : Path := leaveQueue i (-1)

/-- A batch is followed up to its first failure: a record that is not written, a sync or a dead-letter
move. -/
def batchStopped (_ : Nat) : Path := .done 1

theorem insides_store (owned : List Nat) :
    real (insides owned ∪ insert .store ∅) = {.store} := by
  ext l
  constructor
  · rintro ⟨⟨i, -, rfl⟩ | rfl | none, outside⟩
    · exact absurd rfl (outside i)
    · rfl
    · cases none
  · rintro rfl
    exact ⟨.inr (.inl rfl), fun _ same => by cases same⟩

/-- A batch with a tag can fail, and then releases a lock it does not hold. -/
theorem not_balanced_queueAckBatch (i count : Nat) :
    ¬ (queueAckBatch i (count + 1)).Balanced LeavesNone ∅ := by
  intro balanced
  obtain ⟨-, -, resolved⟩ := balanced
  -- the queue is found, the log is closed: the first tag fails
  obtain ⟨-, -, -, locked⟩ := resolved ⟨[0], [], false⟩
  have refused := locked ⟨[0], [], false⟩ ⟨[1], [], false⟩ ⟨[1], [], false⟩
  obtain ⟨mine, -⟩ := refused
  simp at mine

section Runs

/-- A store with these queues in which nothing runs. -/
def opened (outcomes : List Nat) (slots : List Slot) : World Shared QLock QSite Int :=
  .resting ⟨outcomes, slots, false⟩ 0

/-- The order in which threads come to wait. -/
def QSite.rank : QSite → Nat
  | .store => 0
  | .first => 1
  | .collect => 2
  | .climb => 3
  | .state => 4
  | .wal => 5
  | .attempt => 6

/-- What a waiting thread holds says how far it has come. -/
theorem asks_holding {held : Set QLock} {site : QSite} {l mine : QLock} (asked : asks held site l)
    (fresh : l ∉ held) (holds : mine ∈ held) :
    match mine with
    | .store => 1 ≤ site.rank
    | .queue j => 2 ≤ site.rank ∧ (site = .climb → ∃ i, l = .queue i ∧ j < i)
    | .state => 5 ≤ site.rank
    | .wal => False
    | .inside _ => True := by
  cases site with
  | store =>
    rw [asked.2] at holds
    cases holds
  | first =>
    obtain ⟨-, noQueue, noState, noWal⟩ := asked
    cases mine with
    | store => exact le_rfl
    | queue j => exact absurd holds (noQueue j)
    | state => exact absurd holds noState
    | wal => exact absurd holds noWal
    | inside _ => trivial
  | collect =>
    obtain ⟨-, -, noState, noWal⟩ := asked
    cases mine with
    | store | queue j => simp [QSite.rank]
    | state => exact absurd holds noState
    | wal => exact absurd holds noWal
    | inside _ => trivial
  | climb =>
    obtain ⟨⟨i, same, below⟩, noState, noWal⟩ := asked
    cases mine with
    | store => simp [QSite.rank]
    | queue j => exact ⟨by simp [QSite.rank], fun _ => ⟨i, same, below j holds⟩⟩
    | state => exact absurd holds noState
    | wal => exact absurd holds noWal
    | inside _ => trivial
  | state =>
    obtain ⟨rfl, noWal⟩ := asked
    cases mine with
    | store | queue j => simp [QSite.rank]
    | state => exact absurd holds fresh
    | wal => exact absurd holds noWal
    | inside _ => trivial
  | wal =>
    cases show l = .wal from asked
    cases mine with
    | store => simp [QSite.rank]
    | queue j => simp [QSite.rank]
    | state => simp [QSite.rank]
    | wal => exact absurd holds fresh
    | inside _ => trivial
  | attempt => exact asked.elim

/-- No checkpoint waits for a queue while another thread waits for its second one. -/
def Apart (w : World Shared QLock QSite Int) : Prop :=
  ∀ t u i j, w.Awaits t .collect (.queue i) → ¬ w.Awaits u .climb (.queue j)

/-- Where a waiting thread stands; the queue counts where threads climb. -/
def level (p : Path) : Nat ×ₗ Nat :=
  match p with
  | .lock site (.queue i) _ => toLex (site.rank, i)
  | .lock site _ _ => toLex (site.rank, 0)
  | _ => toLex (0, 0)

theorem level_rank {w : World Shared QLock QSite Int} {t : Nat} {site : QSite} {l : QLock}
    (awaits : w.Awaits t site l) : ∃ i, level (w.thread t) = toLex (site.rank, i) ∧
      ∀ j, l = .queue j → i = j := by
  obtain ⟨next, here⟩ := awaits
  rw [here]
  cases l with
  | queue i => exact ⟨i, rfl, fun j same => by cases same; rfl⟩
  | store => exact ⟨0, rfl, fun _ same => by cases same⟩
  | state => exact ⟨0, rfl, fun _ same => by cases same⟩
  | wal => exact ⟨0, rfl, fun _ same => by cases same⟩
  | inside _ => exact ⟨0, rfl, fun _ same => by cases same⟩

theorem level_rises {w : World Shared QLock QSite Int} (asking : w.Asking asks) (apart : Apart w)
    {t u v : Nat} (waits : w.WaitsOn t u) (next : w.WaitsOn u v) :
    level (w.thread t) < level (w.thread u) := by
  obtain ⟨site, l, awaits, holder⟩ := waits
  obtain ⟨site', l', awaits', -⟩ := next
  obtain ⟨fresh, asked⟩ := asking.asked awaits
  obtain ⟨fresh', asked'⟩ := asking.asked awaits'
  obtain ⟨i, at_, index⟩ := level_rank awaits
  obtain ⟨i', at', index'⟩ := level_rank awaits'
  have holding := asks_holding asked' fresh' (show l ∈ w.held u from holder)
  rw [at_, at', Prod.Lex.toLex_lt_toLex]
  cases site with
  | store =>
    obtain ⟨rfl, -⟩ := asked
    exact .inl holding
  | first =>
    obtain ⟨⟨q, rfl⟩, -⟩ := asked
    exact .inl holding.1
  | collect =>
    obtain ⟨⟨q, rfl⟩, store, -⟩ := asked
    refine .inl (lt_of_le_of_ne holding.1 fun same => ?_)
    -- two checkpoints would both hold the store lock
    cases site' <;> simp only [QSite.rank] at same <;> try omega
    have both : some t = some u := store.symm.trans asked'.2.1
    cases both
    exact fresh holder
  | climb =>
    obtain ⟨⟨q, rfl, -⟩, -⟩ := asked
    cases site' <;> simp [QSite.rank] at holding ⊢
    · obtain ⟨q', rfl, less⟩ := holding
      rw [index q rfl, index' q' rfl]
      exact less
    · obtain ⟨⟨q', rfl⟩, -⟩ := asked'
      exact apart u t q' q awaits' awaits
  | state =>
    obtain ⟨rfl, -⟩ := asked
    exact .inl holding
  | wal =>
    cases show l = .wal from asked
    exact holding.elim
  | attempt => exact asked.elim

/-- **Waiting threads.** In every world that the operations reach from a store at rest, no threads wait
for each other in a cycle, unless a checkpoint waits for a queue while another thread waits for its
second one. -/
theorem calls_not_deadlocked {s : Shared} {w : World Shared QLock QSite Int}
    (run : Reaches QueueCall (fun _ _ _ => True) (.resting s 0) w) (apart : Apart w) :
    ¬ w.Deadlocked := by
  have asking : w.Asking asks := Reaches.asking
    (fun p call => Prog.Paced.orderly (Grant.covers_none ∅) (returns_call call))
    (World.asking_resting s 0) run
  exact World.not_deadlocked (fun t => level (w.thread t)) fun _ _ _ waits next =>
    level_rises asking apart waits next

/-- Thread 0 publishes to queues 0 and 1 and has locked the first. -/
def climbing : World Shared QLock QSite Int :=
  (opened [] [⟨0, 0, false⟩, ⟨0, 0, false⟩]).play [.start 0 (exchangePublish [0, 1] 1), .steps 0 3]

theorem reaches_climbing :
    Reaches QueueCall (fun _ _ _ => True) (opened [] [⟨0, 0, false⟩, ⟨0, 0, false⟩]) climbing := by
  refine World.reaches_play _ fun turn mem => ?_
  rcases List.mem_pair.mp mem with rfl | rfl
  · exact .exchangePublish [0, 1] 1
  · trivial

/-- Thread 1 publishes to queue 0 and waits for it. -/
def blocked : World Shared QLock QSite Int :=
  climbing.play [.start 1 (queuePublish 0 1), .steps 1 3]

theorem climbing_not_deadlocked : blocked.WaitsOn 1 0 ∧ Apart blocked ∧ ¬ blocked.Deadlocked := by
  have run : Reaches QueueCall (fun _ _ _ => True) (opened [] [⟨0, 0, false⟩, ⟨0, 0, false⟩])
      blocked := by
    refine reaches_climbing.trans (World.reaches_play _ fun turn mem => ?_)
    rcases List.mem_pair.mp mem with rfl | rfl
    · exact .publish 0 1
    · trivial
  have apart : Apart blocked := by
    rintro t u i j ⟨next, here⟩
    rcases t with - | - | t <;> cases here
  exact ⟨⟨.first, .queue 0, ⟨_, rfl⟩, rfl⟩, apart, calls_not_deadlocked run apart⟩

/-- A checkpoint collects the queues from the newest on: it has the store and queue 1 and waits for
queue 0, which thread 0 holds while it waits for queue 1. -/
theorem checkpoint_deadlocks :
    ∃ w, Reaches QueueCall (fun _ _ _ => True) (opened [] [⟨0, 0, false⟩, ⟨0, 0, false⟩]) w ∧
      w.WaitsOn 0 1 ∧ w.WaitsOn 1 0 ∧ w.Deadlocked := by
  have waits : (climbing.play [.start 1 queueCheckpoint, .steps 1 6]).WaitsOn 0 1 :=
    ⟨.climb, .queue 1, ⟨_, rfl⟩, rfl⟩
  have back : (climbing.play [.start 1 queueCheckpoint, .steps 1 6]).WaitsOn 1 0 :=
    ⟨.collect, .queue 0, ⟨_, rfl⟩, rfl⟩
  refine ⟨_, reaches_climbing.trans (World.reaches_play _ fun turn mem => ?_), waits, back,
    0, .tail (.single waits) back⟩
  rcases List.mem_pair.mp mem with rfl | rfl
  · exact .checkpoint
  · trivial

/-! ## Bounds -/

/-- **Bounds.** In every world that the operations reach from a store whose queues are within their
bounds, and in which no thread looked for room in a queue while another one was between its own look
and its insertion, a queue with a bound holds no more messages than that. One more is there only while
a completion with input and output in this queue has its lock and has not removed the input yet. -/
theorem depth_bounded {s : Shared} {w : World Shared QLock QSite Int}
    (fits : ∀ (i : Nat) (q : Slot), s.slots[i]? = some q →
      q.doubled = false ∧ (q.maxDepth = 0 ∨ q.depth ≤ q.maxDepth))
    (run : Reaches QueueCall (fun _ _ _ => True) (.resting s 0) w)
    (apart : w.shared.overlapped = false) {i : Nat} {q : Slot}
    (found : w.shared.slots[i]? = some q) (bounded : q.maxDepth ≠ 0) :
    q.depth ≤ q.maxDepth ∨
      q.depth = q.maxDepth + 1 ∧ q.doubled = true ∧ ∃ t, w.holder (.queue i) = some t := by
  have start : (World.resting s 0 : World Shared QLock QSite Int).Sound capacity
      (fun _ _ _ => True) := by
    refine World.sound_resting 0 (.inr fun i q found => ?_) fun l => ?_
    · obtain ⟨single, fit⟩ := fits i q found
      exact fit.imp id fun less => less.trans (Nat.le_add_right _ _)
    · cases l with
      | queue i => exact fun q found => (fits i q found).1
      | store => trivial
      | state => trivial
      | wal => trivial
      | inside _ => trivial
  have sound := Reaches.sound
    (fun p call s within => Prog.Paced.secure (Grant.covers_none ∅) (returns_call call) within
      (Grant.knows_none s)) start run
  have within : q.Fits := sound.inv.resolve_left (by simp [apart]) i q found
  have less : q.depth ≤ q.maxDepth + q.doubled.toNat := within.resolve_left bounded
  by_cases within : q.depth ≤ q.maxDepth
  · exact .inl within
  · have double : q.doubled = true := by
      by_contra single
      simp only [Bool.not_eq_true] at single
      rw [single] at less
      exact within less
    rw [double] at less
    simp only [Bool.toNat_true] at less
    refine .inr ⟨by omega, double, ?_⟩
    cases holder : w.holder (.queue i) with
    | some t => exact ⟨t, rfl⟩
    | none =>
      have single : q.doubled = false := sound.free (.queue i) holder q found
      simp [double] at single

/-- A publish fills a queue of one place, and a second one is refused. -/
theorem depth_bounded_publish :
    ∃ w, Reaches QueueCall (fun _ _ _ => True) (opened [] [⟨1, 0, false⟩]) w ∧
      w.shared.overlapped = false ∧ w.shared.slots[0]? = some ⟨1, 1, false⟩ ∧
      w.result? 1 = some (-1) ∧
      (1 ≤ 1 ∨ 1 = 1 + 1 ∧ false = true ∧ ∃ t, w.holder (.queue 0) = some t) := by
  have run : Reaches QueueCall (fun _ _ _ => True) (opened [] [⟨1, 0, false⟩])
      ((opened [] [⟨1, 0, false⟩]).play [.start 0 (queuePublish 0 1), .steps 0 40,
        .start 1 (queuePublish 0 1), .steps 1 40]) := by
    refine World.reaches_play _ ?_
    simp only [List.forall_mem_cons]
    exact ⟨.publish 0 1, trivial, .publish 0 1, trivial, List.forall_mem_nil _⟩
  have apart : ((opened [] [⟨1, 0, false⟩]).play [.start 0 (queuePublish 0 1), .steps 0 40,
      .start 1 (queuePublish 0 1), .steps 1 40]).shared = ⟨[], [⟨1, 1, false⟩], false⟩ := by
    decide +kernel
  have full := congrArg (fun s : Shared => s.slots[0]?) apart
  refine ⟨_, run, congrArg Shared.overlapped apart, full, by decide +kernel,
    depth_bounded (fun i q found => ?_) run (congrArg Shared.overlapped apart) full (by decide)⟩
  match i with
  | 0 =>
    cases found
    exact ⟨rfl, .inr (Nat.zero_le _)⟩
  | i + 1 => simp at found

/-- Two transactions overfill a queue of one place. The first is overtaken by a publish that had found
the queue before the transaction locked the store. The second runs alone: it looks at queue 0, and
then moves an expired message of queue 1 there. -/
theorem transaction_overfills :
    (∃ w, Reaches QueueCall (fun _ _ _ => True) (opened [] [⟨1, 0, false⟩]) w ∧
      w.result? 0 = some 0 ∧ w.result? 1 = some 0 ∧ w.holder (.queue 0) = none ∧
      w.shared.slots[0]? = some ⟨1, 2, false⟩) ∧
    ∃ w, Reaches {transaction [0, 1]} (fun _ _ _ => True)
        (opened [0, 1, 1, 0, 0] [⟨1, 0, false⟩, ⟨0, 1, false⟩]) w ∧
      w.result? 0 = some 0 ∧ w.holder (.queue 0) = none ∧
      w.shared.slots[0]? = some ⟨1, 2, false⟩ := by
  refine ⟨⟨(opened _ _).play [.start 1 (queuePublish 0 1), .steps 1 3, .start 0 (transaction [0]),
      .steps 0 10, .steps 1 40, .steps 0 40], World.reaches_play _ ?_,
      by decide +kernel, by decide +kernel, by decide +kernel, by decide +kernel⟩,
    ⟨(opened _ _).play [.start 0 (transaction [0, 1]), .steps 0 80],
      World.reaches_play _ ?_, by decide +kernel, by decide +kernel, by decide +kernel⟩⟩
  · simp only [List.forall_mem_cons]
    exact ⟨.publish 0 1, trivial, .transaction [0], trivial, trivial, trivial, List.forall_mem_nil _⟩
  · simp [Turn.Starts]

end Runs

end KuttiDB.QueueStore.Locks
