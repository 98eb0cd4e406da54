/- # KuttiDB.Stream.OffsetReset -- moving a whole group, and what a failing write leaves of it

`stream_group_reset_offsets_if_generation` computes a target for every partition, refuses the call when
one of them is outside the retained range, logs one commit record per partition and then sets the
offsets. The targets are computed in 64-bit arithmetic with a signed delta; `ResetKind.value` is that
computation and `value_exact` says that it is the sum over the integers, with no intermediate result
out of its type (`NoWrap`).

The records are separate writes. A write that fails part-way leaves memory as it was and marks the
store failed, but the records before it are in the file: opening it again finds the first partitions
moved and the others not. After the last record the offsets are set, and only then does the call wait
for them to be durable: where that fails, the call reports a failure with the whole group moved. So a
reset has four outcomes (`ResetOutcome`), not two.
-/
import KuttiDB.Stream.FailingRuns

namespace KuttiDB.Stream

open KuttiDB.QueueStore (Bytes u64)
open KuttiDB.Theory

set_option autoImplicit false

/-! ## The arithmetic of a target -/

/-- `StreamOffsetResetStrategy`. -/
inductive ResetKind where
  | earliest
  | latest
  | absolute
  | relative
  deriving DecidableEq, Repr

/-- The strategy with the arguments it uses. -/
def ResetKind.strategy (absolute : UInt64) (delta : Int64) : ResetKind → ResetStrategy
  | .earliest => .earliest
  | .latest => .latest
  | .absolute => .absolute absolute.toNat
  | .relative => .relative delta.toInt

/-- `UINT64_MAX`. -/
def topOffset : UInt64 := 18446744073709551615

/-- How far a negative delta goes back. -/
def backAmount (delta : Int64) : UInt64 := (-(delta + 1)).toUInt64 + 1

/-- The target of a partition as the source computes it; `none` is the return of 2. -/
def ResetKind.value (base next current absolute : UInt64) (delta : Int64) :
    ResetKind → Option UInt64
  | .earliest => some base
  | .latest => some next
  | .absolute => some absolute
  | .relative =>
    if delta < 0 then
      if backAmount delta > current then none else some (current - backAmount delta)
    else if delta.toUInt64 > topOffset - current then none else some (current + delta.toUInt64)

/-- Every intermediate result is the one over the integers. -/
structure NoWrap (current : UInt64) (delta : Int64) : Prop where
  succ : delta < 0 → (delta + 1).toInt = delta.toInt + 1
  negated : delta < 0 → (-(delta + 1)).toInt = -(delta.toInt + 1)
  unsigned : delta < 0 → ((-(delta + 1)).toUInt64.toNat : Int) = -(delta.toInt + 1)
  amount : delta < 0 → ((backAmount delta).toNat : Int) = -delta.toInt
  back : delta < 0 → backAmount delta ≤ current →
    ((current - backAmount delta).toNat : Int) = current.toNat + delta.toInt
  forward : 0 ≤ delta → (delta.toUInt64.toNat : Int) = delta.toInt
  room : ((topOffset - current).toNat : Int) = 2 ^ 64 - 1 - current.toNat
  sum : 0 ≤ delta → delta.toUInt64 ≤ topOffset - current →
    ((current + delta.toUInt64).toNat : Int) = current.toNat + delta.toInt

theorem toInt_bmod {n : Int} (low : -2 ^ 63 ≤ n) (high : n < 2 ^ 63) : n.bmod (2 ^ 64) = n :=
  Int.bmod_eq_of_le (by omega) (by omega)

theorem toUInt64_nonneg {x : Int64} (nonneg : 0 ≤ x.toInt) : (x.toUInt64.toNat : Int) = x.toInt := by
  have le : (0 : Int64) ≤ x := Int64.le_iff_toInt_le.mpr nonneg
  rw [Int64.toNat_toUInt64_of_le le]
  exact Int.toNat_of_nonneg nonneg

theorem noWrap (current : UInt64) (delta : Int64) : NoWrap current delta := by
  have low := Int64.le_toInt delta
  have high := Int64.toInt_lt delta
  have one : (1 : Int64).toInt = 1 := rfl
  have negative : delta < 0 → delta.toInt < 0 := fun lt => Int64.lt_iff_toInt_lt.mp lt
  have currentLt := UInt64.toNat_lt current
  have succ : delta < 0 → (delta + 1).toInt = delta.toInt + 1 := fun lt => by
    have below := negative lt
    rw [Int64.toInt_add, one]
    exact toInt_bmod (by omega) (by omega)
  have negated : delta < 0 → (-(delta + 1)).toInt = -(delta.toInt + 1) := fun lt => by
    have below := negative lt
    rw [Int64.toInt_neg, succ lt]
    exact toInt_bmod (by omega) (by omega)
  have unsigned : delta < 0 → ((-(delta + 1)).toUInt64.toNat : Int) = -(delta.toInt + 1) :=
    fun lt => by
      have below := negative lt
      rw [toUInt64_nonneg (by rw [negated lt]; omega), negated lt]
  have amount : delta < 0 → ((backAmount delta).toNat : Int) = -delta.toInt := fun lt => by
    have before := unsigned lt
    have plus : (backAmount delta).toNat = ((-(delta + 1)).toUInt64.toNat + 1) % 2 ^ 64 :=
      UInt64.toNat_add ..
    omega
  have forward : 0 ≤ delta → (delta.toUInt64.toNat : Int) = delta.toInt :=
    fun le => toUInt64_nonneg (Int64.le_iff_toInt_le.mp le)
  have top : topOffset.toNat = 2 ^ 64 - 1 := rfl
  have room : (topOffset - current).toNat = 2 ^ 64 - 1 - current.toNat := by
    rw [UInt64.toNat_sub_of_le _ _ (UInt64.le_iff_toNat_le.mpr (by omega)), top]
  refine ⟨succ, negated, unsigned, amount, fun lt within => ?_, forward, by omega,
    fun le within => ?_⟩
  · have before := amount lt
    have inside := UInt64.le_iff_toNat_le.mp within
    rw [UInt64.toNat_sub_of_le _ _ within]
    omega
  · have before := forward le
    have inside := UInt64.le_iff_toNat_le.mp within
    rw [UInt64.toNat_add]
    omega

/-- The 64-bit computation is the computation over the naturals. -/
theorem value_exact (t : StreamTopic) (p : Nat) {base next current : UInt64} (absolute : UInt64)
    (delta : Int64) (atBase : (t.part p).base = base.toNat) (atNext : (t.part p).next = next.toNat) :
    ∀ kind : ResetKind, (kind.value base next current absolute delta).map UInt64.toNat =
      (kind.strategy absolute delta).target t p current.toNat
  | .earliest => congrArg some atBase.symm
  | .latest => congrArg some atNext.symm
  | .absolute => rfl
  | .relative => by
    have exact_ := noWrap current delta
    have zero : delta < 0 ↔ delta.toInt < 0 := Int64.lt_iff_toInt_lt
    have currentLt := UInt64.toNat_lt current
    have top : uint64Max = 2 ^ 64 - 1 := rfl
    simp only [ResetKind.value, ResetKind.strategy, ResetStrategy.target]
    by_cases lt : delta < 0
    · have amount := exact_.amount lt
      have below := zero.mp lt
      rw [if_pos lt, if_pos below]
      by_cases far : backAmount delta > current
      · have far' := UInt64.lt_iff_toNat_lt.mp far
        rw [if_pos far, if_pos (by omega)]
        rfl
      · have back := exact_.back lt (UInt64.not_lt.mp far)
        have near := UInt64.le_iff_toNat_le.mp (UInt64.not_lt.mp far)
        rw [if_neg far, if_neg (by omega)]
        exact congrArg some (by omega)
    · have above : ¬ delta.toInt < 0 := fun neg => lt (zero.mpr neg)
      have le : 0 ≤ delta := Int64.not_lt.mp lt
      have forward := exact_.forward le
      have room := exact_.room
      rw [if_neg lt, if_neg above]
      by_cases far : delta.toUInt64 > topOffset - current
      · have far' := UInt64.lt_iff_toNat_lt.mp far
        rw [if_pos far, if_pos (by omega)]
        rfl
      · have sum := exact_.sum le (UInt64.not_lt.mp far)
        have near := UInt64.le_iff_toNat_le.mp (UInt64.not_lt.mp far)
        rw [if_neg far, if_neg (by omega)]
        exact congrArg some (by omega)

/-! ## The call -/

/-- A reset of a group that has been found and reaped. -/
def resetGroup (expected : Nat) (strategy : ResetStrategy) (force : Bool) (s : StreamStore)
    (t : StreamTopic) (g : StreamGroup) : StreamStore × Int :=
  if g.generation ≠ expected then (s, 1)
  else if g.members ≠ [] ∧ !force then (s, 4)
  else match resetTargets t g strategy with
    | none => (s, 2)
    | some targets => commitGroup s t g targets

/-- The call up to its durability wait; `cap` is the room of the caller's arrays, if it passes any. -/
def groupSet (s : StreamStore) (compaction : Compaction) (mono : Nat) (name group : Bytes)
    (expected : Nat) (kind : ResetKind) (absolute : UInt64) (delta : Int64) (force : Bool)
    (cap : Option Nat) : StreamStore × Int :=
  if group = [] ∨ group.length > streamGroupMax then (s, -1)
  else guarded s compaction fun s =>
    match findTopic s.topics name with
    | none => (s, 3)
    | some t =>
      if (findGroup t group).isNone then (s, 3)
      else if cap.any (· < t.partitions) then (s, -1)
      else onGroup s name group mono 3 (resetGroup expected (kind.strategy absolute delta) force)

/-- `stream_group_reset_offsets_if_generation`; `synced` is how its `stream_wait_durable_locked` ends,
which finds the offsets set already. -/
def groupReset (s : StreamStore) (compaction : Compaction) (mono : Nat) (name group : Bytes)
    (expected : Nat) (kind : ResetKind) (absolute : UInt64) (delta : Int64) (force : Bool)
    (cap : Option Nat) (synced : Bool) : StreamStore × Int :=
  let (s', code) := groupSet s compaction mono name group expected kind absolute delta force cap
  if code = 0 ∧ synced = false then ({ s' with failed := true }, -1) else (s', code)

/-- The offset a partition is meant to get. -/
def ResetStrategy.intended (t : StreamTopic) (p current : Nat) : ResetStrategy → Int
  | .earliest => (t.part p).base
  | .latest => (t.part p).next
  | .absolute offset => offset
  | .relative delta => current + delta

/-- The offset is retained in the partition, or is its end. -/
def Retained (t : StreamTopic) (p : Nat) (offset : Int) : Prop :=
  (t.part p).base ≤ offset ∧ offset ≤ (t.part p).next

/-- Where a reset of the group takes every partition. -/
def intendedTargets (t : StreamTopic) (group : Bytes) (strategy : ResetStrategy) :
    List (Nat × Nat) :=
  (List.range t.partitions).map fun p =>
    (p, (strategy.intended t p (groupOffset t group p)).toNat)

def resetRecords (name group : Bytes) (targets : List (Nat × Nat)) : List LogRecord :=
  targets.map fun target => .commit name group target.1 target.2

/-- No partition of any topic and no offset of any group has changed. -/
def SameOffsets (topics topics' : List StreamTopic) : Prop :=
  ∀ name, Option.Rel (fun t t' : StreamTopic => t'.parts = t.parts ∧
    ∀ group p, groupOffset t' group p = groupOffset t group p) (findTopic topics name)
      (findTopic topics' name)

/-- The log a call starts from: the one it found, or the one its compaction wrote. -/
def StartsFrom (s : StreamStore) (compaction : Compaction) (log : List LogRecord) : Prop :=
  log = s.log ∨ compaction = .done ∧ log = compactRecords s.topics

/-- Why a reset is refused. -/
inductive ResetRefusal (s : StreamStore) (compaction : Compaction) (mono : Nat) (name group : Bytes)
    (expected : Nat) (strategy : ResetStrategy) (force : Bool) (cap : Option Nat) : Int → Prop
  | invalid (bad : group = [] ∨ group.length > streamGroupMax) :
      ResetRefusal s compaction mono name group expected strategy force cap (-1)
  | down (bad : s.failed = true ∨ compaction = .failed) :
      ResetRefusal s compaction mono name group expected strategy force cap (-1)
  | unknown (missing : ∀ t, findTopic s.topics name = some t → findGroup t group = none) :
      ResetRefusal s compaction mono name group expected strategy force cap 3
  | cramped {t : StreamTopic} {room : Nat} (found : findTopic s.topics name = some t)
      (given : cap = some room) (small : room < t.partitions) :
      ResetRefusal s compaction mono name group expected strategy force cap (-1)
  | stale {t : StreamTopic} {g : StreamGroup} (found : findTopic s.topics name = some t)
      (foundG : findGroup t group = some g) (other : (g.reap mono).generation ≠ expected) :
      ResetRefusal s compaction mono name group expected strategy force cap 1
  | active {t : StreamTopic} {g : StreamGroup} (found : findTopic s.topics name = some t)
      (foundG : findGroup t group = some g) (members : (g.reap mono).members ≠ [])
      (unforced : force = false) :
      ResetRefusal s compaction mono name group expected strategy force cap 4
  | outside {t : StreamTopic} {g : StreamGroup} {p : Nat} (found : findTopic s.topics name = some t)
      (foundG : findGroup t group = some g) (inside : p < t.partitions)
      (target : ¬ Retained t p (strategy.intended t p (groupOffset t group p))) :
      ResetRefusal s compaction mono name group expected strategy force cap 2

/-- The log replayed to memory when the call started, and still does after the call's compaction. -/
structure LogInStep (exact : Prop) (fresh : Bytes → StreamId) (s : StreamStore)
    (compaction : Compaction) : Prop where
  inStep : InStep exact fresh s
  revisions : compaction = .done → ∀ t ∈ s.topics, t.revision ≠ 0

/-- Every partition has been moved where it is meant to be, and the log says so. -/
structure GroupMoved (fresh : Bytes → StreamId) (s s' : StreamStore) (compaction : Compaction)
    (name group : Bytes) (strategy : ResetStrategy) (t t' : StreamTopic) : Prop where
  found : findTopic s.topics name = some t
  after : findTopic s'.topics name = some t'
  parts : t'.parts = t.parts
  each : ∀ p < t.partitions,
    (groupOffset t' group p : Int) = strategy.intended t p (groupOffset t group p) ∧
      Retained t p (groupOffset t' group p)
  log : ∃ log, StartsFrom s compaction log ∧
    s'.log = log ++ resetRecords name group (intendedTargets t group strategy)
  replays : ∀ exact, LogInStep exact fresh s compaction →
    ∃ r u, replayAll fresh [] s'.log = (r, s'.log) ∧ findTopic r name = some u ∧
      ∀ p < t.partitions, groupOffset u group p = groupOffset t' group p

/-- A write failed after `written` of the records. -/
structure Interrupted (s s' : StreamStore) (compaction : Compaction) (name group : Bytes)
    (strategy : ResetStrategy) (t : StreamTopic) (written : Nat) : Prop where
  found : findTopic s.topics name = some t
  short : written < t.partitions
  failed : s'.failed = true
  offsets : SameOffsets s.topics s'.topics
  log : ∃ log, StartsFrom s compaction log ∧
    s'.log = log ++ (resetRecords name group (intendedTargets t group strategy)).take written

/-- What a reset can do. -/
inductive ResetOutcome (fresh : Bytes → StreamId) (s : StreamStore) (compaction : Compaction)
    (mono : Nat) (name group : Bytes) (expected : Nat) (strategy : ResetStrategy) (force : Bool)
    (cap : Option Nat) : StreamStore × Int → Prop
  | refused {s' : StreamStore} {code : Int}
      (reason : ResetRefusal s compaction mono name group expected strategy force cap code)
      (log : StartsFrom s compaction s'.log) (offsets : SameOffsets s.topics s'.topics) :
      ResetOutcome fresh s compaction mono name group expected strategy force cap (s', code)
  | moved {s' : StreamStore} {t t' : StreamTopic}
      (moved : GroupMoved fresh s s' compaction name group strategy t t') :
      ResetOutcome fresh s compaction mono name group expected strategy force cap (s', 0)
  | interrupted {s' : StreamStore} {t : StreamTopic} {written : Nat}
      (interrupted : Interrupted s s' compaction name group strategy t written) :
      ResetOutcome fresh s compaction mono name group expected strategy force cap (s', -1)
  | unsynced {s' : StreamStore} {t t' : StreamTopic}
      (moved : GroupMoved fresh s s' compaction name group strategy t t') (failed : s'.failed = true) :
      ResetOutcome fresh s compaction mono name group expected strategy force cap (s', -1)

/-! ## Targets -/

variable {t : StreamTopic} {g : StreamGroup} {strategy : ResetStrategy} {group : Bytes}

/-- A target that is computed is the intended one. -/
theorem target_intended {p current value : Nat} (computed : strategy.target t p current = some value) :
    (value : Int) = strategy.intended t p current := by
  cases strategy with
  | earliest | latest | absolute => cases computed; rfl
  | relative delta =>
    simp only [ResetStrategy.target] at computed
    simp only [ResetStrategy.intended]
    split at computed
    · split at computed
      · cases computed
      · cases computed
        omega
    · split at computed
      · cases computed
      · cases computed
        omega

/-- A target that is not computed would be out of the range of the partition. -/
theorem target_none {p current : Nat} (bounded : (t.part p).next ≤ uint64Max)
    (refused : strategy.target t p current = none) :
    ¬ Retained t p (strategy.intended t p current) := by
  cases strategy with
  | earliest | latest | absolute => cases refused
  | relative delta =>
    simp only [ResetStrategy.target] at refused
    rintro ⟨low, high⟩
    simp only [ResetStrategy.intended] at low high
    split at refused
    · split at refused
      · omega
      · cases refused
    · split at refused
      · omega
      · cases refused

theorem inRange_iff {p value : Nat} : inRange t p value = true ↔ Retained t p value := by
  simp [inRange, Retained]

/-- The target of one partition, checked against its range. -/
def checkedTarget (t : StreamTopic) (g : StreamGroup) (strategy : ResetStrategy) (p : Nat) :
    Option (Nat × Nat) :=
  match strategy.target t p (g.offsets.getD p 0) with
  | none => none
  | some value => if inRange t p value then some (p, value) else none

theorem resetTargets_eq : resetTargets t g strategy =
    (List.range t.partitions).mapM (checkedTarget t g strategy) := rfl

theorem checkedTarget_some {p : Nat} {target : Nat × Nat}
    (given : checkedTarget t g strategy p = some target) :
    target = (p, (strategy.intended t p (g.offsets.getD p 0)).toNat) ∧
      Retained t p (strategy.intended t p (g.offsets.getD p 0)) := by
  unfold checkedTarget at given
  split at given
  · cases given
  · rename_i value computed
    have intended := target_intended computed
    split at given
    · rename_i ranged
      cases given
      rw [← intended]
      exact ⟨rfl, inRange_iff.mp ranged⟩
    · cases given

theorem checkedTarget_none {p : Nat} (bounded : (t.part p).next ≤ uint64Max)
    (refused : checkedTarget t g strategy p = none) :
    ¬ Retained t p (strategy.intended t p (g.offsets.getD p 0)) := by
  unfold checkedTarget at refused
  split at refused
  · rename_i missing
    exact target_none bounded missing
  · rename_i value computed
    split at refused
    · cases refused
    · rename_i outside
      rw [← target_intended computed]
      exact fun retained => outside (inRange_iff.mpr retained)

theorem mapM_some {α β : Type} {f : α → Option β} {h : α → β}
    (exact_ : ∀ x y, f x = some y → y = h x) : ∀ {xs : List α} {ys : List β},
      xs.mapM f = some ys → ys = xs.map h ∧ ∀ x ∈ xs, f x = some (h x)
  | [], ys, given => by
    cases given
    exact ⟨rfl, nofun⟩
  | x :: xs, ys, given => by
    simp only [List.mapM_cons, Option.bind_eq_bind, Option.bind_eq_some_iff, Option.pure_def,
      Option.some.injEq] at given
    obtain ⟨z, here, zs, later, rfl⟩ := given
    obtain ⟨rest, each⟩ := mapM_some exact_ later
    have eq := exact_ x z here
    refine ⟨by rw [List.map_cons, eq, rest], fun y mem => ?_⟩
    rcases List.mem_cons.mp mem with rfl | mem
    · rw [here, eq]
    · exact each y mem

theorem mapM_none {α β : Type} {f : α → Option β} : ∀ {xs : List α}, xs.mapM f = none →
    ∃ x ∈ xs, f x = none
  | [], given => by cases given
  | x :: xs, given => by
    cases here : f x with
    | none => exact ⟨x, List.mem_cons_self, here⟩
    | some y =>
      have later : xs.mapM f = none := by
        cases rest : xs.mapM f with
        | none => rfl
        | some ys => simp [List.mapM_cons, here, rest] at given
      obtain ⟨z, mem, eq⟩ := mapM_none later
      exact ⟨z, List.mem_cons_of_mem _ mem, eq⟩

/-- Either every target is the intended one and retained, or one is not retained. -/
theorem resetTargets_cases (sound : t.Sound) (foundG : findGroup t group = some g) :
    (resetTargets t g strategy = some (intendedTargets t group strategy) ∧
      ∀ p < t.partitions, Retained t p (strategy.intended t p (groupOffset t group p))) ∨
    (resetTargets t g strategy = none ∧
      ∃ p < t.partitions, ¬ Retained t p (strategy.intended t p (groupOffset t group p))) := by
  have current : ∀ p, groupOffset t group p = g.offsets.getD p 0 := fun p => by
    rw [groupOffset, foundG]
  rw [resetTargets_eq]
  cases given : (List.range t.partitions).mapM (checkedTarget t g strategy) with
  | some targets =>
    obtain ⟨eq, each⟩ := mapM_some (fun p target computed => (checkedTarget_some computed).1) given
    refine .inl ⟨?_, fun p inside => ?_⟩
    · rw [eq]
      simp only [intendedTargets, current]
    · rw [current]
      exact (checkedTarget_some (each p (List.mem_range.mpr inside))).2
  | none =>
    obtain ⟨p, mem, refused⟩ := mapM_none given
    have inside := List.mem_range.mp mem
    refine .inr ⟨rfl, p, inside, ?_⟩
    rw [current]
    exact checkedTarget_none (sound.whole.parts _ (StreamTopic.part_mem inside)).bounded refused

/-! ## The offsets after the commits -/

theorem commitAll_untouched {p : Nat} : ∀ {commits : List (Nat × Nat)} {g : StreamGroup},
    p ∉ commits.map Prod.fst → (g.commitAll commits).offsets.getD p 0 = g.offsets.getD p 0
  | [], _, _ => rfl
  | c :: rest, g, absent => by
    obtain ⟨ne, later⟩ := not_or.mp (List.mem_cons.not.mp absent)
    refine (commitAll_untouched (g := g.commit c.1 c.2) later).trans ?_
    simp only [StreamGroup.commit, List.getD_eq_getElem?_getD, List.getElem?_set_ne (Ne.symm ne)]

theorem commitAll_offset {p offset : Nat} : ∀ {commits : List (Nat × Nat)} {g : StreamGroup},
    (commits.map Prod.fst).Nodup → (p, offset) ∈ commits → p < g.offsets.length →
      (g.commitAll commits).offsets.getD p 0 = offset
  | c :: rest, g, distinct, mem, inside => by
    obtain ⟨fresh, later⟩ := List.nodup_cons.mp distinct
    rcases List.mem_cons.mp mem with rfl | mem
    · refine (commitAll_untouched (g := g.commit p offset) fresh).trans ?_
      simp [StreamGroup.commit, List.getD_eq_getElem?_getD, inside]
    · exact commitAll_offset (g := g.commit c.1 c.2) later mem
        (by rw [StreamGroup.commit, List.length_set]; exact inside)

/-- What a write that fails leaves in the log. -/
theorem logEach_stopped : ∀ {records : List LogRecord} {s s' : StreamStore},
    logEach s records = (s', false) →
      ∃ k < records.length, s'.log = s.log ++ records.take k
  | r :: rest, s, s', logged => by
    rw [logEach] at logged
    unfold logRecord at logged
    cases left : s.writes with
    | none =>
      simp only [left] at logged
      obtain ⟨k, lt, log⟩ := logEach_stopped logged
      exact ⟨k + 1, Nat.succ_lt_succ lt, by simpa using log⟩
    | some n =>
      cases n with
      | zero =>
        simp only [left, Prod.mk.injEq, and_true] at logged
        exact ⟨0, Nat.zero_lt_succ _, by rw [← logged]; simp⟩
      | succ n =>
        simp only [left] at logged
        obtain ⟨k, lt, log⟩ := logEach_stopped logged
        exact ⟨k + 1, Nat.succ_lt_succ lt, by simpa using log⟩

/-! ## Outcomes -/

theorem SameOffsets.refl (topics : List StreamTopic) : SameOffsets topics topics := by
  intro name
  cases findTopic topics name with
  | none => exact .none
  | some t => exact .some ⟨rfl, fun _ _ => rfl⟩

/-- A group that was reaped has the offsets it had. -/
theorem SameOffsets.reaped {topics : List StreamTopic} (mono : Nat)
    (found : findTopic topics t.name = some t) (foundG : findGroup t g.name = some g) :
    SameOffsets topics (setTopic topics (setGroup t (g.reap mono))) := by
  intro name
  by_cases same : name = t.name
  · subst same
    rw [found, findTopic_setTopic_same (u := setGroup t (g.reap mono)) found rfl]
    exact .some ⟨rfl, groupOffset_setGroup foundG rfl rfl⟩
  · rw [findTopic_setTopic_other topics (t := setGroup t (g.reap mono)) same]
    exact SameOffsets.refl topics name

variable {fresh : Bytes → StreamId} {s s₁ : StreamStore} {compaction : Compaction} {mono expected : Nat}
  {name : Bytes} {force : Bool} {cap : Option Nat}

/-- Commits of all targets, when the targets are the intended ones. -/
theorem commitGroup_outcome (found : findTopic s.topics t.name = some t)
    (foundG : findGroup t g.name = some g) (sound : t.Sound)
    (retained : ∀ p < t.partitions, Retained t p (strategy.intended t p (groupOffset t g.name p)))
    (topics : s₁.topics = setTopic s.topics (setGroup t (g.reap mono)))
    (starts : StartsFrom s compaction s₁.log) (healthy : s₁.failed = false)
    (tracks : ∀ s', commitGroup s₁ (setGroup t (g.reap mono)) (g.reap mono)
        (intendedTargets t g.name strategy) = (s', 0) → s'.failed = false →
      ∀ exact, LogInStep exact fresh s compaction → Tracks (.sequential exact) fresh s'.unlimited) :
    ResetOutcome fresh s compaction mono t.name g.name expected strategy force cap
      (commitGroup s₁ (setGroup t (g.reap mono)) (g.reap mono)
        (intendedTargets t g.name strategy)) := by
  generalize call : commitGroup s₁ (setGroup t (g.reap mono)) (g.reap mono)
    (intendedTargets t g.name strategy) = result at tracks
  have records : (intendedTargets t g.name strategy).map
      (fun c => LogRecord.commit (setGroup t (g.reap mono)).name (g.reap mono).name c.1 c.2) =
      resetRecords t.name g.name (intendedTargets t g.name strategy) := rfl
  rw [commitGroup, logThenApply, records] at call
  cases logged : logEach s₁ (resetRecords t.name g.name (intendedTargets t g.name strategy)) with
  | mk s₂ ok =>
    rw [logged] at call
    cases ok with
    | false =>
      subst call
      obtain ⟨k, short, log⟩ := logEach_stopped logged
      have memory : s₂.topics = s₁.topics := by
        have same := logEach_topics (resetRecords t.name g.name (intendedTargets t g.name strategy)) s₁
        rwa [logged] at same
      refine .interrupted (show Interrupted _ _ _ _ _ _ t k from
        ⟨found, ?_, logEach_false logged, ?_, _, starts, log⟩)
      · simpa [resetRecords, intendedTargets] using short
      · rw [memory, topics]
        exact SameOffsets.reaped mono found foundG
    | true =>
      subst call
      obtain ⟨log, failed, memory⟩ := logEach_true logged
      have tracked := tracks _ rfl (failed.trans healthy)
      generalize moved : setGroup (setGroup t (g.reap mono))
        ((g.reap mono).commitAll (intendedTargets t g.name strategy)) = t' at tracked
      have named : t'.name = (setGroup t (g.reap mono)).name := moved ▸ rfl
      have after : findTopic (setTopic s₂.topics t') t.name = some t' := by
        rw [memory, topics, setTopic_setTopic _ named]
        exact findTopic_setTopic_same found named
      have reaped : findGroup (setGroup t (g.reap mono)) g.name = some (g.reap mono) :=
        findGroup_setGroup_same foundG rfl
      have group : findGroup t' g.name =
          some ((g.reap mono).commitAll (intendedTargets t g.name strategy)) :=
        moved ▸ findGroup_setGroup_same (g := g.reap mono) reaped (commitAll_name ..)
      have each : ∀ p < t.partitions, groupOffset t' g.name p =
          (strategy.intended t p (groupOffset t g.name p)).toNat := fun p inside => by
        rw [groupOffset, group]
        refine commitAll_offset ?_ (List.mem_map.mpr ⟨p, List.mem_range.mpr inside, rfl⟩) ?_
        · simp [intendedTargets, Function.comp_def, List.nodup_range]
        · exact (sound.fit.groups g (lookup_some _ foundG).1).offsets ▸ inside
      refine .moved ⟨found, after, ?_, fun p inside => ?_, ⟨_, starts, log⟩, fun exact inStep => ?_⟩
      · subst moved
        rfl
      · have kept := retained p inside
        have nonneg : 0 ≤ strategy.intended t p (groupOffset t g.name p) :=
          Int.le_trans (Int.natCast_nonneg _) kept.1
        rw [each p inside, Int.toNat_of_nonneg nonneg]
        exact ⟨rfl, kept⟩
      · obtain ⟨r, run, -, same⟩ := (tracked exact inStep).replayed
        have here : Option.Rel (SameTopic exact) (findTopic (setTopic s₂.topics t') t.name)
          (findTopic r t.name) := Window.same_sequential.mp same t.name
        rw [after] at here
        generalize rebuilt : findTopic r t.name = found at here
        cases here with
        | some mirror => exact ⟨r, _, run, rebuilt, fun p _ => (mirror.offsets g.name p).symm⟩

/-- A reset of a group that was found. -/
theorem resetGroup_outcome (found : findTopic s.topics t.name = some t)
    (foundG : findGroup t g.name = some g) (sound : t.Sound)
    (topics : s₁.topics = setTopic s.topics (setGroup t (g.reap mono)))
    (starts : StartsFrom s compaction s₁.log) (healthy : s₁.failed = false)
    (tracks : ∀ s', resetGroup expected strategy force s₁ (setGroup t (g.reap mono)) (g.reap mono) =
        (s', 0) → s'.failed = false → ∀ exact, LogInStep exact fresh s compaction →
      Tracks (.sequential exact) fresh s'.unlimited) :
    ResetOutcome fresh s compaction mono t.name g.name expected strategy force cap
      (resetGroup expected strategy force s₁ (setGroup t (g.reap mono)) (g.reap mono)) := by
  have kept : SameOffsets s.topics s₁.topics := topics ▸ SameOffsets.reaped mono found foundG
  unfold resetGroup at tracks ⊢
  split
  · rename_i other
    exact .refused (.stale found foundG other) starts kept
  · rename_i current
    rw [if_neg current] at tracks
    split
    · rename_i busy
      exact .refused (.active found foundG busy.1 (by simpa using busy.2)) starts kept
    · rename_i free
      rw [if_neg free] at tracks
      -- reaping changes neither the partitions nor the offsets
      have same : resetTargets (setGroup t (g.reap mono)) (g.reap mono) strategy =
          resetTargets t g strategy := rfl
      rw [same] at tracks ⊢
      rcases resetTargets_cases sound foundG with ⟨given, retained⟩ | ⟨given, p, inside, outside⟩
      · rw [given] at tracks ⊢
        exact commitGroup_outcome found foundG sound retained topics starts healthy tracks
      · rw [given]
        exact .refused (.outside found foundG inside outside) starts kept

/-- The call with its check of the caller's arrays, and the call without it. -/
theorem groupSet_eq (kind : ResetKind) (absolute : UInt64) (delta : Int64)
    (room : ∀ t n, findTopic s.topics name = some t → cap = some n → t.partitions ≤ n) :
    groupSet s compaction mono name group expected kind absolute delta force cap =
      streamGroupResetOffsetsIfGeneration s compaction mono name group expected
        (kind.strategy absolute delta) force := by
  unfold groupSet streamGroupResetOffsetsIfGeneration
  congr 1
  have body : ∀ s' : StreamStore, s'.topics = s.topics →
      (match findTopic s'.topics name with
        | none => (s', (3 : Int))
        | some t =>
          if (findGroup t group).isNone then (s', 3)
          else if cap.any (· < t.partitions) then (s', -1)
          else onGroup s' name group mono 3 (resetGroup expected (kind.strategy absolute delta) force)) =
        onGroup s' name group mono 3 (resetGroup expected (kind.strategy absolute delta) force) := by
    intro s' same
    rw [onGroup, same]
    cases found : findTopic s.topics name with
    | none => rfl
    | some t =>
      cases foundG : findGroup t group with
      | none => simp [foundG]
      | some g =>
        have wide : cap.any (· < t.partitions) = false := by
          cases given : cap with
          | none => rfl
          | some n =>
            have enough := room t n found given
            simpa using enough
        simp [wide, foundG]
  unfold guarded
  split
  · rfl
  · cases compaction with
    | notDue => exact body s rfl
    | failed => rfl
    | done => exact body { s with log := compactRecords s.topics } rfl

/-- What the start of the call passes on. -/
theorem guarded_cases {call : StreamStore → StreamStore × Int} {P : StreamStore × Int → Prop}
    (failed : s.failed = true → P (s, -1))
    (broken : compaction = .failed → P ({ s with failed := true }, -1))
    (passed : ∀ s₁ : StreamStore, s₁.topics = s.topics → StartsFrom s compaction s₁.log →
      s.failed = false → s₁.failed = false → guarded s compaction call = call s₁ → P (call s₁)) :
    P (guarded s compaction call) := by
  cases down : s.failed with
  | true =>
    rw [guarded, if_pos down]
    exact failed down
  | false =>
    have up : ¬ s.failed = true := by simp [down]
    cases compaction with
    | notDue =>
      have eq : guarded s .notDue call = call s := by rw [guarded, if_neg up]; rfl
      rw [eq]
      exact passed s rfl (.inl rfl) down down eq
    | failed =>
      have eq : guarded s .failed call = ({ s with failed := true }, -1) := by
        rw [guarded, if_neg up]; rfl
      rw [eq]
      exact broken rfl
    | done =>
      have eq : guarded s .done call = call { s with log := compactRecords s.topics } := by
        rw [guarded, if_neg up]; rfl
      rw [eq]
      exact passed _ rfl (.inr ⟨rfl, rfl⟩) down down eq

theorem groupSet_outcome (sound : SoundTopics s.topics) (kind : ResetKind) (absolute : UInt64)
    (delta : Int64) :
    ResetOutcome fresh s compaction mono name group expected (kind.strategy absolute delta) force cap
      (groupSet s compaction mono name group expected kind absolute delta force cap) := by
  generalize whole : groupSet s compaction mono name group expected kind absolute delta force cap =
    result
  -- the log of a call that got through replays to its memory
  have tracks : (∀ t n, findTopic s.topics name = some t → cap = some n → t.partitions ≤ n) →
      ∀ s' code, result = (s', code) → s.failed = false → s'.failed = false →
        ∀ exact, LogInStep exact fresh s compaction → Tracks (.sequential exact) fresh s'.unlimited := by
    intro room s' code eq healthy unfailed exact inStep
    have same : (Call.resetOffsets compaction mono name group expected (kind.strategy absolute delta)
        force).run s = (s', code) := (groupSet_eq kind absolute delta room).symm.trans (whole.trans eq)
    have tracked := tracks_unfailed (inStep.inStep.tracks healthy) (.resetOffsets compaction mono name
      group expected (kind.strategy absolute delta) force) rfl inStep.revisions
      (Window.sequential_admits _ _)
    rw [same] at tracked
    exact tracked unfailed
  subst whole
  unfold groupSet at tracks ⊢
  split
  · rename_i bad
    exact .refused (.invalid bad) (.inl rfl) (.refl _)
  · rename_i valid
    rw [if_neg valid] at tracks
    refine guarded_cases (fun down => .refused (.down (.inl down)) (.inl rfl) (.refl _))
      (fun broken => .refused (.down (.inr broken)) (.inl rfl) (.refl _))
      fun s₁ topics starts up healthy through => ?_
    rw [through] at tracks
    have kept : SameOffsets s.topics s₁.topics := topics ▸ SameOffsets.refl _
    rw [topics] at tracks ⊢
    cases found : findTopic s.topics name with
    | none => exact .refused (.unknown fun t is => nomatch found.symm.trans is) starts kept
    | some t =>
      obtain ⟨mem, named⟩ := findTopic_some found
      cases foundG : findGroup t group with
      | none =>
        simp only [foundG, Option.isNone_none, if_true]
        refine .refused (.unknown fun u is => ?_) starts kept
        cases found.symm.trans is
        exact foundG
      | some g =>
        have groupNamed : g.name = group := (lookup_some _ foundG).2
        subst named groupNamed
        simp only [foundG, Option.isNone_some, Bool.false_eq_true, if_false]
        split
        · rename_i small
          cases given : cap with
          | none => simp [given] at small
          | some n =>
            refine .refused (.cramped found rfl ?_) starts kept
            simpa [given] using small
        · rename_i wide
          have room : ∀ u n, findTopic s.topics t.name = some u → cap = some n → u.partitions ≤ n := by
            intro u n is given
            cases found.symm.trans is
            simpa [given] using wide
          have through : onGroup s₁ t.name g.name mono 3
              (resetGroup expected (kind.strategy absolute delta) force) =
              resetGroup expected (kind.strategy absolute delta) force
                { s₁ with topics := setTopic s.topics (setGroup t (g.reap mono)) }
                (setGroup t (g.reap mono)) (g.reap mono) := by
            simp only [onGroup, topics, found, foundG]
          have tracked := tracks room
          simp only [found, foundG, Option.isNone_some, Bool.false_eq_true, if_false, wide] at tracked
          rw [through] at tracked ⊢
          exact resetGroup_outcome found foundG (sound.found found) rfl starts healthy
            fun s' eq unfailed => tracked s' 0 eq up unfailed

theorem ResetRefusal.nonzero {code : Int}
    (reason : ResetRefusal s compaction mono name group expected strategy force cap code) :
    code ≠ 0 := by
  cases reason <;> decide

theorem groupReset_outcome (sound : SoundTopics s.topics) (kind : ResetKind) (absolute : UInt64)
    (delta : Int64) (synced : Bool) :
    ResetOutcome fresh s compaction mono name group expected (kind.strategy absolute delta) force cap
      (groupReset s compaction mono name group expected kind absolute delta force cap synced) := by
  have set : ResetOutcome fresh s compaction mono name group expected (kind.strategy absolute delta)
      force cap (groupSet s compaction mono name group expected kind absolute delta force cap) :=
    groupSet_outcome sound kind absolute delta
  unfold groupReset
  generalize groupSet s compaction mono name group expected kind absolute delta force cap = result
    at set ⊢
  cases set with
  | refused reason log offsets =>
    simp only [reason.nonzero, false_and, if_false]
    exact .refused reason log offsets
  | interrupted stopped => exact .interrupted stopped
  | unsynced moved failed => exact .unsynced moved failed
  | moved moved =>
    cases synced with
    | true => exact .moved moved
    | false =>
      -- the mark changes neither the topics nor the log
      exact .unsynced { moved with } rfl

/-- **Resets.** In every state of the store a reset is refused for a stated reason with no offset changed
and no record written, or it moves every partition to the intended offset with a log that replays to
it (if the log it started from replays to memory), or a write fails: then memory is as it was, the
store is marked failed and the log holds the records of the first partitions only, or the wait for
durability fails: then the whole group is moved as in a success, the store is marked failed and the
call reports -1. The targets are computed without wrapping. -/
theorem reset_four_ways (fresh : Bytes → StreamId) (s : StreamStore) (sound : SoundTopics s.topics)
    (compaction : Compaction) (mono : Nat) (name group : Bytes) (expected : Nat) (kind : ResetKind)
    (absolute : UInt64) (delta : Int64) (force : Bool) (cap : Option Nat) (synced : Bool) :
    ResetOutcome fresh s compaction mono name group expected (kind.strategy absolute delta) force cap
        (groupReset s compaction mono name group expected kind absolute delta force cap synced) ∧
      ∀ (t : StreamTopic) (p : Nat) (base next current : UInt64), (t.part p).base = base.toNat →
        (t.part p).next = next.toNat →
        (kind.value base next current absolute delta).map UInt64.toNat =
            (kind.strategy absolute delta).target t p current.toNat ∧
          NoWrap current delta :=
  ⟨groupReset_outcome sound kind absolute delta synced, fun t p _ _ current atBase atNext =>
    ⟨value_exact t p absolute delta atBase atNext kind, noWrap current delta⟩⟩

/-- Two partitions with a record each, and a group that has read both. -/
def readGroup : List FileStep :=
  [.call (.declare .notDue 7 [116] 2 0 0),
   .call (.append .notDue 10 10 [116] 0 ⟨[], [1]⟩),
   .call (.append .notDue 11 11 [116] 1 ⟨[], [2]⟩),
   .call (.commit .notDue [116] [103] 0 1),
   .call (.commit .notDue [116] [103] 1 1)]

theorem readGroup_inStep : InStep (True ∧ ∀ step ∈ readGroup, step.isReopen = false) (fun _ => 0)
    (runFile (fun _ => 0) .fresh readGroup) :=
  inStep_runFile readGroup InStep.start (by decide +kernel)

theorem reset_four_ways_back :
    (groupReset (runFile (fun _ => 0) .fresh readGroup) .notDue 20 [116] [103] 0 .relative 0 (-1) false
        (some 2) true).2 = 0 ∧
      LogInStep (True ∧ ∀ step ∈ readGroup, step.isReopen = false) (fun _ => 0)
        (runFile (fun _ => 0) .fresh readGroup) .notDue ∧
      ResetOutcome (fun _ => 0) (runFile (fun _ => 0) .fresh readGroup) .notDue 20 [116] [103] 0
        (.relative (-1)) false (some 2)
        (groupReset (runFile (fun _ => 0) .fresh readGroup) .notDue 20 [116] [103] 0 .relative 0 (-1)
          false (some 2) true) :=
  ⟨by decide +kernel, ⟨readGroup_inStep, nofun⟩,
    (reset_four_ways (fun _ => 0) _ readGroup_inStep.sound .notDue 20 [116] [103] 0 .relative 0 (-1)
      false (some 2) true).1⟩

/-- The group's offsets in the two partitions. -/
def groupAt (topics : List StreamTopic) : Option (Nat × Nat) :=
  (findTopic topics [116]).map fun t => (groupOffset t [103] 0, groupOffset t [103] 1)

/-- A reset to the earliest offsets, with so many more successful writes. -/
def resetEarliest (writes : Option Nat) (synced : Bool) : StreamStore × Int :=
  groupReset (runFile (fun _ => 0) .fresh (readGroup ++ [.disk writes])) .notDue 20 [116] [103] 0
    .earliest 0 0 false none synced

/-- Two failures with the same code. One more write succeeds: memory keeps the group at 1 and 1, but
the file has one of the two records, and opening it gives 0 and 1. The sync fails: the group is moved,
in memory and in the file. -/
theorem reset_half_written :
    (resetEarliest (some 1) true).2 = -1 ∧ groupAt (resetEarliest (some 1) true).1.topics = some (1, 1) ∧
      groupAt (openLog (fun _ => 0) 30 (resetEarliest (some 1) true).1.log).topics = some (0, 1) ∧
      (resetEarliest none false).2 = -1 ∧ groupAt (resetEarliest none false).1.topics = some (0, 0) ∧
      groupAt (openLog (fun _ => 0) 30 (resetEarliest none false).1.log).topics = some (0, 0) := by
  decide +kernel

end KuttiDB.Stream
