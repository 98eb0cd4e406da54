/- # KuttiDB.QueueStore.SyncProgress -- whether the durability wait comes to an end

A thread waits until the synced counter has passed its target. A leader publishes the counter of
appended records, so the wait ends after one more round if the target is within that counter.

* `targets_within`: it is, as long as no checkpoint brings the counter below a target that is waited
  for;
* `wait_returns`: one round then suffices, with no further append;
* `wait_starves`: a checkpoint with fewer records than the target leaves the waiter in its loop.
-/
import KuttiDB.QueueStore.SyncRuns

namespace KuttiDB.QueueStore.GroupSync

open KuttiDB.Theory
open KuttiDB.Theory.Discipline

set_option autoImplicit false

/-- A checkpoint that swaps its file in has a record for every number that is waited for, and who
begins to wait in the swap finds the counter within them. -/
def RecordsSuffice : WalSite → WalLock → Wal → Prop
  | .enter, _, s => s.swapping = true → ∀ f, s.cut = some f → s.walSeq ≤ f.folded
  | .swap, _, s => ∀ f, s.cut = some f → ∀ target ∈ s.waiting, target ≤ f.folded
  | _, _, _ => True

/-! ## Targets stay within the counter -/

/-- Every target is within the counter, and within the records of a file that is being swapped in. -/
def TargetsWithin (s : Wal) : Prop :=
  ∀ target ∈ s.waiting, target ≤ s.walSeq ∧
    (s.swapping = true → ∀ f, s.cut = some f → target ≤ f.folded)

/-- What the others may do to the counter and to the targets. -/
structure Counts (held : Set WalLock) (s s' : Wal) : Prop where
  waiting : .wal ∉ held → s'.waiting ⊆ s.waiting
  opens : .wal ∉ held → s.swapping = false → s'.swapping = false
  seq : .wal ∉ held → s'.walSeq = s.walSeq ∨
    s.swapping = true ∧ ∃ f, s.cut = some f ∧ s'.walSeq = f.folded
  same : s.swapping = true → s'.swapping = true → s'.cut = s.cut
  owner : .store ∉ held → s'.cut = s.cut ∧ s'.swapping = s.swapping

/-- Outside of a checkpoint no swap goes on. -/
def Settled : WalLock → Wal → Prop
  | .store, s => s.swapping = false
  | _, _ => True

theorem Counts.refl (held : Set WalLock) (s : Wal) : Counts held s s :=
  ⟨fun _ => List.Subset.refl _, fun _ closed => closed, fun _ => .inl rfl, fun _ _ => rfl,
    fun _ => ⟨rfl, rfl⟩⟩

def countDiscipline : Discipline Wal WalLock where
  inv := TargetsWithin
  lockInv := Settled
  may := fun held s s' => (TargetsWithin s → TargetsWithin s') ∧ Counts held s s'
  may_refl := fun held s => ⟨fun known => known, .refl held s⟩
  inv_step := fun known may => may.1 known
  lockInv_step := by
    intro held s s' l _ apart settled may
    cases l with
    | store => exact ((may.2.owner apart).2).trans settled
    | queue i => trivial
    | state => trivial
    | wal => trivial
    | syncer => trivial

variable {held : Set WalLock} {s s' : Wal}

/-- A change that touches neither the targets nor the phase, and the counter only upwards. -/
structure Mild (effect : Wal → Wal) : Prop where
  waiting : ∀ s, (effect s).waiting ⊆ s.waiting
  seq : ∀ s, s.walSeq ≤ (effect s).walSeq
  cut : ∀ s, (effect s).cut = s.cut
  swapping : ∀ s, (effect s).swapping = s.swapping

/-- The counter itself is left to the holder of the log lock. -/
def Allowed (held : Set WalLock) (effect : Wal → Wal) : Prop :=
  Mild effect ∧ (.wal ∈ held ∨ ∀ s, (effect s).walSeq = s.walSeq)

theorem Allowed.may {effect : Wal → Wal} (ok : Allowed held effect) (s : Wal) :
    countDiscipline.may held s (effect s) := by
  obtain ⟨mild, counter⟩ := ok
  refine ⟨fun known target mem => ?_, fun _ => mild.waiting s, fun _ => (mild.swapping s).trans,
    fun out => .inl (counter.resolve_left out s), fun _ _ => mild.cut s,
    fun _ => ⟨mild.cut s, mild.swapping s⟩⟩
  obtain ⟨within, folded⟩ := known target (mild.waiting s mem)
  refine ⟨within.trans (mild.seq s), fun opened f cut => ?_⟩
  exact folded ((mild.swapping s).symm.trans opened) f ((mild.cut s).symm.trans cut)

theorem Allowed.settled {effect : Wal → Wal} (ok : Allowed held effect) {l : WalLock}
    (settled : Settled l s) : Settled l (effect s) := by
  cases l with
  | store => exact (ok.1.swapping s).trans settled
  | queue i => trivial
  | state => trivial
  | wal => trivial
  | syncer => trivial

/-- The part of a program that begins to wait. -/
def Enters (p : WalThread) (held : Set WalLock) : Prop :=
  ∀ s, TargetsWithin s → (∀ l ∈ held, Settled l s) → countDiscipline.Secure RecordsSuffice p held s

abbrev Even (p : WalThread) (held : Set WalLock) : Prop := Prog.Tidy Allowed Enters p held

theorem Even.secure {p : WalThread} (even : Even p held) (known : TargetsWithin s)
    (promises : ∀ l ∈ held, Settled l s) : countDiscipline.Secure RecordsSuffice p held s :=
  Prog.Tidy.secure
    (fun _ _ ok s _ promises => ⟨ok.may s, fun l mem => ok.settled (promises l mem)⟩)
    (fun _ _ enters s known promises => enters s known promises) even known promises

/-! ## The effects -/

theorem allowed_of_same {effect : Wal → Wal} (waiting : ∀ s, (effect s).waiting ⊆ s.waiting)
    (seq : ∀ s, (effect s).walSeq = s.walSeq) (cut : ∀ s, (effect s).cut = s.cut)
    (swapping : ∀ s, (effect s).swapping = s.swapping) : Allowed held effect :=
  ⟨⟨waiting, fun s => (seq s).ge, cut, swapping⟩, .inr seq⟩

/-- The effects that have nothing to do with the targets. -/
inductive Plain : (Wal → Wal) → Prop where
  | look : Plain id
  | fail : Plain Wal.fail
  | stage (op : Nat) : Plain (Wal.stage op)
  | flush : Plain Wal.flush
  | storeTarget (target : Nat) : Plain (Wal.storeTarget target)
  | publish (target : Nat) : Plain (Wal.publish target)
  | publishAll : Plain Wal.publishAll
  | setSyncer (flag : Bool) : Plain (Wal.setSyncer flag)
  | apply (ops : List Nat) : Plain (Wal.apply ops)
  | ack (ops : List Nat) : Plain (Wal.ack ops)
  | ackMutation (op : Nat) : Plain (Wal.ackMutation op)

theorem Plain.allowed {effect : Wal → Wal} (plain : Plain effect) : Allowed held effect := by
  cases plain <;>
    exact allowed_of_same (fun _ => List.Subset.refl _) (fun _ => rfl) (fun _ => rfl) (fun _ => rfl)

theorem allowed_leave (target : Nat) : Allowed held (Wal.leave target) :=
  allowed_of_same (fun _ => List.erase_subset) (fun _ => rfl) (fun _ => rfl) (fun _ => rfl)

theorem allowed_synced (gen count : Nat) : Allowed held (Wal.synced gen count) := by
  refine allowed_of_same (fun s => ?_) (fun s => ?_) (fun s => ?_) (fun s => ?_)
  all_goals
    unfold Wal.synced
    split <;> simp

theorem allowed_bump (wal : .wal ∈ held) : Allowed held Wal.bump :=
  ⟨⟨fun _ => List.Subset.refl _, fun _ => Nat.le_succ _, fun _ => rfl, fun _ => rfl⟩, .inl wal⟩

theorem even_read {next : Wal → WalThread} (go : ∀ s, Even (next s) held) :
    Even (.read next) held :=
  .read Plain.look.allowed go

/-! ## The programs -/

section Programs

variable {site : WalSite} {mode : AppendMode} {op : Nat} {ops : List Nat} {io : Io} {applies : Bool}
  {written refused done again failure success tired next : WalThread}

theorem even_sync {ok : Bool} (covered : Even written held) (fails : Even refused held) :
    Even (syncThread ok written refused) held := by
  refine even_read (fun s => ?_)
  split
  · exact .write (allowed_synced _ _) covered
  · exact fails

theorem even_unlock {l : WalLock} (out : l ∉ held) (go : Even next held) :
    Even (.unlock l next) (insert l held) := by
  refine .unlock (Set.mem_insert l held) ?_
  rwa [Set.insert_sdiff_self_of_notMem out]

theorem even_refuse (out : .wal ∉ held) (fails : Even refused held) :
    Even (refuseThread refused) (insert .wal held) :=
  .write Plain.fail.allowed (even_unlock out fails)

theorem even_append (out : .wal ∉ held) (goes : Even written held) (fails : Even refused held) :
    Even (appendThread site mode op io written refused) held := by
  have bump : ∀ {p : WalThread}, Even p (insert .wal held) →
      Even (.write Wal.bump p) (insert .wal held) :=
    fun go => .write (allowed_bump (Set.mem_insert _ _)) go
  have refuse := even_refuse out fails
  refine even_read (fun s => ?_)
  split
  · exact fails
  refine .lock out ?_
  split
  · exact refuse
  refine .write (Plain.stage op).allowed ?_
  cases mode with
  | deferred => exact bump (even_unlock out goes)
  | plain =>
      show Even (if !io.writes then refuseThread refused
        else .write Wal.flush (.write Wal.bump (.unlock .wal written))) _
      split
      · exact refuse
      · exact .write Plain.flush.allowed (bump (even_unlock out goes))
  | synced =>
      show Even (if !io.writes then refuseThread refused
        else .write Wal.flush (syncThread io.syncs
          (.write Wal.bump (.write Wal.publishAll (.unlock .wal written)))
          (refuseThread refused))) _
      split
      · exact refuse
      · exact .write Plain.flush.allowed (even_sync
          (bump (.write Plain.publishAll.allowed (even_unlock out goes))) refuse)

theorem even_appendEach (out : .wal ∉ held) (goes : Even written held)
    (fails : Even refused held) :
    Even (appendEachThread mode applies io written refused ops) held := by
  induction ops with
  | nil => exact goes
  | cons op rest ih =>
      refine even_append out ?_ fails
      split
      · exact .write (Plain.apply _).allowed ih
      · exact ih

theorem even_stageEach (wal : .wal ∈ held) (goes : Even next held) :
    Even (stageEachThread next ops) held := by
  induction ops with
  | nil => exact goes
  | cons op rest ih => exact .write (Plain.stage op).allowed (.write (allowed_bump wal) ih)

theorem even_appendBatch (out : .wal ∉ held) (goes : Even written held)
    (fails : Even refused held) : Even (appendBatchThread io ops written refused) held := by
  unfold appendBatchThread
  split
  · exact goes
  refine even_read (fun s => ?_)
  split
  · exact fails
  refine .lock out ?_
  split
  · exact even_refuse out fails
  refine even_stageEach (Set.mem_insert _ _) ?_
  split
  · exact even_refuse out fails
  · exact .write Plain.flush.allowed (even_unlock out goes)

theorem even_syncLog (out : .wal ∉ held) (goes : Even done held) (fails : Even refused held) :
    Even (syncLogThread io done refused) held := by
  refine .lock out (even_read (fun s => ?_))
  split
  · exact even_unlock out goes
  split
  · exact even_refuse out fails
  · exact .write Plain.flush.allowed (even_unlock out (even_sync
      (.lock out (.write (Plain.publish _).allowed (even_unlock out goes)))
      (.lock out (even_refuse out fails))))

theorem even_lead (wal : .wal ∈ held) (out : .syncer ∉ held) (goes : Even again held)
    (fails : Even failure held) : Even (leadThread io again failure) held := by
  have wal' := Set.mem_insert_of_mem WalLock.syncer wal
  -- The flag is cleared with the log lock taken again.
  have lowers : ∀ {p : WalThread}, Even p held → Even
      (.lock .wait .wal (.write (Wal.setSyncer false) (.unlock .syncer p)))
      ((insert .syncer held) \ {.wal}) := by
    intro p go
    refine .lock (by simp) ?_
    rw [Set.insert_sdiff_self_of_mem wal']
    exact .write (Plain.setSyncer false).allowed (even_unlock out go)
  refine .lock out (.write (Plain.setSyncer true).allowed (even_read (fun s => ?_)))
  split
  · exact .write Plain.fail.allowed (.write (Plain.setSyncer false).allowed (even_unlock out fails))
  · exact .write Plain.flush.allowed (.unlock wal' (even_sync
      (lowers (.write (Plain.publish _).allowed goes)) (lowers (.write Plain.fail.allowed fails))))

theorem even_fast {target : Nat} (goes : Even success held) (fails : Even failure held) :
    Even (fastThread io target success failure) held := by
  unfold fastThread
  split
  · exact .write Plain.fail.allowed fails
  · exact .write Plain.flush.allowed (even_sync (.write (Plain.storeTarget target).allowed goes)
      (.write Plain.fail.allowed fails))

theorem even_wait {rounds : Nat → Io} {target : Nat} (wal : .wal ∈ held) (out : .syncer ∉ held)
    (goes : Even success held) (fails : Even failure held) (stops : Even tired held)
    (round : Nat) : Even (waitThread rounds target success failure tired round) held := by
  induction round with
  | zero => exact stops
  | succ round ih =>
      have lead := @even_lead held (rounds round) _ failure wal out ih fails
      refine even_read (fun s => ?_)
      split
      · exact fails
      refine even_read (fun s => ?_)
      split
      · exact goes
      refine even_read (fun s => ?_)
      split
      · refine .unlock wal (.lock (by simp) ?_)
        rwa [Set.insert_sdiff_self_of_mem wal]
      refine even_read (fun s => ?_)
      split
      · refine even_read (fun s => ?_)
        split
        · exact even_fast goes fails
        · exact lead
      · exact lead

theorem settled_of_closed (closed : s.swapping = false) (l : WalLock) : Settled l s := by
  cases l with
  | store => exact closed
  | queue i => trivial
  | state => trivial
  | wal => trivial
  | syncer => trivial

/-- With the log lock no swap begins, and one that goes on stores the number of its records. -/
theorem stays_within (wal : .wal ∈ held) :
    countDiscipline.Stable held
      (fun s => s.swapping = true → ∀ f, s.cut = some f → s.walSeq ≤ f.folded) := by
  intro others s s' apart _ within may opened f cut
  have before : s.swapping = true := by
    cases phase : s.swapping with
    | true => rfl
    | false => exact absurd ((may.2.opens (apart _ wal) phase).symm.trans opened) (by decide)
  have taken : s.cut = some f := (may.2.same before opened).symm.trans cut
  rcases may.2.seq (apart _ wal) with same | ⟨-, g, swapped, stored⟩
  · exact same.le.trans (within before f taken)
  · cases Option.some.inj (taken.symm.trans swapped)
    exact stored.le

theorem even_durable {rounds : Nat → Io} {limit : Nat} {leave : Int → WalThread}
    (out : .wal ∉ held) (free : .syncer ∉ held) (leaves : ∀ code, Even (leave code) held) :
    Even (durableThread rounds limit ops leave) held := by
  have wal := Set.mem_insert WalLock.wal held
  have free' : WalLock.syncer ∉ (insert WalLock.wal held : Set WalLock) := by simp [free]
  have promised : ∀ held, countDiscipline.Stable held (fun s => ∀ l ∈ held, Settled l s) :=
    fun held others s s' apart inv known step l mem =>
      countDiscipline.lockInv_step inv (apart l mem) (known l mem) step
  have leaveWith : ∀ target code, Even
      (.write (Wal.leave target) (.unlock .wal (leave code))) (insert .wal held) :=
    fun target code => .write (allowed_leave target) (even_unlock out (leaves code))
  refine .leaf (fun s _ promises => ?_)
  refine .lock _ (promised held) promises out (fun s _ promises _ met => ?_)
  refine .act (fun s => (∀ l ∈ insert WalLock.wal held, Settled l s) ∧
      (s.swapping = true → ∀ f, s.cut = some f → s.walSeq ≤ f.folded))
    ((promised _).and (stays_within wal)) ⟨fun l mem => ?_, met⟩ (fun s known within => ?_)
  · rcases Set.mem_insert_iff.1 mem with rfl | old
    · trivial
    · exact promises l old
  have entered : TargetsWithin s.await := by
    intro target mem
    rcases List.mem_cons.1 mem with rfl | old
    · exact ⟨le_rfl, within.2⟩
    · exact known target old
  have counts : Counts (insert .wal held) s s.await :=
    ⟨fun apart => absurd wal apart, fun _ closed => closed, fun _ => .inl rfl, fun _ _ => rfl,
      fun _ => ⟨rfl, rfl⟩⟩
  refine ⟨⟨fun _ => entered, counts⟩, Even.secure (even_wait wal free'
    (.write (Plain.ack ops).allowed (leaveWith _ _)) (leaveWith _ _) (leaveWith _ _) limit) entered
    (fun l mem => ?_)⟩
  cases l with
  | store => exact within.1 .store mem
  | queue i => trivial
  | state => trivial
  | wal => trivial
  | syncer => trivial

theorem even_lockAll {guards : List WalLock} {base : Set WalLock} (nodup : guards.Nodup)
    (fresh : ∀ l ∈ guards, l ∉ base) (go : Even next (base ∪ lockSet guards)) :
    Even (lockAll site next guards) base := by
  induction guards generalizing base with
  | nil =>
      have none : base ∪ lockSet [] = base := by simp [lockSet]
      exact none ▸ go
  | cons l rest ih =>
      obtain ⟨apart, nodup⟩ := List.nodup_cons.1 nodup
      refine .lock (fresh l List.mem_cons_self) (ih nodup (fun l' mem inside => ?_) ?_)
      · rcases Set.mem_insert_iff.1 inside with rfl | old
        · exact apart mem
        · exact fresh l' (List.mem_cons_of_mem l mem) old
      · rw [insert_union_lockSet]
        exact go

theorem even_guarded {guards : List WalLock} (nodup : guards.Nodup) (go : Even next (lockSet guards)) :
    Even (lockAll site next guards) ∅ := by
  refine even_lockAll nodup (fun l _ => Set.notMem_empty l) ?_
  rwa [Set.empty_union]

theorem even_unlockAll {guards : List WalLock} (nodup : guards.Nodup) (go : Even next ∅) :
    Even (unlockAll next guards) (lockSet guards) := by
  induction guards with
  | nil =>
      have none : lockSet [] = ∅ := by simp [lockSet]
      exact none ▸ go
  | cons l rest ih =>
      obtain ⟨apart, nodup⟩ := List.nodup_cons.1 nodup
      refine .unlock List.mem_cons_self ?_
      rw [lockSet_sdiff apart]
      exact ih nodup

end Programs

/-! ## The calls -/

section Calls

variable {queues : List Nat} {guards : List WalLock} {ops : List Nat} {io : Io} {rounds : Nat → Io}
  {limit : Nat}

theorem even_leave (list : GuardList queues guards) (code : Int) :
    Even (unlockAll (.done code) guards) (lockSet guards) :=
  even_unlockAll list.nodup (.done code)

theorem even_settleDown {look : Look} {start : Nat} (list : GuardList queues guards) :
    Even (settleDownThread look guards ops start rounds limit) (lockSet guards) := by
  have wait : Even (durableThread rounds limit ops (fun code => .done code)) ∅ :=
    even_durable (Set.notMem_empty _) (Set.notMem_empty _) (fun code => .done code)
  have report : Even (.write (Wal.ack ops) (.done 0)) ∅ := .write (Plain.ack ops).allowed (.done 0)
  cases look with
  | never => exact even_unlockAll list.nodup wait
  | inside =>
      refine even_read (fun s => even_unlockAll list.nodup ?_)
      split
      · exact report
      · exact wait
  | outside =>
      refine even_unlockAll list.nodup (even_read (fun s => ?_))
      split
      · exact report
      · exact wait
  | holding =>
      refine even_read (fun s => ?_)
      split
      · exact .write (Plain.ack ops).allowed (even_leave list 0)
      · exact even_durable list.wal list.syncer (even_leave list)

theorem even_settle {mode : AppendMode} {looks : Bool} {sync : Io} (list : GuardList queues guards) :
    Even (settleThread mode looks guards ops io sync) ∅ := by
  have finish : Even
      (.write (Wal.apply ops) (.write (Wal.ack ops) (unlockAll (.done 1) guards)))
      (lockSet guards) :=
    .write (Plain.apply ops).allowed (.write (Plain.ack ops).allowed (even_leave list 1))
  have covered := @even_syncLog (lockSet guards) sync _ _ list.wal finish (even_leave list (-1))
  refine even_guarded list.nodup (even_read (fun s => ?_))
  refine even_appendEach list.wal ?_ (even_leave list (-1))
  split
  · refine even_read (fun s => ?_)
    split
    · exact finish
    · exact covered
  · exact covered

/-- The phase of a checkpoint is its own. -/
theorem stays_swap (store : .store ∈ held) (cut : Option LogFile) (swapping : Bool) :
    countDiscipline.Stable held (fun s => s.cut = cut ∧ s.swapping = swapping) := by
  intro others s s' apart _ known may
  obtain ⟨sameCut, sameSwapping⟩ := may.2.owner (apart _ store)
  exact ⟨sameCut.trans known.1, sameSwapping.trans known.2⟩

/-- A step of a checkpoint that leaves the targets and the counter alone. -/
theorem counts_of_phase (store : .store ∈ held) (waiting : s'.waiting = s.waiting)
    (seq : s'.walSeq = s.walSeq) (same : s.swapping = true → s'.swapping = true → s'.cut = s.cut)
    (opens : .wal ∈ held ∨ s.swapping = true ∨ s'.swapping = false) : Counts held s s' where
  waiting := fun _ => waiting ▸ List.Subset.refl _
  opens := fun out closed => (opens.resolve_left out).resolve_left (by simp [closed])
  seq := fun _ => .inl seq
  same := same
  owner := fun out => absurd store out

theorem secure_publishFile {f : LogFile} (distinct : queues.Nodup)
    (now : s.cut = some f ∧ s.swapping = false) :
    countDiscipline.Secure RecordsSuffice
      (swapThread f .published (fun code => unlockAll (.done code) (storeLocks queues)))
      (lockSet (storeLocks queues)) s := by
  have list := guardList_storeLocks distinct
  have store : WalLock.store ∈ lockSet (storeLocks queues) := List.mem_cons_self
  have store' := Set.mem_insert_of_mem WalLock.wal store
  have wal := Set.mem_insert WalLock.wal (lockSet (storeLocks queues))
  refine .write _ (stays_swap store _ _) now (fun s _ known => ⟨⟨fun within => within,
    counts_of_phase store rfl rfl (fun _ _ => rfl) (.inr (.inr known.2))⟩, ?_⟩)
  refine .lock (fun s => s.cut = some f ∧ s.swapping = false) (stays_swap store _ _) known list.wal
    (fun s _ known _ met => ?_)
  -- The targets are within the records of the file, and nobody adds one meanwhile.
  refine .write (fun s => (s.cut = some f ∧ s.swapping = false) ∧
      ∀ target ∈ s.waiting, target ≤ f.folded)
    ((stays_swap store' _ _).and (fun others s s' apart _ within may target mem =>
      within target (may.2.waiting (apart _ wal) mem)))
    ⟨known, met f known.1⟩ (fun s within known => ?_)
  have discards : TargetsWithin s.discard := by
    intro target mem
    refine ⟨(within target mem).1, fun _ g cut => ?_⟩
    cases Option.some.inj (known.1.1.symm.trans cut)
    exact known.2 target mem
  refine ⟨⟨fun _ => discards, counts_of_phase store' rfl rfl (fun _ _ => rfl) (.inl wal)⟩, ?_⟩
  refine .unlock (fun s => s.cut = some f ∧ s.swapping = true) (stays_swap store' _ _)
    ⟨known.1.1, rfl⟩ wal (fun s _ known => ⟨trivial, ?_⟩)
  rw [Set.insert_sdiff_self_of_notMem list.wal]
  refine .write _ (stays_swap store _ _) known (fun s _ known => ⟨⟨fun within => within,
    counts_of_phase store rfl rfl (fun _ _ => rfl) (.inr (.inl known.2))⟩, ?_⟩)
  refine .lock (fun s => s.cut = some f ∧ s.swapping = true) (stays_swap store _ _) known list.wal
    (fun s _ known _ _ => ?_)
  refine .unlock _ (stays_swap store' _ _) known wal (fun s _ known => ⟨trivial, ?_⟩)
  rw [Set.insert_sdiff_self_of_notMem list.wal]
  refine .write _ (stays_swap store _ _) known (fun s _ known => ⟨⟨fun within target mem => ?_,
    ⟨fun _ => List.Subset.refl _, fun _ closed => closed, fun _ => .inr ⟨known.2, f, known.1, rfl⟩,
      fun _ _ => rfl, fun out => absurd store out⟩⟩, ?_⟩)
  · exact ⟨(within target mem).2 known.2 f known.1, (within target mem).2⟩
  refine .write (fun s => s.cut = some f ∧ s.swapping = true) (stays_swap store _ _) known
    (fun s within known => ?_)
  have ends : TargetsWithin (s.storeSyncedSeq f.folded) :=
    fun target mem => ⟨(within target mem).1, nofun⟩
  exact ⟨⟨fun _ => ends, counts_of_phase store rfl rfl nofun (.inr (.inr rfl))⟩,
    Even.secure (even_leave list 1) ends (fun l _ => settled_of_closed rfl l)⟩

theorem even_checkpoint {count : List Nat → Nat} {expired : List Nat} {outcome : CheckpointEnd}
    (distinct : queues.Nodup)
    (clean : outcome = .unwritten ∨ outcome = .published) :
    Even (checkpointThread (storeLocks queues) count expired io outcome) ∅ := by
  have list := guardList_storeLocks distinct
  have none : WalLock.wal ∉ (∅ : Set WalLock) := Set.notMem_empty _
  have store : WalLock.store ∈ lockSet (storeLocks queues) := List.mem_cons_self
  have store' := Set.mem_insert_of_mem WalLock.state store
  have apart : WalLock.state ∉ lockSet (storeLocks queues) :=
    fun mem => (storeLock_ne mem).2.2 rfl
  refine .lock none ?_
  split
  · exact even_refuse none (.done (-1))
  refine .write Plain.flush.allowed (even_unlock none (even_guarded list.nodup (.lock apart ?_)))
  refine .leaf (fun s _ promises => ?_)
  refine .act (fun s => s.swapping = false)
    (fun others s s' apart _ closed may => ((may.2.owner (apart _ store')).2).trans closed)
    (promises .store store') (fun s _ closed => ?_)
  have cuts : TargetsWithin s → TargetsWithin (s.takeCut count expired) := fun within target mem =>
    ⟨(within target mem).1, fun opened => absurd (closed.symm.trans opened) (by decide)⟩
  refine ⟨⟨cuts, counts_of_phase store' rfl rfl
    (fun opened => absurd (closed.symm.trans opened) (by decide)) (.inr (.inr closed))⟩, ?_⟩
  refine .unlock (fun s' => s'.cut = some (s.snapshot count expired) ∧ s'.swapping = false)
    (stays_swap store' _ _) ⟨rfl, closed⟩ (Set.mem_insert _ _) (fun s' _ known => ⟨trivial, ?_⟩)
  rw [Set.insert_sdiff_self_of_notMem apart]
  rcases clean with rfl | rfl
  · refine .write _ (stays_swap store _ _) known (fun s' within known => ?_)
    have drops : TargetsWithin s'.dropCut := fun target mem => ⟨(within target mem).1,
      fun opened => absurd (known.2.symm.trans opened) (by decide)⟩
    exact ⟨⟨fun _ => drops, counts_of_phase store rfl rfl
      (fun opened => absurd (known.2.symm.trans opened) (by decide)) (.inr (.inr known.2))⟩,
      Even.secure (even_leave list (-1)) drops (fun l _ => @settled_of_closed s'.dropCut known.2 l)⟩
  · exact secure_publishFile distinct known

theorem even_call {count : List Nat → Nat} (distinct : queues.Nodup) {p : WalThread}
    (call : WalCall queues count p) : Even p ∅ := by
  cases call with
  | addition look guards ops io rounds limit list =>
      exact even_guarded list.nodup (even_read (fun s =>
        even_appendEach list.wal (even_settleDown list) (even_leave list (-1))))
  | batch guards ops io rounds limit list =>
      exact even_guarded list.nodup (even_read (fun s => even_appendBatch list.wal
        (.write (Plain.apply ops).allowed (even_settleDown list)) (even_leave list (-1))))
  | settle mode looks guards ops io sync list plain => exact even_settle list
  | record guards op io list =>
      exact even_guarded list.nodup (even_append list.wal
        (.write (Plain.apply _).allowed (.write (Plain.ack _).allowed (even_leave list 0)))
        (even_leave list (-1)))
  | mutation op io =>
      have none : WalLock.state ∉ (∅ : Set WalLock) := Set.notMem_empty _
      exact .lock none (even_append (by simp)
        (.write (Plain.apply _).allowed (.write (Plain.ackMutation op).allowed
          (even_unlock none (.done 0))))
        (even_unlock none (.done (-1))))
  | checkpoint expired io outcome clean => exact even_checkpoint distinct clean

end Calls

/-- Whatever is waited for is within the counter. -/
theorem targets_within {queues : List Nat} {count : List Nat → Nat} (distinct : queues.Nodup)
    {w : World Wal WalLock WalSite Int}
    (run : Reaches (walCalls queues count) RecordsSuffice freshLog w) : TargetsWithin w.shared := by
  have start : World.Sound countDiscipline RecordsSuffice freshLog :=
    World.sound_resting 0 (fun target mem => absurd mem List.not_mem_nil)
      (fun l => settled_of_closed rfl l)
  exact (Reaches.sound (fun p call s within =>
    Even.secure (even_call distinct call) within (fun l mem => absurd mem (Set.notMem_empty l)))
    start run).inv

/-! ## The waiter on its own -/

section Alone

variable {rounds : Nat → Io} {target : Nat} {success failure tired : WalThread}
  {base : List WalLock}

/-- What a leader's round leaves behind when its write and its sync succeed. -/
def Wal.led (s : Wal) : Wal :=
  ((((s.setSyncer true).flush).synced s.gen (s.file.records ++ s.staged).length).setSyncer
    false).publish s.walSeq

theorem alone_lead {io : Io} {again : WalThread} (writes : io.writes = true)
    (syncs : io.syncs = true) :
    (leadThread io again failure).alone (.wal :: base) s = again.alone (.wal :: base) s.led := by
  simp [leadThread, syncThread, Prog.alone, Prog.read, Prog.write, writes, syncs, Wal.led,
    Wal.setSyncer, Wal.flush]

theorem led_counters (s : Wal) :
    s.led.walSeq = s.walSeq ∧ s.led.syncedSeq = max s.syncedSeq s.walSeq ∧
      s.led.failed = s.failed ∧ s.led.syncer = false := by
  simp [Wal.led, Wal.setSyncer, Wal.flush, Wal.synced, Wal.publish]

theorem alone_fast {io : Io} (writes : io.writes = true) (syncs : io.syncs = true) :
    ∃ s', (fastThread io target success failure).alone (.wal :: base) s =
      success.alone (.wal :: base) s' ∧ s'.syncedSeq = target := by
  refine ⟨(s.flush.synced s.gen (s.file.records ++ s.staged).length).storeTarget target, ?_, rfl⟩
  simp [fastThread, syncThread, Prog.alone, Prog.read, Prog.write, writes, syncs, Wal.flush]

/-- One pass through the loop with nobody leading. -/
theorem alone_wait {round : Nat} (works : s.failed = false) (down : s.syncer = false) :
    (waitThread rounds target success failure tired (round + 1)).alone (.wal :: base) s =
      if target ≤ s.syncedSeq then success.alone (.wal :: base) s
      else if s.walSeq = target ∧ s.syncedSeq = target - 1 then
        (fastThread (rounds round) target success failure).alone (.wal :: base) s
      else
        (leadThread (rounds round) (waitThread rounds target success failure tired round)
          failure).alone (.wal :: base) s := by
  by_cases passed : target ≤ s.syncedSeq
  · simp [waitThread, Prog.alone, Prog.read, works, passed]
  · have looked : (waitThread rounds target success failure tired (round + 1)).alone
        (.wal :: base) s = (Prog.read (fun s => if s.walSeq = target then
          .read (fun s => if s.syncedSeq = target - 1 then
              fastThread (rounds round) target success failure
            else leadThread (rounds round) (waitThread rounds target success failure tired round)
              failure)
          else leadThread (rounds round) (waitThread rounds target success failure tired round)
            failure)).alone (.wal :: base) s := by
      simp [waitThread, Prog.alone, Prog.read, works, passed, down]
    rw [looked, if_neg passed]
    by_cases last : s.walSeq = target
    · by_cases one : s.syncedSeq = target - 1
      · simp [Prog.alone, Prog.read, last, one]
      · simp [Prog.alone, Prog.read, last, one]
    · simp [Prog.alone, Prog.read, last]

/-- A target within the counter is reached in one round. -/
theorem wait_returns (io : ∀ k, rounds k = Io.well) (works : s.failed = false)
    (down : s.syncer = false) (within : target ≤ s.walSeq) (round : Nat) :
    ∃ s', (waitThread rounds target success failure tired (round + 2)).alone (.wal :: base) s =
      success.alone (.wal :: base) s' ∧ target ≤ s'.syncedSeq := by
  have writes : ∀ k, (rounds k).writes = true := fun k => by rw [io k]; rfl
  have syncs : ∀ k, (rounds k).syncs = true := fun k => by rw [io k]; rfl
  rw [alone_wait works down]
  split
  · rename_i passed
    exact ⟨s, rfl, passed⟩
  split
  · obtain ⟨s', eq, stored⟩ :=
      @alone_fast s target success failure base (rounds (round + 1)) (writes _) (syncs _)
    exact ⟨s', eq, stored.ge⟩
  · obtain ⟨-, synced, failed, syncer⟩ := led_counters s
    have passed : target ≤ s.led.syncedSeq := synced ▸ within.trans (le_max_right _ _)
    refine ⟨s.led, ?_, passed⟩
    rw [alone_lead (writes _) (syncs _), alone_wait (failed.trans works) syncer, if_pos passed]

/-- A target beyond the counter is not reached in any number of rounds. -/
theorem wait_starves (io : ∀ k, rounds k = Io.well) (round : Nat) (works : s.failed = false)
    (down : s.syncer = false) (beyond : s.walSeq < target) (behind : s.syncedSeq < target) :
    ∃ s', (waitThread rounds target success failure tired round).alone (.wal :: base) s =
      tired.alone (.wal :: base) s' ∧ s'.syncedSeq < target := by
  -- Induction on the rounds: each leaves the counter where it is.
  induction round generalizing s with
  | zero => exact ⟨s, rfl, behind⟩
  | succ round ih =>
      have writes : (rounds round).writes = true := by rw [io round]; rfl
      have syncs : (rounds round).syncs = true := by rw [io round]; rfl
      obtain ⟨seq, synced, failed, syncer⟩ := led_counters s
      rw [alone_wait works down, if_neg (by omega), if_neg (by omega), alone_lead writes syncs]
      exact ih (failed.trans works) syncer (seq ▸ beyond) (synced ▸ max_lt behind beyond)

end Alone

/-- **Progress of the wait.** As long as checkpoints have a record for every number waited for, each
target is within the counter of appended records, which is what the next leader publishes; and a
waiter that comes to its turn returns after at most one round, with no further append. -/
theorem waiter_gets_through {queues : List Nat} {count : List Nat → Nat} (distinct : queues.Nodup)
    {w : World Wal WalLock WalSite Int}
    (run : Reaches (walCalls queues count) RecordsSuffice freshLog w) :
    ∀ target ∈ w.shared.waiting, target ≤ w.shared.walSeq ∧
      ∀ (rounds : Nat → Io) (success failure tired : WalThread) (base : List WalLock) (round : Nat),
        (∀ k, rounds k = Io.well) → w.shared.failed = false → w.shared.syncer = false →
        ∃ s, (waitThread rounds target success failure tired (round + 2)).alone (.wal :: base)
            w.shared = success.alone (.wal :: base) s ∧ target ≤ s.syncedSeq := by
  intro target mem
  have within := (targets_within distinct run target mem).1
  exact ⟨within, fun rounds success failure tired base round io works down =>
    wait_returns io works down within round⟩

/-! ## Schedules -/

instance decidableOfSome {P : LogFile → Prop} [∀ f, Decidable (P f)] :
    ∀ cut : Option LogFile, Decidable (∀ f, cut = some f → P f)
  | none => .isTrue nofun
  | some g => decidable_of_iff (P g)
      ⟨fun holds _ eq => Option.some.inj eq ▸ holds, fun all => all g rfl⟩

instance (s : Wal) : ∀ (site : WalSite) (l : WalLock), Decidable (RecordsSuffice site l s)
  | .enter, _ =>
      inferInstanceAs (Decidable (s.swapping = true → ∀ f, s.cut = some f → s.walSeq ≤ f.folded))
  | .swap, _ =>
      inferInstanceAs (Decidable (∀ f, s.cut = some f → ∀ target ∈ s.waiting, target ≤ f.folded))
  | .guard, _ => .isTrue trivial
  | .append, _ => .isTrue trivial
  | .stateAppend, _ => .isTrue trivial
  | .wait, _ => .isTrue trivial
  | .lead, _ => .isTrue trivial
  | .sync, _ => .isTrue trivial
  | .checkpoint, _ => .isTrue trivial

/-- A leader with the target 2; the checkpoint that runs during its sync has a record for each of
its two operations. -/
def roomyTurns : List (Turn Wal WalLock WalSite Int) :=
  [.start 1 (publishTo [1, 2] 3), .steps 1 31,
    .start 0 (checkpointThread (storeLocks [0]) List.length [] Io.well .published), .steps 0 40,
    .steps 1 3]

theorem starts_roomyTurns :
    ∀ turn ∈ roomyTurns, Turn.Starts (walCalls [0] List.length) turn := by
  have publish : publishTo [1, 2] 3 ∈ walCalls [0] List.length :=
    .addition .outside [.queue 0] [1, 2] Io.well (fun _ => Io.well) 3
      ⟨⟨.queue 0, [], rfl, by decide⟩, by decide, by decide⟩
  simp only [roomyTurns, List.forall_mem_cons]
  exact ⟨publish, trivial, .checkpoint [] Io.well .published (.inr rfl), trivial, trivial,
    List.forall_mem_nil _⟩

theorem waiter_gets_through_checkpoint :
    (freshLog.play roomyTurns).shared.waiting = [2] ∧
      ∃ s, (waitThread (fun _ => Io.well) 2 (.done 0) (.done (-1)) (.done 2) 2).alone [.wal]
          (freshLog.play roomyTurns).shared = (Prog.done 0 : WalThread).alone [.wal] s ∧
        2 ≤ s.syncedSeq :=
  ⟨by decide +kernel,
    (waiter_gets_through (by decide) (World.reaches_steady freshLog starts_roomyTurns
      (by decide +kernel)) 2 (by decide +kernel)).2 (fun _ => Io.well) (.done 0) (.done (-1))
      (.done 2) [] 0 (fun _ => rfl) (by decide +kernel) (by decide +kernel)⟩

/-- A publish with the target 3 waits for the leader with the target 2; the checkpoint has one
record. -/
def starvingTurns : List (Turn Wal WalLock WalSite Int) :=
  [.start 1 (publishTo [1, 2] 3), .steps 1 31, .start 2 (publishTo [3] 3), .steps 2 17,
    .start 0 checkpointOf, .steps 0 40, .steps 1 40]

/-- Everything has returned but the publish that waits for 3, the counter is at 1, and no number of
rounds gets the waiter through. -/
theorem waiter_starved :
    ∃ w, Reaches (walCalls [0] oneRecord) (fun _ _ _ => True) freshLog w ∧
      w.result? 0 = some 1 ∧ w.result? 1 = some 0 ∧ w.result? 2 = none ∧
      w.shared.waiting = [3] ∧ w.shared.walSeq = 1 ∧
      ∀ (success failure tired : WalThread) (round : Nat),
        ∃ s, (waitThread (fun _ => Io.well) 3 success failure tired round).alone [.wal] w.shared =
          tired.alone [.wal] s ∧ s.syncedSeq < 3 := by
  refine ⟨freshLog.play starvingTurns, World.reaches_play freshLog ?_, by decide +kernel,
    by decide +kernel, by decide +kernel, by decide +kernel, by decide +kernel,
    fun success failure tired round => wait_starves (fun _ => rfl) round (by decide +kernel)
      (by decide +kernel) (by decide +kernel) (by decide +kernel)⟩
  simp only [starvingTurns, List.forall_mem_cons]
  exact ⟨call_publishTo [1, 2] 3, trivial, call_publishTo [3] 3, trivial, call_checkpointOf, trivial,
    trivial, List.forall_mem_nil _⟩

end KuttiDB.QueueStore.GroupSync
