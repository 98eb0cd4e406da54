/- # KuttiDB.QueueStore.SyncWaits -- the durability wait keeps to the discipline of the log

A thread in the wait knows that its operations are counted by its target in the file it wrote them
to, or kept. It returns when the synced counter has passed the target, which outside of the swap
means that they are kept. A leader publishes the number it read before its sync; what that number
counts is covered when it does, since nobody replaced the file in between.
-/
import KuttiDB.QueueStore.SyncSafety

namespace KuttiDB.QueueStore.GroupSync

open KuttiDB.Theory
open KuttiDB.Theory.Discipline

set_option autoImplicit false

variable {queues : List Nat} {grouped calm : Prop} {held : Set WalLock} {s s' : Wal}
  {gen target : Nat} {ops : List Nat}

/-! ## What a waiting thread knows -/

def Pending (gen target : Nat) (ops : List Nat) (s : Wal) : Prop :=
  ∀ op ∈ ops, Awaited gen target op s

theorem stays_pending : Stays queues grouped held (Pending gen target ops) :=
  fun others s s' apart sound known may op mem =>
    stays_awaited gen target op others s s' apart sound (known op mem) may

/-- A thread that waits with its guards held knows that no snapshot is taken. -/
def Calm (calm : Prop) (s : Wal) : Prop := calm → s.cut = none

/-- With the log lock: no swap goes on. -/
def Waits (grouped calm : Prop) (gen target : Nat) (ops : List Nat) (E : Wal → Prop) (s : Wal) :
    Prop :=
  Calm calm s ∧ (grouped → s.swapping = false ∧ Pending gen target ops s ∧ E s)

/-- With the flag: no swap goes on or begins. -/
def Leads (grouped calm : Prop) (gen target : Nat) (ops : List Nat) (E : Wal → Prop) (s : Wal) :
    Prop :=
  Calm calm s ∧
    (grouped → s.syncer = true ∧ s.swapping = false ∧ Pending gen target ops s ∧ E s)

theorem stays_calm (guarded : calm → Guarded queues held) :
    Stays queues grouped held (Calm calm) :=
  fun others s s' apart sound known may quiet =>
    stays_cut (guarded quiet) others s s' apart sound (known quiet) may

theorem Calm.ordinary (known : Calm calm s) (step : Ordinary s s') : Calm calm s' :=
  fun quiet => step.cut.trans (known quiet)

theorem stays_waits {E : Wal → Prop} (guarded : calm → Guarded queues held) (wal : .wal ∈ held)
    (keeps : ∀ s s', E s → Onward s s' → Still s s' → E s') :
    Stays queues grouped held (Waits grouped calm gen target ops E) := by
  intro others s s' apart sound known may
  refine ⟨stays_calm guarded others s s' apart sound known.1 may, fun trusted => ?_⟩
  obtain ⟨closed, pending, extra⟩ := known.2 trusted
  have closed' := closed_of_wal (apart _ wal) closed may.2
  exact ⟨closed', stays_pending others s s' apart sound pending may,
    keeps s s' extra (may.2.onward closed closed') (still_of_wal (apart _ wal) closed may.2)⟩

theorem stays_leads {E : Wal → Prop} (guarded : calm → Guarded queues held) (mine : .syncer ∈ held)
    (keeps : ∀ s s', E s → Onward s s' → E s') :
    Stays queues grouped held (Leads grouped calm gen target ops E) := by
  intro others s s' apart sound known may
  refine ⟨stays_calm guarded others s s' apart sound known.1 may, fun trusted => ?_⟩
  obtain ⟨up, closed, pending, extra⟩ := known.2 trusted
  have closed' : s'.swapping = false := by
    cases phase : s'.swapping with
    | false => rfl
    | true => exact absurd (up.symm.trans ((may.2.opens closed phase).2 trusted)) (by decide)
  exact ⟨(may.2.flag (apart _ mine)).trans up, closed',
    stays_pending others s s' apart sound pending may,
    keeps s s' extra (may.2.onward closed closed')⟩

theorem stays_down (mine : .syncer ∈ held) :
    Stays queues grouped held (fun s => s.syncer = false) :=
  fun _ _ _ apart _ down may => (may.2.flag (apart _ mine)).trans down

/-- An own step on the same file. -/
theorem Pending.ordinary (step : Ordinary s s') (known : Pending gen target ops s) :
    Pending gen target ops s' := by
  intro op mem
  rcases known op mem with kept | ⟨listed, same, marked⟩
  · exact .inl (step.kept kept)
  · exact .inr ⟨step.listed listed, step.gen.trans same, step.marked marked⟩

theorem Pending.kept (sound : Sound grouped s) (covered : Covered target s)
    (known : Pending gen target ops s) : ∀ op ∈ ops, Kept op s :=
  fun op mem => (known op mem).kept sound covered

/-! ## Own steps that leave the file in place -/

theorem syncer_synced (gen count : Nat) (s : Wal) : (s.synced gen count).syncer = s.syncer := by
  unfold Wal.synced
  split <;> rfl

/-! ## The leader -/

section Lead

variable {io : Io} {again failure : WalThread}

/-- The guards are among the locks held when the log lock is let go. -/
theorem guarded_insert {l : WalLock} (guarded : calm → Guarded queues (held \ {.wal})) :
    (calm → Guarded queues held) ∧ (calm → Guarded queues (insert l held)) ∧
      (calm → Guarded queues (insert l held \ {.wal})) :=
  ⟨fun quiet => (guarded quiet).mono Set.sdiff_subset,
    fun quiet => (guarded quiet).mono (Set.sdiff_subset.trans (Set.subset_insert l held)),
    fun quiet => (guarded quiet).mono (Set.sdiff_subset_sdiff_left (Set.subset_insert l held))⟩

/-- The leader's round from the sync on: `number` was read before. -/
theorem can_leadSync {number count : Nat} (guarded : calm → Guarded queues (held \ {.wal}))
    (wal : .wal ∈ held) (out : .syncer ∉ held)
    (goesOn : ∀ s, Sound grouped s → Waits grouped calm gen target ops (fun _ => True) s →
      Can queues grouped again held s)
    (fails : ∀ s, Sound grouped s → Calm calm s → Can queues grouped failure held s)
    (now : Leads grouped calm gen target ops
      (fun s => count ≤ s.file.records.length ∧ Aimed number count s) s) :
    Can queues grouped
      (syncThread io.syncs
        (.lock .wait .wal (.write (Wal.setSyncer false) (.unlock .syncer
          (.write (Wal.publish number) again))))
        (.lock .wait .wal (.write (Wal.setSyncer false) (.unlock .syncer
          (.write Wal.fail failure)))))
      ((insert .syncer held) \ {.wal}) s := by
  obtain ⟨guardedIn, guardedUp, guardedOut⟩ := @guarded_insert _ _ _ .syncer guarded
  have mine : WalLock.syncer ∈ (insert WalLock.syncer held : Set WalLock) \ {.wal} :=
    ⟨Set.mem_insert _ _, by simp⟩
  have mine' := Set.mem_insert WalLock.syncer held
  have wal' := Set.mem_insert_of_mem WalLock.syncer wal
  have apart : WalLock.wal ∉ (insert WalLock.syncer held : Set WalLock) \ {.wal} := by simp
  have whole : insert WalLock.wal ((insert WalLock.syncer held : Set WalLock) \ {.wal}) =
      insert .syncer held := Set.insert_sdiff_self_of_mem wal'
  have free : (insert WalLock.syncer held : Set WalLock) \ {.syncer} = held :=
    Set.insert_sdiff_self_of_notMem out
  refine can_sync
    (P := Leads grouped calm gen target ops
      (fun s => count ≤ s.file.records.length ∧ Aimed number count s))
    (Q := fun g n => Leads grouped calm gen target ops (fun s => s.gen = g ∧ Aimed number n s))
    (stays_leads guardedOut mine (fun _ _ known step =>
      ⟨known.1.trans step.records.length_le, step.aimed known.2⟩))
    (fun g n => stays_leads guardedOut mine (fun _ _ known step =>
      ⟨step.gen.trans known.1, step.aimed known.2⟩))
    (fun s _ known => ⟨known.1, fun trusted => ?_⟩) (fun g n s _ known _ => ?_)
    (fun s _ known => ?_) now
  · obtain ⟨up, closed, pending, written, aimed⟩ := known.2 trusted
    exact ⟨up, closed, pending, rfl, aimed.1, fun m mem => (aimed.2 m mem).trans written⟩
  · have step := ordinary_synced g n s
    have covered : Leads grouped calm gen target ops (Covered number) (s.synced g n) := by
      refine ⟨known.1.ordinary step, fun trusted => ?_⟩
      obtain ⟨up, closed, pending, same, aimed⟩ := known.2 trusted
      exact ⟨(syncer_synced g n s).trans up, step.swapping.trans closed, pending.ordinary step,
        (step.aimed aimed).covered (safe_synced same)⟩
    refine .lock _ (stays_leads guardedOut mine (fun _ _ known step => step.covered known)) covered
      apart (fun s _ known _ _ => ?_)
    rw [whole]
    refine .write _ (stays_leads guardedUp mine' (fun _ _ known step => step.covered known)) known
      (fun s _ known => ⟨may_setSyncer false wal' mine', ?_⟩)
    have lowered : Waits grouped calm gen target ops (Covered number) (s.setSyncer false) := by
      have step := ordinary_setSyncer false s
      refine ⟨known.1.ordinary step, fun trusted => ?_⟩
      obtain ⟨-, closed, pending, covered⟩ := known.2 trusted
      exact ⟨closed, pending.ordinary step, step.covered covered⟩
    refine .unlock _ ((stays_down mine').and
        (stays_waits guardedUp wal' (fun _ _ known step _ => step.covered known)))
      ⟨rfl, lowered⟩ mine' (fun s _ known => ⟨known.1, ?_⟩)
    rw [free]
    refine .write _ (stays_waits guardedIn wal (fun _ _ known step _ => step.covered known)) known.2
      (fun s sound known => ?_)
    have may : May queues grouped held s (s.publish number) :=
      may_publish sound wal (fun trusted _ => (known.2 trusted).2.2)
    have step := ordinary_storeTarget (max s.syncedSeq number) s
    refine ⟨may, goesOn _ (may.1 sound) ⟨known.1.ordinary step, fun trusted => ?_⟩⟩
    obtain ⟨closed, pending, -⟩ := known.2 trusted
    exact ⟨closed, pending.ordinary step, trivial⟩
  · refine .lock _ (stays_calm guardedOut) known.1 apart (fun s _ known _ _ => ?_)
    rw [whole]
    refine .write _ (stays_calm guardedUp) known
      (fun s _ known => ⟨may_setSyncer false wal' mine', ?_⟩)
    refine .unlock _ ((stays_down mine').and (stays_calm guardedUp))
      ⟨rfl, known.ordinary (ordinary_setSyncer false s)⟩ mine' (fun s _ known => ⟨known.1, ?_⟩)
    rw [free]
    refine .write _ (stays_calm guardedIn) known.2 (fun s sound known => ?_)
    have may : May queues grouped held s s.fail := may_fail
    exact ⟨may, fails _ (may.1 sound) known⟩

theorem can_lead (guarded : calm → Guarded queues (held \ {.wal})) (wal : .wal ∈ held)
    (out : .syncer ∉ held)
    (goesOn : ∀ s, Sound grouped s → Waits grouped calm gen target ops (fun _ => True) s →
      Can queues grouped again held s)
    (fails : ∀ s, Sound grouped s → Calm calm s → Can queues grouped failure held s)
    (now : Waits grouped calm gen target ops (fun _ => True) s) :
    Can queues grouped (leadThread io again failure) held s := by
  obtain ⟨guardedIn, guardedUp, -⟩ := @guarded_insert _ _ _ .syncer guarded
  have mine := Set.mem_insert WalLock.syncer held
  have wal' := Set.mem_insert_of_mem WalLock.syncer wal
  refine .lock _ (stays_waits guardedIn wal (fun _ _ _ _ _ => trivial)) now out
    (fun s _ known _ _ => ?_)
  refine .write _ (stays_waits guardedUp wal' (fun _ _ _ _ _ => trivial)) known
    (fun s _ known => ⟨may_setSyncer true wal' mine, ?_⟩)
  have raised : Leads grouped calm gen target ops (fun _ => True) (s.setSyncer true) := by
    have step := ordinary_setSyncer true s
    refine ⟨known.1.ordinary step, fun trusted => ?_⟩
    obtain ⟨closed, pending, -⟩ := known.2 trusted
    exact ⟨rfl, closed, pending.ordinary step, trivial⟩
  refine .read _ (stays_leads guardedUp mine (fun _ _ _ _ => trivial)) raised (fun s _ known => ?_)
  split
  · refine .write _ (stays_calm guardedUp) known.1 (fun s _ known => ⟨may_fail, ?_⟩)
    refine .write _ (stays_calm guardedUp) known
      (fun s _ known => ⟨may_setSyncer false wal' mine, ?_⟩)
    refine .unlock _ ((stays_down mine).and (stays_calm guardedUp))
      ⟨rfl, known.ordinary (ordinary_setSyncer false s)⟩ mine (fun s sound known => ⟨known.1, ?_⟩)
    rw [Set.insert_sdiff_self_of_notMem out]
    exact fails s sound known.2
  · refine .write (Leads grouped calm gen target ops (fun s' => s.walSeq ≤ s'.walSeq))
      (stays_leads guardedUp mine (fun _ _ known step => known.trans step.seq))
      ⟨known.1, fun trusted =>
        ⟨(known.2 trusted).1, (known.2 trusted).2.1, (known.2 trusted).2.2.1, le_rfl⟩⟩
      (fun s' sound known => ⟨may_flush sound wal', ?_⟩)
    have step := ordinary_flush s'
    refine .unlock (Leads grouped calm gen target ops (fun s₁ =>
        s'.flush.file.records.length ≤ s₁.file.records.length ∧
          Aimed s.walSeq s'.flush.file.records.length s₁))
      (stays_leads guardedUp mine (fun _ _ known step =>
        ⟨known.1.trans step.records.length_le, step.aimed known.2⟩))
      ⟨known.1.ordinary step, fun trusted => ?_⟩ wal'
      (fun s₁ _ known => ⟨trivial, can_leadSync guarded wal out goesOn fails known⟩)
    obtain ⟨up, closed, pending, le⟩ := known.2 trusted
    exact ⟨up, closed, pending.ordinary step, le_rfl,
      step.aimed (Aimed.of_le sound trusted closed le (records_flush s').ge)⟩

end Lead

/-! ## The loop -/

section Wait

variable {success failure tired : WalThread}

/-- Everything up to the counter is covered by the sync under the lock. -/
theorem can_fast {io : Io} (guarded : calm → Guarded queues held) (wal : .wal ∈ held)
    (goesOn : ∀ s, Sound grouped s → Calm calm s → (grouped → ∀ op ∈ ops, Kept op s) →
      Can queues grouped success held s)
    (fails : ∀ s, Sound grouped s → Calm calm s → Can queues grouped failure held s)
    (now : Waits grouped calm gen target ops (fun s => s.walSeq = target) s) :
    Can queues grouped (fastThread io target success failure) held s := by
  have refuse : ∀ s, Calm calm s → Can queues grouped (.write Wal.fail failure) held s :=
    fun s known => .write _ (stays_calm guarded) known (fun s sound known =>
      have may : May queues grouped held s s.fail := may_fail
      ⟨may, fails _ (may.1 sound) known⟩)
  unfold fastThread
  split
  · exact refuse s now.1
  refine .write _ (stays_waits guarded wal (fun _ _ known _ still => still.walSeq.trans known)) now
    (fun s sound known => ⟨may_flush sound wal, ?_⟩)
  refine can_sync
    (P := Waits grouped calm gen target ops (fun s => s.walSeq = target ∧ s.staged = []))
    (Q := fun g n => Waits grouped calm gen target ops (fun s =>
      s.walSeq = target ∧ s.staged = [] ∧ s.gen = g ∧ s.file.records.length = n))
    (stays_waits guarded wal (fun _ _ known _ still =>
      ⟨still.walSeq.trans known.1, still.staged.trans known.2⟩))
    (fun g n => stays_waits guarded wal (fun _ _ known _ still =>
      ⟨still.walSeq.trans known.1, still.staged.trans known.2.1, still.gen.trans known.2.2.1,
        still.records ▸ known.2.2.2⟩))
    (fun s _ known => ⟨known.1, fun trusted => ?_⟩)
    (fun g n s sound known begun => ?_) (fun s _ known => refuse s known.1)
    ⟨known.1.ordinary (ordinary_flush s), fun trusted => ?_⟩
  · obtain ⟨closed, pending, seq, staged⟩ := known.2 trusted
    exact ⟨closed, pending, seq, staged, rfl, rfl⟩
  · have may : May queues grouped held s (s.synced g n) := may_synced begun.2
    have covered : Waits grouped calm gen target ops (Covered target) (s.synced g n) := by
      refine ⟨known.1.ordinary (ordinary_synced g n s), fun trusted => ?_⟩
      obtain ⟨closed, pending, seq, staged, rfl, rfl⟩ := known.2 trusted
      have step := ordinary_synced s.gen s.file.records.length s
      have flushed := flushed_synced staged
      have same : (s.synced s.gen s.file.records.length).walSeq = target := by
        simpa [Wal.synced] using seq
      exact ⟨step.swapping.trans closed, pending.ordinary step,
        same ▸ covered_walSeq (may.1 sound) trusted (step.swapping.trans closed) flushed.1 flushed.2⟩
    refine .write _ (stays_waits guarded wal (fun _ _ known step _ => step.covered known)) covered
      (fun s sound known => ?_)
    have may : May queues grouped held s (s.storeTarget target) :=
      may_storeTarget wal (fun trusted _ => (known.2 trusted).2.2)
    have step := ordinary_storeTarget target s
    refine ⟨may, goesOn _ (may.1 sound) (known.1.ordinary step) (fun trusted => ?_)⟩
    obtain ⟨-, pending, covered⟩ := known.2 trusted
    exact (pending.ordinary step).kept (may.1 sound) (step.covered covered)
  · obtain ⟨closed, pending, seq⟩ := known.2 trusted
    exact ⟨closed, pending.ordinary (ordinary_flush s), seq, rfl⟩

theorem can_wait {io : Nat → Io} (guarded : calm → Guarded queues (held \ {.wal}))
    (wal : .wal ∈ held) (out : .syncer ∉ held)
    (goesOn : ∀ s, Sound grouped s → Calm calm s → (grouped → ∀ op ∈ ops, Kept op s) →
      Can queues grouped success held s)
    (fails : ∀ s, Sound grouped s → Calm calm s → Can queues grouped failure held s)
    (stops : ∀ s, Sound grouped s → Calm calm s → Can queues grouped tired held s) (round : Nat)
    (sound : Sound grouped s) (now : Waits grouped calm gen target ops (fun _ => True) s) :
    Can queues grouped (waitThread io target success failure tired round) held s := by
  have guardedIn : calm → Guarded queues held :=
    fun quiet => (guarded quiet).mono Set.sdiff_subset
  have stays : Stays queues grouped held (Waits grouped calm gen target ops (fun _ => True)) :=
    stays_waits guardedIn wal (fun _ _ _ _ _ => trivial)
  -- Induction on the rounds: every way through the loop that does not leave it waits again.
  induction round generalizing s with
  | zero => exact stops s sound now.1
  | succ round ih =>
      have lead : ∀ s, Waits grouped calm gen target ops (fun _ => True) s →
          Can queues grouped
            (leadThread (io round) (waitThread io target success failure tired round) failure)
            held s :=
        fun s known => can_lead guarded wal out (fun s sound known => ih sound known) fails known
      refine .read _ stays now (fun s sound known => ?_)
      split
      · exact fails s sound known.1
      refine .read _ stays known (fun s sound known => ?_)
      split
      · rename_i le
        refine goesOn s sound known.1 (fun trusted op mem => ?_)
        obtain ⟨closed, pending, -⟩ := known.2 trusted
        rcases pending op mem with kept | ⟨listed, -, marked⟩
        · exact kept
        · exact kept_of_durable sound listed
            ((marked.mono le).mem_durable sound (sound.covered trusted closed))
      refine .read _ stays known (fun s sound known => ?_)
      split
      · refine .unlock _ stays known wal (fun s _ known => ⟨trivial, ?_⟩)
        refine .lock (fun s => Calm calm s ∧ (grouped → Pending gen target ops s))
          ((stays_calm guarded).and (Stable.imp stays_pending))
          ⟨known.1, fun trusted => (known.2 trusted).2.1⟩ (by simp) (fun s sound known _ met => ?_)
        rw [Set.insert_sdiff_self_of_mem wal]
        exact ih sound ⟨known.1, fun trusted => ⟨met trusted, known.2 trusted, trivial⟩⟩
      refine .read _ stays known (fun s sound known => ?_)
      split
      · rename_i eq
        refine .read (Waits grouped calm gen target ops (fun s => s.walSeq = target))
          (stays_waits guardedIn wal (fun _ _ known _ still => still.walSeq.trans known))
          ⟨known.1, fun trusted => ⟨(known.2 trusted).1, (known.2 trusted).2.1, eq⟩⟩
          (fun s sound known => ?_)
        split
        · exact can_fast guardedIn wal goesOn fails known
        · exact lead s ⟨known.1, fun trusted =>
            ⟨(known.2 trusted).1, (known.2 trusted).2.1, trivial⟩⟩
      · exact lead s known

end Wait

end KuttiDB.QueueStore.GroupSync
