/- # KuttiDB.Stream.LogRuns -- replaying the log of any run without failures

A change that does not fail keeps `Tracks` (`Tracks.change`), so every call does (`tracks_run`), and so
does reopening the file; the log of a run therefore replays to memory (`log_replays_memory`). Nothing
fails when writes and compactions succeed and no 64-bit counter is used up: an append at the last
offset or a revision that has wrapped to 0 is counted as a failure.

Where writes may fail, `tracks_unfailed` says the same of a call after which the store is not marked
failed.
-/
import KuttiDB.Stream.Changes

namespace KuttiDB.Stream

open KuttiDB.QueueStore (Bytes u64)
open KuttiDB.Theory

set_option autoImplicit false

/-! ## Failures -/

/-- The compaction does not fail, and writes no revision that has wrapped. -/
def Compaction.clean (topics : List StreamTopic) : Compaction → Bool
  | .notDue => true
  | .done => topics.all (fun t => t.revision != 0)
  | .failed => false

/-- The call does not fail for a reason outside its arguments. -/
def Call.clean (topics : List StreamTopic) (c : Call) : Bool :=
  c.fits topics && c.compaction.clean topics

/-- A compaction of the call writes no revision that has wrapped. -/
def Call.Counted (c : Call) (topics : List StreamTopic) : Prop :=
  c.compaction = .done → ∀ t ∈ topics, t.revision ≠ 0

/-- A call may replace the log only where nothing relies on the old one. -/
def Window.Rebuilds (w : Window) (compaction : Compaction) : Prop :=
  compaction = .notDue ∨ w.hidden = [] ∧ w.since = []

/-- What a stretch of calls needs of each of them. -/
structure Window.Admits (w : Window) (c : Call) : Prop where
  shown : ∀ name ∈ c.topic, name ∉ w.hidden
  rebuilds : w.Rebuilds c.compaction
  free : c.relists = true → w.names = none

theorem Window.sequential_admits (exact : Prop) (c : Call) : (Window.sequential exact).Admits c :=
  ⟨fun _ _ => List.not_mem_nil, .inr ⟨rfl, rfl⟩, fun _ => rfl⟩

/-- The store as if no write could fail from now on. -/
def StreamStore.unlimited (s : StreamStore) : StreamStore := { s with writes := none }

theorem logEach_true : ∀ {records : List LogRecord} {s s' : StreamStore},
    logEach s records = (s', true) →
      s'.log = s.log ++ records ∧ s'.failed = s.failed ∧ s'.topics = s.topics
  | [], _, _, logged => by
    cases logged
    simp
  | r :: rest, s, s', logged => by
    rw [logEach] at logged
    unfold logRecord at logged
    cases left : s.writes with
    | none =>
      simp only [left] at logged
      simpa using logEach_true logged
    | some n =>
      cases n with
      | zero => simp [left] at logged
      | succ n =>
        simp only [left] at logged
        simpa using logEach_true logged

theorem logEach_false : ∀ {records : List LogRecord} {s s' : StreamStore},
    logEach s records = (s', false) → s'.failed = true
  | r :: rest, s, s', logged => by
    rw [logEach] at logged
    unfold logRecord at logged
    cases left : s.writes with
    | none =>
      simp only [left] at logged
      exact logEach_false logged
    | some n =>
      cases n with
      | zero =>
        simp only [left, Prod.mk.injEq, and_true] at logged
        rw [← logged]
      | succ n =>
        simp only [left] at logged
        exact logEach_false logged

/-- A store stays failed until its file is opened again. -/
theorem Change.failed {c : Call} {start : List StreamTopic} {s s' : StreamStore}
    (change : Change c start s s') (failed : s.failed = true) : s'.failed = true := by
  cases change with
  | compacted | regrouped => exact failed
  | broken => rfl
  | edited _ _ _ logged | dropped _ _ _ logged => exact (logEach_true logged).2.1.trans failed
  | refused logged | unlogged _ _ _ logged =>
    have broke := logEach_false logged
    exact broke
  | @declared _ _ _ _ _ _ ok _ _ _ _ _ logged =>
    cases ok with
    | true => exact (logEach_true logged).2.1.trans failed
    | false =>
      have broke := logEach_false logged
      exact broke

/-- Without failing writes and compactions nothing fails. -/
theorem Change.healthy {c : Call} {start : List StreamTopic} {s s' : StreamStore}
    (change : Change c start s s') (works : c.compaction ≠ .failed) (writing : s.writes = none) :
    s'.failed = s.failed ∧ s'.writes = none := by
  cases change with
  | compacted | regrouped => exact ⟨rfl, writing⟩
  | broken due => exact absurd due works
  | refused logged | unlogged _ _ _ logged =>
    rw [logEach_ok writing] at logged
    cases logged
  | edited _ _ _ logged | declared _ _ _ _ _ logged | dropped _ _ _ logged =>
    rw [logEach_ok writing] at logged
    cases logged
    exact ⟨rfl, writing⟩

/-! ## Changes -/

/-- Replay follows an edit. -/
theorem Edit.follows {c : Call} {start : List StreamTopic} {t t' : StreamTopic}
    {records : List LogRecord} {exact : Prop} (edit : Edit c start t t' records) (sound : t.Sound) :
    Follows exact t t' records := by
  cases edit with
  | link _ inside here room fits => exact Follows.link sound inside here room fits
  | batch _ accepted room some_ limit len => exact Follows.batch sound accepted room some_ limit len
  | trim _ inside _ within => exact Follows.trim sound inside within
  | retention _ maxBytes maxAgeMs => exact Follows.retention sound maxBytes maxAgeMs
  | enforce _ => exact Follows.enforce sound _
  | commit found inside => exact Follows.commitAll _ sound found inside
  | members regrouped =>
    obtain ⟨rest, offsets, keeps⟩ := regrouped
    refine Follows.ofGroups (keeps sound) ?_ ?_ ?_ ?_ ?_ offsets <;> rw [rest]

theorem Change.sound {c : Call} {start : List StreamTopic} {s s' : StreamStore}
    (change : Change c start s s') (sound : SoundTopics s.topics) : SoundTopics s'.topics := by
  cases change with
  | compacted | broken => exact sound
  | edited _ found edit =>
    have follows : Follows True _ _ _ := edit.follows (sound.found found)
    exact sound.set follows.sound
  | @refused records s' logged =>
    have same := logEach_topics records s
    rw [logged] at same
    exact (show s'.topics = s.topics from same) ▸ sound
  | unlogged _ found => exact sound.set (sound_enforce _ (sound.found found)).1
  | @declared _ _ maxBytes maxAgeMs id _ _ _ _ nonempty divided absent =>
    have new := sound_newTopic maxBytes maxAgeMs id nonempty divided
    exact sound.cons (new.congr rfl rfl rfl rfl rfl) absent
  | dropped => exact sound.drop _
  | regrouped keeps => exact sound.onEveryGroup keeps

namespace Tracks

variable {w : Window} {fresh : Bytes → StreamId} {s s' : StreamStore} {c : Call}
  {start : List StreamTopic}

/-- A change that did not fail. -/
theorem change (tracks : Tracks w fresh s.unlimited) (change : Change c start s s')
    (counted : c.Counted start) (admits : w.Admits c) (unfailed : s'.failed = false) :
    Tracks w fresh s'.unlimited := by
  cases change with
  | compacted due first =>
    rcases admits.rebuilds with other | ⟨whole, none_⟩
    · rw [due] at other
      cases other
    · exact tracks.compacted (first ▸ counted due) whole (none_ ▸ List.nil_prefix)
  | broken => cases unfailed
  | @edited t t' records s₁ named found edit logged =>
    obtain ⟨log, failed, -⟩ := logEach_true logged
    have next := tracks.set (admits.shown _ named) found (edit.follows (tracks.sound.found found))
    simpa only [StreamStore.unlimited, log, failed] using next
  | refused logged => simp [logEach_false logged] at unfailed
  | unlogged _ _ _ logged => simp [logEach_false logged] at unfailed
  | @declared name partitions maxBytes maxAgeMs id s₁ ok declares named nonempty divided absent
      logged =>
    cases ok with
    | false => simp [logEach_false logged] at unfailed
    | true =>
      obtain ⟨log, failed, -⟩ := logEach_true logged
      have next : Tracks w fresh { s.unlimited with
          log := s.log ++ [.declare name partitions maxBytes maxAgeMs, .identity name id]
          topics := { newTopic name partitions maxBytes maxAgeMs id with idPersisted := true }
            :: s.topics } :=
        tracks.declared nonempty divided (admits.free (by simp [c.relists_eq, declares]))
          (admits.shown _ named) absent
      simpa only [StreamStore.unlimited, log, failed] using next
  | @dropped t s₁ deletes named found logged =>
    obtain ⟨log, failed, -⟩ := logEach_true logged
    have next := (tracks.deleteLogged (admits.shown _ named) found).dropped (admits.shown _ named)
      (admits.free (by simp [c.relists_eq, deletes]))
    simpa only [StreamStore.unlimited, log, failed] using next
  | regrouped keeps => exact tracks.regrouped keeps

end Tracks

/-- What every change keeps that does not fail holds of a store that did not fail. -/
theorem Changes.unfailed_rule {P : StreamStore → Prop} {c : Call} {start : List StreamTopic}
    {s s' : StreamStore} (changes : Changes c start s s') (before : s.failed = false → P s)
    (step : ∀ u v, P u → Change c start u v → v.failed = false → P v) :
    s'.failed = false → P s' := by
  induction changes with
  | refl => exact before
  | @tail u v _ change ih =>
    intro unfailed
    have earlier : u.failed = false := by
      cases failed : u.failed with
      | false => rfl
      | true => exact (change.failed failed).symm.trans unfailed
    exact step u v (ih earlier) change unfailed

/-- A call that leaves the store unfailed keeps the log in step with memory, whatever writes still
succeed. -/
theorem tracks_unfailed {w : Window} {fresh : Bytes → StreamId} {s : StreamStore}
    (tracks : Tracks w fresh s.unlimited) (c : Call) (fits : c.fits s.topics = true)
    (counted : c.Counted s.topics) (admits : w.Admits c) (unfailed : (c.run s).1.failed = false) :
    Tracks w fresh (c.run s).1.unlimited := by
  refine (changes_run s c fits).unfailed_rule (P := fun s => Tracks w fresh s.unlimited)
    (fun _ => tracks) (fun u v tracks change still => ?_) unfailed
  exact tracks.change change counted admits still

/-- Every call that does not fail keeps the log in step with memory. -/
theorem tracks_run {w : Window} {fresh : Bytes → StreamId} {s : StreamStore}
    (tracks : Tracks w fresh s) (c : Call) (clean : c.clean s.topics = true) (admits : w.Admits c) :
    Tracks w fresh (c.run s).1 := by
  obtain ⟨fits, compaction⟩ := Bool.and_eq_true_iff.mp clean
  have works : c.compaction ≠ .failed := fun due => by simp [due, Compaction.clean] at compaction
  have counted : c.Counted s.topics := fun due => by
    simpa [due, Compaction.clean] using compaction
  have same : s.unlimited = s := by rw [StreamStore.unlimited, ← tracks.writing]
  have healthy : (c.run s).1.failed = false ∧ (c.run s).1.writes = none := by
    have changes := changes_run s c fits
    generalize (c.run s).1 = s' at changes
    induction changes with
    | refl => exact ⟨tracks.healthy, tracks.writing⟩
    | tail _ change ih =>
      obtain ⟨failed, writing⟩ := change.healthy works ih.2
      exact ⟨failed.trans ih.1, writing⟩
  have next := tracks_unfailed (same.symm ▸ tracks) c fits counted admits healthy.1
  rwa [StreamStore.unlimited, ← healthy.2] at next

/-! ## Runs -/

/-- A step of a sequential run: a call, or closing the store and opening its file again. -/
inductive LogStep where
  | call (made : Call)
  | reopen (now : Nat)
  deriving DecidableEq, Repr

def LogStep.run (fresh : Bytes → StreamId) (s : StreamStore) : LogStep → StreamStore
  | .call made => (made.run s).1
  | .reopen now => openLog fresh now s.log

def LogStep.clean (s : StreamStore) : LogStep → Bool
  | .call made => made.clean s.topics
  | .reopen _ => true

def runLog (fresh : Bytes → StreamId) (s : StreamStore) (steps : List LogStep) : StreamStore :=
  steps.foldl (LogStep.run fresh) s

/-- No step fails. -/
def cleanLog (fresh : Bytes → StreamId) : StreamStore → List LogStep → Bool
  | _, [] => true
  | s, step :: rest => step.clean s && cleanLog fresh (step.run fresh s) rest

/-- The store was not reopened. -/
def LogStep.isCall : LogStep → Bool
  | .call _ => true
  | .reopen _ => false

theorem SameTopic.mono {exact exact' : Prop} {t u : StreamTopic} (weaker : exact' → exact)
    (same : SameTopic exact t u) : SameTopic exact' t u :=
  ⟨same.name, same.maxBytes, same.maxAgeMs, same.id, same.persisted, same.count,
    fun p inside => ⟨(same.parts p inside).trimmed, (same.parts p inside).within,
      fun holds => (same.parts p inside).same (weaker holds)⟩, same.offsets⟩

theorem Tracks.mono {exact exact' : Prop} {fresh : Bytes → StreamId} {s : StreamStore}
    (weaker : exact' → exact) (tracks : Tracks (.sequential exact) fresh s) :
    Tracks (.sequential exact') fresh s := by
  obtain ⟨healthy, writing, sound, grown, -, r, run, soundR, same⟩ := tracks
  refine ⟨healthy, writing, sound, grown, nofun, r, run, soundR,
    Window.same_sequential.mpr fun name => ?_⟩
  have here := Window.same_sequential.mp same name
  revert here
  cases findTopic s.topics name <;> cases findTopic r name <;> intro here <;> cases here
  · exact .none
  · exact .some (SameTopic.mono weaker ‹_›)

/-- The invariant along a run; exact as long as the store is not reopened. -/
theorem tracks_log (fresh : Bytes → StreamId) : ∀ (steps : List LogStep) {s : StreamStore}
    {exact : Prop}, Tracks (.sequential exact) fresh s → cleanLog fresh s steps = true →
    Tracks (.sequential (exact ∧ ∀ step ∈ steps, step.isCall = true)) fresh (runLog fresh s steps)
  | [], _, _, tracks, _ => tracks.mono And.left
  | step :: rest, s, exact, tracks, clean => by
    obtain ⟨here, later⟩ := Bool.and_eq_true_iff.mp clean
    cases step with
    | call made =>
      have next := tracks_log fresh rest
        (tracks_run tracks made here (Window.sequential_admits exact made)) later
      exact next.mono fun holds =>
        ⟨holds.1, fun step mem => holds.2 step (List.mem_cons_of_mem _ mem)⟩
    | reopen now =>
      have next := tracks_log fresh rest (tracks.reopened now) later
      exact next.mono fun holds => absurd (holds.2 _ List.mem_cons_self) (by simp [LogStep.isCall])

/-- The invariant of a run from the empty store. -/
theorem tracks_runLog (fresh : Bytes → StreamId) (steps : List LogStep)
    (clean : cleanLog fresh .fresh steps = true) :
    Tracks (.sequential (∀ step ∈ steps, step.isCall = true)) fresh (runLog fresh .fresh steps) :=
  (tracks_log fresh steps (@Tracks.start fresh True) clean).mono fun holds => ⟨trivial, holds⟩

/-- The log of every run without failures is accepted in full and rebuilds memory: the same topics
with the same identity, partitions, retention settings and group offsets, and partitions that differ
at most by records which retention has dropped from memory at a reopening. -/
theorem log_replays_memory (fresh : Bytes → StreamId) (steps : List LogStep)
    (clean : cleanLog fresh .fresh steps = true) :
    ∃ replayed, replayAll fresh [] (runLog fresh .fresh steps).log
        = (replayed, (runLog fresh .fresh steps).log) ∧
      SameTopics (∀ step ∈ steps, step.isCall = true) (runLog fresh .fresh steps).topics
        replayed := by
  obtain ⟨r, run, -, same⟩ := (tracks_runLog fresh steps clean).replayed
  exact ⟨r, run, Window.same_sequential.mp same⟩

/-- Appends, a commit, a deletion, a compaction, retention by size and a reopening. -/
def sampleLog : List LogStep :=
  [.call (.declare .notDue 7 [116] 2 5 0),
   .call (.declare .notDue 8 [117] 1 0 0),
   .call (.append .notDue 10 10 [116] 0 ⟨[1], [2, 3]⟩),
   .call (.commit .notDue [116] [103] 0 1),
   .call (.delete .done [117] 1),
   .call (.appendBatch .notDue 11 11 [116] 1 [⟨[], [4, 5]⟩, ⟨[9], [6, 7]⟩]),
   .reopen 12,
   .call (.append .notDue 13 13 [116] 0 ⟨[], [8]⟩)]

theorem sampleLog_replays :
    cleanLog (fun _ => 0) .fresh sampleLog = true ∧
      ∃ replayed, replayAll (fun _ => 0) [] (runLog (fun _ => 0) .fresh sampleLog).log
          = (replayed, (runLog (fun _ => 0) .fresh sampleLog).log) ∧
        SameTopics (∀ step ∈ sampleLog, step.isCall = true)
          (runLog (fun _ => 0) .fresh sampleLog).topics replayed :=
  ⟨by decide +kernel, log_replays_memory _ sampleLog (by decide +kernel)⟩

end KuttiDB.Stream
