/- # KuttiDB.Stream.FailingRuns -- runs in which writes may fail

A step is a call, a reopening of the file or a change of how many writes still succeed. As long as no
64-bit counter is used up and only stores that did not fail are reopened, memory is sound, and the log
of a store that is not marked failed is in step with it (`inStep_runFile`), to the record unless the
file was reopened.
-/
import KuttiDB.Stream.LogRuns

namespace KuttiDB.Stream

open KuttiDB.QueueStore (Bytes u64)
open KuttiDB.Theory

set_option autoImplicit false

inductive FileStep where
  | call (made : Call)
  | reopen (now : Nat)
  /-- From now on so many writes succeed. -/
  | disk (writes : Option Nat)
  deriving DecidableEq, Repr

def FileStep.run (fresh : Bytes → StreamId) (s : StreamStore) : FileStep → StreamStore
  | .call made => (made.run s).1
  | .reopen now => openLog fresh now s.log
  | .disk writes => { s with writes := writes }

def FileStep.isReopen : FileStep → Bool
  | .reopen _ => true
  | _ => false

def runFile (fresh : Bytes → StreamId) (s : StreamStore) (steps : List FileStep) : StreamStore :=
  steps.foldl (FileStep.run fresh) s

/-- Every step meets a condition on the state it finds. -/
def meets (fresh : Bytes → StreamId) (condition : StreamStore → FileStep → Bool) :
    StreamStore → List FileStep → Bool
  | _, [] => true
  | s, step :: rest => condition s step && meets fresh condition (step.run fresh s) rest

theorem meets_append (fresh : Bytes → StreamId) (condition : StreamStore → FileStep → Bool)
    (later : List FileStep) : ∀ (steps : List FileStep) (s : StreamStore),
    meets fresh condition s (steps ++ later)
      = (meets fresh condition s steps && meets fresh condition (runFile fresh s steps) later)
  | [], _ => by simp [meets, runFile]
  | step :: rest, s => by
    have next := meets_append fresh condition later rest (step.run fresh s)
    simp only [List.cons_append, meets, next, Bool.and_assoc]
    rfl

/-- A stronger condition. -/
theorem meets_mono {fresh : Bytes → StreamId} {strong weak : StreamStore → FileStep → Bool}
    (weaker : ∀ s step, strong s step = true → weak s step = true) :
    ∀ {steps : List FileStep} {s : StreamStore}, meets fresh strong s steps = true →
      meets fresh weak s steps = true
  | [], _, _ => rfl
  | step :: rest, s, met => by
    obtain ⟨here, later⟩ := Bool.and_eq_true_iff.mp met
    exact Bool.and_eq_true_iff.mpr ⟨weaker s step here, meets_mono weaker later⟩

/-- No 64-bit counter is used up, and only a store that did not fail is reopened. -/
def FileStep.counted (s : StreamStore) : FileStep → Bool
  | .call made =>
    made.fits s.topics && (made.compaction != .done || s.topics.all (fun t => t.revision != 0))
  | .reopen _ => !s.failed
  | .disk _ => true

theorem Changes.failed {c : Call} {start : List StreamTopic} {s s' : StreamStore}
    (changes : Changes c start s s') (failed : s.failed = true) : s'.failed = true := by
  induction changes with
  | refl => exact failed
  | tail _ change ih => exact change.failed ih

/-- A call that returns 0 got past the compaction check. -/
theorem guarded_accepts {s : StreamStore} {compaction : Compaction}
    {call : StreamStore → StreamStore × Int} (accepted : (guarded s compaction call).2 = 0) :
    ∃ s' : StreamStore, s'.topics = s.topics ∧ guarded s compaction call = call s' ∧
      (call s').2 = 0 := by
  have passed : ∃ s' : StreamStore, s'.topics = s.topics ∧ guarded s compaction call = call s' := by
    unfold guarded at accepted ⊢
    split at accepted
    · simp at accepted
    · rename_i healthy
      rw [if_neg healthy]
      cases compaction with
      | notDue => exact ⟨s, rfl, rfl⟩
      | done => exact ⟨{ s with log := compactRecords s.topics }, rfl, rfl⟩
      | failed => simp [compactMaybeLocked] at accepted
  obtain ⟨s', same, eq⟩ := passed
  exact ⟨s', same, eq, eq ▸ accepted⟩

/-! ## A topic over a call -/

/-- Topic `name` is still there, and `R` holds between what it was and what it is. -/
def Continues (R : StreamTopic → StreamTopic → Prop) (name : Bytes)
    (topics topics' : List StreamTopic) : Prop :=
  ∀ t, findTopic topics name = some t → ∃ t', findTopic topics' name = some t' ∧ R t t'

section Continues

variable {R : StreamTopic → StreamTopic → Prop} {name : Bytes} {c : Call} {start : List StreamTopic}
  {s s' : StreamStore}

theorem Continues.trans (compose : ∀ t u v, R t u → R u v → R t v) {a b d : List StreamTopic}
    (first : Continues R name a b) (second : Continues R name b d) : Continues R name a d := by
  intro t found
  obtain ⟨u, foundU, here⟩ := first t found
  obtain ⟨v, foundV, later⟩ := second u foundU
  exact ⟨v, foundV, compose t u v here later⟩

/-- What holds over every edit holds over every change, unless the topic is deleted. -/
theorem Change.continues (change : Change c start s s') (sound : SoundTopics s.topics)
    (edits : ∀ t t' records, Edit c start t t' records → t.Sound → R t t') (stays : c.isDelete = true → c.topic ≠ some name) :
    Continues R name s.topics s'.topics := by
  intro t found
  have same : R t t := edits _ _ _ (.members (.refl t)) (sound.found found)
  have setOne : ∀ {u u' : StreamTopic}, findTopic s.topics u.name = some u → u'.name = u.name →
      R u u' → ∃ t', findTopic (setTopic s.topics u') name = some t' ∧ R t t' := by
    intro u u' foundU named here
    by_cases hit : name = u.name
    · subst hit
      cases found.symm.trans foundU
      exact ⟨u', findTopic_setTopic_same found named, here⟩
    · rw [findTopic_setTopic_other _ (by rw [named]; exact hit)]
      exact ⟨t, found, same⟩
  cases change with
  | compacted | broken => exact ⟨t, found, same⟩
  | edited _ foundU edit =>
    have follows : Follows True _ _ _ := edit.follows (sound.found foundU)
    exact setOne foundU follows.name (edits _ _ _ edit (sound.found foundU))
  | @refused records s' logged =>
    have memory := logEach_topics records s
    rw [logged] at memory
    exact ⟨t, (show s'.topics = s.topics from memory) ▸ found, same⟩
  | unlogged _ foundU due =>
    have soundU := sound.found foundU
    exact setOne foundU (sound_enforce _ soundU).2 (edits _ _ _ (.enforce due) soundU)
  | @declared new _ _ _ _ _ _ _ _ _ _ absent =>
    have miss : new ≠ name := by
      rintro rfl
      rw [absent] at found
      cases found
    exact ⟨t, (lookup_cons_miss _ (by exact miss) _).trans found, same⟩
  | @dropped u _ deletes named =>
    have other : name ≠ u.name := fun eq => stays deletes (eq ▸ named)
    exact ⟨t, (lookup_erase_other _ other _).trans found, same⟩
  | @regrouped change keeps =>
    refine ⟨{ t with groups := t.groups.map change }, ?_,
      edits _ _ _ (.members (.every keeps t)) (sound.found found)⟩
    rw [findTopic_onEveryGroup, found]
    rfl

/-- The same over a whole call. -/
theorem call_continues (sound : SoundTopics s.topics) (fits : c.fits s.topics = true)
    (compose : ∀ t u v, R t u → R u v → R t v)
    (edits : ∀ t t' records, Edit c s.topics t t' records → t.Sound → R t t') (stays : c.isDelete = true → c.topic ≠ some name) :
    Continues R name s.topics (c.run s).1.topics := by
  have changes := changes_run s c fits
  generalize (c.run s).1 = s' at changes
  have both : SoundTopics s'.topics ∧ Continues R name s.topics s'.topics := by
    induction changes with
    | refl => exact ⟨sound, fun t found => ⟨t, found, edits _ _ _ (.members (.refl t)) (sound.found found)⟩⟩
    | tail _ change ih =>
      exact ⟨change.sound ih.1, ih.2.trans compose (change.continues ih.1 edits stays)⟩
  exact both.2

end Continues

/-! ## Runs -/

variable {fresh : Bytes → StreamId}

/-- Memory is sound, and unless the store failed its log is in step with it. -/
structure InStep (exact : Prop) (fresh : Bytes → StreamId) (s : StreamStore) : Prop where
  sound : SoundTopics s.topics
  tracks : s.failed = false → Tracks (.sequential exact) fresh s.unlimited

theorem InStep.start {exact : Prop} : InStep exact fresh .fresh :=
  ⟨SoundTopics.nil, fun _ => Tracks.start⟩

theorem InStep.mono {exact exact' : Prop} {s : StreamStore} (weaker : exact' → exact)
    (inStep : InStep exact fresh s) : InStep exact' fresh s :=
  ⟨inStep.sound, fun unfailed => (inStep.tracks unfailed).mono weaker⟩

theorem FileStep.counted_call {s : StreamStore} {c : Call}
    (counted : FileStep.counted s (.call c) = true) :
    c.fits s.topics = true ∧ c.Counted s.topics := by
  obtain ⟨fits, revisions⟩ := Bool.and_eq_true_iff.mp counted
  exact ⟨fits, fun due => by simpa [due] using revisions⟩

/-- Reopening may drop records that the log still has. -/
theorem InStep.run {exact : Prop} {s : StreamStore} (inStep : InStep exact fresh s) (step : FileStep)
    (counted : step.counted s = true) :
    InStep (exact ∧ step.isReopen = false) fresh (step.run fresh s) := by
  cases step with
  | call made =>
    obtain ⟨fits, nonzero⟩ := FileStep.counted_call counted
    refine InStep.mono And.left ⟨sound_run inStep.sound made fits, fun unfailed => ?_⟩
    have before : s.failed = false := by
      cases failed : s.failed with
      | false => rfl
      | true =>
        have still := (changes_run s made fits).failed failed
        exact still.symm.trans unfailed
    exact tracks_unfailed (inStep.tracks before) made fits nonzero (Window.sequential_admits _ made)
      unfailed
  | reopen now =>
    have tracks := inStep.tracks (by simpa [FileStep.counted] using counted)
    have opened : Tracks (.sequential False) fresh (openLog fresh now s.log) := tracks.reopened now
    exact InStep.mono (fun holds => by cases holds.2) ⟨opened.sound, fun _ => opened⟩
  | disk writes => exact InStep.mono And.left ⟨inStep.sound, inStep.tracks⟩

theorem inStep_runFile : ∀ (steps : List FileStep) {exact : Prop} {s : StreamStore},
    InStep exact fresh s → meets fresh (fun s step => step.counted s) s steps = true →
    InStep (exact ∧ ∀ step ∈ steps, step.isReopen = false) fresh (runFile fresh s steps)
  | [], _, _, inStep, _ => inStep.mono And.left
  | step :: rest, _, _, inStep, met => by
    obtain ⟨here, later⟩ := Bool.and_eq_true_iff.mp met
    have next := inStep_runFile rest (inStep.run step here) later
    exact next.mono fun holds => ⟨⟨holds.1, holds.2 _ List.mem_cons_self⟩,
      fun step mem => holds.2 step (List.mem_cons_of_mem _ mem)⟩

end KuttiDB.Stream
