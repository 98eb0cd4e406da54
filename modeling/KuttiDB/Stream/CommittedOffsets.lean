/- # KuttiDB.Stream.CommittedOffsets -- the committed offset of a group, over all commit entry points

Six calls write the same offset. The plain commit alone passes over an offset below the committed one,
and the two commits by owner without a generation do not look at the range of the partition. In a run
whose other commits neither go back nor leave the range (`FileStep.advancing`), no step but a reset
lowers an offset, every accepted commit is in range, and replay rebuilds the same offsets
(`committed_offsets_advance`). `commits_rewind` is the run that breaks both parts.
-/
import KuttiDB.Stream.FailingRuns

namespace KuttiDB.Stream

open KuttiDB.QueueStore (Bytes u64)
open KuttiDB.Theory

set_option autoImplicit false

/-! ## Commits that go forward -/

/-- The entry points that check the range of the partition. -/
def Call.ranged : Call → Bool
  | .commit .. | .commitIfGeneration .. | .commitBatchIfGeneration ..
  | .commitForOwnerIfGeneration .. => true
  | _ => false

/-- The call makes up for the checks its entry point leaves out: its offsets do not go back, and are in
range. -/
def Call.advancing (topics : List StreamTopic) (c : Call) : Bool :=
  c.entries.all fun e => (findTopic topics e.topic).all fun t => e.offsets.all fun x =>
    (c.ordered || groupOffset t e.group x.1 ≤ x.2) && (c.ranged || inRange t x.1 x.2)

theorem Call.advancing_iff {topics : List StreamTopic} {c : Call} :
    c.advancing topics = true ↔ ∀ e, c.entries = some e → ∀ t, findTopic topics e.topic = some t →
      ∀ x ∈ e.offsets, (c.ordered = true ∨ groupOffset t e.group x.1 ≤ x.2) ∧
        (c.ranged = true ∨ inRange t x.1 x.2 = true) := by
  simp [Call.advancing, Option.all_eq_true]

/-! ## Offsets never go back -/

/-- After commits an offset is the old one, or one of those committed. -/
theorem groupOffset_commitAll (group : Bytes) (p : Nat) : ∀ (commits : List (Nat × Nat))
    {t : StreamTopic} {g : StreamGroup}, findGroup t g.name = some g →
      (∀ e ∈ commits, e.1 < g.offsets.length) →
      groupOffset (setGroup t (g.commitAll commits)) group p = groupOffset t group p ∨
        group = g.name ∧ ∃ offset, (p, offset) ∈ commits ∧
          groupOffset (setGroup t (g.commitAll commits)) group p = offset
  | [], t, g, found, _ => by
    left
    have same : setGroup t (g.commitAll []) = t := setGroup_found found
    rw [same]
  | e :: rest, t, g, found, inside => by
    have set : findGroup (setGroup t (g.commit e.1 e.2)) g.name = some (g.commit e.1 e.2) :=
      findGroup_setGroup_same found rfl
    have again : setGroup (setGroup t (g.commit e.1 e.2)) ((g.commit e.1 e.2).commitAll rest)
        = setGroup t (g.commitAll (e :: rest)) := setGroup_setGroup t (commitAll_name rest _)
    have later := groupOffset_commitAll group p rest (g := g.commit e.1 e.2) set
      (by simpa [StreamGroup.commit] using fun x mem => inside x (List.mem_cons_of_mem _ mem))
    rw [again] at later
    have first := groupOffset_commit found (inside e List.mem_cons_self) e.2 group p
    rcases later with same | ⟨named, offset, mem, eq⟩
    · rw [same, first]
      split
      · rename_i hit
        exact .inr ⟨hit.1, e.2, by rw [hit.2]; exact List.mem_cons_self, rfl⟩
      · exact .inl rfl
    · exact .inr ⟨named, offset, List.mem_cons_of_mem _ mem, eq⟩

theorem enforce_offsets (now : Nat) {t : StreamTopic} (sound : t.Sound) (group : Bytes) (p : Nat) :
    groupOffset (enforce now t).1 group p = groupOffset t group p :=
  groupOffset_congr (passed_enforce now sound).frame.groups group p

theorem linkItems_groups (t : StreamTopic) (items : List BatchItem) :
    (linkItems t items).groups = t.groups := by
  induction items generalizing t with
  | nil => rfl
  | cons item rest ih => exact ih (partLink t item.part item.record)

/-- No edit of a call that goes forward lowers an offset. -/
theorem Edit.offsets_le {c : Call} {start : List StreamTopic} {t t' : StreamTopic}
    {records : List LogRecord} (edit : Edit c start t t' records) (sound : t.Sound)
    (keeps : c.resets = false) (advancing : c.advancing start = true) (group : Bytes) (p : Nat) :
    groupOffset t group p ≤ groupOffset t' group p := by
  cases edit with
  | link | trim | retention => exact Nat.le_of_eq rfl
  | batch => rw [groupOffset_congr (linkItems_groups t _)]
  | enforce => rw [enforce_offsets _ sound]
  | members regrouped => rw [regrouped.offsets]
  | @commit g commits found inside since asked ordered =>
    obtain ⟨t₀, known, same⟩ := since
    have entries := asked.resolve_left (by simp [keeps])
    have fits := (sound.foundGroup found).1.offsets
    rcases groupOffset_commitAll group p commits found (fits.symm ▸ inside) with
      old | ⟨named, offset, mem, new⟩
    · rw [old]
    · rw [new, named]
      rcases (Call.advancing_iff.mp advancing _ entries t₀ known _ mem).1 with checked | forward
      · exact ordered checked _ mem
      · rw [same]
        exact forward

/-- Topics that are there before and after have not lost ground. -/
def Advanced (topics topics' : List StreamTopic) : Prop :=
  ∀ name t t', findTopic topics name = some t → findTopic topics' name = some t' →
    ∀ group p, groupOffset t group p ≤ groupOffset t' group p

theorem Advanced.refl (topics : List StreamTopic) : Advanced topics topics := by
  intro name t t' found found'
  cases found.symm.trans found'
  exact fun _ _ => Nat.le_refl _

/-- A deletion removes its topic and leaves the others as they are. -/
theorem delete_advanced {s : StreamStore} (sound : SoundTopics s.topics) (compaction : Compaction)
    (name : Bytes) (expected : Nat) :
    Advanced s.topics (streamDeleteIfRevision s compaction name expected).1.topics := by
  have same := Advanced.refl s.topics
  unfold streamDeleteIfRevision
  split
  · exact same
  · refine guarded_keeps compaction same fun s' eq => ?_
    rw [← eq] at sound same ⊢
    cases found : findTopic s'.topics name with
    | none => exact same
    | some t =>
      simp only
      split
      · exact same
      · have memory := logEach_topics [.delete name] s'
        split
        · simp_all
        · rename_i s'' logged
          rw [logged] at memory
          change Advanced s'.topics (dropTopic s''.topics name)
          rw [show s''.topics = s'.topics from memory]
          intro other u u' foundU foundU'
          by_cases hit : other = name
          · rw [hit, findTopic, dropTopic, lookup_erase_same _ sound.distinct] at foundU'
            cases foundU'
          · rw [findTopic, dropTopic, lookup_erase_other _ hit] at foundU'
            cases foundU.symm.trans foundU'
            exact fun _ _ => Nat.le_refl _

theorem call_advanced {s : StreamStore} (sound : SoundTopics s.topics) {c : Call}
    (fits : c.fits s.topics = true) (keeps : c.resets = false)
    (advancing : c.advancing s.topics = true) : Advanced s.topics (c.run s).1.topics := by
  cases deletes : c.isDelete with
  | true =>
    cases c with
    | delete => exact delete_advanced sound _ _ _
    | _ => cases deletes
  | false =>
    intro name t t' found found'
    have continues : Continues (fun t t' => ∀ group p, groupOffset t group p ≤ groupOffset t' group p)
        name s.topics (c.run s).1.topics :=
      call_continues sound fits
        (fun _ _ _ first second group p => Nat.le_trans (first group p) (second group p))
        (fun _ _ _ edit soundT => edit.offsets_le soundT keeps advancing) (by simp [deletes])
    obtain ⟨u, foundU, le⟩ := continues t found
    cases found'.symm.trans foundU
    exact le

/-! ## Accepted commits are in range -/

theorem onGroup_accepts {s : StreamStore} {name group : Bytes} {mono : Nat} {missing : Int}
    {call : StreamStore → StreamTopic → StreamGroup → StreamStore × Int} (refuses : missing ≠ 0)
    (accepted : (onGroup s name group mono missing call).2 = 0) :
    ∃ t g s', findTopic s.topics name = some t ∧ (call s' (setGroup t g) g).2 = 0 := by
  unfold onGroup at accepted
  cases found : findTopic s.topics name with
  | none => simp [found, refuses] at accepted
  | some t =>
    cases foundG : findGroup t group with
    | none => simp [found, foundG, refuses] at accepted
    | some g =>
      simp only [found, foundG] at accepted
      exact ⟨t, _, _, rfl, accepted⟩

/-- The offset of an accepted commit. -/
def Within (t : StreamTopic) (x : Nat × Nat) : Prop :=
  x.1 < t.partitions ∧ (t.part x.1).base ≤ x.2 ∧ x.2 ≤ (t.part x.1).next

theorem within_of_inRange {t : StreamTopic} {x : Nat × Nat} (inside : x.1 < t.partitions)
    (range : inRange t x.1 x.2 = true) : Within t x := by
  simp only [inRange, Bool.and_eq_true, decide_eq_true_eq] at range
  exact ⟨inside, range⟩

section Accepted

variable {s : StreamStore} {compaction : Compaction} {mono : Nat} {name group : Bytes}
  {p offset owner expected : Nat} {commits : List (Nat × Nat)}

/-- A single commit by group, for a partition that exists. -/
theorem single_within {missing : Int} (check : StreamTopic → StreamGroup → Bool)
    {call : StreamStore → StreamTopic → StreamGroup → StreamStore × Int}
    (checks : ∀ s t g, (call s t g).2 = 0 → check t g = true) (refuses : missing ≠ 0)
    (accepted : (guarded s compaction fun s =>
      if (findTopic s.topics name).any (fun t => p ≥ t.partitions) then (s, missing)
      else onGroup s name group mono missing call).2 = 0) :
    ∃ t g, findTopic s.topics name = some t ∧ p < t.partitions ∧ check (setGroup t g) g = true := by
  obtain ⟨s', same, -, accepted⟩ := guarded_accepts accepted
  split at accepted
  · exact absurd accepted refuses
  · rename_i inside
    obtain ⟨t, g, s'', found, accepted⟩ := onGroup_accepts refuses accepted
    rw [same] at found inside
    refine ⟨t, g, found, ?_, checks _ _ _ accepted⟩
    simpa [found] using inside

theorem commit_within (accepted : (streamCommit s compaction name group p offset).2 = 0) :
    ∃ t, findTopic s.topics name = some t ∧ Within t (p, offset) := by
  unfold streamCommit at accepted
  split at accepted
  · simp at accepted
  · obtain ⟨s', same, -, accepted⟩ := guarded_accepts accepted
    cases found : findTopic s'.topics name with
    | none => simp [found] at accepted
    | some t =>
      simp only [found] at accepted
      split at accepted
      · simp at accepted
      · rename_i checks
        simp only [not_or, not_le] at checks
        exact ⟨t, same ▸ found, within_of_inRange checks.1 (by simpa using checks.2)⟩

theorem commitIfGeneration_within
    (accepted : (streamCommitIfGeneration s compaction mono name group p offset expected).2 = 0) :
    ∃ t, findTopic s.topics name = some t ∧ Within t (p, offset) := by
  unfold streamCommitIfGeneration at accepted
  split at accepted
  · simp at accepted
  · obtain ⟨t, g, found, inside, range⟩ := single_within (fun t _ => inRange t p offset)
      (fun s t g accepted => by
        split at accepted
        · simp at accepted
        · split at accepted
          · simp at accepted
          · rename_i range
            simpa using range) (by decide) accepted
    exact ⟨t, found, within_of_inRange inside range⟩

theorem commitForOwnerIfGeneration_within (accepted : (streamCommitForOwnerIfGeneration s compaction
      mono name group p offset owner expected).2 = 0) :
    ∃ t, findTopic s.topics name = some t ∧ Within t (p, offset) := by
  unfold streamCommitForOwnerIfGeneration at accepted
  split at accepted
  · simp at accepted
  · obtain ⟨t, g, found, inside, range⟩ := single_within (fun t _ => inRange t p offset)
      (fun s t g accepted => by
        split at accepted
        · simp at accepted
        · split at accepted
          · simp at accepted
          · split at accepted
            · simp at accepted
            · rename_i range
              simpa using range) (by decide) accepted
    exact ⟨t, found, within_of_inRange inside range⟩

theorem commitForOwner_inside
    (accepted : (streamCommitForOwner s compaction mono name group p offset owner).2 = 0) :
    ∃ t, findTopic s.topics name = some t ∧ p < t.partitions := by
  unfold streamCommitForOwner at accepted
  split at accepted
  · simp at accepted
  · obtain ⟨t, g, found, inside, -⟩ := single_within (fun _ _ => true)
      (fun _ _ _ _ => rfl) (by decide) accepted
    exact ⟨t, found, inside⟩

theorem commitBatchIfGeneration_within
    (accepted : (streamCommitBatchIfGeneration s compaction mono name group commits expected).2 = 0) :
    ∃ t, findTopic s.topics name = some t ∧ ∀ x ∈ commits, Within t x := by
  unfold streamCommitBatchIfGeneration at accepted
  split at accepted
  · simp at accepted
  · obtain ⟨s', same, -, accepted⟩ := guarded_accepts accepted
    obtain ⟨t, g, s'', found, accepted⟩ := onGroup_accepts (by decide) accepted
    split at accepted
    · simp at accepted
    · split at accepted
      · rename_i refused
        exact absurd accepted refused
      · rename_i checked
        refine ⟨t, same ▸ found, fun x mem => ?_⟩
        obtain ⟨inside, range⟩ := Changes.checkCommits_inside (not_not.mp checked) x mem
        exact within_of_inRange (t := t) inside range

theorem commitBatchForOwner_inside
    (accepted : (streamCommitBatchForOwner s compaction mono name group owner commits).2 = 0) :
    ∃ t, findTopic s.topics name = some t ∧ ∀ x ∈ commits, x.1 < t.partitions := by
  unfold streamCommitBatchForOwner at accepted
  split at accepted
  · simp at accepted
  · obtain ⟨s', same, -, accepted⟩ := guarded_accepts accepted
    split at accepted
    · cases found : findTopic s'.topics name with
      | none => simp [found] at accepted
      | some t =>
        simp only [found] at accepted
        split at accepted
        · simp at accepted
        · rename_i inside
          refine ⟨t, same ▸ found, fun x mem => ?_⟩
          simp only [List.any_eq_true, not_exists, not_and, decide_eq_true_eq, not_le] at inside
          exact inside x mem
    · split at accepted
      · simp at accepted
      · obtain ⟨t, g, s'', found, accepted⟩ := onGroup_accepts (by decide) accepted
        split at accepted
        · simp at accepted
        · rename_i inside
          refine ⟨t, same ▸ found, fun x mem => ?_⟩
          simp only [List.any_eq_true, not_exists, not_and, Bool.or_eq_true, decide_eq_true_eq,
            not_or, not_le] at inside
          exact (inside x mem).1

end Accepted

/-- Whatever the entry point: an accepted commit of a call that goes forward is in range. -/
theorem accepted_within {s : StreamStore} {c : Call} {e : Entries} (entries : c.entries = some e)
    (advancing : c.advancing s.topics = true) (accepted : (c.run s).2 = 0) :
    ∃ t, findTopic s.topics e.topic = some t ∧ ∀ x ∈ e.offsets, Within t x := by
  have single : ∀ {p offset : Nat} {t : StreamTopic}, Within t (p, offset) →
      ∀ x ∈ [(p, offset)], Within t x := by
    intro p offset t within x mem
    cases List.mem_singleton.mp mem
    exact within
  have range := Call.advancing_iff.mp advancing e entries
  cases c with
  | commit =>
    cases entries
    obtain ⟨t, found, within⟩ := commit_within accepted
    exact ⟨t, found, single within⟩
  | commitIfGeneration =>
    cases entries
    obtain ⟨t, found, within⟩ := commitIfGeneration_within accepted
    exact ⟨t, found, single within⟩
  | commitForOwnerIfGeneration =>
    cases entries
    obtain ⟨t, found, within⟩ := commitForOwnerIfGeneration_within accepted
    exact ⟨t, found, single within⟩
  | commitBatchIfGeneration =>
    cases entries
    exact commitBatchIfGeneration_within accepted
  | commitForOwner =>
    cases entries
    obtain ⟨t, found, inside⟩ := commitForOwner_inside accepted
    have here := (range t found _ List.mem_cons_self).2.resolve_left (by simp [Call.ranged])
    exact ⟨t, found, single (within_of_inRange inside here)⟩
  | commitBatchForOwner =>
    cases entries
    obtain ⟨t, found, inside⟩ := commitBatchForOwner_inside accepted
    refine ⟨t, found, fun x mem => within_of_inRange (inside x mem) ?_⟩
    exact (range t found x mem).2.resolve_left (by simp [Call.ranged])
  | _ => cases entries

/-! ## Runs -/

/-- The condition on a step: commits make up for what their entry point does not check, no 64-bit
counter is used up, and only a store that did not fail is reopened. -/
def FileStep.advancing (s : StreamStore) (step : FileStep) : Bool :=
  step.counted s && match step with
    | .call made => made.advancing s.topics
    | _ => true

def FileStep.resets : FileStep → Bool
  | .call made => made.resets
  | _ => false

/-- Replay of the log rebuilds the same committed offsets. -/
def OffsetsRebuilt (fresh : Bytes → StreamId) (s : StreamStore) : Prop :=
  ∃ replayed, replayAll fresh [] s.log = (replayed, s.log) ∧ ∀ name,
    Option.Rel (fun t u => ∀ group p, groupOffset t group p = groupOffset u group p)
      (findTopic s.topics name) (findTopic replayed name)

theorem InStep.offsets {exact : Prop} {fresh : Bytes → StreamId} {s : StreamStore}
    (inStep : InStep exact fresh s)
    (unfailed : s.failed = false) : OffsetsRebuilt fresh s := by
  obtain ⟨r, run, -, same⟩ := (inStep.tracks unfailed).replayed
  refine ⟨r, run, fun name => ?_⟩
  have here := Window.same_sequential.mp same name
  revert here
  change Option.Rel _ (findTopic s.topics name) _ → _
  cases findTopic s.topics name <;> cases findTopic r name <;> intro here <;> cases here
  · exact .none
  · rename_i t u same
    exact .some same.offsets

/-- Reopening rebuilds the offsets there were. -/
theorem reopen_advanced {exact : Prop} {fresh : Bytes → StreamId} {s : StreamStore}
    (inStep : InStep exact fresh s)
    (unfailed : s.failed = false) (now : Nat) :
    Advanced s.topics (openLog fresh now s.log).topics := by
  obtain ⟨r, run, soundR, same⟩ := (inStep.tracks unfailed).replayed
  have mirror := Window.same_sequential.mp same
  obtain ⟨-, eq⟩ := Tracks.opened run soundR mirror now
  rw [show openLog fresh now s.log = _ from eq]
  intro name t t' found found'
  rw [Tracks.findTopic_opened soundR] at found'
  have here := mirror name
  rw [show findTopic s.unlimited.topics name = some t from found] at here
  cases partner : findTopic r name with
  | none => simp [partner] at found'
  | some u =>
    rw [partner] at here found'
    cases found'
    cases here with
    | some same =>
      intro group p
      rw [enforce_offsets now (soundR.found partner), same.offsets]

/-- In a run whose steps all go forward: no step but a reset lowers a committed offset, every accepted
commit is in range when it is accepted, and replay of the log rebuilds the same offsets. -/
theorem committed_offsets_advance (fresh : Bytes → StreamId) (before : List FileStep) (step : FileStep)
    (advancing : meets fresh (fun s step => step.advancing s) .fresh (before ++ [step]) = true) :
    let s := runFile fresh .fresh before
    let s' := step.run fresh s
    (step.resets = false → Advanced s.topics s'.topics) ∧
      (∀ c e, step = .call c → c.entries = some e → (c.run s).2 = 0 →
        ∃ t, findTopic s.topics e.topic = some t ∧ ∀ x ∈ e.offsets, Within t x) ∧
      (s'.failed = false → OffsetsRebuilt fresh s') := by
  intro s s'
  rw [meets_append, Bool.and_eq_true_iff] at advancing
  obtain ⟨earlier, here⟩ := advancing
  obtain ⟨counted, forward⟩ : step.counted s = true ∧ _ := by
    simpa [meets, FileStep.advancing] using here
  have inStep : InStep _ fresh s := inStep_runFile before (@InStep.start fresh True)
    (meets_mono (fun _ _ both => (Bool.and_eq_true_iff.mp both).1) earlier)
  refine ⟨fun keeps => ?_, ?_, fun unfailed => (inStep.run step counted).offsets unfailed⟩
  · cases step with
    | call made =>
      exact call_advanced inStep.sound (Bool.and_eq_true_iff.mp counted).1 keeps forward
    | reopen now => exact reopen_advanced inStep (by simpa [FileStep.counted] using counted) now
    | disk => exact Advanced.refl _
  · rintro c e rfl entries accepted
    exact accepted_within entries forward accepted

/-- A topic with two records, and a group that has committed both. -/
def committedSteps : List FileStep :=
  [.call (.declare .notDue 7 [116] 1 0 0),
   .call (.appendBatch .notDue 10 10 [116] 0 [⟨[], [1]⟩, ⟨[], [2]⟩]),
   .call (.commit .notDue [116] [103] 0 2)]

/-- Lowering what was committed is accepted when it comes with the generation, and any offset is from
an owner: the same calls are refused, or do nothing, as plain commits. -/
theorem commits_rewind :
    let s := runFile (fun _ => 0) .fresh committedSteps
    let committed (s : StreamStore) := (findTopic s.topics [116]).map fun t =>
      (groupOffset t [103] 0, (t.part 0).next)
    let rewind := Call.commitIfGeneration .notDue 20 [116] [103] 0 1 0
    let beyond := Call.commitBatchForOwner .notDue 20 [116] [103] 0 [(0, 99)]
    committed s = some (2, 2) ∧
      (rewind.run s).2 = 0 ∧ committed (rewind.run s).1 = some (1, 2) ∧
      (beyond.run s).2 = 0 ∧ committed (beyond.run s).1 = some (99, 2) := by
  decide +kernel

/-- A third record, committed by generation while two more writes succeed. -/
theorem committedSteps_advance :
    let before := committedSteps ++
      [.call (.append .notDue 11 11 [116] 0 ⟨[], [3]⟩), .disk (some 2)]
    let step := FileStep.call (.commitIfGeneration .done 20 [116] [103] 0 3 0)
    meets (fun _ => 0) (fun s step => step.advancing s) .fresh (before ++ [step]) = true ∧
      Advanced (runFile (fun _ => 0) .fresh before).topics
        (step.run (fun _ => 0) (runFile (fun _ => 0) .fresh before)).topics :=
  ⟨by decide +kernel, (committed_offsets_advance (fun _ => 0) _ _ (by decide +kernel)).1 rfl⟩

end KuttiDB.Stream
