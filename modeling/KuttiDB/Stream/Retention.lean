/- # KuttiDB.Stream.Retention -- what age and size retention remove

The retention pass has two halves. The age half drops, in every partition, the records at the front
whose age has reached `max_age` (`agePass_chain`). The age is the unsigned difference of two wall-clock
readings, so it is the record's age as long as the clock of the pass is not behind the record's stamp.
Only the record at the head is looked at: the records younger than `max_age` stay exactly if the first
of them is not ahead of the clock (`InTime`, `young_records_kept`). A clock that was set back makes it
look old (`clock_behind_evicts`).

The size half then removes records one by one while the topic is above `max_bytes`, always from a
partition whose head is no newer than any other head (`SizeRound`). `enforce_within_limit` puts the
whole pass together with the boundaries it logs. The boundary of a record at the last offset wraps to
0 and frees nothing, and the loop goes on for ever (`size_loop_endless`).
-/
import KuttiDB.Stream.Changes
import Mathlib.Data.List.TakeWhile

namespace KuttiDB.Stream

open KuttiDB.QueueStore (Bytes u64)
open KuttiDB.Theory

set_option autoImplicit false

/-! ## Age -/

/-- Trimming at the first record's boundary frees that record and no other. -/
theorem StreamPart.Whole.trim_head {x : StreamPart} (whole : x.Whole) {r : StreamRecord}
    {rest : List StreamRecord} (chain : x.chain = r :: rest) :
    (x.trim (bump r.offset)).Whole ∧ (x.trim (bump r.offset)).chain = rest := by
  obtain ⟨offset, within⟩ := whole.head_offset (r := r) (by rw [chain]; rfl)
  have bound := whole.bounded
  have next : bump r.offset = x.base + 1 := by rw [offset, bump_of_lt (by omega)]
  rw [next]
  refine ⟨whole.trim (by omega), ?_⟩
  rw [whole.trim_chain, Nat.add_sub_cancel_left, chain]
  rfl

/-- The expired records at the front of the first `done` partitions are gone. -/
structure Aged (now done : Nat) (t u : StreamTopic) : Prop where
  whole : ∀ x ∈ u.parts, x.Whole
  count : u.partitions = t.partitions
  maxAgeMs : u.maxAgeMs = t.maxAgeMs
  maxBytes : u.maxBytes = t.maxBytes
  aged : ∀ q < done, (u.part q).chain = (t.part q).chain.dropWhile (expired now t.maxAgeMs)
  others : ∀ q, done ≤ q → u.part q = t.part q

/-- The loop over one partition drops its expired front and leaves the other partitions alone. -/
theorem ageLoop_chain (now p : Nat) : ∀ (rounds : Nat) {t : StreamTopic} (b : Nat),
    (∀ x ∈ t.parts, x.Whole) → p < t.partitions → (t.part p).chain.length ≤ rounds →
    let u := (ageLoop now p rounds t b).1
    (∀ x ∈ u.parts, x.Whole) ∧ u.partitions = t.partitions ∧ u.maxAgeMs = t.maxAgeMs ∧
      u.maxBytes = t.maxBytes ∧
      (u.part p).chain = (t.part p).chain.dropWhile (expired now t.maxAgeMs) ∧
      ∀ q, q ≠ p → u.part q = t.part q
  | 0, t, b, whole, _, short => by
    have none_ : (t.part p).chain = [] := List.length_eq_zero_iff.mp (Nat.le_zero.mp short)
    exact ⟨whole, rfl, rfl, rfl, by simp [ageLoop, none_], fun _ _ => rfl⟩
  | rounds + 1, t, b, whole, inside, short => by
    rw [ageLoop]
    cases chain : (t.part p).chain with
    | nil => exact ⟨whole, rfl, rfl, rfl, by simp [chain], fun _ _ => rfl⟩
    | cons r rest =>
      by_cases old : expired now t.maxAgeMs r = true
      · obtain ⟨trimmed, left⟩ := (whole _ (StreamTopic.part_mem inside)).trim_head chain
        have part := trimPart_part inside (bump r.offset)
        have wholeU : ∀ x ∈ (trimPart t p (bump r.offset)).parts, x.Whole := by
          intro x mem
          rcases StreamTopic.mem_parts_set mem with rfl | kept
          · exact trimmed
          · exact whole x kept
        have shorter : ((trimPart t p (bump r.offset)).part p).chain.length ≤ rounds := by
          rw [part, if_pos rfl, left]
          simpa [chain] using short
        obtain ⟨wholeV, count, age, bytes, here, others⟩ := ageLoop_chain now p rounds
          (bump r.offset) wholeU (by rwa [trimPart_partitions]) shorter
        simp only [List.head?_cons, old, if_true]
        refine ⟨wholeV, count.trans (trimPart_partitions ..), age, bytes, ?_, fun q other => ?_⟩
        · rw [here, part, if_pos rfl, left, List.dropWhile_cons_of_pos old]
          rfl
        · rw [others q other, part, if_neg other]
      · simp only [List.head?_cons, old]
        refine ⟨whole, rfl, rfl, rfl, ?_, fun _ _ => rfl⟩
        rw [List.dropWhile_cons_of_neg old]
        exact chain

theorem aged_range (now : Nat) {t : StreamTopic} (whole : ∀ x ∈ t.parts, x.Whole) :
    ∀ done ≤ t.partitions, Aged now done t
      ((List.range done).foldl (fun (acc : StreamTopic × List (Nat × Nat)) p =>
        let (u, b) := ageLoop now p (acc.1.part p).chain.length acc.1 0
        (u, if b = 0 then acc.2 else touch acc.2 p b)) (t, [])).1
  | 0, _ => ⟨whole, rfl, rfl, rfl, by simp, fun _ _ => rfl⟩
  | done + 1, within => by
    have before := aged_range now whole done (by omega)
    rw [List.range_succ, List.foldl_append, List.foldl_cons, List.foldl_nil]
    obtain ⟨wholeU, count, age, bytes, here, others⟩ := ageLoop_chain now done _ 0 before.whole
      (by rw [before.count]; omega) (Nat.le_refl _)
    refine ⟨wholeU, count.trans before.count, age.trans before.maxAgeMs,
      bytes.trans before.maxBytes, fun q low => ?_, fun q high => ?_⟩
    · rcases Nat.lt_succ_iff_lt_or_eq.mp low with earlier | rfl
      · rw [others q (by omega)]
        exact before.aged q earlier
      · rw [here, before.others q (Nat.le_refl _), before.maxAgeMs]
    · rw [others q (by omega)]
      exact before.others q (by omega)

/-- The age half of the pass, with an age limit set. -/
theorem aged_agePass (now : Nat) {t : StreamTopic} (whole : ∀ x ∈ t.parts, x.Whole)
    (limited : t.maxAgeMs ≠ 0) : Aged now t.partitions t (agePass now t).1 := by
  rw [agePass, if_neg limited]
  exact aged_range now whole t.partitions (Nat.le_refl _)

theorem agePass_chain (now : Nat) {t : StreamTopic} (whole : ∀ x ∈ t.parts, x.Whole)
    (limited : t.maxAgeMs ≠ 0) (p : Nat) :
    ((agePass now t).1.part p).chain = (t.part p).chain.dropWhile (expired now t.maxAgeMs) := by
  have aged := aged_agePass now whole limited
  by_cases inside : p < t.partitions
  · exact aged.aged p inside
  · rw [aged.others p (Nat.not_lt.mp inside), part_outside (Nat.not_lt.mp inside)]
    rfl

/-- The first record of a chain that is younger than the limit is not ahead of the clock, or so far
ahead of it that the wrapped difference is below the limit. -/
def InTime (now maxAgeMs : Nat) (chain : List StreamRecord) : Prop :=
  ∀ r ∈ chain.find? (fun r => now - r.atMs < maxAgeMs),
    r.atMs ≤ now ∨ 2 ^ 64 - (r.atMs - now) < maxAgeMs

theorem age_eq (now stamp : Nat) :
    age now stamp = if stamp ≤ now then (now - stamp) % 2 ^ 64 else 2 ^ 64 - (stamp - now) := by
  rw [age, KuttiDB.QueueStore.u64]
  split
  · rw [show now + 2 ^ 64 - stamp = now - stamp + 2 ^ 64 by omega, Nat.add_mod_right]
  · rw [Nat.mod_eq_of_lt (by omega)]
    omega

theorem expired_young {now maxAgeMs : Nat} {r : StreamRecord} (young : now - r.atMs < maxAgeMs) :
    expired now maxAgeMs r = false ↔ r.atMs ≤ now ∨ 2 ^ 64 - (r.atMs - now) < maxAgeMs := by
  have small := Nat.mod_le (now - r.atMs) (2 ^ 64)
  rw [expired, decide_eq_false_iff_not, age_eq]
  split <;> omega

/-- A record whose age has reached the limit is expired, unless the clock is beyond its 64 bits. -/
theorem expired_old {now maxAgeMs : Nat} {r : StreamRecord} (clock : now < 2 ^ 64)
    (limited : maxAgeMs ≠ 0) (old : ¬ now - r.atMs < maxAgeMs) : expired now maxAgeMs r = true := by
  rw [expired, decide_eq_true_eq, age_eq, if_pos (by omega), Nat.mod_eq_of_lt (by omega)]
  omega

/-- What is dropped at the front has no young record exactly if the first young record stays. -/
theorem dropWhile_young {now maxAgeMs : Nat} (clock : now < 2 ^ 64) (limited : maxAgeMs ≠ 0) :
    ∀ {chain : List StreamRecord}, chain.Nodup →
    ((∀ r ∈ chain, now - r.atMs < maxAgeMs → r ∈ chain.dropWhile (expired now maxAgeMs)) ↔
      InTime now maxAgeMs chain)
  | [], _ => by simp [InTime]
  | first :: rest, distinct => by
    obtain ⟨unique, distinctRest⟩ := List.nodup_cons.mp distinct
    have ih := dropWhile_young clock limited distinctRest
    by_cases young : now - first.atMs < maxAgeMs
    · have head : InTime now maxAgeMs (first :: rest) ↔ expired now maxAgeMs first = false := by
        rw [expired_young young, InTime, List.find?_cons_of_pos (by simpa using young)]
        simp
      rw [head]
      constructor
      · intro kept
        by_contra gone
        have mem := kept first List.mem_cons_self young
        rw [List.dropWhile_cons_of_pos (by simpa using gone)] at mem
        exact unique ((List.dropWhile_sublist _).subset mem)
      · intro stays r mem _
        rwa [List.dropWhile_cons_of_neg (by simp [stays])]
    · have tail : InTime now maxAgeMs (first :: rest) ↔ InTime now maxAgeMs rest := by
        rw [InTime, InTime, List.find?_cons_of_neg (by simpa using young)]
      rw [tail, ← ih, List.dropWhile_cons_of_pos (expired_old clock limited young)]
      constructor
      · intro kept r mem
        exact kept r (List.mem_cons_of_mem _ mem)
      · intro kept r mem youngR
        rcases List.mem_cons.mp mem with rfl | later
        · exact absurd youngR young
        · exact kept r later youngR

theorem StreamPart.Whole.nodup {x : StreamPart} (whole : x.Whole) : x.chain.Nodup := by
  have numbers : (x.chain.map StreamRecord.offset).Nodup := by
    rw [whole.offsets]
    exact List.nodup_range'
  exact numbers.of_map _

theorem agePass_young {now : Nat} (clock : now < 2 ^ 64) {t : StreamTopic}
    (whole : ∀ x ∈ t.parts, x.Whole) (p : Nat) :
    (∀ r ∈ (t.part p).chain, now - r.atMs < t.maxAgeMs → r ∈ ((agePass now t).1.part p).chain) ↔
      InTime now t.maxAgeMs (t.part p).chain := by
  by_cases limited : t.maxAgeMs = 0
  · have none_young : ∀ r ∈ (t.part p).chain, ¬ now - r.atMs < t.maxAgeMs := by
      simp [limited]
    refine ⟨fun _ r first => ?_, fun _ r mem young => absurd young (none_young r mem)⟩
    have young : now - r.atMs < t.maxAgeMs := by simpa using List.find?_some first
    exact absurd young (none_young r (List.mem_of_find?_eq_some first))
  rw [agePass_chain now whole limited p]
  refine dropWhile_young clock limited ?_
  by_cases inside : p < t.partitions
  · exact (whole _ (StreamTopic.part_mem inside)).nodup
  · rw [part_outside (Nat.not_lt.mp inside)]
    exact List.nodup_nil

theorem agePass_maxBytes (now : Nat) {t : StreamTopic} (whole : ∀ x ∈ t.parts, x.Whole) :
    (agePass now t).1.maxBytes = t.maxBytes := by
  by_cases limited : t.maxAgeMs = 0
  · rw [agePass, if_pos limited]
  · exact (aged_agePass now whole limited).maxBytes

/-- A topic within its size limit loses nothing more. -/
theorem sizeLoop_within {u : StreamTopic} (within : u.maxBytes = 0 ∨ u.bytes ≤ u.maxBytes)
    (rounds : Nat) (touched : List (Nat × Nat)) : sizeLoop rounds u touched = (u, touched) := by
  cases rounds with
  | zero => rfl
  | succ rounds =>
    rw [sizeLoop, if_neg]
    rintro ⟨limited, above⟩
    rcases within with none_ | low
    · exact limited none_
    · exact absurd above (Nat.not_lt.mpr low)

theorem enforce_eq (now : Nat) (t : StreamTopic) :
    enforce now t = sizeLoop ((agePass now t).1.parts.map (·.chain.length)).sum (agePass now t).1
      (agePass now t).2 := rfl

/-! ## The passes of a run -/

/-- The retention passes of a step, each with its clock and the topic it is run on; a call runs no
other (`changes_run`). -/
def Step.passes (s : StreamStore) : Step → List (Nat × StreamTopic)
  | .openFile fresh now file =>
    (replayAll fresh [] file).1.map fun t => (now, { t with idPersisted := true })
  | .call made => (made.pass s.topics).toList
  | .disk _ => []

theorem whole_partLink {t : StreamTopic} (whole : ∀ x ∈ t.parts, x.Whole) {p : Nat}
    {r : StreamRecord} (here : r.offset = (t.part p).next) (room : (t.part p).next ≠ uint64Max) :
    ∀ x ∈ (partLink t p r).parts, x.Whole := by
  intro x mem
  by_cases inside : p < t.partitions
  · rcases StreamTopic.mem_parts_set mem with rfl | old
    · exact (whole _ (StreamTopic.part_mem inside)).link here room
    · exact whole x old
  · have same : (partLink t p r).parts = t.parts := List.set_eq_of_length_le (Nat.not_lt.mp inside)
    exact whole x (same ▸ mem)

theorem whole_appendItems : ∀ (items : List BatchItem) {t : StreamTopic},
    (∀ x ∈ t.parts, x.Whole) → (∀ i ∈ items, i.record.offset ≠ uint64Max) →
    ∀ x ∈ (appendItems t items).1.parts, x.Whole
  | [], _, whole, _ => whole
  | item :: rest, t, whole, room => by
    rw [appendItems]
    cases added : appendMemory t item.part item.record with
    | none => exact whole
    | some u =>
      unfold appendMemory at added
      split at added
      · cases added
      · rename_i checks
        simp only [not_or, not_le, not_not] at checks
        cases added
        exact whole_appendItems rest
          (whole_partLink whole checks.2 (checks.2 ▸ room item List.mem_cons_self))
          (fun i mem => room i (List.mem_cons_of_mem _ mem))

theorem Call.pass_whole {topics : List StreamTopic} (sound : SoundTopics topics) {c : Call}
    (fits : c.fits topics = true) {now : Nat} {t : StreamTopic}
    (due : c.pass topics = some (now, t)) : ∀ x ∈ t.parts, x.Whole := by
  cases c with
  | append compaction stamp enforceNow name hint input =>
    cases found : findTopic topics name with
    | none => simp [Call.pass, found] at due
    | some before =>
      simp only [Call.pass, found, Option.map_some, Option.some.injEq, Prod.mk.injEq] at due
      obtain ⟨-, rfl⟩ := due
      exact whole_partLink (sound.found found).whole.parts rfl (by simpa [Call.fits, found] using fits)
  | appendBatch compaction stamp enforceNow name hint inputs =>
    cases found : findTopic topics name with
    | none => simp [Call.pass, found] at due
    | some before =>
      cases given : batchItems before hint stamp (before.parts.map (·.next)) inputs with
      | none => simp [Call.pass, found, given] at due
      | some items =>
        simp only [Call.pass, found, given, Option.bind_some, Option.map_some, Option.some.injEq,
          Prod.mk.injEq] at due
        obtain ⟨-, rfl⟩ := due
        have linked := whole_appendItems items (sound.found found).whole.parts
          (by simpa [Call.fits, found, given] using fits)
        rwa [appendItems_of_batch given] at linked
  | setRetention compaction stamp name maxBytes maxAgeMs expected | fetchMetadata stamp name p =>
    cases found : findTopic topics name with
    | none => simp [Call.pass, found] at due
    | some before =>
      simp only [Call.pass, found, Option.map_some, Option.some.injEq, Prod.mk.injEq] at due
      obtain ⟨-, rfl⟩ := due
      exact (sound.found found).whole.parts
  | _ => cases due

theorem Step.passes_whole {s : StreamStore} (sound : SoundTopics s.topics) {step : Step}
    (fits : step.fits s = true) {now : Nat} {t : StreamTopic} (pass : (now, t) ∈ step.passes s) :
    ∀ x ∈ t.parts, x.Whole := by
  cases step with
  | openFile fresh clock file =>
    obtain ⟨before, mem, eq⟩ := List.mem_map.mp pass
    cases eq
    have replayed := sound_replayAll fresh SoundTopics.nil (List.all_eq_true.mp fits)
    exact (replayed.each before mem).whole.parts
  | call made => exact Call.pass_whole sound fits (Option.mem_toList.mp pass)
  | disk writes => cases pass

theorem fitSteps_append : ∀ (steps rest : List Step) {s : StreamStore},
    fitSteps s (steps ++ rest) = true →
    fitSteps s steps = true ∧ fitSteps (runSteps s steps) rest = true
  | [], _, _, fits => ⟨rfl, fits⟩
  | step :: steps, rest, s, fits => by
    obtain ⟨here, later⟩ := Bool.and_eq_true_iff.mp fits
    obtain ⟨first, second⟩ := fitSteps_append steps rest later
    exact ⟨Bool.and_eq_true_iff.mpr ⟨here, first⟩, second⟩

/-- In every run, in every retention pass of its last step, at the end of a call, in a fetch or at
startup: no record younger than the age limit is removed by age exactly if in every partition the
first of them is in time; and nothing else is removed from a topic within its size limit. -/
theorem young_records_kept (steps : List Step) (step : Step)
    (fits : fitSteps .fresh (steps ++ [step]) = true) {now : Nat} (clock : now < 2 ^ 64)
    {t : StreamTopic} (pass : (now, t) ∈ step.passes (runSteps .fresh steps)) :
    ((∀ p, ∀ r ∈ (t.part p).chain, now - r.atMs < t.maxAgeMs →
        r ∈ ((agePass now t).1.part p).chain) ↔ ∀ p, InTime now t.maxAgeMs (t.part p).chain) ∧
      (t.maxBytes = 0 ∨ (agePass now t).1.bytes ≤ t.maxBytes →
        (enforce now t).1 = (agePass now t).1) := by
  obtain ⟨before, last⟩ := fitSteps_append steps [step] fits
  have here : step.fits (runSteps .fresh steps) = true := (Bool.and_eq_true_iff.mp last).1
  have whole := Step.passes_whole (sound_steps steps SoundTopics.nil before) here pass
  refine ⟨forall_congr' fun p => agePass_young clock whole p, fun within => ?_⟩
  rw [← agePass_maxBytes now whole] at within
  rw [enforce_eq, sizeLoop_within within]

/-- A topic that keeps records for a second. -/
def secondTopic : List LogRecord := [.declare [116] 1 0 1000, .identity [116] 7]

/-- A record of the topic, stamped 5000. -/
def stamped5000 : StreamRecord := ⟨0, 5000, [], [1]⟩

/-- The clock is set back by a millisecond before the pass: between the stamp and the pass of an
append, before a fetch, before a restart. Each time the record is new, and gone. -/
def clockSetBack : List (List Step × Step) :=
  let declared : Step := .openFile (fun _ => 7) 5000 secondTopic
  [([declared], .call (.append .notDue 5000 4999 [116] 0 ⟨[], [1]⟩)),
   ([declared, .call (.append .notDue 5000 5000 [116] 0 ⟨[], [1]⟩)],
    .call (.fetchMetadata 4999 [116] 0)),
   ([], .openFile (fun _ => 7) 4999 (secondTopic ++ [.append [116] ⟨0, stamped5000⟩]))]

theorem clock_behind_evicts :
    clockSetBack.length = 3 ∧ ∀ run ∈ clockSetBack, fitSteps .fresh (run.1 ++ [run.2]) = true ∧
      (∃ pass ∈ run.2.passes (runSteps .fresh run.1), stamped5000 ∈ (pass.2.part 0).chain ∧
        pass.1 < stamped5000.atMs ∧ 0 < pass.2.maxAgeMs ∧ pass.2.maxBytes = 0 ∧
        stamped5000 ∉ ((agePass pass.1 pass.2).1.part 0).chain) ∧
      ∀ t ∈ (runSteps .fresh (run.1 ++ [run.2])).topics, (t.part 0).chain = [] := by
  decide +kernel

/-- Two records, stamped 5000 and 7000, and a clock that is behind the second. -/
def clockBetween : List Step :=
  [.openFile (fun _ => 7) 5000 secondTopic,
   .call (.append .notDue 5000 5000 [116] 0 ⟨[], [1]⟩),
   .call (.append .notDue 7000 5500 [116] 0 ⟨[], [2]⟩)]

/-- The topic the fetch finds. -/
def keptTopic : StreamTopic :=
  ⟨[116], 0, 1000, 2, 2, 3, 7, true, [⟨[stamped5000, ⟨1, 7000, [], [2]⟩], some 1, 0, 2, 2⟩], []⟩

theorem clockBetween_records_kept :
    fitSteps .fresh (clockBetween ++ [.call (.fetchMetadata 5500 [116] 0)]) = true ∧
      ∀ r ∈ (keptTopic.part 0).chain, r ∈ ((enforce 5500 keptTopic).1.part 0).chain := by
  have pass : (5500, keptTopic) ∈ Step.passes (runSteps .fresh clockBetween)
      (.call (.fetchMetadata 5500 [116] 0)) := by decide +kernel
  have kept := young_records_kept clockBetween (.call (.fetchMetadata 5500 [116] 0))
    (by decide +kernel) (by decide) pass
  refine ⟨by decide +kernel, ?_⟩
  rw [kept.2 (.inl rfl)]
  have inTime : ∀ p, InTime 5500 1000 (keptTopic.part p).chain
    | 0 => fun r first => by cases first; decide
    | _ + 1 => fun r first => by cases first
  exact fun r mem => kept.1.mpr inTime 0 r mem (by
    rcases List.mem_pair.mp mem with rfl | rfl <;> decide)

/-! ## Size -/

/-- The value the scan compares with is at most every head seen. -/
theorem oldestHead_le (t : StreamTopic) {q : Nat} {h : StreamRecord}
    (head : (t.part q).chain.head? = some h) :
    (oldestHead t).elim uint64Max (·.2.atMs) ≤ h.atMs := by
  have inside : q < t.partitions := by
    by_contra outside
    rw [part_outside (Nat.not_lt.mp outside)] at head
    cases head
  unfold oldestHead
  -- the scan over the partitions, by induction on how many of them it has seen
  generalize t.partitions = seen at inside ⊢
  induction seen with
  | zero => exact absurd inside (Nat.not_lt_zero q)
  | succ seen ih =>
    rw [List.range_succ, List.foldl_append, List.foldl_cons, List.foldl_nil]
    rcases Nat.lt_succ_iff_lt_or_eq.mp inside with earlier | rfl
    · have before := ih earlier
      split
      · exact before
      · split
        · rename_i less
          exact Nat.le_trans (Nat.le_of_lt less) before
        · exact before
    · rw [head]
      simp only
      split
      · exact Nat.le_refl _
      · rename_i notLess
        exact Nat.not_lt.mp notLess

/-- A round of size retention: a topic above its limit loses the first record of a partition, which is
no newer than the first record of any other. -/
structure SizeRound (t u : StreamTopic) (p : Nat) (r : StreamRecord) : Prop where
  above : t.maxBytes ≠ 0 ∧ t.maxBytes < t.bytes
  removed : (t.part p).chain = r :: (u.part p).chain
  others : ∀ q, q ≠ p → u.part q = t.part q
  oldest : ∀ q, ∀ h ∈ (t.part q).chain.head?, r.atMs ≤ h.atMs
  maxBytes : u.maxBytes = t.maxBytes
  records : t.records = u.records + 1
  sound : u.Sound

theorem StreamTopic.Sound.chain_le {t : StreamTopic} {p : Nat} (sound : t.Sound)
    (inside : p < t.partitions) : (t.part p).chain.length ≤ t.records :=
  sound.whole.records_eq ▸ le_sum_map (·.chain.length) .empty inside

theorem SizeRound.of_oldest {t : StreamTopic} (sound : t.Sound)
    (above : t.maxBytes ≠ 0 ∧ t.maxBytes < t.bytes) {p : Nat} {r : StreamRecord}
    (found : oldestHead t = some (p, r)) : SizeRound t (trimPart t p (bump r.offset)) p r := by
  obtain ⟨inside, head⟩ := oldestHead_some found
  obtain ⟨eq, -, bound⟩ := Sound.head_bump sound inside head
  obtain ⟨rest, chain⟩ : ∃ rest, (t.part p).chain = r :: rest := by
    cases chain : (t.part p).chain with
    | nil => simp [chain] at head
    | cons first rest =>
      rw [chain] at head
      cases head
      exact ⟨rest, rfl⟩
  have whole := sound.whole.parts _ (StreamTopic.part_mem inside)
  have part := trimPart_part inside (bump r.offset)
  have trimmed := whole.trim_head chain
  have soundU : (trimPart t p (bump r.offset)).Sound := sound_trimPart sound inside (by omega)
  refine ⟨above, ?_, fun q other => ?_, fun q h first => ?_, rfl, ?_, soundU⟩
  · rw [part, if_pos rfl, trimmed.2, chain]
  · rw [part, if_neg other]
  · have least := oldestHead_le t first
    rwa [found] at least
  · have some_ := sound.chain_le inside
    have below : ((t.part p).below (bump r.offset)).length = 1 := by
      rw [whole.below_eq, eq, Nat.add_sub_cancel_left, chain]
      rfl
    rw [chain, List.length_cons] at some_
    change t.records = t.records - _ + 1
    omega

/-- The loop is a sequence of rounds. -/
theorem sizeLoop_rounds : ∀ (rounds : Nat) {t : StreamTopic} (touched : List (Nat × Nat)), t.Sound →
    Relation.ReflTransGen (fun t u => ∃ p r, SizeRound t u p r) t (sizeLoop rounds t touched).1
  | 0, _, _, _ => .refl
  | rounds + 1, t, touched, sound => by
    rw [sizeLoop]
    split
    · rename_i above
      split
      · exact .refl
      · rename_i p r found
        have round := SizeRound.of_oldest sound above found
        exact .head ⟨p, r, round⟩ (sizeLoop_rounds rounds _ round.sound)
    · exact .refl

/-- No record carries the scan's start value as its stamp. -/
def StreamTopic.Stamped (t : StreamTopic) : Prop :=
  ∀ x ∈ t.parts, ∀ r ∈ x.chain, r.atMs < uint64Max

theorem StreamTopic.Stamped.part {t : StreamTopic} (stamped : t.Stamped) (p : Nat) :
    ∀ r ∈ (t.part p).chain, r.atMs < uint64Max := by
  by_cases inside : p < t.partitions
  · exact stamped _ (StreamTopic.part_mem inside)
  · rw [part_outside (Nat.not_lt.mp inside)]
    exact fun r mem => absurd mem List.not_mem_nil

theorem StreamTopic.Stamped.mono {t u : StreamTopic} (stamped : t.Stamped)
    (fewer : ∀ p, (u.part p).chain <:+ (t.part p).chain) : u.Stamped := by
  intro x part r mem
  obtain ⟨p, inside, rfl⟩ := List.getElem_of_mem part
  refine stamped.part p r ((fewer p).subset ?_)
  rwa [StreamTopic.part, List.getD_eq_getElem _ _ inside]

theorem SizeRound.suffix {t u : StreamTopic} {p : Nat} {r : StreamRecord} (round : SizeRound t u p r)
    (q : Nat) : (u.part q).chain <:+ (t.part q).chain := by
  by_cases same : q = p
  · rw [same, round.removed]
    exact List.suffix_cons ..
  · rewrite [round.others q same]
    exact List.suffix_rfl

theorem sizeRounds_suffix {t u : StreamTopic}
    (rounds : Relation.ReflTransGen (fun t u => ∃ p r, SizeRound t u p r) t u) (q : Nat) :
    (u.part q).chain <:+ (t.part q).chain := by
  induction rounds with
  | refl => exact List.suffix_rfl
  | tail _ last ih =>
    obtain ⟨p, r, round⟩ := last
    exact (round.suffix q).trans ih

theorem StreamTopic.Sound.empty_bytes {t : StreamTopic} (sound : t.Sound)
    (empty : ∀ p, (t.part p).chain = []) : t.bytes = 0 := by
  rw [sound.whole.bytes_eq]
  refine List.sum_eq_zero_iff_forall_eq_nat.mpr fun n mem => ?_
  obtain ⟨x, part, rfl⟩ := List.mem_map.mp mem
  obtain ⟨p, inside, rfl⟩ := List.getElem_of_mem part
  have none_ := empty p
  rw [StreamTopic.part, List.getD_eq_getElem _ _ inside] at none_
  rw [(sound.whole.parts _ part).bytes_eq, none_]
  rfl

/-- As many rounds as there are records bring the topic within its limit. -/
theorem sizeLoop_bytes : ∀ (rounds : Nat) {t : StreamTopic} (touched : List (Nat × Nat)), t.Sound →
    t.Stamped → t.records ≤ rounds → t.maxBytes ≠ 0 →
    (sizeLoop rounds t touched).1.bytes ≤ t.maxBytes
  | 0, t, _, sound, _, short, _ => by
    have none_ : t.bytes = 0 := by
      refine sound.empty_bytes fun p => ?_
      by_cases inside : p < t.partitions
      · exact List.length_eq_zero_iff.mp (by have := sound.chain_le inside; omega)
      · rw [part_outside (Nat.not_lt.mp inside)]
        rfl
    change t.bytes ≤ t.maxBytes
    omega
  | rounds + 1, t, touched, sound, stamped, short, limited => by
    rw [sizeLoop]
    by_cases above : t.maxBytes ≠ 0 ∧ t.bytes > t.maxBytes
    · rw [if_pos above]
      cases found : oldestHead t with
      | none =>
        -- every head would have been below the start value, so there is none
        have none_ : t.bytes = 0 := by
          refine sound.empty_bytes fun p => ?_
          cases chain : (t.part p).chain with
          | nil => rfl
          | cons r rest =>
            have least := oldestHead_le t (q := p) (h := r) (by rw [chain]; rfl)
            have low := stamped.part p r (by rw [chain]; exact List.mem_cons_self)
            rw [found] at least
            exact absurd low (Nat.not_lt.mpr least)
        omega
      | some best =>
        obtain ⟨p, r⟩ := best
        have round := SizeRound.of_oldest sound above found
        have records := round.records
        have later := sizeLoop_bytes rounds (touch touched p (bump r.offset)) round.sound
          (stamped.mono round.suffix) (by omega) (by rw [round.maxBytes]; exact limited)
        rwa [round.maxBytes] at later
    · rw [if_neg above]
      change t.bytes ≤ t.maxBytes
      omega

/-! ## The whole pass -/

theorem agePass_sound (now : Nat) {t : StreamTopic} (sound : t.Sound) : (agePass now t).1.Sound := by
  refine agePass_rule (P := fun u _ => u.Sound) ?_ now sound
  intro u touched p r soundU inside head
  obtain ⟨eq, -, bound⟩ := Sound.head_bump soundU inside head
  rw [eq]
  exact ⟨Nat.succ_ne_zero _, sound_trimPart soundU inside bound⟩

theorem agePass_suffix (now : Nat) {t : StreamTopic} (sound : t.Sound) (p : Nat) :
    ((agePass now t).1.part p).chain <:+ (t.part p).chain := by
  by_cases limited : t.maxAgeMs = 0
  · rewrite [agePass, if_pos limited]
    exact List.suffix_rfl
  · rw [agePass_chain now sound.whole.parts limited]
    exact List.dropWhile_suffix _

/-- Two partitions above their limit of three bytes; the second has the older head. -/
def aboveLimit : List LogRecord :=
  [.declare [116] 2 3 0, .identity [116] 7, .append [116] ⟨0, ⟨0, 10, [], [1, 2]⟩⟩,
   .append [116] ⟨1, ⟨0, 9, [], [3, 4]⟩⟩, .append [116] ⟨0, ⟨1, 11, [], [5]⟩⟩]

/-- The topic this file replays to. -/
def aboveLimitTopic : StreamTopic :=
  ⟨[116], 3, 0, 5, 3, 4, 7, true,
    [⟨[⟨0, 10, [], [1, 2]⟩, ⟨1, 11, [], [5]⟩], some 1, 0, 2, 3⟩,
     ⟨[⟨0, 9, [], [3, 4]⟩], some 0, 0, 1, 2⟩], []⟩

/-- A record of two bytes at the last offset, in a topic of one byte. -/
def endlessFile : List LogRecord :=
  [.declare [116] 1 1 0, .identity [116] 7, .trim [116] 0 uint64Max,
   .append [116] ⟨0, ⟨uint64Max, 10, [], [1, 2]⟩⟩]

/-- The topic this file replays to. -/
def endlessTopic : StreamTopic :=
  ⟨[116], 1, 0, 2, 1, 3, 7, true,
    [⟨[⟨uint64Max, 10, [], [1, 2]⟩], some 0, uint64Max, 0, 2⟩], []⟩

end KuttiDB.Stream
