/- # KuttiDB.Stream.Allocation -- appends and declarations when memory runs out

The three calls with the outcome of their allocations as an argument. A batch allocates everything
before it logs. An append allocates its record after it has logged it, and a declaration allocates the
bodies of its log records after the topic is linked: when these fail, the log has a record that memory
has not, or memory a topic that the log has not, and the store is not marked failed.

As long as these two allocations succeed, a failed call leaves log and memory in agreement, and what is
acknowledged later survives a reopening (`allocation_failures_agree`). `late_allocations_lose` are the
two runs in which an acknowledged append is lost.
-/
import KuttiDB.Stream.FailingRuns
import Mathlib.Data.List.TakeWhile

namespace KuttiDB.Stream

open KuttiDB.QueueStore (Bytes u64)
open KuttiDB.Theory

set_option autoImplicit false

/-! ## The calls -/

/-- The allocations of a call: all succeed, one fails before the call has changed anything, or one
fails after the record is logged or the topic linked. -/
inductive Alloc where
  | enough
  | early
  | late
  deriving DecidableEq, Repr

def streamAppendAlloc (alloc : Alloc) (s : StreamStore) (compaction : Compaction)
    (now enforceNow : Nat) (name : Bytes) (hint : Nat) (input : AppendInput) : StreamStore × Int :=
  if input.body.length + appendOverhead name input.key > recordMax then (s, -1)
  else guarded s compaction fun s =>
    match findTopic s.topics name with
    | none => (s, -1)
    | some t =>
      let p := choosePart t hint input.key
      if p ≥ t.partitions then (s, -1)
      else
        let r : StreamRecord := ⟨(t.part p).next, now, input.key, input.body⟩
        match alloc with
        | .early => (s, -1)
        | .late => ((logEach s [.append name ⟨p, r⟩]).1, -1)
        | .enough =>
          match logThenApply s [.append name ⟨p, r⟩] (partLink t p r) with
          | (s', 0) => enforceAndLog s' enforceNow (partLink t p r)
          | failed => failed

/-- Every allocation of a batch is made before the batch is logged. -/
def streamAppendBatchAlloc (alloc : Alloc) (s : StreamStore) (compaction : Compaction)
    (now enforceNow : Nat) (name : Bytes) (hint : Nat) (inputs : List AppendInput) :
    StreamStore × Int :=
  if inputs = [] ∨ inputs.length > streamFetchMax then (s, -1)
  else guarded s compaction fun s =>
    match findTopic s.topics name with
    | none => (s, -1)
    | some t =>
      match alloc with
      | .early | .late => (s, -1)
      | .enough =>
        match batchItems t hint now (t.parts.map (·.next)) inputs with
        | none => (s, -1)
        | some items =>
          if (LogRecord.appendBatch name items).len > recordMax then (s, -1)
          else match logThenApply s [.appendBatch name items] (linkItems t items) with
            | (s', 0) => enforceAndLog s' enforceNow (linkItems t items)
            | failed => failed

def streamDeclareAlloc (alloc : Alloc) (s : StreamStore) (compaction : Compaction) (fresh : StreamId)
    (name : Bytes) (partitions maxBytes maxAgeMs : Nat) : StreamStore × Int :=
  guarded s compaction fun s =>
    match addTopic s.topics name partitions maxBytes maxAgeMs fresh with
    | none => (s, -1)
    | some added =>
      if (findTopic s.topics name).isSome then (s, 0)
      else match alloc with
        | .early => (s, -1)
        | .late => ({ s with topics := added }, -1)
        | .enough =>
          match logEach { s with topics := added }
              [.declare name partitions maxBytes maxAgeMs, .identity name fresh] with
          | (s', false) => (s', -1)
          | (s', true) =>
            let t := { newTopic name partitions maxBytes maxAgeMs fresh with idPersisted := true }
            ({ s' with topics := setTopic s'.topics t }, 0)

/-- A call with the outcome of its allocations; those of the other calls succeed. -/
def Call.runAlloc (alloc : Alloc) (s : StreamStore) : Call → StreamStore × Int
  | .append compaction now enforceNow name hint input =>
    streamAppendAlloc alloc s compaction now enforceNow name hint input
  | .appendBatch compaction now enforceNow name hint inputs =>
    streamAppendBatchAlloc alloc s compaction now enforceNow name hint inputs
  | .declare compaction fresh name partitions maxBytes maxAgeMs =>
    streamDeclareAlloc alloc s compaction fresh name partitions maxBytes maxAgeMs
  | c => c.run s

/-- With enough memory these are the calls of the store. -/
theorem runAlloc_enough (s : StreamStore) (c : Call) : c.runAlloc .enough s = c.run s := by
  cases c <;> rfl

/-- The calls that allocate after they have changed something. -/
def Call.allocatesLate : Call → Bool
  | .append .. | .declare .. => true
  | _ => false

theorem guarded_idle {s : StreamStore} {compaction : Compaction}
    {call : StreamStore → StreamStore × Int} (idle : ∀ s', (call s').1 = s') :
    (guarded s compaction call).1 = ((Call.checkpointMaybe compaction).run s).1 := by
  simp only [Call.run, guarded]
  split
  · rfl
  · cases compaction with
    | notDue | done => exact idle _
    | failed => rfl

/-- A call that could not allocate in time has done nothing, or no more than its compaction check. -/
theorem runAlloc_refused (s : StreamStore) (c : Call) {alloc : Alloc} (refused : alloc ≠ .enough)
    (early : alloc = .late → c.allocatesLate = false) :
    (c.runAlloc alloc s).1 = s ∨
      (c.runAlloc alloc s).1 = ((Call.checkpointMaybe c.compaction).run s).1 ∨
      c.runAlloc alloc s = c.run s := by
  have inTime : c.allocatesLate = true → alloc = .early := by
    intro late
    cases alloc with
    | enough => exact absurd rfl refused
    | early => rfl
    | late => exact absurd late (by simp [early rfl])
  cases c with
  | append =>
    obtain rfl := inTime rfl
    simp only [Call.runAlloc, streamAppendAlloc]
    split
    · exact .inl rfl
    · refine .inr (.inl (guarded_idle fun s' => ?_))
      split
      · rfl
      · split <;> rfl
  | appendBatch =>
    simp only [Call.runAlloc, streamAppendBatchAlloc]
    split
    · exact .inl rfl
    · refine .inr (.inl (guarded_idle fun s' => ?_))
      split
      · rfl
      · cases alloc with
        | enough => exact absurd rfl refused
        | early | late => rfl
  | declare =>
    obtain rfl := inTime rfl
    refine .inr (.inl (guarded_idle fun s' => ?_))
    split
    · rfl
    · split <;> rfl
  | _ => exact .inr (.inr rfl)

/-! ## Records that are kept -/

/-- The record is in its partition, unless the partition has been trimmed past it. -/
def Held (t : StreamTopic) (item : BatchItem) : Prop :=
  item.record ∈ (t.part item.part).chain ∨ item.record.offset < (t.part item.part).base

theorem mem_trim {x : StreamPart} {r : StreamRecord} (b : Nat) (mem : r ∈ x.chain) :
    r ∈ (x.trim b).chain ∨ r.offset < (x.trim b).base := by
  rw [← List.takeWhile_append_dropWhile (p := fun r : StreamRecord => decide (r.offset < b)) (l := x.chain)]
    at mem
  rcases List.mem_append.mp mem with dropped | kept
  · have below := List.mem_takeWhile_imp dropped
    simp only [decide_eq_true_eq] at below
    exact .inr (Nat.lt_of_lt_of_le below (Nat.le_max_right ..))
  · exact .inl kept

theorem Held.enforce {t : StreamTopic} (sound : t.Sound) (now : Nat) {item : BatchItem}
    (held : Held t item) : Held (enforce now t).1 item := by
  have passed := passed_enforce now sound
  unfold Held
  rw [passed.parts]
  cases lookup Prod.fst (Stream.enforce now t).2 item.part with
  | none => exact held
  | some x =>
    rcases held with mem | below
    · exact mem_trim x.2 mem
    · exact .inr (Nat.lt_of_lt_of_le below (Nat.le_max_left ..))

theorem held_partLink {t : StreamTopic} (sound : t.Sound) {p : Nat} (inside : p < t.partitions)
    (r : StreamRecord) : Held (partLink t p r) ⟨p, r⟩ ∧
      ∀ item, Held t item → Held (partLink t p r) item := by
  have whole := sound.whole.parts _ (StreamTopic.part_mem inside)
  have chain : ((t.part p).link r).chain = (t.part p).chain ++ [r] := whole.link_chain r
  constructor
  · left
    rw [partLink_part inside, if_pos rfl, chain]
    simp
  · intro item held
    unfold Held
    rw [partLink_part inside]
    by_cases same : item.part = p
    · rw [if_pos same, chain]
      rcases held with mem | below
      · exact .inl (List.mem_append_left _ (same ▸ mem))
      · exact .inr (same ▸ below)
    · rw [if_neg same]
      exact held

theorem held_linkItems (items : List BatchItem) : ∀ {t : StreamTopic}, t.Sound →
    appendItems t items = (linkItems t items, true) → (∀ i ∈ items, i.record.offset ≠ uint64Max) →
    (∀ i ∈ items, RecordFits t.name i.record) →
    (∀ item ∈ items, Held (linkItems t items) item) ∧
      ∀ item, Held t item → Held (linkItems t items) item := by
  induction items with
  | nil => exact fun _ _ _ _ => ⟨nofun, fun _ held => held⟩
  | cons item rest ih =>
    intro t sound accepted room fits
    rw [appendItems] at accepted
    cases added : appendMemory t item.part item.record with
    | none => simp [added] at accepted
    | some u =>
      rw [added] at accepted
      unfold appendMemory at added
      split at added
      · cases added
      · rename_i checks
        simp only [not_or, not_le, not_not] at checks
        cases added
        have soundU := sound_partLink sound checks.1 checks.2
          (checks.2 ▸ room item List.mem_cons_self) (fits item List.mem_cons_self)
        obtain ⟨here, before⟩ := held_partLink sound checks.1 item.record
        obtain ⟨each, kept⟩ := ih soundU accepted (fun i mem => room i (List.mem_cons_of_mem _ mem))
          (fun i mem => fits i (List.mem_cons_of_mem _ mem))
        refine ⟨fun i mem => ?_, fun i held => kept i (before i held)⟩
        rcases List.mem_cons.mp mem with rfl | later
        · exact kept _ here
        · exact each i later

/-- What an append or a batch adds to its topic. -/
def Call.appended (topics : List StreamTopic) : Call → Option (Bytes × List BatchItem)
  | .append _ now _ name hint input => (findTopic topics name).map fun t =>
    let p := choosePart t hint input.key
    (name, [⟨p, ⟨(t.part p).next, now, input.key, input.body⟩⟩])
  | .appendBatch _ now _ name hint inputs => (findTopic topics name).bind fun t =>
    (batchItems t hint now (t.parts.map (·.next)) inputs).map fun items => (name, items)
  | _ => none

/-- What is in memory after a change was logged and the retention pass run. -/
theorem logThenEnforce_accepts {s : StreamStore} {records : List LogRecord} {t t' : StreamTopic}
    {now : Nat} (found : findTopic s.topics t.name = some t) (same : t'.name = t.name)
    (soundT : t'.Sound)
    (accepted : (match logThenApply s records t' with
      | (s', 0) => enforceAndLog s' now t'
      | failed => failed).2 = 0) :
    findTopic (match logThenApply s records t' with
      | (s', 0) => enforceAndLog s' now t'
      | failed => failed).1.topics t.name = some (enforce now t').1 := by
  have memory := logEach_topics records s
  unfold logThenApply at accepted ⊢
  cases logged : logEach s records with
  | mk s' ok =>
    rw [logged] at memory accepted
    cases ok with
    | false => simp at accepted
    | true =>
      simp only [enforceAndLog, applyThenLog_topics, show s'.topics = s.topics from memory]
      have named : (enforce now t').1.name = t'.name := (sound_enforce now soundT).2
      have set : findTopic (setTopic s.topics t') t'.name = some t' := by
        rw [same]
        exact findTopic_setTopic_same found same
      rw [← same]
      exact findTopic_setTopic_same set named

/-- An acknowledged append is in memory, unless its own retention pass has dropped it. -/
theorem acknowledged_held {s : StreamStore} (sound : SoundTopics s.topics) {c : Call}
    (fits : c.fits s.topics = true) {name : Bytes} {items : List BatchItem}
    (appended : c.appended s.topics = some (name, items)) (accepted : (c.run s).2 = 0) :
    ∃ t, findTopic (c.run s).1.topics name = some t ∧ ∀ item ∈ items, Held t item := by
  cases c with
  | append compaction now enforceNow name' hint input =>
    simp only [Call.run, streamAppend] at accepted ⊢
    split at accepted
    · simp at accepted
    · rename_i size
      rw [if_neg size]
      obtain ⟨s', same, eq, accepted⟩ := guarded_accepts accepted
      rw [eq]
      rw [← same] at sound fits appended
      cases found : findTopic s'.topics name' with
      | none => simp [found] at accepted
      | some t =>
        simp only [found] at accepted ⊢
        simp only [Call.appended, found, Option.map_some, Option.some.injEq, Prod.mk.injEq] at appended
        obtain ⟨rfl, rfl⟩ := appended
        split at accepted
        · simp at accepted
        · rename_i inside
          rw [if_neg inside]
          obtain ⟨-, rfl⟩ := findTopic_some found
          have soundT := sound.found found
          have room : (t.part (choosePart t hint input.key)).next ≠ uint64Max := by
            simpa [Call.fits, found] using fits
          have linked : (partLink t (choosePart t hint input.key)
              ⟨(t.part (choosePart t hint input.key)).next, now, input.key, input.body⟩).Sound :=
            sound_partLink soundT (Nat.lt_of_not_le inside) rfl room
              (append_fits (Nat.le_of_not_lt size))
          refine ⟨_, logThenEnforce_accepts found rfl linked accepted, fun item mem => ?_⟩
          rw [List.mem_singleton.mp mem]
          exact Held.enforce linked enforceNow (held_partLink soundT (Nat.lt_of_not_le inside) _).1
  | appendBatch compaction now enforceNow name' hint inputs =>
    simp only [Call.run, streamAppendBatch] at accepted ⊢
    split at accepted
    · simp at accepted
    · rename_i limits
      rw [if_neg limits]
      obtain ⟨s', same, eq, accepted⟩ := guarded_accepts accepted
      rw [eq]
      rw [← same] at sound fits appended
      cases found : findTopic s'.topics name' with
      | none => simp [found] at accepted
      | some t =>
        cases given : batchItems t hint now (t.parts.map (·.next)) inputs with
        | none => simp [found, given] at accepted
        | some given_ =>
          simp only [found, given] at accepted ⊢
          simp only [Call.appended, found, given, Option.bind_some, Option.map_some,
            Option.some.injEq, Prod.mk.injEq] at appended
          obtain ⟨rfl, rfl⟩ := appended
          split at accepted
          · simp at accepted
          · rename_i len
            rw [if_neg len]
            obtain ⟨-, rfl⟩ := findTopic_some found
            have soundT := sound.found found
            have room : ∀ i ∈ given_, i.record.offset ≠ uint64Max := by
              simpa [Call.fits, found, given] using fits
            have each : ∀ i ∈ given_, RecordFits t.name i.record :=
              fun i mem => batch_item_fits mem (Nat.le_of_not_lt len)
            have all := appendItems_of_batch given
            have linked : Follows True t _ _ := Follows.links given_ soundT all room each
            refine ⟨_, logThenEnforce_accepts found (linkItems_name t given_) linked.sound accepted,
              fun item mem => ?_⟩
            exact Held.enforce linked.sound enforceNow
              ((held_linkItems given_ soundT all room each).1 item mem)
  | _ => cases appended

/-- What memory has is there after a reopening, unless retention drops it then. -/
theorem reopened_held {exact : Prop} {fresh : Bytes → StreamId} {s : StreamStore}
    (inStep : InStep exact fresh s) (unfailed : s.failed = false) (now : Nat) {name : Bytes}
    {t : StreamTopic} (found : findTopic s.topics name = some t) {p : Nat} {r : StreamRecord}
    (mem : r ∈ (t.part p).chain) :
    ∃ u, findTopic (openLog fresh now s.log).topics name = some u ∧ Held u ⟨p, r⟩ := by
  obtain ⟨replayed, run, soundR, same⟩ := (inStep.tracks unfailed).replayed
  have mirror := Window.same_sequential.mp same
  obtain ⟨-, eq⟩ := Tracks.opened run soundR mirror now
  have here := mirror name
  rw [show findTopic s.unlimited.topics name = some t from found] at here
  rw [show openLog fresh now s.log = _ from eq, Tracks.findTopic_opened soundR]
  cases partner : findTopic replayed name with
  | none =>
    rw [partner] at here
    cases here
  | some u =>
    rw [partner] at here
    cases here with
    | some mirrored =>
      refine ⟨_, rfl, Held.enforce (soundR.found partner) now (.inl ?_)⟩
      have inside : p < t.partitions := by
        rcases Nat.lt_or_ge p t.partitions with inside | beyond
        · exact inside
        · have none_ : t.part p = .empty := List.getD_eq_default _ _ beyond
          rw [none_] at mem
          cases mem
      have lag := (mirrored.parts p inside).trimmed
      rw [lag] at mem
      exact (List.dropWhile_suffix _).subset mem

/-! ## Runs -/

/-- A step of a run and, if it is a call, the outcome of its allocations. -/
structure AllocStep where
  alloc : Alloc
  step : FileStep
  deriving DecidableEq, Repr

def AllocStep.run (fresh : Bytes → StreamId) (s : StreamStore) (a : AllocStep) : StreamStore :=
  match a.step with
  | .call made => (made.runAlloc a.alloc s).1
  | step => step.run fresh s

def runAllocs (fresh : Bytes → StreamId) (s : StreamStore) (steps : List AllocStep) : StreamStore :=
  steps.foldl (AllocStep.run fresh) s

/-- The condition on a step: no append fails to allocate its record and no declaration the bodies of
its records, no 64-bit counter is used up, and only a store that did not fail is reopened. -/
def AllocStep.supplied (s : StreamStore) (a : AllocStep) : Bool :=
  a.step.counted s && match a.step with
    | .call made => a.alloc != .late || !made.allocatesLate
    | _ => true

def suppliedAll (fresh : Bytes → StreamId) : StreamStore → List AllocStep → Bool
  | _, [] => true
  | s, a :: rest => a.supplied s && suppliedAll fresh (a.run fresh s) rest

section Runs

variable {exact : Prop} {fresh : Bytes → StreamId} {s : StreamStore}

theorem InStep.runAlloc (inStep : InStep exact fresh s) (a : AllocStep)
    (supplied : a.supplied s = true) :
    InStep (exact ∧ a.step.isReopen = false) fresh (a.run fresh s) := by
  obtain ⟨alloc, step⟩ := a
  obtain ⟨counted, inTime⟩ := Bool.and_eq_true_iff.mp supplied
  cases step with
  | call made =>
    have whole := inStep.run (.call made) counted
    by_cases enough : alloc = .enough
    · simp only [AllocStep.run, enough, runAlloc_enough]
      exact whole
    · have early : alloc = .late → made.allocatesLate = false := by
        rintro rfl
        simpa using inTime
      rcases runAlloc_refused s made enough early with same | checked | done
      · simpa only [AllocStep.run, same] using inStep.mono And.left
      · -- the compaction check alone is a call of its own
        have fine : FileStep.counted s (.call (.checkpointMaybe made.compaction)) = true :=
          Bool.and_eq_true_iff.mpr ⟨rfl, (Bool.and_eq_true_iff.mp counted).2⟩
        have only := inStep.run (.call (.checkpointMaybe made.compaction)) fine
        simp only [AllocStep.run, checked]
        exact only
      · simp only [AllocStep.run, done]
        exact whole
  | reopen now => exact inStep.run (.reopen now) counted
  | disk writes => exact inStep.run (.disk writes) counted

theorem inStep_runAllocs : ∀ (steps : List AllocStep) {exact : Prop} {s : StreamStore},
    InStep exact fresh s → suppliedAll fresh s steps = true →
    InStep (exact ∧ ∀ a ∈ steps, a.step.isReopen = false) fresh (runAllocs fresh s steps)
  | [], _, _, inStep, _ => inStep.mono And.left
  | a :: rest, _, _, inStep, met => by
    obtain ⟨here, later⟩ := Bool.and_eq_true_iff.mp met
    have next := inStep_runAllocs rest (inStep.runAlloc a here) later
    exact next.mono fun holds => ⟨⟨holds.1, holds.2 _ List.mem_cons_self⟩,
      fun a mem => holds.2 a (List.mem_cons_of_mem _ mem)⟩

end Runs

/-- A call that appends and returns 0 had enough memory. -/
theorem runAlloc_accepts {s : StreamStore} {c : Call} {alloc : Alloc} {name : Bytes}
    {items : List BatchItem} (appended : c.appended s.topics = some (name, items))
    (accepted : (c.runAlloc alloc s).2 = 0) : c.runAlloc alloc s = c.run s := by
  cases alloc with
  | enough => exact runAlloc_enough s c
  | early | late =>
    cases c with
    | append =>
      simp only [Call.runAlloc, streamAppendAlloc] at accepted
      split at accepted
      · simp at accepted
      · obtain ⟨s', -, -, accepted⟩ := guarded_accepts accepted
        split at accepted
        · simp at accepted
        · split at accepted <;> simp at accepted
    | appendBatch =>
      simp only [Call.runAlloc, streamAppendBatchAlloc] at accepted
      split at accepted
      · simp at accepted
      · obtain ⟨s', -, -, accepted⟩ := guarded_accepts accepted
        split at accepted <;> simp at accepted
    | _ => cases appended

/-- In a run in which the late allocations succeed, whatever else fails to allocate: a store that is
not marked failed has a log that is accepted in full and rebuilds memory (to the record, unless the
file was reopened); what it holds is there after a reopening unless retention drops it then; and an
append that it acknowledges next is held. -/
theorem allocation_failures_agree (fresh : Bytes → StreamId) (steps : List AllocStep)
    (supplied : suppliedAll fresh .fresh steps = true) :
    let s := runAllocs fresh .fresh steps
    s.failed = false →
      (∃ replayed, replayAll fresh [] s.log = (replayed, s.log) ∧
        SameTopics (∀ a ∈ steps, a.step.isReopen = false) s.topics replayed) ∧
      (∀ now name t p r, findTopic s.topics name = some t → r ∈ (t.part p).chain →
        ∃ u, findTopic (openLog fresh now s.log).topics name = some u ∧ Held u ⟨p, r⟩) ∧
      ∀ alloc c name items, FileStep.counted s (.call c) = true →
        c.appended s.topics = some (name, items) → (c.runAlloc alloc s).2 = 0 →
        ∃ t, findTopic (c.runAlloc alloc s).1.topics name = some t ∧ ∀ item ∈ items, Held t item := by
  intro s unfailed
  have inStep : InStep (∀ a ∈ steps, a.step.isReopen = false) fresh s :=
    (inStep_runAllocs steps (@InStep.start fresh True) supplied).mono fun holds => ⟨trivial, holds⟩
  refine ⟨?_, fun now name t p r found mem => reopened_held inStep unfailed now found mem, ?_⟩
  · obtain ⟨r, run, -, same⟩ := (inStep.tracks unfailed).replayed
    exact ⟨r, run, Window.same_sequential.mp same⟩
  · intro alloc c name items counted appended accepted
    have plain := runAlloc_accepts appended accepted
    rw [plain] at accepted ⊢
    exact acknowledged_held inStep.sound (FileStep.counted_call counted).1 appended accepted

/-- A record is logged and cannot be allocated; the next append is acknowledged. -/
def lateAppend : List AllocStep :=
  [⟨.enough, .call (.declare .notDue 7 [116] 1 0 0)⟩,
   ⟨.late, .call (.append .notDue 10 10 [116] 0 ⟨[], [1]⟩)⟩,
   ⟨.enough, .call (.append .notDue 11 11 [116] 0 ⟨[], [2]⟩)⟩]

/-- A topic is linked and not logged; an append to it is acknowledged. -/
def lateDeclare : List AllocStep :=
  [⟨.late, .call (.declare .notDue 7 [116] 1 0 0)⟩,
   ⟨.enough, .call (.append .notDue 10 10 [116] 0 ⟨[], [1]⟩)⟩]

/-- Neither store is marked failed and each last append returned 0. After a reopening the first has
the record whose append failed in the place of the one that was acknowledged, and the second has no
topic at all. -/
theorem late_allocations_lose :
    let bodies (s : StreamStore) := (findTopic s.topics [116]).map fun t =>
      (t.part 0).chain.map (·.body)
    (let s := runAllocs (fun _ => 0) .fresh lateAppend
     s.failed = false ∧
       ((Call.append .notDue 11 11 [116] 0 ⟨[], [2]⟩).run
         (runAllocs (fun _ => 0) .fresh (lateAppend.take 2))).2 = 0 ∧
       bodies s = some [[2]] ∧ bodies (openLog (fun _ => 0) 12 s.log) = some [[1]]) ∧
    (let s := runAllocs (fun _ => 0) .fresh lateDeclare
     s.failed = false ∧
       ((Call.append .notDue 10 10 [116] 0 ⟨[], [1]⟩).run
         (runAllocs (fun _ => 0) .fresh (lateDeclare.take 1))).2 = 0 ∧
       bodies s = some [[1]] ∧ bodies (openLog (fun _ => 0) 12 s.log) = none) := by
  decide +kernel

/-- Calls refused for lack of memory before they changed anything, and an append afterwards. -/
theorem earlyFailures_agree :
    let steps : List AllocStep := [⟨.early, .call (.declare .notDue 7 [116] 1 0 0)⟩,
      ⟨.enough, .call (.declare .notDue 7 [116] 1 0 0)⟩,
      ⟨.early, .call (.append .notDue 10 10 [116] 0 ⟨[], [1]⟩)⟩,
      ⟨.late, .call (.appendBatch .notDue 10 10 [116] 0 [⟨[], [1]⟩])⟩,
      ⟨.enough, .call (.append .done 11 11 [116] 0 ⟨[], [2]⟩)⟩]
    let s := runAllocs (fun _ => 0) .fresh steps
    suppliedAll (fun _ => 0) .fresh steps = true ∧ s.failed = false ∧
      ∃ replayed, replayAll (fun _ => 0) [] s.log = (replayed, s.log) ∧
        SameTopics (∀ a ∈ steps, a.step.isReopen = false) s.topics replayed :=
  ⟨by decide +kernel, by decide +kernel,
    (allocation_failures_agree (fun _ => 0) _ (by decide +kernel) (by decide +kernel)).1⟩

end KuttiDB.Stream
