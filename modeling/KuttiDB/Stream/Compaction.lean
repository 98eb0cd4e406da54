/- # KuttiDB.Stream.Compaction -- a compacted log replays to the store it was written from

`compactRecords` writes each topic as a declaration, its identity, for every partition the boundary and
the retained records, the offsets of every group, and the revision. Replaying that file into an empty
store is followed topic by topic (`replays_topic`): the partitions are refilled one after the other
(`refill_parts`), then the groups (`refill_groups`).

Replay refuses a revision of 0, which is what a revision wraps to; every other field is accepted.
-/
import KuttiDB.Stream.Reachable

namespace KuttiDB.Stream

open KuttiDB.QueueStore (Bytes u64)
open KuttiDB.Theory

set_option autoImplicit false

/-! ## Replaying stretches of a log -/

/-- The records are all accepted, and lead from one list of topics to the other. -/
def Replays (fresh : Bytes → StreamId) (before : List StreamTopic) (records : List LogRecord)
    (after : List StreamTopic) : Prop :=
  replayAll fresh before records = (after, records)

namespace Replays

variable {fresh : Bytes → StreamId} {a b c : List StreamTopic} {xs ys : List LogRecord} {r : LogRecord}

theorem nil : Replays fresh a [] a := rfl

theorem cons (len : r.len ≤ recordMax) (here : replay fresh a r = (b, true))
    (rest : Replays fresh b xs c) : Replays fresh a (r :: xs) c := by
  unfold Replays at rest ⊢
  rw [replayAll, if_neg (Nat.not_lt.mpr len), here]
  simp only [rest]

theorem cons_inv (run : Replays fresh a (r :: xs) c) :
    r.len ≤ recordMax ∧ ∃ b, replay fresh a r = (b, true) ∧ Replays fresh b xs c := by
  unfold Replays at run
  rw [replayAll] at run
  split at run
  · simp at run
  · rename_i len
    cases here : replay fresh a r with
    | mk b ok =>
      rw [here] at run
      cases ok with
      | false => simp at run
      | true =>
        simp only [Prod.mk.injEq, List.cons.injEq, true_and] at run
        exact ⟨Nat.le_of_not_lt len, b, rfl, Prod.ext run.1 run.2⟩

theorem append : ∀ {xs : List LogRecord} {a : List StreamTopic}, Replays fresh a xs b →
    Replays fresh b ys c → Replays fresh a (xs ++ ys) c
  | [], a, first, second => by
    cases first
    exact second
  | r :: xs, a, first, second => by
    obtain ⟨len, mid, here, rest⟩ := cons_inv first
    exact cons len here (rest.append second)

/-- What stands in front of an accepted log is accepted. -/
theorem front : ∀ {xs : List LogRecord} {a : List StreamTopic}, Replays fresh a (xs ++ ys) c →
    ∃ b, Replays fresh a xs b
  | [], a, _ => ⟨a, nil⟩
  | _ :: _, _, run => by
    obtain ⟨len, _, here, rest⟩ := cons_inv run
    obtain ⟨b, before⟩ := front rest
    exact ⟨b, cons len here before⟩

theorem one (len : r.len ≤ recordMax) (here : replay fresh a r = (b, true)) :
    Replays fresh a [r] b :=
  cons len here nil

end Replays

theorem Replays.unique {fresh : Bytes → StreamId} {a b c : List StreamTopic} {xs : List LogRecord}
    (first : Replays fresh a xs b) (second : Replays fresh a xs c) : b = c := by
  cases first.symm.trans second
  rfl

/-! ## One topic of the list -/

theorem appendItems_name (items : List BatchItem) :
    ∀ t : StreamTopic, (appendItems t items).1.name = t.name := by
  induction items with
  | nil => exact fun _ => rfl
  | cons item rest ih =>
    intro t
    rw [appendItems]
    cases added : appendMemory t item.part item.record with
    | none => rfl
    | some u =>
      unfold appendMemory at added
      split at added <;> cases added
      exact ih _

@[simp] theorem replayTopic_name (t : StreamTopic) (r : LogRecord) :
    (replayTopic t r).1.name = t.name := by
  cases r with
  | append name item => exact appendItems_name [item] t
  | appendBatch name items =>
    rw [replayTopic]
    split
    · rfl
    · exact appendItems_name items t
  | commit name group p offset =>
    rw [replayTopic]
    split
    · rfl
    · simp only [ensureGroup]
      split <;> rfl
  | trim | revision =>
    rw [replayTopic]
    split <;> rfl
  | _ => rfl

/-- Applies records to one topic; `none` if one is refused. -/
def replayEach : StreamTopic → List LogRecord → Option StreamTopic
  | t, [] => some t
  | t, r :: rest =>
    match replayTopic t r with
    | (u, true) => replayEach u rest
    | (_, false) => none

theorem replayEach_cons {t u : StreamTopic} {r : LogRecord} {rest : List LogRecord}
    (here : replayTopic t r = (u, true)) : replayEach t (r :: rest) = replayEach u rest := by
  rw [replayEach, here]

theorem replayEach_name : ∀ (records : List LogRecord) {t u : StreamTopic},
    replayEach t records = some u → u.name = t.name
  | [], _, _, run => by
    cases run
    rfl
  | r :: records, t, u, run => by
    rw [replayEach] at run
    cases here : replayTopic t r with
    | mk v ok =>
      rw [here] at run
      cases ok with
      | false => cases run
      | true => exact (replayEach_name records run).trans (by simpa [here] using replayTopic_name t r)

theorem replayEach_append (ys : List LogRecord) : ∀ (xs : List LogRecord) {t u : StreamTopic},
    replayEach t xs = some u → replayEach t (xs ++ ys) = replayEach u ys
  | [], _, _, run => by
    cases run
    rfl
  | r :: xs, t, u, run => by
    rw [replayEach] at run
    rw [List.cons_append, replayEach]
    cases here : replayTopic t r with
    | mk v ok =>
      rw [here] at run
      cases ok with
      | false => cases run
      | true => exact replayEach_append ys xs run

theorem setTopic_found {t : StreamTopic} {topics : List StreamTopic}
    (found : findTopic topics t.name = some t) : setTopic topics t = topics :=
  replace_found _ found

theorem setTopic_setTopic (topics : List StreamTopic) {t u : StreamTopic} (name : u.name = t.name) :
    setTopic (setTopic topics t) u = setTopic topics u := by
  rw [setTopic, setTopic, setTopic, name]
  exact updateFirst_updateFirst _ (fun _ _ => by simp) topics

theorem findTopic_setTopic_same {topics : List StreamTopic} {t u : StreamTopic}
    (found : findTopic topics t.name = some t) (name : u.name = t.name) :
    findTopic (setTopic topics u) t.name = some u := by
  rw [setTopic, name]
  exact lookup_replace_same _ name found

theorem findTopic_setTopic_other (topics : List StreamTopic) {t : StreamTopic} {name : Bytes}
    (other : name ≠ t.name) : findTopic (setTopic topics t) name = findTopic topics name :=
  lookup_replace_other _ other rfl topics

theorem replay_found (fresh : Bytes → StreamId) {t u : StreamTopic} {topics : List StreamTopic}
    {r : LogRecord} (found : findTopic topics t.name = some t) (named : r.name = t.name)
    (length : t.name.length ≤ streamNameMax) (here : replayTopic t r = (u, true)) :
    replay fresh topics r = (setTopic topics u, true) := by
  cases r with
  | declare | delete => simp [replayTopic] at here
  | _ =>
    simp only [replay]
    rw [if_neg (by rw [named]; exact Nat.not_lt.mpr length), named, found]
    simp only [here]

/-- Records of one topic change that topic only. -/
theorem replays_found (fresh : Bytes → StreamId) :
    ∀ (records : List LogRecord) {topics : List StreamTopic} {t u : StreamTopic},
      findTopic topics t.name = some t → t.name.length ≤ streamNameMax →
      (∀ r ∈ records, r.name = t.name ∧ r.len ≤ recordMax) → replayEach t records = some u →
      Replays fresh topics records (setTopic topics u)
  | [], topics, t, _, found, _, _, run => by
    cases run
    rw [setTopic_found found]
    exact Replays.nil
  | r :: records, topics, t, u, found, length, fits, run => by
    rw [replayEach] at run
    cases here : replayTopic t r with
    | mk v ok =>
      rw [here] at run
      cases ok with
      | false => cases run
      | true =>
        have name : v.name = t.name := by simpa [here] using replayTopic_name t r
        obtain ⟨named, len⟩ := fits r List.mem_cons_self
        refine Replays.cons len (replay_found fresh found named length here) ?_
        have rest := replays_found fresh records (t := v)
          (by rw [name]; exact findTopic_setTopic_same found name) (name ▸ length)
          (fun r' mem => name ▸ fits r' (List.mem_cons_of_mem _ mem)) run
        have final : u.name = v.name := replayEach_name records run
        rwa [setTopic_setTopic topics final] at rest

/-! ## Partitions -/

/-- What refilling partitions leaves alone; the revision is set at the end. -/
structure SameFrame (t u : StreamTopic) : Prop where
  name : u.name = t.name
  maxBytes : u.maxBytes = t.maxBytes
  maxAgeMs : u.maxAgeMs = t.maxAgeMs
  id : u.id = t.id
  idPersisted : u.idPersisted = t.idPersisted
  groups : u.groups = t.groups

theorem SameFrame.refl (t : StreamTopic) : SameFrame t t := ⟨rfl, rfl, rfl, rfl, rfl, rfl⟩

theorem SameFrame.trans {t u v : StreamTopic} (first : SameFrame t u) (second : SameFrame u v) :
    SameFrame t v :=
  ⟨second.name.trans first.name, second.maxBytes.trans first.maxBytes,
    second.maxAgeMs.trans first.maxAgeMs, second.id.trans first.id,
    second.idPersisted.trans first.idPersisted, second.groups.trans first.groups⟩

theorem SameFrame.link (t : StreamTopic) (p : Nat) (r : StreamRecord) :
    SameFrame t (partLink t p r) :=
  ⟨rfl, rfl, rfl, rfl, rfl, rfl⟩

theorem SameFrame.trim (t : StreamTopic) (p b : Nat) : SameFrame t (trimPart t p b) :=
  ⟨rfl, rfl, rfl, rfl, rfl, rfl⟩

theorem replayTopic_append {t : StreamTopic} {p : Nat} {r : StreamRecord} (name : Bytes)
    (inside : p < t.partitions) (here : r.offset = (t.part p).next) :
    replayTopic t (.append name ⟨p, r⟩) = (partLink t p r, true) := by
  have accepted : appendMemory t p r = some (partLink t p r) :=
    if_neg (by
      rw [not_or, not_le, not_not]
      exact ⟨inside, here⟩)
  simp [replayTopic, appendItems, accepted]

/-- Replaying appends at consecutive offsets from the next one puts them behind what is there. -/
theorem refill_chain (name : Bytes) (p : Nat) : ∀ (chain : List StreamRecord) {t : StreamTopic},
    t.Sound → p < t.partitions → Consecutive StreamRecord.offset (t.part p).next chain →
    (t.part p).next + chain.length ≤ uint64Max → (∀ r ∈ chain, RecordFits t.name r) →
    ∃ u z, replayEach t (chain.map (fun r => .append name ⟨p, r⟩)) = some u ∧ u.Sound ∧
      SameFrame t u ∧ u.parts = t.parts.set p z ∧ z.base = (t.part p).base ∧
      z.chain = (t.part p).chain ++ chain
  | [], t, sound, inside, _, _, _ => by
    have same : t.parts.set p (t.part p) = t.parts := by
      have inside' : p < t.parts.length := inside
      simp [StreamTopic.part, List.getD_eq_getElem?_getD, inside']
    exact ⟨t, t.part p, rfl, sound, .refl t, same.symm, rfl, (List.append_nil _).symm⟩
  | r :: chain, t, sound, inside, run, room, fits => by
    obtain ⟨here, later⟩ := consecutive_cons.mp run
    rw [List.length_cons] at room
    have whole := sound.whole.parts _ (StreamTopic.part_mem inside)
    have spare : (t.part p).next ≠ uint64Max := by omega
    have part : (partLink t p r).part p = (t.part p).link r := by
      rw [partLink_part inside, if_pos rfl]
    have next : ((t.part p).link r).next = (t.part p).next + 1 := bump_of_lt (by omega)
    obtain ⟨u, z, rest, soundU, frame, parts, base, chainZ⟩ := refill_chain name p chain
      (sound_partLink sound inside here spare (fits r List.mem_cons_self))
      (by rw [partLink_partitions]; exact inside) (by rw [part, next]; exact later)
      (by rw [part, next]; omega) (fun r' mem => fits r' (List.mem_cons_of_mem _ mem))
    refine ⟨u, z, ?_, soundU, (SameFrame.link t p r).trans frame, ?_, ?_, ?_⟩
    · rw [List.map_cons, replayEach_cons (replayTopic_append name inside here)]
      exact rest
    · rw [parts]
      exact List.set_set ..
    · rw [base, part]
      rfl
    · rw [chainZ, part, whole.link_chain, List.append_assoc]
      rfl

/-- Replaying the records of a partition into an empty one gives the partition. -/
theorem refill_part {t : StreamTopic} {p : Nat} {x : StreamPart} (sound : t.Sound)
    (inside : p < t.partitions) (empty : t.part p = .empty) (whole : x.Whole)
    (fits : ∀ r ∈ x.chain, RecordFits t.name r) (name : Bytes) :
    ∃ u, replayEach t (partRecords name p x) = some u ∧ u.Sound ∧ SameFrame t u ∧
      u.parts = t.parts.set p x := by
  have nextX := whole.next_eq
  have boundX := whole.bounded
  -- the partition refilled at the base of `x` is `x`
  have finish : ∀ {u : StreamTopic} {z : StreamPart}, u.Sound → u.parts = t.parts.set p z →
      z.base = x.base → z.chain = x.chain → z = x := by
    intro u z soundU parts base chain
    have mem : z ∈ u.parts := by
      rw [parts]
      exact List.mem_set inside z
    exact (soundU.whole.parts z mem).ext whole base chain
  unfold partRecords
  by_cases zero : x.base = 0
  · rw [if_pos zero, List.nil_append]
    have offsets := whole.offsets
    rw [zero] at offsets
    obtain ⟨u, z, run, soundU, frame, parts, base, chain⟩ := refill_chain name p x.chain sound inside
      (by rw [empty]; exact offsets)
      (by rw [empty]; change 0 + x.chain.length ≤ _; omega) fits
    rw [empty] at base chain
    have same := finish soundU parts (base.trans zero.symm) (by simpa [StreamPart.empty] using chain)
    exact ⟨u, run, soundU, frame, same ▸ parts⟩
  · have low : x.base ≤ uint64Max := by omega
    have width : u64 x.base = x.base := by
      simp only [KuttiDB.QueueStore.u64, uint64Max] at low ⊢
      omega
    have trimmed : replayTopic t (.trim name p x.base) = (trimPart t p x.base, true) := by
      simp only [replayTopic, width, if_neg (Nat.not_le.mpr inside)]
    have part : (trimPart t p x.base).part p = ⟨[], none, x.base, x.base, 0⟩ := by
      rw [trimPart_part inside, if_pos rfl, empty]
      simp [StreamPart.trim, StreamPart.empty, StreamPart.below, chainBytes]
    obtain ⟨u, z, run, soundU, frame, parts, base, chain⟩ := refill_chain name p x.chain
      (sound_trimPart sound inside low) (by rw [trimPart_partitions]; exact inside)
      (by rw [part]; exact whole.offsets) (by rw [part]; change x.base + _ ≤ _; omega) fits
    have parts' : u.parts = t.parts.set p z := by
      rw [parts]
      exact List.set_set ..
    rw [part] at base chain
    have same := finish soundU parts' base (by simpa using chain)
    refine ⟨u, ?_, soundU, (SameFrame.trim t p x.base).trans frame, same ▸ parts'⟩
    rw [if_neg zero, List.singleton_append, replayEach_cons trimmed]
    exact run

theorem refill_parts (name : Bytes) : ∀ (todo done : List StreamPart) {t : StreamTopic}, t.Sound →
    t.parts = done ++ List.replicate todo.length .empty → (∀ x ∈ todo, x.Whole) →
    (∀ x ∈ todo, ∀ r ∈ x.chain, RecordFits t.name r) →
    ∃ u, replayEach t ((todo.zipIdx done.length).flatMap (fun (x, p) => partRecords name p x))
        = some u ∧ u.Sound ∧ SameFrame t u ∧ u.parts = done ++ todo
  | [], done, t, sound, parts, _, _ => ⟨t, rfl, sound, .refl t, by simpa using parts⟩
  | x :: todo, done, t, sound, parts, whole, fits => by
    have inside : done.length < t.partitions := by
      simp [StreamTopic.partitions, parts]
    have empty : t.part done.length = .empty := by
      simp [StreamTopic.part, parts, List.getD_eq_getElem?_getD, List.replicate_succ]
    obtain ⟨u, run, soundU, frame, partsU⟩ := refill_part sound inside empty
      (whole x List.mem_cons_self) (fits x List.mem_cons_self) name
    have refilled : u.parts = (done ++ [x]) ++ List.replicate todo.length .empty := by
      rw [partsU, parts, List.length_cons, List.replicate_succ]
      simp
    obtain ⟨v, rest, soundV, frameV, partsV⟩ := refill_parts name todo (done ++ [x]) soundU refilled
      (fun y mem => whole y (List.mem_cons_of_mem _ mem))
      (fun y mem => frame.name ▸ fits y (List.mem_cons_of_mem _ mem))
    refine ⟨v, ?_, soundV, frame.trans frameV, by simpa using partsV⟩
    rw [List.zipIdx_cons, List.flatMap_cons, replayEach_append _ _ run]
    simpa using rest

/-! ## Groups -/

/-- What a group keeps in the log. -/
def StreamGroup.logged (g : StreamGroup) : StreamGroup := ⟨g.name, g.offsets, [], 0⟩

/-- The first commit record of a group creates it; each sets the offset of one partition. -/
theorem refill_offsets (name : Bytes) (g : StreamGroup) (others : List StreamGroup) :
    ∀ (todo done : List Nat) {t : StreamTopic}, done.length + todo.length = t.partitions →
      t.groups = ⟨g.name, done ++ List.replicate todo.length 0, [], 0⟩ :: others →
      replayEach t ((todo.zipIdx done.length).map (fun (offset, p) => .commit name g.name p offset))
        = some { t with groups := ⟨g.name, done ++ todo, [], 0⟩ :: others }
  | [], done, t, _, groups => by
    have same : { t with groups := ⟨g.name, done ++ [], [], 0⟩ :: others } = t := by
      cases t
      simpa using groups.symm
    rw [List.zipIdx_nil, List.map_nil, replayEach, same]
  | offset :: todo, done, t, count, groups => by
    have inside : ¬ done.length ≥ t.partitions := by
      rw [List.length_cons] at count
      omega
    have found : ensureGroup t g.name
        = (t, ⟨g.name, done ++ List.replicate (offset :: todo).length 0, [], 0⟩) := by
      simp [ensureGroup, findGroup, groups, lookup_cons_hit]
    have set : (done ++ List.replicate (todo.length + 1) 0).set done.length offset
        = (done ++ [offset]) ++ List.replicate todo.length 0 := by
      simp [List.replicate_succ]
    have here : replayTopic t (.commit name g.name done.length offset)
        = ({ t with groups := ⟨g.name, (done ++ [offset]) ++ List.replicate todo.length 0, [], 0⟩
              :: others }, true) := by
      rw [replayTopic, if_neg inside, found]
      simp only [setGroup, StreamGroup.commit, List.length_cons, set, groups]
      rw [updateFirst_cons_hit (by simp)]
    have rest := refill_offsets name g others todo (done ++ [offset])
      (t := { t with groups := ⟨g.name, (done ++ [offset]) ++ List.replicate todo.length 0, [], 0⟩
        :: others })
      (by
        change (done ++ [offset]).length + todo.length = t.partitions
        simp only [List.length_append, List.length_cons, List.length_nil] at count ⊢
        omega) rfl
    rw [List.zipIdx_cons, List.map_cons, replayEach_cons here]
    simpa using rest

theorem refill_group {t : StreamTopic} {g : StreamGroup} (name : Bytes)
    (absent : ∀ h ∈ t.groups, h.name ≠ g.name) (count : g.offsets.length = t.partitions)
    (some_ : 0 < t.partitions) :
    replayEach t (groupRecords name g) = some { t with groups := g.logged :: t.groups } := by
  cases offsets : g.offsets with
  | nil => simp [offsets] at count; omega
  | cons first rest =>
    have created : ensureGroup t g.name
        = ({ t with groups := ⟨g.name, List.replicate t.partitions 0, [], 0⟩ :: t.groups },
          ⟨g.name, List.replicate t.partitions 0, [], 0⟩) := by
      rw [ensureGroup, findGroup, (lookup_none _).mpr absent]
    have partitions : t.partitions = rest.length + 1 := by rw [← count, offsets, List.length_cons]
    have here : replayTopic t (.commit name g.name 0 first)
        = ({ t with groups := ⟨g.name, [first] ++ List.replicate rest.length 0, [], 0⟩ :: t.groups },
          true) := by
      rw [replayTopic, if_neg (Nat.not_le.mpr some_), created]
      simp only [setGroup, StreamGroup.commit, partitions, List.replicate_succ]
      rw [updateFirst_cons_hit (by simp)]
      rfl
    have later := refill_offsets name g t.groups rest [first]
      (t := { t with groups := ⟨g.name, [first] ++ List.replicate rest.length 0, [], 0⟩ :: t.groups })
      (by change 1 + rest.length = t.partitions; omega) rfl
    rw [groupRecords, offsets, List.zipIdx_cons, List.map_cons, replayEach_cons here]
    simpa [StreamGroup.logged, offsets] using later

theorem refill_groups (name : Bytes) : ∀ (groups : List StreamGroup) {t : StreamTopic},
    (groups.map StreamGroup.name).Nodup → (∀ g ∈ groups, ∀ h ∈ t.groups, h.name ≠ g.name) →
    (∀ g ∈ groups, g.offsets.length = t.partitions) → 0 < t.partitions →
    replayEach t (groups.flatMap (groupRecords name))
      = some { t with groups := (groups.map StreamGroup.logged).reverse ++ t.groups }
  | [], _, _, _, _, _ => rfl
  | g :: groups, t, distinct, absent, count, some_ => by
    obtain ⟨head, tail⟩ := List.nodup_cons.mp distinct
    have here := refill_group name (absent g List.mem_cons_self) (count g List.mem_cons_self) some_
    have rest := refill_groups name groups (t := { t with groups := g.logged :: t.groups }) tail
      (fun h mem k memK => by
        rcases List.mem_cons.mp memK with rfl | old
        · exact fun eq => head (List.mem_map.mpr ⟨h, mem, eq.symm⟩)
        · exact absent h (List.mem_cons_of_mem _ mem) k old)
      (fun h mem => count h (List.mem_cons_of_mem _ mem)) some_
    rw [List.flatMap_cons, replayEach_append _ _ here, rest]
    simp

/-! ## The whole file -/

/-- The topic replay builds from a compacted log: everything but the members and generations of the
groups, with the groups in reverse order. -/
def StreamTopic.rebuilt (t : StreamTopic) : StreamTopic :=
  { t with idPersisted := true, groups := (t.groups.map StreamGroup.logged).reverse }

/-- The records of a topic after its declaration. -/
def contentRecords (t : StreamTopic) : List LogRecord :=
  .identity t.name t.id :: (t.parts.zipIdx.flatMap (fun (x, p) => partRecords t.name p x)
    ++ (t.groups.flatMap (groupRecords t.name) ++ [.revision t.name t.revision]))

theorem topicRecords_eq (t : StreamTopic) :
    topicRecords t = .declare t.name t.partitions t.maxBytes t.maxAgeMs :: contentRecords t := by
  simp [topicRecords, contentRecords]

theorem contentRecords_fit {t : StreamTopic} (sound : t.Sound) :
    ∀ r ∈ contentRecords t, r.name = t.name ∧ r.len ≤ recordMax := by
  have short := sound.fit.named.2
  have small : t.name.length + 22 ≤ recordMax := by
    simp only [streamNameMax, recordMax] at short ⊢
    omega
  intro r mem
  simp only [contentRecords, List.mem_cons, List.mem_append, List.mem_flatMap, List.not_mem_nil,
    or_false] at mem
  rcases mem with rfl | ⟨⟨x, p⟩, part, inPart⟩ | ⟨g, memG, inGroup⟩ | rfl
  · exact ⟨rfl, by simp only [LogRecord.len]; omega⟩
  · have memX : x ∈ t.parts := List.fst_mem_of_mem_zipIdx part
    rcases List.mem_append.mp inPart with boundary | record
    · split at boundary
      · cases boundary
      · rw [List.mem_singleton] at boundary
        subst boundary
        exact ⟨rfl, by simp only [LogRecord.len]; omega⟩
    · obtain ⟨r', within, rfl⟩ := List.mem_map.mp record
      exact ⟨rfl, sound.fit.records x memX r' within⟩
  · obtain ⟨⟨offset, p⟩, -, rfl⟩ := List.mem_map.mp inGroup
    exact ⟨rfl, (sound.fit.groups g memG).name⟩
  · exact ⟨rfl, by simp only [LogRecord.len]; omega⟩

/-- Replaying the content of a topic into the topic its declaration made. -/
theorem refill_topic {t : StreamTopic} (sound : t.Sound) (counted : t.revision ≠ 0)
    (fresh : StreamId) :
    replayEach (newTopic t.name t.partitions t.maxBytes t.maxAgeMs fresh) (contentRecords t)
      = some t.rebuilt := by
  have soundNew : { newTopic t.name t.partitions t.maxBytes t.maxAgeMs fresh with
      id := t.id, idPersisted := true }.Sound :=
    (sound_newTopic t.maxBytes t.maxAgeMs fresh sound.fit.named sound.fit.divided).congr rfl rfl rfl rfl rfl
  obtain ⟨u, run, soundU, frame, parts⟩ := refill_parts t.name t.parts [] soundNew rfl
    sound.whole.parts sound.fit.records
  have count : u.partitions = t.partitions := by simp [StreamTopic.partitions, parts]
  have groups : u.groups = [] := frame.groups
  have refilled := refill_groups t.name t.groups (t := u) sound.fit.distinct
    (by simp [groups]) (fun g mem => count ▸ (sound.fit.groups g mem).offsets)
    (count ▸ sound.fit.divided.1)
  have identified : replayTopic (newTopic t.name t.partitions t.maxBytes t.maxAgeMs fresh)
      (.identity t.name t.id) = ({ newTopic t.name t.partitions t.maxBytes t.maxAgeMs fresh with
        id := t.id, idPersisted := true }, true) := rfl
  rw [contentRecords, replayEach_cons identified]
  refine (replayEach_append _ _ run).trans ((replayEach_append _ _ refilled).trans ?_)
  rw [replayEach, replayTopic, if_neg counted]
  -- the counters are determined by the partitions
  have bytes : u.bytes = t.bytes := by rw [soundU.whole.bytes_eq, sound.whole.bytes_eq, parts]; rfl
  have records : u.records = t.records := by
    rw [soundU.whole.records_eq, sound.whole.records_eq, parts]
    rfl
  obtain ⟨name, maxBytes, maxAgeMs, id, idPersisted, -⟩ := frame
  cases u
  simp_all [replayEach, StreamTopic.rebuilt, newTopic]

theorem replays_topic (fresh : Bytes → StreamId) {t : StreamTopic} {rest : List StreamTopic}
    (sound : t.Sound) (counted : t.revision ≠ 0) (absent : ∀ u ∈ rest, u.name ≠ t.name) :
    Replays fresh rest (topicRecords t) (t.rebuilt :: rest) := by
  have limits := sound.fit.named
  have divided := sound.fit.divided
  have added : addTopic rest t.name t.partitions t.maxBytes t.maxAgeMs (fresh t.name)
      = some (newTopic t.name t.partitions t.maxBytes t.maxAgeMs (fresh t.name) :: rest) := by
    have within : ¬ (t.name = [] ∨ t.name.length > streamNameMax ∨ t.partitions = 0
        ∨ t.partitions > streamPartitionsMax) := by
      simp only [not_or]
      exact ⟨limits.1, by omega, by omega, by omega⟩
    rw [addTopic, if_neg within]
    simp only [findTopic, (lookup_none _).mpr absent]
  rw [topicRecords_eq]
  refine Replays.cons ?_ (b := newTopic t.name t.partitions t.maxBytes t.maxAgeMs (fresh t.name)
    :: rest) (by simp only [replay, added]) ?_
  · have short := limits.2
    simp only [LogRecord.len, streamNameMax, recordMax] at short ⊢
    omega
  · have run := refill_topic sound counted (fresh t.name)
    have found : findTopic (newTopic t.name t.partitions t.maxBytes t.maxAgeMs (fresh t.name) :: rest)
        t.name = some _ := lookup_cons_hit _ rfl rest
    have refilled := replays_found fresh (contentRecords t)
      (t := newTopic t.name t.partitions t.maxBytes t.maxAgeMs (fresh t.name)) found limits.2
      (contentRecords_fit sound) run
    have first : setTopic (newTopic t.name t.partitions t.maxBytes t.maxAgeMs (fresh t.name) :: rest)
        t.rebuilt = t.rebuilt :: rest := by
      rw [setTopic, updateFirst_cons_hit (by simp [newTopic, StreamTopic.rebuilt])]
    rwa [first] at refilled

/-- A sound store with revisions other than 0 is rebuilt from its compacted log. -/
theorem replays_compacted (fresh : Bytes → StreamId) : ∀ (topics rest : List StreamTopic),
    SoundTopics topics → (∀ t ∈ topics, t.revision ≠ 0) →
    (∀ t ∈ topics, ∀ u ∈ rest, u.name ≠ t.name) →
    Replays fresh rest (compactRecords topics) ((topics.map StreamTopic.rebuilt).reverse ++ rest)
  | [], rest, _, _, _ => Replays.nil
  | t :: topics, rest, sound, counted, absent => by
    obtain ⟨head, tail⟩ := List.nodup_cons.mp sound.distinct
    have first := replays_topic fresh (sound.each t List.mem_cons_self)
      (counted t List.mem_cons_self) (absent t List.mem_cons_self)
    have later := replays_compacted fresh topics (t.rebuilt :: rest)
      ⟨tail, fun u mem => sound.each u (List.mem_cons_of_mem _ mem)⟩
      (fun u mem => counted u (List.mem_cons_of_mem _ mem))
      (fun u mem v memV => by
        rcases List.mem_cons.mp memV with rfl | old
        · exact fun eq => head (List.mem_map.mpr ⟨u, mem, eq.symm⟩)
        · exact absent u (List.mem_cons_of_mem _ mem) v old)
    have whole := first.append later
    rwa [List.map_cons, List.reverse_cons, List.append_assoc, List.singleton_append]

/-! ## Compaction of reachable stores -/

theorem replay_revision_zero (fresh : Bytes → StreamId) (topics : List StreamTopic) (name : Bytes) :
    (replay fresh topics (.revision name 0)).2 = false := by
  simp only [replay]
  split
  · rfl
  · split <;> simp [replayTopic]

theorem Replays.revision_ne_zero {fresh : Bytes → StreamId} {name : Bytes} {revision : Nat} :
    ∀ {records : List LogRecord} {a b : List StreamTopic}, Replays fresh a records b →
      .revision name revision ∈ records → revision ≠ 0
  | r :: records, a, b, run, mem => by
    obtain ⟨-, mid, here, rest⟩ := run.cons_inv
    rcases List.mem_cons.mp mem with rfl | later
    · rintro rfl
      have refused := replay_revision_zero fresh a name
      rw [here] at refused
      cases refused
    · exact rest.revision_ne_zero later

theorem revision_mem_compactRecords {topics : List StreamTopic} {t : StreamTopic} (mem : t ∈ topics) :
    .revision t.name t.revision ∈ compactRecords topics :=
  List.mem_flatMap.mpr ⟨t, mem, by simp [topicRecords]⟩

/-- In every state of a run in which no record is appended at offset `2 ^ 64 - 1`, the compacted log
rebuilds the store exactly when no revision has wrapped to 0. -/
theorem compaction_rebuilds_iff (steps : List Step) (fits : fitSteps .fresh steps = true)
    (fresh : Bytes → StreamId) :
    Replays fresh [] (compactRecords (runSteps .fresh steps).topics)
        ((runSteps .fresh steps).topics.map StreamTopic.rebuilt).reverse ↔
      ∀ t ∈ (runSteps .fresh steps).topics, t.revision ≠ 0 := by
  have sound := sound_steps steps SoundTopics.nil fits
  constructor
  · intro rebuilds t mem
    exact rebuilds.revision_ne_zero (revision_mem_compactRecords mem)
  · intro counted
    simpa using replays_compacted fresh _ [] sound counted (by simp)

/-- A topic with two partitions, one of them emptied by retention, and a group. -/
def compactedSteps : List Step :=
  sampleSteps ++ [.call (.commitBatchForOwner .notDue 0 [116] [103] 0 [(0, 2), (1, 0)])]

theorem compactedSteps_rebuild :
    (∀ t ∈ (runSteps .fresh compactedSteps).topics, t.revision ≠ 0) ∧
      Replays (fun _ => 0) [] (compactRecords (runSteps .fresh compactedSteps).topics)
        ((runSteps .fresh compactedSteps).topics.map StreamTopic.rebuilt).reverse :=
  ⟨by decide +kernel,
    (compaction_rebuilds_iff compactedSteps (by decide +kernel) _).mpr (by decide +kernel)⟩

/-- A log that sets the last revision and appends a record. -/
def lastRevisionFile : List LogRecord :=
  [.declare [116] 1 0 0, .identity [116] 7, .revision [116] uint64Max,
   .append [116] ⟨0, ⟨0, 10, [], [1]⟩⟩]

/-- The store opened on it compacts to a log that is refused at its last record. -/
theorem last_revision_not_rebuilt :
    ¬ Replays (fun _ => 0) []
        (compactRecords (runSteps .fresh [.openFile (fun _ => 0) 10 lastRevisionFile]).topics)
        ((runSteps .fresh [.openFile (fun _ => 0) 10 lastRevisionFile]).topics.map
          StreamTopic.rebuilt).reverse := by
  intro rebuilds
  have mem : LogRecord.revision [116] 0 ∈
      compactRecords (runSteps .fresh [.openFile (fun _ => 0) 10 lastRevisionFile]).topics := by
    decide +kernel
  exact rebuilds.revision_ne_zero mem rfl

end KuttiDB.Stream
