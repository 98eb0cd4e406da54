/- # KuttiDB.Stream.Mirror -- one topic in memory and the same topic as its log rebuilds it

`SameTopic exact t u` relates a topic of the store to the one replay makes of its records: equal
identity, settings and group offsets, and partitions with `Lag`. A partition may lag behind: retention
at opening is not logged, so replay may still hold records that memory has dropped, and trimming the
replayed partition at memory's base gives memory's. With `exact` nothing lags.

Each lemma takes a change of the topic together with the records it logs.
-/
import KuttiDB.Stream.Compaction

namespace KuttiDB.Stream

open KuttiDB.QueueStore (Bytes u64)
open KuttiDB.Theory

set_option autoImplicit false

/-! ## Partitions -/

structure Lag (exact : Prop) (x y : StreamPart) : Prop where
  trimmed : x = y.trim x.base
  within : x.base ≤ y.next
  same : exact → x = y

namespace Lag

variable {exact : Prop} {x y : StreamPart}

theorem next_eq (lag : Lag exact x y) : x.next = y.next := by
  rw [lag.trimmed]
  exact Nat.max_eq_left lag.within

theorem refl (whole : x.Whole) : Lag exact x x := by
  have next := whole.next_eq
  exact ⟨(whole.trim_of_le (Nat.le_refl _)).symm, by omega, fun _ => rfl⟩

theorem link (lag : Lag exact x y) (whole : y.Whole) {r : StreamRecord} (here : r.offset = y.next)
    (room : y.next ≠ uint64Max) : Lag exact (x.link r) (y.link r) := by
  refine ⟨?_, ?_, fun holds => by rw [lag.same holds]⟩
  · change x.link r = (y.link r).trim x.base
    rw [whole.trim_link here room lag.within, ← lag.trimmed]
  · have next : (y.link r).next = y.next + 1 :=
      bump_of_lt (Nat.lt_of_le_of_ne whole.bounded room)
    have within := lag.within
    change x.base ≤ _
    omega

theorem trim (lag : Lag exact x y) (wholeX : x.Whole) (whole : y.Whole) {b : Nat}
    (within : b ≤ y.next) : Lag exact (x.trim b) (y.trim b) := by
  have bound := Nat.le_trans within whole.bounded
  have boundX := Nat.le_trans lag.within whole.bounded
  refine ⟨?_, ?_, fun holds => by rw [lag.same holds]⟩
  · change x.trim b = (y.trim b).trim (max x.base b)
    by_cases low : b ≤ x.base
    · rw [wholeX.trim_of_le low, Nat.max_eq_left low, whole.trim_trim low boundX, ← lag.trimmed]
    · have high : x.base ≤ b := by omega
      rw [Nat.max_eq_right high, whole.trim_trim (Nat.le_refl b) bound]
      conv => lhs; rw [lag.trimmed]
      exact whole.trim_trim high bound
  · have withinX := lag.within
    change max x.base b ≤ max y.next b
    omega

/-- Retention that is not logged. -/
theorem of_trim (whole : y.Whole) {b : Nat} (within : b ≤ y.next) :
    Lag False (y.trim b) y := by
  have self : Lag False y y := refl whole
  have lag := self.trim whole whole within
  have next := whole.next_eq
  have bound := whole.bounded
  refine ⟨?_, ?_, False.elim⟩
  · have merged : (y.trim b).trim (y.trim b).base = y.trim (y.trim b).base :=
      whole.trim_trim (Nat.le_max_right ..) (by change max y.base b ≤ _; omega)
    rw [← merged]
    exact lag.trimmed
  · change max y.base b ≤ y.next
    omega

end Lag

/-! ## The retention pass -/

/-- The partition after the pass: trimmed at its boundary, if it was touched. -/
def trimmedAt (boundary : Option (Nat × Nat)) (x : StreamPart) : StreamPart :=
  match boundary with
  | none => x
  | some (_, b) => x.trim b

/-- What the retention pass did, partition by partition. -/
structure Passed (t u : StreamTopic) (touched : List (Nat × Nat)) : Prop where
  sound : u.Sound
  frame : SameFrame t u
  count : u.partitions = t.partitions
  distinct : (touched.map Prod.fst).Nodup
  inside : ∀ x ∈ touched, x.1 < t.partitions ∧ x.2 ≤ (t.part x.1).next
  parts : ∀ q, u.part q = trimmedAt (lookup Prod.fst touched q) (t.part q)

theorem touch_distinct {touched : List (Nat × Nat)} (distinct : (touched.map Prod.fst).Nodup)
    (p b : Nat) : ((touch touched p b).map Prod.fst).Nodup := by
  cases seen : lookup Prod.fst touched p with
  | some old =>
    rw [touch_seen seen, map_key_replace Prod.fst (k := p) (y := (p, b)) rfl]
    exact distinct
  | none =>
    have new := (lookup_none Prod.fst).mp seen
    rw [touch_new seen, List.map_append, List.map_singleton, List.nodup_append]
    refine ⟨distinct, List.nodup_singleton _, ?_⟩
    intro q mem r memR
    obtain ⟨x, memX, rfl⟩ := List.mem_map.mp mem
    rw [List.mem_singleton.mp memR]
    exact new x memX

theorem mem_touch {touched : List (Nat × Nat)} {p b : Nat} {x : Nat × Nat}
    (mem : x ∈ touch touched p b) : x = (p, b) ∨ x ∈ touched := by
  cases seen : lookup Prod.fst touched p with
  | some old =>
    rw [touch_seen seen] at mem
    rcases mem_updateFirst mem with later | ⟨_, _, _, eq⟩
    · exact .inr later
    · exact .inl eq
  | none =>
    rw [touch_new seen, List.mem_append, List.mem_singleton] at mem
    exact mem.symm

/-- Trimming a partition again replaces its boundary by the new one. -/
theorem trimmedAt_trim {touched : List (Nat × Nat)} {x : StreamPart} (whole : x.Whole) {q b : Nat}
    (order : ∀ y, lookup Prod.fst touched q = some y → y.2 ≤ b) (bound : b ≤ uint64Max) :
    (trimmedAt (lookup Prod.fst touched q) x).trim b = x.trim b := by
  cases seen : lookup Prod.fst touched q with
  | none => rfl
  | some y => exact whole.trim_trim (order y seen) bound

theorem passed_enforce (now : Nat) {t : StreamTopic} (sound : t.Sound) :
    Passed t (enforce now t).1 (enforce now t).2 := by
  refine enforce_rule ?_ now
    ⟨sound, .refl t, rfl, List.nodup_nil, by simp, fun q => rfl⟩
  intro u touched p r passed inside head
  obtain ⟨eq, within, bound⟩ := Sound.head_bump passed.sound inside head
  rw [eq]
  have insideT : p < t.partitions := passed.count ▸ inside
  have wholeT := sound.whole.parts _ (StreamTopic.part_mem insideT)
  -- a touched partition starts at its boundary
  have order : ∀ y, lookup Prod.fst touched p = some y → y.2 ≤ (u.part p).base + 1 := by
    intro y seen
    have part := passed.parts p
    rw [seen] at part
    rw [part]
    exact Nat.le_succ_of_le (Nat.le_max_right ..)
  have next : (u.part p).next = (t.part p).next := by
    have part := passed.parts p
    cases seen : lookup Prod.fst touched p with
    | none =>
      rw [seen] at part
      rw [part]
      rfl
    | some y =>
      obtain ⟨mem, named⟩ := lookup_some Prod.fst seen
      have limit := (passed.inside y mem).2
      rw [named] at limit
      rw [seen] at part
      rw [part]
      exact Nat.max_eq_left limit
  refine ⟨Nat.succ_ne_zero _, sound_trimPart passed.sound inside bound,
    passed.frame.trans (SameFrame.trim u p _), by rw [trimPart_partitions, passed.count],
    touch_distinct passed.distinct p _, ?_, ?_⟩
  · intro x mem
    rcases mem_touch mem with rfl | old
    · exact ⟨insideT, next ▸ within⟩
    · exact passed.inside x old
  · intro q
    rw [trimPart_part inside, lookup_touch]
    by_cases same : q = p
    · subst same
      rw [if_pos rfl, if_pos rfl, passed.parts q]
      have whole := trimmedAt_trim wholeT order bound
      rwa [passed.parts q] at whole
    · rw [if_neg same, if_neg same]
      exact passed.parts q

/-- Replaying one boundary for each touched partition. -/
theorem replayEach_trims (name : Bytes) : ∀ (touched : List (Nat × Nat)) {t : StreamTopic}, t.Sound →
    (touched.map Prod.fst).Nodup → (∀ x ∈ touched, x.1 < t.partitions ∧ x.2 ≤ uint64Max) →
    ∃ u, replayEach t (trimRecords name touched) = some u ∧ u.Sound ∧ SameFrame t u ∧
      u.partitions = t.partitions ∧
      ∀ q, u.part q = trimmedAt (lookup Prod.fst touched q) (t.part q)
  | [], t, sound, _, _ => ⟨t, rfl, sound, .refl t, rfl, fun _ => rfl⟩
  | (p, b) :: touched, t, sound, distinct, inside => by
    obtain ⟨head, tail⟩ := List.nodup_cons.mp distinct
    obtain ⟨insideP, bound⟩ := inside (p, b) List.mem_cons_self
    have width : u64 b = b := by
      simp only [KuttiDB.QueueStore.u64, uint64Max] at bound ⊢
      omega
    have here : replayTopic t (.trim name p b) = (trimPart t p b, true) := by
      simp only [replayTopic, width, if_neg (Nat.not_le.mpr insideP)]
    obtain ⟨u, run, soundU, frame, count, parts⟩ := replayEach_trims name touched
      (sound_trimPart sound insideP bound) tail
      (fun x mem => by
        rw [trimPart_partitions]
        exact inside x (List.mem_cons_of_mem _ mem))
    refine ⟨u, ?_, soundU, (SameFrame.trim t p b).trans frame, by rw [count, trimPart_partitions], ?_⟩
    · rw [trimRecords, List.map_cons, replayEach_cons here]
      exact run
    · intro q
      rw [parts q, trimPart_part insideP]
      by_cases same : q = p
      · subst same
        have unseen : lookup Prod.fst touched q = none := by
          refine (lookup_none Prod.fst).mpr fun x mem eq => head ?_
          exact List.mem_map.mpr ⟨x, mem, eq⟩
        rw [unseen, if_pos rfl, lookup_cons_hit Prod.fst rfl]
        rfl
      · rw [if_neg same, lookup_cons_miss Prod.fst (Ne.symm same)]

/-! ## Group offsets -/

/-- The committed offset of a group; a group that does not exist is at 0 everywhere. -/
def groupOffset (t : StreamTopic) (group : Bytes) (p : Nat) : Nat :=
  match findGroup t group with
  | none => 0
  | some g => g.offsets.getD p 0

theorem groupOffset_congr {t u : StreamTopic} (groups : u.groups = t.groups) (group : Bytes) (p : Nat) :
    groupOffset u group p = groupOffset t group p := by
  rw [groupOffset, groupOffset, findGroup, findGroup, groups]

theorem ensureGroup_found (t : StreamTopic) (name : Bytes) :
    findGroup (ensureGroup t name).1 name = some (ensureGroup t name).2 := by
  unfold ensureGroup
  split
  · assumption
  · exact lookup_cons_hit _ rfl _

/-- Creating a group changes no offset. -/
theorem groupOffset_ensureGroup (t : StreamTopic) (name group : Bytes) (p : Nat) :
    groupOffset (ensureGroup t name).1 group p = groupOffset t group p := by
  unfold ensureGroup
  split
  · rfl
  · rename_i absent
    by_cases same : name = group
    · subst same
      have created : findGroup { t with groups :=
          ⟨name, List.replicate t.partitions 0, [], 0⟩ :: t.groups } name
          = some ⟨name, List.replicate t.partitions 0, [], 0⟩ := lookup_cons_hit _ rfl _
      simp only [groupOffset, created, absent]
      rw [List.getD_eq_getElem?_getD, List.getElem?_replicate]
      split <;> rfl
    · simp only [groupOffset, findGroup]
      rw [lookup_cons_miss _ (by exact same)]

theorem findGroup_setGroup_same {t : StreamTopic} {g h : StreamGroup}
    (found : findGroup t g.name = some g) (name : h.name = g.name) :
    findGroup (setGroup t h) g.name = some h := by
  rw [findGroup, setGroup, name]
  exact lookup_replace_same _ name found

theorem findGroup_setGroup_other (t : StreamTopic) {h : StreamGroup} {group : Bytes}
    (other : group ≠ h.name) : findGroup (setGroup t h) group = findGroup t group :=
  lookup_replace_other _ other rfl t.groups

theorem ensureGroup_frame (t : StreamTopic) (name : Bytes) :
    (ensureGroup t name).1.maxBytes = t.maxBytes ∧ (ensureGroup t name).1.maxAgeMs = t.maxAgeMs ∧
      (ensureGroup t name).1.id = t.id ∧ (ensureGroup t name).1.idPersisted = t.idPersisted := by
  unfold ensureGroup
  split <;> exact ⟨rfl, rfl, rfl, rfl⟩

theorem setGroup_setGroup (t : StreamTopic) {g h : StreamGroup} (name : h.name = g.name) :
    setGroup (setGroup t g) h = setGroup t h := by
  simp only [setGroup, name]
  rw [updateFirst_updateFirst _ (fun _ _ => by simp)]

theorem setGroup_found {t : StreamTopic} {g : StreamGroup} (found : findGroup t g.name = some g) :
    setGroup t g = t := by
  have same : updateFirst (fun h => h.name == g.name) (fun _ => g) t.groups = t.groups :=
    replace_found StreamGroup.name found
  rw [setGroup, same]

theorem commitAll_name (commits : List (Nat × Nat)) (g : StreamGroup) :
    (g.commitAll commits).name = g.name := by
  induction commits generalizing g with
  | nil => rfl
  | cons c rest ih => exact ih (g.commit c.1 c.2)

theorem commitAll_length (commits : List (Nat × Nat)) (g : StreamGroup) :
    (g.commitAll commits).offsets.length = g.offsets.length := by
  induction commits generalizing g with
  | nil => rfl
  | cons c rest ih => exact (ih (g.commit c.1 c.2)).trans (List.length_set ..)

/-- A group replaced by one with the same offsets. -/
theorem groupOffset_setGroup {t : StreamTopic} {g h : StreamGroup}
    (found : findGroup t g.name = some g) (name : h.name = g.name) (offsets : h.offsets = g.offsets)
    (group : Bytes) (p : Nat) : groupOffset (setGroup t h) group p = groupOffset t group p := by
  by_cases same : group = g.name
  · subst same
    simp only [groupOffset, findGroup_setGroup_same found name, found, offsets]
  · simp only [groupOffset, findGroup_setGroup_other t (by rw [name]; exact same)]

theorem groupOffset_commit {t : StreamTopic} {g : StreamGroup} (found : findGroup t g.name = some g)
    {p : Nat} (inside : p < g.offsets.length) (offset : Nat) (group : Bytes) (q : Nat) :
    groupOffset (setGroup t (g.commit p offset)) group q
      = if group = g.name ∧ q = p then offset else groupOffset t group q := by
  by_cases same : group = g.name
  · subst same
    have set : findGroup (setGroup t (g.commit p offset)) g.name = some (g.commit p offset) :=
      findGroup_setGroup_same found rfl
    simp only [groupOffset, set, found, true_and]
    simp only [StreamGroup.commit]
    by_cases here : q = p
    · subst here
      simp [List.getD_eq_getElem?_getD, inside]
    · simp [List.getD_eq_getElem?_getD, here, List.getElem?_set_ne (Ne.symm here)]
  · have other : findGroup (setGroup t (g.commit p offset)) group = findGroup t group :=
      findGroup_setGroup_other t same
    simp only [groupOffset, other, same, false_and, if_false]

/-! ## Topics -/

structure SameTopic (exact : Prop) (t u : StreamTopic) : Prop where
  name : u.name = t.name
  maxBytes : u.maxBytes = t.maxBytes
  maxAgeMs : u.maxAgeMs = t.maxAgeMs
  id : u.id = t.id
  persisted : u.idPersisted = true
  count : u.partitions = t.partitions
  parts : ∀ p < t.partitions, Lag exact (t.part p) (u.part p)
  offsets : ∀ group p, groupOffset t group p = groupOffset u group p

/-- Mirrors whose partitions were both trimmed. -/
theorem SameTopic.trimmed {exact : Prop} {t t' u u' : StreamTopic} (mirror : SameTopic exact t u)
    (frameT : SameFrame t t') (frameU : SameFrame u u') (count : u'.partitions = t'.partitions)
    (parts : ∀ p < t'.partitions, Lag exact (t'.part p) (u'.part p)) : SameTopic exact t' u' := by
  refine ⟨?_, ?_, ?_, ?_, ?_, count, parts, fun group p => ?_⟩
  · rw [frameU.name, frameT.name, mirror.name]
  · rw [frameU.maxBytes, frameT.maxBytes, mirror.maxBytes]
  · rw [frameU.maxAgeMs, frameT.maxAgeMs, mirror.maxAgeMs]
  · rw [frameU.id, frameT.id, mirror.id]
  · rw [frameU.idPersisted, mirror.persisted]
  · rw [groupOffset_congr frameT.groups, groupOffset_congr frameU.groups, mirror.offsets]

theorem trim_len_le {t : StreamTopic} (sound : t.Sound) (p b : Nat) :
    (LogRecord.trim t.name p b).len ≤ recordMax := by
  have short := sound.fit.named.2
  simp only [LogRecord.len, streamNameMax, recordMax] at short ⊢
  omega

theorem replayEach_appends (name : Bytes) : ∀ (items : List BatchItem) {t u : StreamTopic},
    replayEach t (items.map (fun i => .append name i)) = some u → appendItems t items = (u, true)
  | [], _, _, run => by
    cases run
    rfl
  | item :: rest, t, u, run => by
    rw [List.map_cons, replayEach, replayTopic] at run
    simp only [appendItems] at run ⊢
    cases added : appendMemory t item.part item.record with
    | none => simp [added] at run
    | some v =>
      rw [added] at run
      exact replayEach_appends name rest run

/-- The records replay finds for a change from `t` to `t'`: whatever mirrors `t` is led by them to
something that mirrors `t'`. -/
structure Follows (exact : Prop) (t t' : StreamTopic) (records : List LogRecord) : Prop where
  sound : t'.Sound
  name : t'.name = t.name
  fits : ∀ r ∈ records, r.name = t.name ∧ r.len ≤ recordMax
  replays : ∀ u, u.Sound → SameTopic exact t u →
    ∃ u', replayEach u records = some u' ∧ u'.Sound ∧ SameTopic exact t' u'

namespace Follows

variable {exact : Prop} {t t' t'' : StreamTopic} {xs ys : List LogRecord}

theorem trans (first : Follows exact t t' xs) (second : Follows exact t' t'' ys) :
    Follows exact t t'' (xs ++ ys) := by
  refine ⟨second.sound, second.name.trans first.name, ?_, fun u soundU mirror => ?_⟩
  · intro r mem
    rcases List.mem_append.mp mem with early | late
    · exact first.fits r early
    · exact first.name ▸ second.fits r late
  · obtain ⟨v, runV, soundV, mirrorV⟩ := first.replays u soundU mirror
    obtain ⟨w, runW, soundW, mirrorW⟩ := second.replays v soundV mirrorV
    exact ⟨w, (replayEach_append _ _ runV).trans runW, soundW, mirrorW⟩

theorem rfl_ (sound : t.Sound) : Follows exact t t [] :=
  ⟨sound, rfl, by simp, fun u soundU mirror => ⟨u, rfl, soundU, mirror⟩⟩

/-- A change of groups that keeps every offset needs no record. -/
theorem ofGroups (sound : t'.Sound) (name : t'.name = t.name) (maxBytes : t'.maxBytes = t.maxBytes)
    (maxAgeMs : t'.maxAgeMs = t.maxAgeMs) (id : t'.id = t.id) (parts : t'.parts = t.parts)
    (offsets : ∀ group p, groupOffset t' group p = groupOffset t group p) :
    Follows exact t t' [] := by
  have count : t'.partitions = t.partitions := by simp [StreamTopic.partitions, parts]
  refine ⟨sound, name, by simp, fun u soundU mirror => ⟨u, rfl, soundU, ?_⟩⟩
  refine ⟨mirror.name.trans name.symm, mirror.maxBytes.trans maxBytes.symm,
    mirror.maxAgeMs.trans maxAgeMs.symm, mirror.id.trans id.symm, mirror.persisted,
    mirror.count.trans count.symm, fun p inside => ?_, fun group p => ?_⟩
  · have same : t'.part p = t.part p := by rw [StreamTopic.part, StreamTopic.part, parts]
    rw [same]
    exact mirror.parts p (count ▸ inside)
  · rw [offsets, mirror.offsets]

theorem link (sound : t.Sound) {p : Nat} {r : StreamRecord} (inside : p < t.partitions)
    (here : r.offset = (t.part p).next) (room : (t.part p).next ≠ uint64Max)
    (fits : RecordFits t.name r) :
    Follows exact t (partLink t p r) [.append t.name ⟨p, r⟩] := by
  refine ⟨sound_partLink sound inside here room fits, rfl, ?_, fun u soundU mirror => ?_⟩
  · intro r' mem
    cases List.mem_singleton.mp mem
    exact ⟨rfl, fits⟩
  · have insideU : p < u.partitions := mirror.count ▸ inside
    have lag := mirror.parts p inside
    have hereU : r.offset = (u.part p).next := here.trans lag.next_eq
    have roomU : (u.part p).next ≠ uint64Max := lag.next_eq ▸ room
    have wholeU := soundU.whole.parts _ (StreamTopic.part_mem insideU)
    refine ⟨partLink u p r, ?_, sound_partLink soundU insideU hereU roomU (mirror.name ▸ fits), ?_⟩
    · rw [replayEach_cons (replayTopic_append t.name insideU hereU)]
      rfl
    · refine ⟨mirror.name, mirror.maxBytes, mirror.maxAgeMs, mirror.id, mirror.persisted,
        by simpa using mirror.count, fun q insideQ => ?_, mirror.offsets⟩
      rw [partLink_partitions] at insideQ
      rw [partLink_part inside, partLink_part insideU]
      by_cases same : q = p
      · rw [if_pos same, if_pos same]
        exact lag.link wholeU hereU roomU
      · rw [if_neg same, if_neg same]
        exact mirror.parts q insideQ

theorem links (items : List BatchItem) : ∀ {t : StreamTopic}, t.Sound →
    appendItems t items = (linkItems t items, true) → (∀ i ∈ items, i.record.offset ≠ uint64Max) →
    (∀ i ∈ items, RecordFits t.name i.record) →
    Follows exact t (linkItems t items) (items.map (fun i => .append t.name i)) := by
  induction items with
  | nil => exact fun sound _ _ _ => rfl_ sound
  | cons item rest ih =>
    intro t sound accepted room fits
    rw [appendItems] at accepted
    cases added : appendMemory t item.part item.record with
    | none => simp [added] at accepted
    | some u =>
      rw [added] at accepted
      unfold appendMemory at added
      split at added
      · cases added
      · rename_i checks
        simp only [not_or, not_le, not_not] at checks
        cases added
        have one : Follows exact t _ _ := link sound checks.1 checks.2
          (checks.2 ▸ room item List.mem_cons_self) (fits item List.mem_cons_self)
        exact one.trans (ih one.sound accepted (fun i mem => room i (List.mem_cons_of_mem _ mem))
          (fun i mem => fits i (List.mem_cons_of_mem _ mem)))

/-- A batch is replayed as its items one after the other. -/
theorem batch (sound : t.Sound) {items : List BatchItem}
    (accepted : appendItems t items = (linkItems t items, true))
    (room : ∀ i ∈ items, i.record.offset ≠ uint64Max) (some_ : items ≠ [])
    (limit : items.length ≤ streamFetchMax)
    (len : (LogRecord.appendBatch t.name items).len ≤ recordMax) :
    Follows exact t (linkItems t items) [.appendBatch t.name items] := by
  have each : Follows exact t _ _ :=
    links items sound accepted room (fun i mem => batch_item_fits mem len)
  refine ⟨each.sound, each.name, ?_, fun u soundU mirror => ?_⟩
  · intro r mem
    cases List.mem_singleton.mp mem
    exact ⟨rfl, len⟩
  · obtain ⟨u', run, soundU', mirror'⟩ := each.replays u soundU mirror
    have whole : appendItems u items = (u', true) := replayEach_appends t.name items run
    refine ⟨u', ?_, soundU', mirror'⟩
    rw [replayEach, replayTopic, if_neg (by simp [some_, Nat.not_lt.mpr limit]), whole]
    rfl

theorem trim (sound : t.Sound) {p b : Nat} (inside : p < t.partitions)
    (within : b ≤ (t.part p).next) : Follows exact t (trimPart t p b) [.trim t.name p b] := by
  have wholeT := sound.whole.parts _ (StreamTopic.part_mem inside)
  have bound := Nat.le_trans within wholeT.bounded
  refine ⟨sound_trimPart sound inside bound, rfl, ?_, fun u soundU mirror => ?_⟩
  · intro r mem
    cases List.mem_singleton.mp mem
    exact ⟨rfl, trim_len_le sound p b⟩
  · obtain ⟨u', run, soundU', frame, count, parts⟩ := replayEach_trims t.name [(p, b)] soundU
      (by simp) (by simpa using ⟨mirror.count ▸ inside, bound⟩)
    refine ⟨u', run, soundU',
      mirror.trimmed (SameFrame.trim t p b) frame ?_ fun q insideQ => ?_⟩
    · rw [count, mirror.count, trimPart_partitions]
    · rw [trimPart_partitions] at insideQ
      have lag := mirror.parts q insideQ
      have wholeU := soundU.whole.parts _ (StreamTopic.part_mem (mirror.count.symm ▸ insideQ))
      rw [parts q, trimPart_part inside]
      by_cases same : q = p
      · subst same
        rw [if_pos rfl, lookup_cons_hit Prod.fst rfl]
        exact lag.trim wholeT wholeU (lag.next_eq ▸ within)
      · rw [if_neg same, lookup_cons_miss Prod.fst (Ne.symm same)]
        exact lag

/-- The retention pass, with the one boundary per partition it logs. -/
theorem enforce (sound : t.Sound) (now : Nat) :
    Follows exact t (enforce now t).1 (trimRecords t.name (Stream.enforce now t).2) := by
  have passed := passed_enforce now sound
  refine ⟨passed.sound, passed.frame.name, ?_, fun u soundU mirror => ?_⟩
  · intro r mem
    obtain ⟨⟨p, b⟩, -, rfl⟩ := List.mem_map.mp mem
    exact ⟨rfl, trim_len_le sound p b⟩
  · have bounds : ∀ x ∈ (Stream.enforce now t).2, x.1 < u.partitions ∧ x.2 ≤ uint64Max := by
      intro x mem
      obtain ⟨inside, within⟩ := passed.inside x mem
      have wholeT := sound.whole.parts _ (StreamTopic.part_mem inside)
      exact ⟨mirror.count ▸ inside, Nat.le_trans within wholeT.bounded⟩
    obtain ⟨u', run, soundU', frame, count, parts⟩ := replayEach_trims t.name _ soundU
      passed.distinct bounds
    refine ⟨u', run, soundU', mirror.trimmed passed.frame frame
      (by rw [count, mirror.count, passed.count]) fun q insideQ => ?_⟩
    rw [passed.count] at insideQ
    have lag := mirror.parts q insideQ
    have wholeT := sound.whole.parts _ (StreamTopic.part_mem insideQ)
    have wholeU := soundU.whole.parts _ (StreamTopic.part_mem (mirror.count.symm ▸ insideQ))
    rw [parts q, passed.parts q]
    cases seen : lookup Prod.fst (Stream.enforce now t).2 q with
    | none => exact lag
    | some y =>
      obtain ⟨mem, named⟩ := lookup_some Prod.fst seen
      have within := (passed.inside y mem).2
      rw [named] at within
      exact lag.trim wholeT wholeU (lag.next_eq ▸ within)

theorem retention (sound : t.Sound) (maxBytes maxAgeMs : Nat) :
    Follows exact t
      { t with maxBytes := maxBytes, maxAgeMs := maxAgeMs, revision := bump t.revision }
      [.retention t.name maxBytes maxAgeMs] := by
  refine ⟨sound.congr rfl rfl rfl rfl rfl, rfl, ?_, fun u soundU mirror => ?_⟩
  · intro r mem
    cases List.mem_singleton.mp mem
    have short := sound.fit.named.2
    refine ⟨rfl, ?_⟩
    simp only [LogRecord.len, streamNameMax, recordMax] at short ⊢
    omega
  · exact ⟨_, rfl, soundU.congr rfl rfl rfl rfl rfl,
      ⟨mirror.name, rfl, rfl, mirror.id, mirror.persisted, mirror.count, mirror.parts, mirror.offsets⟩⟩

theorem commit (sound : t.Sound) {g : StreamGroup} (found : findGroup t g.name = some g) {p : Nat}
    (inside : p < t.partitions) (offset : Nat) :
    Follows exact t (setGroup t (g.commit p offset)) [.commit t.name g.name p offset] := by
  obtain ⟨fitsG, -⟩ := sound.foundGroup found
  refine ⟨sound.setGroup (fitsG.commitAll [(p, offset)]).1, rfl, ?_, fun u soundU mirror => ?_⟩
  · intro r mem
    cases List.mem_singleton.mp mem
    exact ⟨rfl, fitsG.name⟩
  · have insideU : p < u.partitions := mirror.count ▸ inside
    have len : (LogRecord.commit u.name g.name 0 0).len ≤ recordMax := mirror.name ▸ fitsG.name
    obtain ⟨soundE, fitsE, nameE, partsE, named⟩ := soundU.ensureGroup g.name len
    have foundE : findGroup (ensureGroup u g.name).1 (ensureGroup u g.name).2.name
        = some (ensureGroup u g.name).2 := named.symm ▸ ensureGroup_found u g.name
    have countE : (ensureGroup u g.name).1.partitions = u.partitions := by
      simp [StreamTopic.partitions, partsE]
    have frame := ensureGroup_frame u g.name
    refine ⟨setGroup (ensureGroup u g.name).1 ((ensureGroup u g.name).2.commit p offset), ?_,
      soundE.setGroup (fitsE.commitAll [(p, offset)]).1, ?_⟩
    · rw [replayEach, replayTopic, if_neg (Nat.not_le.mpr insideU)]
      rfl
    · refine ⟨nameE.trans mirror.name, frame.1.trans mirror.maxBytes, frame.2.1.trans mirror.maxAgeMs,
        frame.2.2.1.trans mirror.id, frame.2.2.2.trans mirror.persisted, countE.trans mirror.count,
        fun q insideQ => ?_, fun group q => ?_⟩
      · have same : (ensureGroup u g.name).1.part q = u.part q := by
          rw [StreamTopic.part, StreamTopic.part, partsE]
        exact same.symm ▸ mirror.parts q insideQ
      · rw [groupOffset_commit found (fitsG.offsets.symm ▸ inside),
          groupOffset_commit foundE (by rw [fitsE.offsets, countE]; exact insideU), named,
          groupOffset_ensureGroup, mirror.offsets]

theorem commitAll (commits : List (Nat × Nat)) : ∀ {t : StreamTopic} {g : StreamGroup}, t.Sound →
    findGroup t g.name = some g → (∀ c ∈ commits, c.1 < t.partitions) →
    Follows exact t (setGroup t (g.commitAll commits))
      (commits.map (fun c => .commit t.name g.name c.1 c.2)) := by
  induction commits with
  | nil =>
    intro t g sound found _
    have same : setGroup t (g.commitAll []) = t := setGroup_found found
    rw [same]
    exact rfl_ sound
  | cons c rest ih =>
    intro t g sound found inside
    have one : Follows exact t _ _ := commit sound found (inside c List.mem_cons_self) c.2
    have again : setGroup (setGroup t (g.commit c.1 c.2)) ((g.commit c.1 c.2).commitAll rest)
        = setGroup t (g.commitAll (c :: rest)) := setGroup_setGroup t (commitAll_name rest _)
    have set : findGroup (setGroup t (g.commit c.1 c.2)) g.name = some (g.commit c.1 c.2) :=
      findGroup_setGroup_same found rfl
    have later := ih one.sound (g := g.commit c.1 c.2) set (fun d mem => inside d (List.mem_cons_of_mem _ mem))
    rw [again] at later
    exact one.trans later

end Follows

/-- Reopening runs the retention pass without logging it. -/
theorem mirror_enforced (now : Nat) {u : StreamTopic} (sound : u.Sound)
    (persisted : u.idPersisted = true) : SameTopic False (enforce now u).1 u := by
  have passed := passed_enforce now sound
  refine ⟨passed.frame.name.symm, passed.frame.maxBytes.symm, passed.frame.maxAgeMs.symm,
    passed.frame.id.symm, persisted, passed.count.symm, fun p inside => ?_, fun group p => ?_⟩
  · have wholeU := sound.whole.parts _ (StreamTopic.part_mem (passed.count ▸ inside))
    rw [passed.parts p]
    cases seen : lookup Prod.fst (enforce now u).2 p with
    | none => exact Lag.refl wholeU
    | some y =>
      obtain ⟨mem, named⟩ := lookup_some Prod.fst seen
      have within := (passed.inside y mem).2
      rw [named] at within
      exact Lag.of_trim wholeU within
  · exact groupOffset_congr passed.frame.groups group p

end KuttiDB.Stream
