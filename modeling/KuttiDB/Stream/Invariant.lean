/- # KuttiDB.Stream.Invariant -- what every change of a topic keeps

`StreamPart.Whole`: the records of a partition have the offsets `base`, …, `next - 1`, the tail pointer
designates the last of them, the byte counter is their sum. `StreamTopic.Whole` adds the counters of
the topic. `StreamTopic.Fit` collects what a compacted log relies on: lengths within the limits of
replay, distinct groups with one offset for each partition.

A record can be linked at every offset but the last one: at `2 ^ 64 - 1` the next offset wraps to 0.
-/
import KuttiDB.Stream.Operations
import KuttiDB.Theory.Consecutive
import Mathlib.Data.List.GetD

namespace KuttiDB.Stream

open KuttiDB.QueueStore (Bytes u64)
open KuttiDB.Theory

set_option autoImplicit false

theorem bump_of_lt {n : Nat} (room : n < uint64Max) : bump n = n + 1 := by
  simp only [bump, KuttiDB.QueueStore.u64, uint64Max] at room ⊢
  omega

/-! ## One partition -/

structure StreamPart.Whole (x : StreamPart) : Prop where
  offsets : Consecutive StreamRecord.offset x.base x.chain
  next_eq : x.next = x.base + x.chain.length
  bounded : x.next ≤ uint64Max
  tail_eq : x.tail = if x.chain = [] then none else some (x.chain.length - 1)
  bytes_eq : x.bytes = chainBytes x.chain

namespace StreamPart

theorem whole_empty : StreamPart.empty.Whole :=
  ⟨rfl, rfl, Nat.zero_le _, rfl, rfl⟩

/-- The counters and the tail pointer of a whole partition are determined by its records. -/
theorem Whole.ext {x y : StreamPart} (wholeX : x.Whole) (wholeY : y.Whole)
    (base : x.base = y.base) (chain : x.chain = y.chain) : x = y := by
  have next : x.next = y.next := by rw [wholeX.next_eq, wholeY.next_eq, base, chain]
  have tail : x.tail = y.tail := by rw [wholeX.tail_eq, wholeY.tail_eq, chain]
  have bytes : x.bytes = y.bytes := by rw [wholeX.bytes_eq, wholeY.bytes_eq, chain]
  cases x
  cases y
  simp_all

variable {x : StreamPart}

/-- The tail pointer is the end of the chain, so a record is linked behind the last one. -/
theorem Whole.link_chain (whole : x.Whole) (r : StreamRecord) :
    (x.link r).chain = x.chain ++ [r] := by
  simp only [StreamPart.link, linkChain, whole.tail_eq]
  by_cases none : x.chain = []
  · simp [none]
  · have last : x.chain.length - 1 + 1 = x.chain.length :=
      Nat.sub_add_cancel (List.length_pos_iff.mpr none)
    simp [none, last]

theorem Whole.link (whole : x.Whole) {r : StreamRecord} (here : r.offset = x.next)
    (room : x.next ≠ uint64Max) : (x.link r).Whole := by
  have chain := whole.link_chain r
  have next : (x.link r).next = x.next + 1 :=
    bump_of_lt (Nat.lt_of_le_of_ne whole.bounded room)
  have tail : (x.link r).tail = some ((x.link r).chain.length - 1) := rfl
  refine ⟨?_, ?_, ?_, ?_, ?_⟩
  · rw [chain]
    exact whole.offsets.snoc (by rw [here, whole.next_eq])
  · rw [next, chain, whole.next_eq, List.length_append]
    rfl
  · rw [next]
    have bounded := whole.bounded
    omega
  · rw [tail, chain]
    simp
  · rw [chain]
    simp [StreamPart.link, chainBytes, whole.bytes_eq]

theorem Whole.below_eq (whole : x.Whole) (b : Nat) : x.below b = x.chain.take (b - x.base) :=
  whole.offsets.takeWhile_lt

theorem Whole.trim_chain (whole : x.Whole) (b : Nat) :
    (x.trim b).chain = x.chain.drop (b - x.base) :=
  whole.offsets.dropWhile_lt

theorem chainBytes_take_drop (k : Nat) (chain : List StreamRecord) :
    chainBytes (chain.take k) + chainBytes (chain.drop k) = chainBytes chain := by
  simp only [chainBytes]
  rw [← List.sum_append, ← List.map_append, List.take_append_drop]

theorem Whole.below_bytes (whole : x.Whole) (b : Nat) : chainBytes (x.below b) ≤ x.bytes := by
  have split := chainBytes_take_drop (b - x.base) x.chain
  rw [whole.below_eq, whole.bytes_eq]
  omega

/-- A boundary past the end leaves an empty partition that starts there. -/
theorem Whole.trim (whole : x.Whole) {b : Nat} (bound : b ≤ uint64Max) : (x.trim b).Whole := by
  have chain := whole.trim_chain b
  have base : (x.trim b).base = max x.base b := rfl
  have next : (x.trim b).next = max x.next b := rfl
  have length : (x.trim b).chain.length = x.chain.length - (b - x.base) := by simp [chain]
  have taken : (x.below b).length = min (b - x.base) x.chain.length := by
    simp [whole.below_eq]
  have nextX := whole.next_eq
  have boundX := whole.bounded
  refine ⟨?_, ?_, ?_, ?_, ?_⟩
  · rw [chain, base]
    by_cases low : b ≤ x.base
    · rw [Nat.max_eq_left low, Nat.sub_eq_zero_of_le low]
      exact whole.offsets
    · have start : max x.base b = x.base + (b - x.base) := by omega
      rw [start]
      exact whole.offsets.drop _
  · rw [next, base, length]
    omega
  · rw [next]
    omega
  · change (if (x.trim b).chain = [] then none else x.tail.map (· - (x.below b).length)) = _
    by_cases gone : (x.trim b).chain = []
    · rw [if_pos gone, if_pos gone]
    · have left : (x.trim b).chain.length ≠ 0 := fun zero => gone (List.length_eq_zero_iff.mp zero)
      have some_ : x.chain ≠ [] := by
        intro none
        rw [length, none] at left
        exact left (by simp)
      rw [if_neg gone, if_neg gone, whole.tail_eq, if_neg some_, Option.map_some, taken, length]
      congr 1
      omega
  · change x.bytes - chainBytes (x.below b) = _
    have split := chainBytes_take_drop (b - x.base) x.chain
    rw [chain, whole.below_eq, whole.bytes_eq]
    omega

/-- Trimming twice is trimming at the later boundary. -/
theorem Whole.trim_trim (whole : x.Whole) {a b : Nat} (order : a ≤ b) (bound : b ≤ uint64Max) :
    (x.trim a).trim b = x.trim b := by
  have once := whole.trim (Nat.le_trans order bound)
  apply (once.trim bound).ext (whole.trim bound)
  · change max (max x.base a) b = max x.base b
    omega
  · rw [once.trim_chain, whole.trim_chain, whole.trim_chain, List.drop_drop]
    congr 1
    change a - x.base + (b - max x.base a) = b - x.base
    omega

theorem Whole.trim_of_le (whole : x.Whole) {b : Nat} (low : b ≤ x.base) : x.trim b = x := by
  have bound : b ≤ uint64Max := by
    have bounded := whole.bounded
    have next := whole.next_eq
    omega
  apply (whole.trim bound).ext whole
  · exact Nat.max_eq_left low
  · rw [whole.trim_chain, Nat.sub_eq_zero_of_le low, List.drop_zero]

/-- A record linked at the end stays when the partition is trimmed up to its end. -/
theorem Whole.trim_link (whole : x.Whole) {r : StreamRecord} (here : r.offset = x.next)
    (room : x.next ≠ uint64Max) {b : Nat} (within : b ≤ x.next) :
    (x.link r).trim b = (x.trim b).link r := by
  have bound : b ≤ uint64Max := Nat.le_trans within whole.bounded
  have next : (x.trim b).next = x.next := Nat.max_eq_left within
  have linked := whole.link here room
  apply (linked.trim bound).ext
    ((whole.trim bound).link (by rw [next, here]) (by rw [next]; exact room))
  · rfl
  · have fits : b - x.base ≤ x.chain.length := by
      have nextX := whole.next_eq
      omega
    rw [linked.trim_chain, (whole.trim bound).link_chain, whole.link_chain, whole.trim_chain]
    exact List.drop_append_of_le_length fits

/-- The first record of a whole partition is at its base. -/
theorem Whole.head_offset (whole : x.Whole) {r : StreamRecord} (head : x.chain.head? = some r) :
    r.offset = x.base ∧ x.base < x.next := by
  have next := whole.next_eq
  have run := whole.offsets
  cases chain : x.chain with
  | nil => simp [chain] at head
  | cons first rest =>
    rw [chain, consecutive_cons] at run
    rw [chain] at head next
    cases head
    simp only [List.length_cons] at next
    exact ⟨run.1, by omega⟩

end StreamPart

/-! ## One topic -/

structure StreamTopic.Whole (t : StreamTopic) : Prop where
  parts : ∀ x ∈ t.parts, x.Whole
  bytes_eq : t.bytes = (t.parts.map (·.bytes)).sum
  records_eq : t.records = (t.parts.map (·.chain.length)).sum

/-- A record replay accepts when it stands in the log alone. -/
def RecordFits (name : Bytes) (r : StreamRecord) : Prop :=
  (LogRecord.append name ⟨0, r⟩).len ≤ recordMax

structure GroupFits (t : StreamTopic) (g : StreamGroup) : Prop where
  offsets : g.offsets.length = t.partitions
  name : (LogRecord.commit t.name g.name 0 0).len ≤ recordMax

structure StreamTopic.Fit (t : StreamTopic) : Prop where
  named : t.name ≠ [] ∧ t.name.length ≤ streamNameMax
  divided : 0 < t.partitions ∧ t.partitions ≤ streamPartitionsMax
  records : ∀ x ∈ t.parts, ∀ r ∈ x.chain, RecordFits t.name r
  distinct : (t.groups.map StreamGroup.name).Nodup
  groups : ∀ g ∈ t.groups, GroupFits t g

structure StreamTopic.Sound (t : StreamTopic) : Prop where
  whole : t.Whole
  fit : t.Fit

section Sums

variable {α : Type} (f : α → Nat) (d : α)

theorem sum_map_set : ∀ {xs : List α} {p : Nat} (y : α), p < xs.length →
    ((xs.set p y).map f).sum + f (xs.getD p d) = (xs.map f).sum + f y
  | [], _, _, inside => absurd inside (by simp)
  | x :: xs, 0, y, _ => by
    simp only [List.set_cons_zero, List.map_cons, List.sum_cons, List.getD_cons_zero]
    omega
  | x :: xs, p + 1, y, inside => by
    have rest := sum_map_set y (Nat.lt_of_succ_lt_succ inside)
    simp only [List.set_cons_succ, List.map_cons, List.sum_cons, List.getD_cons_succ]
    omega

theorem le_sum_map : ∀ {xs : List α} {p : Nat}, p < xs.length → f (xs.getD p d) ≤ (xs.map f).sum
  | [], _, inside => absurd inside (by simp)
  | _ :: _, 0, _ => by simp
  | _ :: _, p + 1, inside => by
    have rest := le_sum_map (Nat.lt_of_succ_lt_succ inside)
    simp only [List.map_cons, List.sum_cons, List.getD_cons_succ]
    omega

end Sums

namespace StreamTopic

variable {t u : StreamTopic} {p q : Nat}

theorem part_mem (inside : p < t.partitions) : t.part p ∈ t.parts := by
  rw [StreamTopic.part, List.getD_eq_getElem _ _ inside]
  exact List.getElem_mem inside

theorem part_set (inside : p < t.partitions) (y : StreamPart) (q : Nat) :
    (t.parts.set p y).getD q .empty = if q = p then y else t.part q := by
  by_cases same : q = p
  · subst same
    have inside' : q < (t.parts.set q y).length := by simpa [StreamTopic.partitions] using inside
    rw [if_pos rfl, List.getD_eq_getElem _ _ inside', List.getElem_set_self]
  · rw [if_neg same, StreamTopic.part, List.getD_eq_getElem?_getD, List.getD_eq_getElem?_getD,
      List.getElem?_set_ne (Ne.symm same)]

theorem mem_parts_set {y x : StreamPart} (mem : x ∈ t.parts.set p y) : x = y ∨ x ∈ t.parts :=
  (List.mem_or_eq_of_mem_set mem).symm

/-- One partition replaced, with the counters moved by the same amounts. -/
theorem Whole.set (whole : t.Whole) (inside : p < t.partitions) {y : StreamPart} (wholeY : y.Whole)
    (parts : u.parts = t.parts.set p y) (bytes : u.bytes + (t.part p).bytes = t.bytes + y.bytes)
    (records : u.records + (t.part p).chain.length = t.records + y.chain.length) : u.Whole := by
  have sumBytes := sum_map_set (·.bytes) .empty y inside
  have sumRecords := sum_map_set (·.chain.length) .empty y inside
  have bytesT := whole.bytes_eq
  have recordsT := whole.records_eq
  simp only [StreamTopic.part] at bytes records
  refine ⟨?_, ?_, ?_⟩
  · intro x mem
    rw [parts] at mem
    rcases mem_parts_set mem with rfl | old
    · exact wholeY
    · exact whole.parts x old
  · rw [parts]
    omega
  · rw [parts]
    omega

/-- A change of one partition to records that all fit keeps the lengths within the limits. -/
theorem Fit.set (fit : t.Fit) {y : StreamPart} (records : ∀ r ∈ y.chain, RecordFits t.name r)
    (name : u.name = t.name) (parts : u.parts = t.parts.set p y) (groups : u.groups = t.groups) :
    u.Fit := by
  have count : u.partitions = t.partitions := by simp [StreamTopic.partitions, parts]
  refine ⟨name ▸ fit.named, count ▸ fit.divided, ?_, groups ▸ fit.distinct, ?_⟩
  · intro x mem r within
    rw [parts] at mem
    rw [name]
    rcases mem_parts_set mem with rfl | old
    · exact records r within
    · exact fit.records x old r within
  · intro g mem
    rw [groups] at mem
    have fits := fit.groups g mem
    exact ⟨count ▸ fits.offsets, name ▸ fits.name⟩

end StreamTopic

theorem part_outside {t : StreamTopic} {p : Nat} (outside : t.partitions ≤ p) :
    t.part p = .empty := List.getD_eq_default _ _ outside

@[simp] theorem partLink_name (t : StreamTopic) (p : Nat) (r : StreamRecord) :
    (partLink t p r).name = t.name := rfl

@[simp] theorem partLink_partitions (t : StreamTopic) (p : Nat) (r : StreamRecord) :
    (partLink t p r).partitions = t.partitions := by
  simp [StreamTopic.partitions, partLink]

theorem partLink_part {t : StreamTopic} {p : Nat} (inside : p < t.partitions) (r : StreamRecord)
    (q : Nat) : (partLink t p r).part q = if q = p then (t.part p).link r else t.part q :=
  StreamTopic.part_set inside _ q

@[simp] theorem trimPart_name (t : StreamTopic) (p b : Nat) : (trimPart t p b).name = t.name := rfl

@[simp] theorem trimPart_partitions (t : StreamTopic) (p b : Nat) :
    (trimPart t p b).partitions = t.partitions := by
  simp [StreamTopic.partitions, trimPart]

theorem trimPart_part {t : StreamTopic} {p : Nat} (inside : p < t.partitions) (b q : Nat) :
    (trimPart t p b).part q = if q = p then (t.part p).trim b else t.part q :=
  StreamTopic.part_set inside _ q

theorem sound_partLink {t : StreamTopic} {p : Nat} {r : StreamRecord} (sound : t.Sound)
    (inside : p < t.partitions) (here : r.offset = (t.part p).next)
    (room : (t.part p).next ≠ uint64Max) (fits : RecordFits t.name r) : (partLink t p r).Sound := by
  have wholeX := sound.whole.parts _ (StreamTopic.part_mem inside)
  have chain := wholeX.link_chain r
  refine ⟨sound.whole.set inside (wholeX.link here room) rfl ?_ ?_,
    sound.fit.set (p := p) ?_ rfl rfl rfl⟩
  · change t.bytes + recordBytes r + (t.part p).bytes
      = t.bytes + ((t.part p).bytes + recordBytes r)
    omega
  · rw [chain, List.length_append]
    change t.records + 1 + _ = t.records + (_ + 1)
    omega
  · intro r' mem
    rw [chain, List.mem_append] at mem
    rcases mem with old | new
    · exact sound.fit.records _ (StreamTopic.part_mem inside) r' old
    · rwa [List.mem_singleton.mp new]

theorem sound_trimPart {t : StreamTopic} {p b : Nat} (sound : t.Sound) (inside : p < t.partitions)
    (bound : b ≤ uint64Max) : (trimPart t p b).Sound := by
  have wholeX := sound.whole.parts _ (StreamTopic.part_mem inside)
  have chain := wholeX.trim_chain b
  have taken := wholeX.below_eq b
  refine ⟨sound.whole.set inside (wholeX.trim bound) rfl ?_ ?_, sound.fit.set (p := p) ?_ rfl rfl rfl⟩
  · have freed := wholeX.below_bytes b
    have part : (t.part p).bytes ≤ (t.parts.map (·.bytes)).sum := le_sum_map _ _ inside
    have total := sound.whole.bytes_eq
    change t.bytes - chainBytes ((t.part p).below b) + (t.part p).bytes
      = t.bytes + ((t.part p).bytes - chainBytes ((t.part p).below b))
    omega
  · have part : (t.part p).chain.length ≤ (t.parts.map (·.chain.length)).sum :=
      le_sum_map (·.chain.length) _ inside
    have total := sound.whole.records_eq
    change t.records - ((t.part p).below b).length + _ = t.records + _
    rw [chain, taken, List.length_take, List.length_drop]
    omega
  · intro r mem
    rw [chain] at mem
    exact sound.fit.records _ (StreamTopic.part_mem inside) r (List.mem_of_mem_drop mem)

/-! ## The retention pass -/

theorem touch_seen {touched : List (Nat × Nat)} {p : Nat} {old : Nat × Nat}
    (seen : lookup Prod.fst touched p = some old) (b : Nat) :
    touch touched p b = updateFirst (fun x => x.1 == p) (fun _ => (p, b)) touched := by
  rw [touch, seen]
  rfl

theorem touch_new {touched : List (Nat × Nat)} {p : Nat} (new : lookup Prod.fst touched p = none)
    (b : Nat) : touch touched p b = touched ++ [(p, b)] := by
  rw [touch, new]
  rfl

theorem lookup_touch (touched : List (Nat × Nat)) (p b q : Nat) :
    lookup Prod.fst (touch touched p b) q
      = if q = p then some (p, b) else lookup Prod.fst touched q := by
  cases seen : lookup Prod.fst touched p with
  | some old =>
    rw [touch_seen seen]
    by_cases same : q = p
    · rw [if_pos same, same]
      exact lookup_replace_same Prod.fst (k := p) (y := (p, b)) rfl seen
    · rw [if_neg same]
      exact lookup_replace_other Prod.fst same (y := (p, b)) rfl touched
  | none =>
    rw [touch_new seen]
    simp only [lookup, List.find?_append] at seen ⊢
    by_cases same : q = p
    · subst same
      simp [seen]
    · simp [same, Ne.symm same]

theorem touch_touch (touched : List (Nat × Nat)) (p b c : Nat) :
    touch (touch touched p b) p c = touch touched p c := by
  rw [touch_seen (by rw [lookup_touch, if_pos rfl]) c]
  cases seen : lookup Prod.fst touched p with
  | some old =>
    rw [touch_seen seen, touch_seen seen]
    exact updateFirst_updateFirst _ (fun _ _ => by simp) touched
  | none =>
    have unseen : ∀ x ∈ touched, (x.1 == p) = false := by
      intro x mem
      simpa using (lookup_none Prod.fst).mp seen x mem
    rw [touch_new seen, touch_new seen, updateFirst_append_miss _ _ unseen,
      updateFirst_cons_hit (by simp)]

theorem oldestHead_some {t : StreamTopic} {p : Nat} {r : StreamRecord}
    (found : oldestHead t = some (p, r)) :
    p < t.partitions ∧ (t.part p).chain.head? = some r := by
  have all : ∀ best, oldestHead t = best → ∀ p r, best = some (p, r) →
      p < t.partitions ∧ (t.part p).chain.head? = some r := by
    intro best eq
    rw [← eq, oldestHead]
    refine List.foldlRecOn (motive := fun best => ∀ p r, best = some (p, r) →
      p < t.partitions ∧ (t.part p).chain.head? = some r) _ _ (by simp) ?_
    intro best heads q mem p r eq
    cases head : (t.part q).chain.head? with
    | none =>
      rw [head] at eq
      exact heads p r eq
    | some h =>
      rw [head] at eq
      simp only at eq
      split at eq
      · cases eq
        exact ⟨List.mem_range.mp mem, head⟩
      · exact heads p r eq
  exact all _ rfl p r found

section Rule

variable {P : StreamTopic → List (Nat × Nat) → Prop}
  (trims : ∀ t touched p r, P t touched → p < t.partitions → (t.part p).chain.head? = some r →
    bump r.offset ≠ 0 ∧ P (trimPart t p (bump r.offset)) (touch touched p (bump r.offset)))
include trims

theorem ageLoop_rule (now p : Nat) (touched : List (Nat × Nat)) : ∀ (rounds : Nat) (t : StreamTopic)
    (b : Nat), P t (if b = 0 then touched else touch touched p b) → p < t.partitions →
    P (ageLoop now p rounds t b).1
        (if (ageLoop now p rounds t b).2 = 0 then touched
          else touch touched p (ageLoop now p rounds t b).2) ∧
      (ageLoop now p rounds t b).1.partitions = t.partitions
  | 0, _, _, holds, _ => ⟨holds, rfl⟩
  | rounds + 1, t, b, holds, inside => by
    rw [ageLoop]
    cases head : (t.part p).chain.head? with
    | none => exact ⟨holds, rfl⟩
    | some r =>
      by_cases old : expired now t.maxAgeMs r = true
      · simp only [old, if_true]
        obtain ⟨moved, next⟩ := trims t _ p r holds inside head
        have again : touch (if b = 0 then touched else touch touched p b) p (bump r.offset)
            = touch touched p (bump r.offset) := by
          split
          · rfl
          · exact touch_touch ..
        rw [again] at next
        have rest := ageLoop_rule now p touched rounds (trimPart t p (bump r.offset)) (bump r.offset)
          (by rw [if_neg moved]; exact next) (by rw [trimPart_partitions]; exact inside)
        rwa [trimPart_partitions] at rest
      · simp only [old]
        exact ⟨holds, rfl⟩

theorem agePass_rule (now : Nat) {t : StreamTopic} (start : P t []) :
    P (agePass now t).1 (agePass now t).2 := by
  unfold agePass
  split
  · exact start
  · refine (List.foldlRecOn (motive := fun acc : StreamTopic × List (Nat × Nat) =>
      P acc.1 acc.2 ∧ acc.1.partitions = t.partitions) _ _ ⟨start, rfl⟩ ?_).1
    rintro ⟨u, touched⟩ ⟨holds, count⟩ p mem
    have inside : p < u.partitions := count ▸ List.mem_range.mp mem
    have loop := ageLoop_rule trims now p touched (u.part p).chain.length u 0 (by simpa using holds)
      inside
    exact ⟨loop.1, loop.2.trans count⟩

theorem sizeLoop_rule : ∀ (rounds : Nat) (t : StreamTopic) (touched : List (Nat × Nat)),
    P t touched → P (sizeLoop rounds t touched).1 (sizeLoop rounds t touched).2
  | 0, _, _, holds => holds
  | rounds + 1, t, touched, holds => by
    rw [sizeLoop]
    split
    · split
      · exact holds
      · rename_i p r found
        obtain ⟨inside, head⟩ := oldestHead_some found
        exact sizeLoop_rule rounds _ _ (trims t touched p r holds inside head).2
    · exact holds

/-- What one round of retention keeps, the whole pass keeps. -/
theorem enforce_rule (now : Nat) {t : StreamTopic} (start : P t []) :
    P (enforce now t).1 (enforce now t).2 :=
  sizeLoop_rule trims _ _ _ (agePass_rule trims now start)

end Rule

/-- In a sound topic a round of retention moves the base by one. -/
theorem Sound.head_bump {t : StreamTopic} (sound : t.Sound) {p : Nat} {r : StreamRecord}
    (inside : p < t.partitions) (head : (t.part p).chain.head? = some r) :
    bump r.offset = (t.part p).base + 1 ∧ (t.part p).base + 1 ≤ (t.part p).next ∧
      (t.part p).base + 1 ≤ uint64Max := by
  have wholeX := sound.whole.parts _ (StreamTopic.part_mem inside)
  obtain ⟨offset, within⟩ := wholeX.head_offset head
  have bound := wholeX.bounded
  rw [offset, bump_of_lt (by omega)]
  exact ⟨rfl, within, by omega⟩

theorem sound_enforce (now : Nat) {t : StreamTopic} (sound : t.Sound) :
    (enforce now t).1.Sound ∧ (enforce now t).1.name = t.name := by
  refine enforce_rule (P := fun u _ => u.Sound ∧ u.name = t.name) ?_ now ⟨sound, rfl⟩
  rintro u - p r ⟨soundU, named⟩ inside head
  obtain ⟨eq, -, bound⟩ := Sound.head_bump soundU inside head
  rw [eq]
  exact ⟨Nat.succ_ne_zero _, sound_trimPart soundU inside bound, named⟩

end KuttiDB.Stream
