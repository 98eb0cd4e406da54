/- # KuttiDB.Stream.ListPointers -- the topic list as cells and pointers

Which topics the list holds decides what unlinking does. `findLink` finds the pointer to a topic by
the names alone, so it stands until the list itself changes (`findLink_names`), and through a pointer
that stands, unlinking takes the topic out and nothing else (`unlinkNode_found`).

`standing` reads off a log which topics it leaves declared; replay agrees (`standing_replays`).
-/
import KuttiDB.Stream.Threads

namespace KuttiDB.Stream

open KuttiDB.QueueStore (Bytes)
open KuttiDB.Theory

set_option autoImplicit false

/-! ## Pointers -/

/-- The pointer depends on the names of the list alone. -/
theorem findLink_names {name : Bytes} : ∀ {topics topics' : List StreamTopic} {cells : List Nat}
    {link : Option Nat} {t : StreamTopic} {cell : Nat} {found : Option Nat},
    topics'.map StreamTopic.name = topics.map StreamTopic.name →
    findLink topics cells name link = some (t, cell, found) →
    ∃ t', findLink topics' cells name link = some (t', cell, found)
  | [], _, _, _, _, _, _, _, here => by simp [findLink] at here
  | _ :: _, _, [], _, _, _, _, _, here => by simp [findLink] at here
  | _ :: _, [], _ :: _, _, _, _, _, same, _ => by cases same
  | u :: topics, u' :: topics', c :: cells, link, t, cell, found, same, here => by
    simp only [List.map_cons, List.cons.injEq] at same
    rw [findLink] at here ⊢
    rw [same.1]
    split at here
    · simp only [Option.some.injEq, Prod.mk.injEq] at here
      obtain ⟨rfl, rfl, rfl⟩ := here
      exact ⟨u', if_pos ‹_›⟩
    · rw [if_neg ‹_›]
      exact findLink_names same.2 here

theorem findLink_found {name : Bytes} : ∀ {topics : List StreamTopic} {cells : List Nat}
    {link : Option Nat}, cells.length = topics.length →
    (findLink topics cells name link).map Prod.fst = findTopic topics name
  | [], _, _, _ => by simp [findLink, findTopic, lookup]
  | _ :: _, [], _, aligned => by cases aligned
  | t :: topics, c :: cells, link, aligned => by
    rw [findLink, findTopic]
    by_cases hit : t.name = name
    · rw [if_pos hit, lookup_cons_hit _ hit]
      rfl
    · rw [if_neg hit, lookup_cons_miss _ hit]
      exact findLink_found (by simpa using aligned)

/-- The cells before a topic, and the pointer to it: the last of them. -/
theorem findLink_split {name : Bytes} : ∀ {topics : List StreamTopic} {cells : List Nat}
    {link : Option Nat} {t : StreamTopic} {cell : Nat} {found : Option Nat},
    findLink topics cells name link = some (t, cell, found) →
    ∃ before rest : List (Nat × StreamTopic), cells.zip topics = before ++ (cell, t) :: rest ∧
      found = (before.getLast?.map Prod.fst).or link ∧ t.name = name ∧
      ∀ n ∈ before, n.2.name ≠ name
  | [], _, _, _, _, _, here => by simp [findLink] at here
  | _ :: _, [], _, _, _, _, here => by simp [findLink] at here
  | u :: topics, c :: cells, link, t, cell, found, here => by
    rw [findLink] at here
    split at here
    · simp only [Option.some.injEq, Prod.mk.injEq] at here
      obtain ⟨rfl, rfl, rfl⟩ := here
      exact ⟨[], cells.zip topics, rfl, rfl, ‹_›, nofun⟩
    · obtain ⟨before, rest, zipped, link', named, others⟩ := findLink_split here
      refine ⟨(c, u) :: before, rest, by rw [List.zip_cons_cons, zipped]; rfl, ?_, named, ?_⟩
      · rw [link', List.getLast?_cons]
        cases before.getLast? <;> rfl
      · intro n mem
        rcases List.mem_cons.mp mem with rfl | later
        · assumption
        · exact others n later

theorem behind_split {cell : Nat} {t : StreamTopic} {before rest : List (Nat × StreamTopic)}
    (apart : cell ∉ before.map Prod.fst) : behind cell (before ++ (cell, t) :: rest) = rest := by
  have skipped : ∀ n ∈ before, (n.1 != cell) = true := by
    intro n mem
    simp only [bne_iff_ne, ne_eq]
    rintro rfl
    exact apart (List.mem_map_of_mem mem)
  rw [behind, List.dropWhile_append_of_pos skipped]
  simp

theorem upTo_split {prev : Nat} {u : StreamTopic} {rest : List (Nat × StreamTopic)} :
    ∀ {before : List (Nat × StreamTopic)}, prev ∉ before.map Prod.fst →
      upTo prev (before ++ (prev, u) :: rest) = before ++ [(prev, u)]
  | [], _ => by simp [upTo]
  | n :: before, apart => by
    simp only [List.map_cons, List.mem_cons, not_or] at apart
    rw [List.cons_append, upTo, if_neg (Ne.symm apart.1), upTo_split apart.2]
    rfl

/-- Through a pointer that leads to the topic, unlinking takes out its cell and nothing else. -/
theorem unlinkNode_split {cell : Nat} {t : StreamTopic} {before rest : List (Nat × StreamTopic)}
    (distinct : ((before ++ (cell, t) :: rest).map Prod.fst).Nodup) :
    unlinkNode cell (before.getLast?.map Prod.fst) (before ++ (cell, t) :: rest)
      = some (before ++ rest) := by
  rw [List.map_append, List.map_cons, List.nodup_append] at distinct
  obtain ⟨distinctB, -, disjoint⟩ := distinct
  have apart : cell ∉ before.map Prod.fst := fun mem => disjoint _ mem _ List.mem_cons_self rfl
  have linked : cell ∈ (before ++ (cell, t) :: rest).map Prod.fst := by simp
  unfold unlinkNode
  rw [if_neg (not_not.mpr linked), behind_split apart]
  rcases List.eq_nil_or_concat before with rfl | ⟨init, ⟨prev, u⟩, rfl⟩
  · rfl
  · have prevApart : prev ∉ init.map Prod.fst := by
      simp only [List.concat_eq_append, List.map_append, List.map_cons, List.map_nil] at distinctB
      exact fun mem => (List.nodup_append.mp distinctB).2.2 _ mem _ List.mem_cons_self rfl
    simp only [List.concat_eq_append, List.getLast?_concat, Option.map_some]
    rw [if_neg (by simp), List.append_assoc, List.singleton_append, upTo_split prevApart]

theorem unlinkNode_found {topics : List StreamTopic} {cells : List Nat} {name : Bytes}
    {t : StreamTopic} {cell : Nat} {link : Option Nat} (aligned : cells.length = topics.length)
    (distinct : cells.Nodup) (here : findLink topics cells name none = some (t, cell, link)) :
    ∃ nodes, unlinkNode cell link (cells.zip topics) = some nodes ∧
      nodes.map Prod.snd = dropTopic topics name ∧ nodes.map Prod.fst = cells.erase cell := by
  obtain ⟨before, rest, zipped, rfl, named, others⟩ := findLink_split here
  have fsts : (before ++ (cell, t) :: rest).map Prod.fst = cells := by
    rw [← zipped, List.map_fst_zip (le_of_eq aligned)]
  have snds : (before ++ (cell, t) :: rest).map Prod.snd = topics := by
    rw [← zipped, List.map_snd_zip (le_of_eq aligned.symm)]
  refine ⟨before ++ rest, ?_, ?_, ?_⟩
  · rw [zipped, Option.or_none]
    exact unlinkNode_split (by rw [fsts]; exact distinct)
  · have kept : ∀ u ∈ before.map Prod.snd, ¬ (u.name == name) = true := by
      intro u mem
      obtain ⟨n, memN, rfl⟩ := List.mem_map.mp mem
      simpa using others n memN
    rw [← snds, dropTopic, List.map_append, List.map_append, List.map_cons,
      List.eraseP_append_right _ kept]
    simp [named]
  · have apart : cell ∉ before.map Prod.fst := by
      rw [← fsts, List.map_append, List.map_cons] at distinct
      exact fun mem => (List.nodup_append.mp distinct).2.2 _ mem _ List.mem_cons_self rfl
    rw [← fsts, List.map_append, List.map_append, List.map_cons, List.erase_append_right _ apart]
    simp

/-! ## The topics a log leaves declared -/

/-- One record declares the topic, deletes it, or leaves it as it is. -/
def LogRecord.standing (name : Bytes) (here : Bool) : LogRecord → Bool
  | .declare other .. => other == name || here
  | .delete other => other != name && here
  | _ => here

/-- Whether the topic is declared behind these records, if `here` says so before them. -/
def standing (here : Bool) (records : List LogRecord) (name : Bytes) : Bool :=
  records.foldl (LogRecord.standing name) here

theorem standing_append (here : Bool) (xs ys : List LogRecord) (name : Bytes) :
    standing here (xs ++ ys) name = standing (standing here xs name) ys name :=
  List.foldl_append

theorem findTopic_isSome {topics : List StreamTopic} {name : Bytes} :
    (findTopic topics name).isSome = true ↔ name ∈ topics.map StreamTopic.name := by
  rw [Option.isSome_iff_ne_none, findTopic, Ne, lookup_none]
  simp [eq_comm]

theorem isSome_setTopic (topics : List StreamTopic) (t : StreamTopic) (name : Bytes) :
    (findTopic (setTopic topics t) name).isSome = (findTopic topics name).isSome := by
  rw [Bool.eq_iff_iff, findTopic_isSome, findTopic_isSome, setTopic_names]

/-- An accepted record changes which topics there are as it says. -/
theorem standing_replay {fresh : Bytes → StreamId} {a b : List StreamTopic} {r : LogRecord}
    (distinct : (a.map StreamTopic.name).Nodup) (here : replay fresh a r = (b, true)) :
    (b.map StreamTopic.name).Nodup ∧
      ∀ name, (findTopic b name).isSome = r.standing name (findTopic a name).isSome := by
  -- every record but `declare` and `delete` changes the topic it names
  have inside : (∀ name partitions maxBytes maxAgeMs,
        r ≠ .declare name partitions maxBytes maxAgeMs) → (∀ name, r ≠ .delete name) →
      (b.map StreamTopic.name).Nodup ∧
        ∀ name, (findTopic b name).isSome = (findTopic a name).isSome := by
    intro declares deletes
    rcases replay_cases fresh a r with
      ⟨name, partitions, maxBytes, maxAgeMs, eq⟩ | ⟨name, eq⟩ | same | ⟨t, -, after⟩
    · exact absurd eq (declares name partitions maxBytes maxAgeMs)
    · exact absurd eq (deletes name)
    · rw [same] at here
      cases here
    · rw [after] at here
      obtain ⟨rfl, -⟩ := Prod.mk.inj here
      exact ⟨by rw [setTopic_names]; exact distinct, isSome_setTopic a _⟩
  cases r with
  | declare other partitions maxBytes maxAgeMs =>
    rw [replay] at here
    cases added : addTopic a other partitions maxBytes maxAgeMs (fresh other) with
    | none =>
      rw [added] at here
      cases here
    | some after =>
      rw [added] at here
      obtain ⟨rfl, -⟩ := Prod.mk.inj here
      unfold addTopic at added
      split at added
      · cases added
      · cases known : findTopic a other with
        | some t =>
          simp only [known] at added
          split at added <;> cases added
          refine ⟨distinct, fun name => ?_⟩
          rw [LogRecord.standing]
          by_cases hit : other = name
          · rw [← hit, known]
            simp
          · simp [hit]
        | none =>
          simp only [known] at added
          cases added
          refine ⟨List.nodup_cons.mpr ⟨fun mem => ?_, distinct⟩, fun name => ?_⟩
          · rw [← findTopic_isSome] at mem
            change (findTopic a other).isSome = true at mem
            rw [known] at mem
            cases mem
          · rw [LogRecord.standing, findTopic]
            by_cases hit : other = name
            · rw [lookup_cons_hit _ hit]
              simp [hit]
            · rw [lookup_cons_miss _ hit]
              simp [hit, findTopic]
  | delete other =>
    rw [replay] at here
    split at here
    · cases here
    · obtain ⟨rfl, -⟩ := Prod.mk.inj here
      refine ⟨distinct.sublist (List.eraseP_sublist.map _), fun name => ?_⟩
      rw [LogRecord.standing]
      by_cases hit : name = other
      · rw [hit, findTopic, dropTopic, lookup_erase_same _ distinct]
        simp
      · rw [findTopic, dropTopic, lookup_erase_other _ hit]
        simp [Ne.symm hit, findTopic]
  | _ => exact inside (fun _ _ _ _ eq => by cases eq) (fun _ eq => by cases eq)

theorem standing_replays {fresh : Bytes → StreamId} : ∀ {records : List LogRecord}
    {a b : List StreamTopic}, (a.map StreamTopic.name).Nodup → Replays fresh a records b →
    ∀ name, (findTopic b name).isSome = standing (findTopic a name).isSome records name
  | [], _, _, _, run, name => by
    cases run
    rfl
  | r :: records, a, b, distinct, run, name => by
    obtain ⟨-, mid, here, rest⟩ := run.cons_inv
    obtain ⟨distinct', step⟩ := standing_replay distinct here
    rw [standing_replays distinct' rest name, step name]
    rfl

end KuttiDB.Stream
