/- # KuttiDB.Stream.RecordBounds -- what replay reads of a record

`replay` over the bytes of a record, as a tree of reads. A record whose checksum matches need not have
been written by this code, so the lengths in it are arbitrary numbers. Two sums can wrap. The loop over
the items of a batch compares the length of a body with what is left of the record behind the item's
header and key, computed without asking whether the key fits; a key that does not fit lets every body
length pass, and body and key are then read behind the end. The comparison for a single append is in
32 bits, where a length close to 2 ^ 32 wraps; such a record is still refused. Nothing else is read
outside (`replay_reads_inside`).

A batch that is accepted has ended exactly at the end of the record, so its items tile it
(`accepted_batch_tiles`) and none reaches outside (`replay_stays_inside`); `batch_key_outside` is a
record whose key is read behind its end.

What the store answers is a parameter: whether the topic is there, and whether `append_memory` takes an
item after those linked before it.
-/
import KuttiDB.QueueStore.Fields
import KuttiDB.Stream.Store
import KuttiDB.Theory.Parse

namespace KuttiDB.Stream

open KuttiDB.QueueStore (Bytes numberAt)
open KuttiDB.Theory

set_option autoImplicit false

/-- An item of a record, with its key and body as offset and length. -/
structure ItemSpans where
  partition : Nat
  offset : Nat
  atMs : Nat
  key : Nat × Nat
  body : Nat × Nat
  deriving DecidableEq, Repr

structure StoreAnswers where
  known : Bool
  taken : Bool
  links : List ItemSpans → ItemSpans → Bool

/-- `append_memory`: an item that is taken is copied, its body and then its key. -/
def appendReads (store : StoreAnswers) (linked : List ItemSpans) (item : ItemSpans)
    (next : Parse (Option (List ItemSpans))) : Parse (Option (List ItemSpans)) :=
  if store.links linked item then .span item.body.1 item.body.2 (.span item.key.1 item.key.2 next)
  else .done none

/-- Subtraction of 64-bit unsigned numbers. Irreducible, since unfolding the sum would count to
2 ^ 64. -/
@[irreducible] def left64 (n used : Nat) : Nat := (n + 2 ^ 64 - used) % 2 ^ 64

/-- An item once its lengths are read; `next` is the rest of the loop. -/
def itemRest (store : StoreAnswers) (header n pos : Nat) (linked : List ItemSpans)
    (next : Nat → List ItemSpans → Parse (Option (List ItemSpans))) (p dl kl : Nat) :
    Parse (Option (List ItemSpans)) :=
  .check (decide (pos + header + kl ≤ n)) <|
    if dl > left64 n (pos + header + kl) then .done none
    else .read (pos + 4) 8 fun offset => .read (pos + 12) 8 fun atMs =>
      let item : ItemSpans := ⟨p, offset, atMs, (pos + header + dl, kl), (pos + header, dl)⟩
      appendReads store linked item (next (pos + header + dl + kl) (linked ++ [item]))

/-- The loop over a batch. With keys an item has the key length at 20 and the body length at 22, and
without them the body length at 20. -/
def itemReads (store : StoreAnswers) (keyed : Bool) (n : Nat) :
    Nat → Nat → List ItemSpans → Parse (Option (List ItemSpans))
  | 0, pos, linked => .done (if pos = n then some linked else none)
  | count + 1, pos, linked =>
    if keyed then
      if pos + 26 > n then .done none
      else .read pos 4 fun p => .read (pos + 22) 4 fun dl => .read (pos + 20) 2 fun kl =>
        itemRest store 26 n pos linked (itemReads store keyed n count) p dl kl
    else
      if pos + 24 > n then .done none
      else .read pos 4 fun p => .read (pos + 20) 4 fun dl =>
        itemRest store 24 n pos linked (itemReads store keyed n count) p dl 0

/-- The records of one topic, whose name has `l` bytes. -/
def topicReads (store : StoreAnswers) (op n l : Nat) : Parse (Option (List ItemSpans)) :=
  let taken := Parse.done (if store.taken then some [] else none)
  if op = 9 then if n ≠ 18 + l then .done none else .read (2 + l) 8 fun _ => .read (10 + l) 8 fun _ => taken
  else if op = 10 then
    if n ≠ 10 + l then .done none
    else .read (2 + l) 8 fun revision => if revision = 0 then .done none else taken
  else if op = 2 then
    if n < 26 + l then .done none
    else .read (2 + l) 4 fun p => .read (22 + l) 4 fun dl =>
      .check (decide (26 + l + dl < 2 ^ 32)) <|
        if n ≠ (26 + l + dl) % 2 ^ 32 then .done none
        else .read (6 + l) 8 fun offset => .read (14 + l) 8 fun atMs =>
          let item : ItemSpans := ⟨p, offset, atMs, (0, 0), (26 + l, dl)⟩
          appendReads store [] item (.done (some [item]))
  else if op = 6 then
    if n < 28 + l then .done none
    else .read (2 + l) 4 fun p => .read (24 + l) 4 fun dl => .read (22 + l) 2 fun kl =>
      if n ≠ 28 + l + dl + kl then .done none
      else .read (6 + l) 8 fun offset => .read (14 + l) 8 fun atMs =>
        let item : ItemSpans := ⟨p, offset, atMs, (28 + l + dl, kl), (28 + l, dl)⟩
        appendReads store [] item (.done (some [item]))
  else if op = 5 ∨ op = 7 then
    if n < 6 + l then .done none
    else .read (2 + l) 4 fun count =>
      if count = 0 ∨ count > streamFetchMax then .done none
      else itemReads store (op = 7) n count (6 + l) []
  else if op = 4 then
    if n ≠ 14 + l then .done none else .read (2 + l) 4 fun _ => .read (6 + l) 8 fun _ => taken
  else if op = 11 then if n ≠ 18 + l then .done none else .span (2 + l) 16 taken
  else if op = 3 then
    if n < 16 + l then .done none
    else .read (2 + l) 2 fun gl =>
      if n ≠ 16 + l + gl then .done none
      else .read (4 + l + gl) 4 fun _ => .span (4 + l) gl (.read (8 + l + gl) 8 fun _ => taken)
  else .done none

/-- `replay` -/
def replayReads (store : StoreAnswers) (op n : Nat) : Parse (Option (List ItemSpans)) :=
  let taken := Parse.done (if store.taken then some [] else none)
  if op = 1 then
    if n < 22 then .done none
    else .read 0 2 fun l =>
      if n ≠ 22 + l then .done none
      else .span 2 l (.read (2 + l) 4 fun _ => .read (6 + l) 8 fun _ => .read (14 + l) 8 fun _ => taken)
  else if n < 2 then .done none
  else .read 0 2 fun l =>
    if l > streamNameMax ∨ n < 2 + l then .done none
    else if op = 8 then if n ≠ 2 + l then .done none else .span 2 l taken
    else .span 2 l (if store.known then topicReads store op n l else .done none)

/-! ## Inside the record -/

/-- Every item of a keyed batch that the loop comes to has a key that fits behind its header. -/
def KeysFit (store : StoreAnswers) (b : Bytes) : Nat → Nat → List ItemSpans → Prop
  | 0, _, _ => True
  | count + 1, pos, linked =>
    let kl := numberAt b (pos + 20) 2
    let dl := numberAt b (pos + 22) 4
    let item : ItemSpans := ⟨numberAt b pos 4, numberAt b (pos + 4) 8, numberAt b (pos + 12) 8,
      (pos + 26 + dl, kl), (pos + 26, dl)⟩
    pos + 26 ≤ b.length → pos + 26 + kl ≤ b.length ∧
      (pos + 26 + dl + kl ≤ b.length → store.links linked item = true →
        KeysFit store b count (pos + 26 + dl + kl) (linked ++ [item]))

/-- Neither of the two sums wraps. -/
def Regular (store : StoreAnswers) (op : Nat) (b : Bytes) : Prop :=
  let l := numberAt b 0 2
  2 + l ≤ b.length → l ≤ streamNameMax → store.known = true →
    (op = 2 → 26 + l ≤ b.length → 26 + l + numberAt b (22 + l) 4 < 2 ^ 32) ∧
    (op = 7 → 6 + l ≤ b.length → numberAt b (2 + l) 4 ≤ streamFetchMax →
      KeysFit store b (numberAt b (2 + l) 4) (6 + l) [])

section Inside

variable {store : StoreAnswers} {b : Bytes}

theorem append_inside {linked : List ItemSpans} {item : ItemSpans}
    {next : Parse (Option (List ItemSpans))} (body : item.body.1 + item.body.2 ≤ b.length)
    (key : 0 < item.key.2 → item.key.1 + item.key.2 ≤ b.length) :
    (appendReads store linked item next).Inside (numberAt b) b.length ↔
      (store.links linked item = true → next.Inside (numberAt b) b.length) := by
  simp only [appendReads, Parse.inside_ite, Parse.inside_span, Parse.inside_done, implies_true,
    and_true]
  constructor
  · intro inside links
    exact (inside links).2.2
  · intro inside links
    exact ⟨fun _ => body, key, inside links⟩

/-- What is left behind header and key, when they fit. -/
theorem left64_exact {n used : Nat} (short : n < 2 ^ 32) (fits : used ≤ n) :
    left64 n used = n - used := by
  unfold left64
  omega

theorem rest_inside (short : b.length < 2 ^ 32) {header pos p dl kl : Nat} (wide : 20 ≤ header)
    (read : pos + header ≤ b.length) {linked : List ItemSpans}
    {next : Nat → List ItemSpans → Parse (Option (List ItemSpans))} :
    (itemRest store header b.length pos linked next p dl kl).Inside (numberAt b) b.length ↔
      pos + header + kl ≤ b.length ∧
        let item : ItemSpans := ⟨p, numberAt b (pos + 4) 8, numberAt b (pos + 12) 8,
          (pos + header + dl, kl), (pos + header, dl)⟩
        (pos + header + dl + kl ≤ b.length → store.links linked item = true →
          (next (pos + header + dl + kl) (linked ++ [item])).Inside (numberAt b) b.length) := by
  rw [itemRest, Parse.inside_check]
  refine and_congr_right fun key => ?_
  rw [left64_exact short key, Parse.inside_ite]
  by_cases body : pos + header + dl + kl ≤ b.length
  · have passes : ¬ dl > b.length - (pos + header + kl) := by omega
    simp only [passes, body, Parse.inside_read, false_implies, true_implies, true_and,
      not_false_iff]
    rw [append_inside (by dsimp only; omega) (by dsimp only; omega)]
    constructor
    · intro inside
      exact inside.2.2
    · intro inside
      exact ⟨by omega, by omega, inside⟩
  · have refused : dl > b.length - (pos + header + kl) := by omega
    exact iff_of_true ⟨fun _ => trivial, fun no => absurd refused no⟩ fun no => absurd no body

theorem keyed_inside (short : b.length < 2 ^ 32) : ∀ (count pos : Nat) (linked : List ItemSpans),
    (itemReads store true b.length count pos linked).Inside (numberAt b) b.length ↔
      KeysFit store b count pos linked
  | 0, _, _ => by simp [itemReads, KeysFit]
  | count + 1, pos, linked => by
    rw [itemReads, if_pos rfl, KeysFit, Parse.inside_ite]
    by_cases header : pos + 26 ≤ b.length
    · have goes : ¬ pos + 26 > b.length := by omega
      simp only [goes, header, Parse.inside_read, false_implies, true_implies, true_and,
        not_false_iff, rest_inside short (by omega : 20 ≤ 26) header, keyed_inside short count]
      constructor
      · intro inside
        exact inside.2.2
      · intro fit
        exact ⟨by omega, by omega, fit⟩
    · exact iff_of_true ⟨fun _ => trivial, fun no => absurd (by omega) no⟩ fun no => absurd no header

theorem plain_inside (short : b.length < 2 ^ 32) : ∀ (count pos : Nat) (linked : List ItemSpans),
    (itemReads store false b.length count pos linked).Inside (numberAt b) b.length
  | 0, _, _ => by simp [itemReads]
  | count + 1, pos, linked => by
    rw [itemReads, if_neg (by decide), Parse.inside_ite]
    refine ⟨fun _ => trivial, fun goes => ⟨by omega, by omega, ?_⟩⟩
    rw [rest_inside short (by omega) (by omega)]
    exact ⟨by omega, fun _ _ => plain_inside short count _ _⟩

end Inside

/-! ## Accepted batches -/

/-- The items follow each other from `pos` to `n`: header, body and key, with nothing between. -/
def Tiled (header n : Nat) : Nat → List ItemSpans → Prop
  | pos, [] => pos = n
  | pos, item :: rest =>
    item.body.1 = pos + header ∧ item.key.1 = item.body.1 + item.body.2 ∧
      Tiled header n (item.key.1 + item.key.2) rest

theorem rest_run {store : StoreAnswers} {header n pos p dl kl : Nat} {linked items : List ItemSpans}
    {number : Nat → Nat → Nat} {next : Nat → List ItemSpans → Parse (Option (List ItemSpans))}
    (accepted : (itemRest store header n pos linked next p dl kl).run number = some items) :
    ∃ item, item.body = (pos + header, dl) ∧ item.key = (pos + header + dl, kl) ∧
      (next (pos + header + dl + kl) (linked ++ [item])).run number = some items := by
  rw [itemRest, Parse.run, Parse.run_ite] at accepted
  by_cases long : dl > left64 n (pos + header + kl)
  · rw [if_pos long, Parse.run] at accepted
    cases accepted
  rw [if_neg long, Parse.run, Parse.run, appendReads, Parse.run_ite] at accepted
  split at accepted
  · rw [Parse.run, Parse.run] at accepted
    exact ⟨_, rfl, rfl, accepted⟩
  · rw [Parse.run] at accepted
    cases accepted

/-- A round that is not refused has linked one item, behind where it was, and goes on behind that. -/
theorem items_round {store : StoreAnswers} {keyed : Bool} {n count pos : Nat}
    {number : Nat → Nat → Nat} {linked items : List ItemSpans}
    (accepted : (itemReads store keyed n (count + 1) pos linked).run number = some items) :
    ∃ item dl kl, item.body = (pos + (if keyed then 26 else 24), dl) ∧
      item.key = (pos + (if keyed then 26 else 24) + dl, kl) ∧
      (itemReads store keyed n count (pos + (if keyed then 26 else 24) + dl + kl)
        (linked ++ [item])).run number = some items := by
  rw [itemReads] at accepted
  cases keyed with
  | true =>
    rw [if_pos rfl, Parse.run_ite] at accepted
    by_cases ended : pos + 26 > n
    · rw [if_pos ended, Parse.run] at accepted
      cases accepted
    rw [if_neg ended, Parse.run, Parse.run, Parse.run] at accepted
    obtain ⟨item, body, key, later⟩ := rest_run accepted
    exact ⟨item, _, _, body, key, later⟩
  | false =>
    rw [if_neg (by decide), Parse.run_ite] at accepted
    by_cases ended : pos + 24 > n
    · rw [if_pos ended, Parse.run] at accepted
      cases accepted
    rw [if_neg ended, Parse.run, Parse.run] at accepted
    obtain ⟨item, body, key, later⟩ := rest_run accepted
    exact ⟨item, _, _, body, key, later⟩

/-- What the loop adds to the items linked before it tiles the record from where it starts. -/
theorem items_tiled {store : StoreAnswers} {keyed : Bool} {n : Nat} {number : Nat → Nat → Nat} :
    ∀ {count pos : Nat} {linked items : List ItemSpans},
      (itemReads store keyed n count pos linked).run number = some items →
      ∃ more, items = linked ++ more ∧ more.length = count ∧
        Tiled (if keyed then 26 else 24) n pos more
  | 0, pos, linked, items, accepted => by
    rw [itemReads, Parse.run, Option.ite_none_right_eq_some] at accepted
    obtain ⟨ends, same⟩ := accepted
    cases same
    exact ⟨[], (List.append_nil _).symm, rfl, ends⟩
  | count + 1, pos, linked, items, accepted => by
    obtain ⟨item, dl, kl, body, key, later⟩ := items_round accepted
    obtain ⟨more, same, length, tiled⟩ := items_tiled later
    refine ⟨item :: more, by rw [same, List.append_assoc, List.singleton_append], by simp [length], ?_⟩
    rw [Tiled, body, key]
    exact ⟨rfl, rfl, tiled⟩

/-! ## Every record -/

section Records

variable {store : StoreAnswers} {b : Bytes}

theorem single_inside {l p dl : Nat} (header : 26 + l ≤ b.length) :
    (Parse.check (decide (26 + l + dl < 2 ^ 32)) <|
      if b.length ≠ (26 + l + dl) % 2 ^ 32 then Parse.done none
      else .read (6 + l) 8 fun offset => .read (14 + l) 8 fun atMs =>
        let item : ItemSpans := ⟨p, offset, atMs, (0, 0), (26 + l, dl)⟩
        appendReads store [] item (.done (some [item]))).Inside (numberAt b) b.length ↔
      26 + l + dl < 2 ^ 32 := by
  rw [Parse.inside_check, Parse.inside_ite]
  refine and_iff_left_of_imp fun exact => ⟨fun _ => trivial, fun same => ⟨by omega, by omega, ?_⟩⟩
  rw [Nat.mod_eq_of_lt exact] at same
  exact (append_inside (by dsimp only; omega) (by dsimp only; omega)).mpr fun _ => trivial

theorem topic_inside (op l : Nat) (short : b.length < 2 ^ 32) (name : 2 + l ≤ b.length) :
    (topicReads store op b.length l).Inside (numberAt b) b.length ↔
      (op = 2 → 26 + l ≤ b.length → 26 + l + numberAt b (22 + l) 4 < 2 ^ 32) ∧
      (op = 7 → 6 + l ≤ b.length → numberAt b (2 + l) 4 ≤ streamFetchMax →
        KeysFit store b (numberAt b (2 + l) 4) (6 + l) []) := by
  have other : op ≠ 2 → op ≠ 7 → (topicReads store op b.length l).Inside (numberAt b) b.length := by
    intro single keys
    simp only [topicReads, if_neg single, Parse.inside_ite, Parse.inside_read, Parse.inside_span,
      Parse.inside_done, implies_true, true_and, and_true]
    refine ⟨by omega, fun _ => ⟨by omega, fun _ => ⟨fun keyed => ?_, fun _ => ⟨fun batch => ?_, by omega⟩⟩⟩⟩
    · intro header
      refine ⟨by omega, by omega, by omega, fun same => ⟨by omega, by omega, ?_⟩⟩
      exact (append_inside (by dsimp only; omega) (by dsimp only; omega)).mpr fun _ => trivial
    · intro header
      refine ⟨by omega, fun _ => ?_⟩
      rw [decide_eq_false keys]
      exact plain_inside short _ _ _
  by_cases single : op = 2
  · subst single
    rw [topicReads, if_neg (by decide), if_neg (by decide), if_pos rfl, Parse.inside_ite]
    by_cases header : 26 + l ≤ b.length
    · have goes : ¬ b.length < 26 + l := by omega
      simp only [goes, header, false_implies, true_implies, true_and, not_false_iff,
        Parse.inside_read, single_inside header]
      constructor
      · intro inside
        exact ⟨inside.2.2, fun no => absurd no (by decide)⟩
      · intro exact
        exact ⟨by omega, by omega, exact.1⟩
    · exact iff_of_true ⟨fun _ => trivial, fun no => absurd (by omega) no⟩
        ⟨fun _ no => absurd no header, fun no => absurd no (by decide)⟩
  by_cases keys : op = 7
  · subst keys
    rw [topicReads, if_neg (by decide), if_neg (by decide), if_neg (by decide), if_neg (by decide),
      if_pos (by decide), Parse.inside_ite]
    by_cases header : 6 + l ≤ b.length
    · have goes : ¬ b.length < 6 + l := by omega
      simp only [goes, header, true_implies, true_and, not_false_iff,
        Parse.inside_read, Parse.inside_ite, Parse.inside_done, implies_true, decide_true,
        keyed_inside short]
      constructor
      · intro inside
        refine ⟨fun no => absurd no (by decide), fun few => ?_⟩
        by_cases none : numberAt b (2 + l) 4 = 0
        · rw [none]
          exact trivial
        · exact inside.2 (by omega)
      · intro fit
        exact ⟨by omega, fun some => fit.2 (by omega)⟩
    · exact iff_of_true ⟨fun _ => trivial, fun no => absurd (by omega) no⟩
        ⟨fun no => absurd no (by decide), fun _ no => absurd no header⟩
  · exact iff_of_true (other single keys) ⟨fun no => absurd no single, fun no => absurd no keys⟩

theorem inside_iff_regular (op : Nat) (short : b.length < 2 ^ 32) :
    (replayReads store op b.length).Inside (numberAt b) b.length ↔ Regular store op b := by
  have declares : op = 1 → Regular store op b := by
    intro one _ _ _
    exact ⟨fun no => by omega, fun no => by omega⟩
  have deletes : op = 8 → Regular store op b := by
    intro eight _ _ _
    exact ⟨fun no => by omega, fun no => by omega⟩
  unfold replayReads
  simp only [Parse.inside_ite, Parse.inside_read, Parse.inside_span, Parse.inside_done,
    implies_true, true_and, and_true]
  constructor
  · intro inside
    by_cases one : op = 1
    · exact declares one
    by_cases eight : op = 8
    · exact deletes eight
    intro name short' known
    exact (topic_inside op _ short name).mp
      ((((inside.2 one) (by omega)).2 (by omega)).2 eight |>.2 known)
  · intro regular
    refine ⟨by omega, fun _ some => ⟨by omega, fun fits => ⟨by omega, fun _ => ⟨by omega, ?_⟩⟩⟩⟩
    intro known
    exact (topic_inside op _ short (by omega)).mpr (regular (by omega) (by omega) known)

/-- Whatever the operation and the body: replay reads within it, and compares what did not wrap,
exactly when it is regular. -/
theorem replay_reads_inside (store : StoreAnswers) (op : Nat) (b : Bytes)
    (short : b.length < 2 ^ 32) :
    (replayReads store op b.length).Inside (numberAt b) b.length ↔ Regular store op b :=
  inside_iff_regular op short

/-- An append of one byte is read within. A keyed batch of 33 bytes whose key has 65535 by its length
field is not, when its topic is there. -/
theorem replay_reads_inside_two :
    let store : StoreAnswers := ⟨true, true, fun _ _ => true⟩
    let single : Bytes := [1, 0, 0x74] ++ List.replicate 20 0 ++ [1, 0, 0, 0, 7]
    let batch : Bytes := [1, 0, 0x74] ++ [1, 0, 0, 0] ++ List.replicate 20 0 ++ [0xff, 0xff, 0, 0, 0, 0]
    (replayReads store 2 single.length).Inside (numberAt single) single.length ∧
      ¬ (replayReads store 7 batch.length).Inside (numberAt batch) batch.length := by
  constructor
  · refine (replay_reads_inside _ 2 _ (by decide +kernel)).mpr fun _ _ _ => ⟨fun _ _ => ?_, fun no => ?_⟩
    · decide +kernel
    · cases no
  · intro inside
    have regular := (replay_reads_inside _ 7 _ (by decide +kernel)).mp inside
    have fit := (regular (by decide +kernel) (by decide +kernel) rfl).2 rfl (by decide +kernel)
      (by decide +kernel)
    exact absurd (fit (by decide +kernel)).1 (by decide +kernel)

theorem topicReads_batch {op n l : Nat} (batch : op = 5 ∨ op = 7) :
    topicReads store op n l =
      if n < 6 + l then .done none
      else .read (2 + l) 4 fun count =>
        if count = 0 ∨ count > streamFetchMax then .done none
        else itemReads store (op = 7) n count (6 + l) [] := by
  rw [topicReads, if_neg (by omega), if_neg (by omega), if_neg (by omega), if_neg (by omega),
    if_pos batch]

theorem batch_tiled {op : Nat} {items : List ItemSpans} (batch : op = 5 ∨ op = 7)
    (accepted : (replayReads store op b.length).run (numberAt b) = some items) :
    items.length = numberAt b (2 + numberAt b 0 2) 4 ∧
      Tiled (if op = 7 then 26 else 24) b.length (6 + numberAt b 0 2) items := by
  simp only [replayReads, if_neg (by omega : ¬ op = 1), if_neg (by omega : ¬ op = 8),
    topicReads_batch batch, Parse.run_ite, Parse.run, Option.ite_none_left_eq_some,
    Option.ite_none_right_eq_some] at accepted
  obtain ⟨-, -, -, -, -, loop⟩ := accepted
  obtain ⟨more, same, length, tiled⟩ := items_tiled loop
  rw [List.nil_append] at same
  subst same
  simp only [decide_eq_true_eq] at tiled
  exact ⟨length, tiled⟩

/-- A batch that is accepted has as many items as it says, and they tile the record behind its own
header, so that no key and no body reaches outside or into another. -/
theorem accepted_batch_tiles (store : StoreAnswers) (op : Nat) (b : Bytes) (items : List ItemSpans)
    (batch : op = 5 ∨ op = 7)
    (accepted : (replayReads store op b.length).run (numberAt b) = some items) :
    items.length = numberAt b (2 + numberAt b 0 2) 4 ∧
      Tiled (if op = 7 then 26 else 24) b.length (6 + numberAt b 0 2) items :=
  batch_tiled batch accepted

/-- Two items, one with a key, behind a name of one byte. -/
theorem accepted_batch_tiles_two :
    let b : Bytes := [1, 0, 0x74] ++ [2, 0, 0, 0] ++ (List.replicate 20 0 ++ [1, 0, 2, 0, 0, 0, 8, 9, 0x6b])
      ++ (List.replicate 20 0 ++ [0, 0, 0, 0, 0, 0])
    ∃ items, (replayReads ⟨true, true, fun _ _ => true⟩ 7 b.length).run (numberAt b) = some items ∧
      items.length = 2 ∧ Tiled 26 b.length 7 items := by
  intro b
  have accepted : (replayReads ⟨true, true, fun _ _ => true⟩ 7 b.length).run (numberAt b) =
      some [⟨0, 0, 0, (35, 1), (33, 2)⟩, ⟨0, 0, 0, (62, 0), (62, 0)⟩] := by decide +kernel
  obtain ⟨length, tiled⟩ := accepted_batch_tiles _ 7 b _ (.inr rfl) accepted
  exact ⟨_, accepted, rfl, tiled⟩

theorem Tiled.inside {header n : Nat} : ∀ {items : List ItemSpans} {pos : Nat}, Tiled header n pos items →
    pos ≤ n ∧ ∀ item ∈ items, item.body.1 + item.body.2 ≤ n ∧ item.key.1 + item.key.2 ≤ n
  | [], _, ends => ⟨Nat.le_of_eq ends, fun _ no => absurd no List.not_mem_nil⟩
  | first :: rest, pos, tiled => by
    obtain ⟨body, key, tiled⟩ := tiled
    obtain ⟨within, others⟩ := tiled.inside
    refine ⟨by omega, fun item mem => ?_⟩
    rcases List.mem_cons.mp mem with rfl | later
    · exact ⟨by omega, within⟩
    · exact others item later

/-- Replay reads within the record and compares what did not wrap exactly when the record is regular;
of a batch that is accepted every body and every key lies within, regular or not. -/
theorem replay_stays_inside (store : StoreAnswers) (op : Nat) (b : Bytes) (short : b.length < 2 ^ 32) :
    ((replayReads store op b.length).Inside (numberAt b) b.length ↔ Regular store op b) ∧
    ∀ items, op = 5 ∨ op = 7 → (replayReads store op b.length).run (numberAt b) = some items →
      ∀ item ∈ items, item.body.1 + item.body.2 ≤ b.length ∧ item.key.1 + item.key.2 ≤ b.length :=
  ⟨inside_iff_regular op short, fun _ batch accepted => (batch_tiled batch accepted).2.inside.2⟩

/-- A batch with one item, key and body of a byte each. -/
theorem replay_stays_inside_keyed :
    let b : Bytes := [1, 0, 0x74, 1, 0, 0, 0] ++ List.replicate 20 0 ++ [1, 0, 1, 0, 0, 0, 8, 0x6b]
    (replayReads ⟨true, true, fun _ _ => true⟩ 7 b.length).Inside (numberAt b) b.length ∧
      ∃ items, (replayReads ⟨true, true, fun _ _ => true⟩ 7 b.length).run (numberAt b) = some items ∧
        ∀ item ∈ items, item.body.1 + item.body.2 ≤ 35 ∧ item.key.1 + item.key.2 ≤ 35 := by
  intro b
  obtain ⟨reads, spans⟩ := replay_stays_inside ⟨true, true, fun _ _ => true⟩ 7 b (by decide +kernel)
  have accepted : (replayReads ⟨true, true, fun _ _ => true⟩ 7 b.length).run (numberAt b) =
      some [⟨0, 0, 0, (34, 1), (33, 1)⟩] := by decide +kernel
  refine ⟨reads.mpr fun _ _ _ => ⟨fun no => ?_, fun _ _ _ => ?_⟩, _, accepted,
    spans _ (.inr rfl) accepted⟩
  · cases no
  · exact fun _ => ⟨by decide +kernel, fun _ _ => trivial⟩

/-- **The key is read behind the record**: the only item of the batch says that its key has 65535
bytes, and the record ends with its header. -/
theorem batch_key_outside :
    let b : Bytes := [1, 0, 0x74, 1, 0, 0, 0] ++ List.replicate 20 0 ++ [0xff, 0xff, 0, 0, 0, 0]
    ¬ (replayReads ⟨true, true, fun _ _ => true⟩ 7 b.length).Inside (numberAt b) b.length := by
  intro b inside
  have regular := (inside_iff_regular 7 (by decide +kernel)).mp inside
  have fit := (regular (by decide +kernel) (by decide +kernel) rfl).2 rfl (by decide +kernel)
    (by decide +kernel)
  exact absurd (fit (by decide +kernel)).1 (by decide +kernel)

end Records

end KuttiDB.Stream
