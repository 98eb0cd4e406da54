/- # KuttiDB.Job.ReceiptInventory -- the receipts in pages

`job_receipt_foreach` delivers receipts in ascending order of completion time and operation id, at most
`max_entries` of those behind a position. One walk over the buckets keeps the smallest ones in an array
and remembers the place of the largest; the array is sorted afterwards.

After a replacement the place of the largest is searched again, but from slot 1 on: the receipt in slot
0 is only looked at when slot 0 itself was replaced. So slot 0 is replaced while its receipt is the
largest that is kept; as soon as a larger one is kept elsewhere, the receipt in slot 0 stays there for
the rest of the walk (`Settled`), also when it has become the largest. The other slots then hold the
smallest of the others. `slotZero` computes that receipt from the walk, and a call is right exactly
when fewer than `max_entries` matching receipts are smaller than it (`foreach_iff`).
-/
import KuttiDB.Job.Engine
import KuttiDB.Theory.Lookup
import KuttiDB.Theory.Selection
import Mathlib.Data.List.Lex
import Mathlib.Data.Prod.Lex

namespace KuttiDB.Job

open KuttiDB.QueueStore (Bytes JobKind)
open KuttiDB.Theory

set_option autoImplicit false

/-! ## The walk -/

structure ReceiptSel where
  completedAtMs : Nat
  opId : Bytes
  deriving DecidableEq, Repr

/-- Completion time first, then the bytes of the operation id as `memcmp` orders them. -/
def receiptSelLess (a b : ReceiptSel) : Bool :=
  if a.completedAtMs ≠ b.completedAtMs then decide (a.completedAtMs < b.completedAtMs)
  else decide (a.opId < b.opId)

def JobReceiptRec.sel (r : JobReceiptRec) : ReceiptSel := ⟨r.completedAtMs, r.opId⟩

/-- The chains of the buckets one after the other. -/
def receiptWalk (je : JobEngine) : List JobReceiptRec :=
  (List.range jobReceiptBuckets).flatMap fun b =>
    je.receipts.filter fun r => jobReceiptBucket r.opId = b

/-- A filter and a position in the order. A position with an operation id of zeros is none. -/
structure ReceiptQuery where
  kindFilter : Nat
  afterCompletedMs : Nat
  afterOp : Option Bytes
  deriving DecidableEq, Repr

def ReceiptQuery.positioned (query : ReceiptQuery) : Bool :=
  query.afterOp.any fun op => op != List.replicate jobIdLen 0

def ReceiptQuery.selects (query : ReceiptQuery) (r : JobReceiptRec) : Bool :=
  (query.kindFilter = 0 || r.kind.code = query.kindFilter % 256) &&
    (!query.positioned ||
      receiptSelLess ⟨query.afterCompletedMs, query.afterOp.getD []⟩ r.sel)

/-- The slots filled so far; `largest` is the slot of the largest of them. -/
structure ReceiptSelection where
  sel : List ReceiptSel
  largest : Nat
  total : Nat
  deriving DecidableEq, Repr

/-- A slot; the array comes zeroed. -/
def selAt (sel : List ReceiptSel) (i : Nat) : ReceiptSel := sel.getD i ⟨0, List.replicate jobIdLen 0⟩

/-- The search for the largest after a replacement: slots 1, 2, … against the replaced one. -/
def rederiveLargest (sel : List ReceiptSel) (largest : Nat) : Nat :=
  (List.range' 1 (sel.length - 1)).foldl
    (fun l i => if receiptSelLess (selAt sel l) (selAt sel i) then i else l) largest

def receiptSelect (maxEntries : Nat) (st : ReceiptSelection) (r : ReceiptSel) : ReceiptSelection :=
  if st.sel.length < maxEntries then
    { sel := st.sel ++ [r]
      largest :=
        if st.sel.length = 0 || receiptSelLess (selAt st.sel st.largest) r then st.sel.length
        else st.largest
      total := st.total + 1 }
  else if receiptSelLess r (selAt st.sel st.largest) then
    let replaced := st.sel.set st.largest r
    { sel := replaced, largest := rederiveLargest replaced st.largest, total := st.total + 1 }
  else { st with total := st.total + 1 }

/-- One turn of the insertion sort: the key moves left past the slots above it. -/
def receiptShift (sorted : List ReceiptSel) (key : ReceiptSel) : List ReceiptSel :=
  sorted.rdropWhile (receiptSelLess key) ++ key :: sorted.rtakeWhile (receiptSelLess key)

/-- What the callback is given, and the number of matching receipts. -/
def jobReceiptForeach (je : JobEngine) (query : ReceiptQuery) (maxEntries : Nat) :
    List JobReceiptRec × Nat :=
  if maxEntries = 0 then ([], 0)
  else
    let picked := (((receiptWalk je).filter query.selects).map JobReceiptRec.sel).foldl
      (receiptSelect maxEntries) ⟨[], 0, 0⟩
    ((picked.sel.foldl receiptShift []).filterMap fun s => jobReceiptFindLocked je s.opId, picked.total)

/-! ## The order -/

def ReceiptSel.key (s : ReceiptSel) : Nat ×ₗ List Nat := toLex (s.completedAtMs, s.opId.map UInt8.toNat)

theorem ReceiptSel.key_injective : Function.Injective ReceiptSel.key := by
  intro a b same
  obtain ⟨times, ids⟩ := Prod.ext_iff.mp (toLex.injective same)
  obtain ⟨aTime, aId⟩ := a
  obtain ⟨bTime, bId⟩ := b
  have bytes : aId = bId := List.map_injective_iff.mpr (fun x y eq => UInt8.toNat_inj.mp eq) ids
  rw [ReceiptSel.mk.injEq]
  exact ⟨times, bytes⟩

instance : LinearOrder ReceiptSel := LinearOrder.lift' ReceiptSel.key ReceiptSel.key_injective

theorem bytes_lt_iff (xs ys : Bytes) : xs < ys ↔ xs.map UInt8.toNat < ys.map UInt8.toNat := by
  induction xs generalizing ys with
  | nil => cases ys <;> simp
  | cons x xs ih =>
      cases ys with
      | nil => simp
      | cons y ys =>
          simp only [List.map_cons, List.cons_lt_cons_iff, ih, UInt8.lt_iff_toNat_lt, UInt8.toNat_inj]

theorem receiptSelLess_iff (a b : ReceiptSel) : receiptSelLess a b = true ↔ a < b := by
  have order : a < b ↔ a.key < b.key := Iff.rfl
  rw [order, ReceiptSel.key, ReceiptSel.key, Prod.Lex.toLex_lt_toLex, receiptSelLess]
  by_cases same : a.completedAtMs = b.completedAtMs
  · simp [same, bytes_lt_iff]
  · simp [same]

theorem receiptSelLess_eq (a b : ReceiptSel) : receiptSelLess a b = decide (a < b) := by
  rw [Bool.eq_iff_iff, receiptSelLess_iff, decide_eq_true_iff]

/-! ## The search for the largest -/

theorem selAt_mem {sel : List ReceiptSel} {i : Nat} (inside : i < sel.length) : selAt sel i ∈ sel := by
  rw [selAt, List.getD_eq_getElem?_getD, List.getElem?_eq_getElem inside]
  exact List.getElem_mem inside

theorem exists_selAt {sel : List ReceiptSel} {y : ReceiptSel} (mem : y ∈ sel) :
    ∃ i, i < sel.length ∧ selAt sel i = y := by
  obtain ⟨i, inside, rfl⟩ := List.getElem_of_mem mem
  refine ⟨i, inside, ?_⟩
  rw [selAt, List.getD_eq_getElem?_getD, List.getElem?_eq_getElem inside, Option.getD_some]

/-- The search ends at the largest of slots 1, 2, … and of the slot it started from. -/
structure Searched (sel : List ReceiptSel) (start upto found : Nat) : Prop where
  valid : found < sel.length
  begun : selAt sel start ≤ selAt sel found
  slots : ∀ i, 1 ≤ i → i < upto → selAt sel i ≤ selAt sel found
  later : 1 ≤ start → 1 ≤ found

theorem search_upto {sel : List ReceiptSel} {start : Nat} (valid : start < sel.length) (n : Nat)
    (inside : n + 1 ≤ sel.length) :
    Searched sel start (n + 1) ((List.range' 1 n).foldl
      (fun l i => if receiptSelLess (selAt sel l) (selAt sel i) then i else l) start) := by
  induction n with
  | zero => exact ⟨valid, le_refl _, fun i low high => by omega, fun low => low⟩
  | succ n ih =>
      have before := ih (by omega)
      rw [List.range'_1_concat, List.foldl_append, List.foldl_cons, List.foldl_nil]
      generalize (List.range' 1 n).foldl
        (fun l i => if receiptSelLess (selAt sel l) (selAt sel i) then i else l) start = found at before ⊢
      have slots (l : Nat) (raised : selAt sel found ≤ selAt sel l)
          (last : selAt sel (1 + n) ≤ selAt sel l) (i : Nat) (low : 1 ≤ i) (high : i < n + 1 + 1) :
          selAt sel i ≤ selAt sel l := by
        rcases Nat.lt_or_ge i (n + 1) with early | late
        · exact le_trans (before.slots i low early) raised
        · obtain rfl : i = 1 + n := by omega
          exact last
      by_cases less : selAt sel found < selAt sel (1 + n)
      · rw [if_pos ((receiptSelLess_iff _ _).mpr less)]
        exact ⟨by omega, le_trans before.begun (le_of_lt less), slots _ (le_of_lt less) (le_refl _),
          fun _ => by omega⟩
      · rw [if_neg (fun holds => less ((receiptSelLess_iff _ _).mp holds))]
        exact ⟨before.valid, before.begun, slots _ (le_refl _) (not_lt.mp less), before.later⟩

theorem rederiveLargest_searched {sel : List ReceiptSel} {start : Nat} (valid : start < sel.length) :
    Searched sel start sel.length (rederiveLargest sel start) := by
  have searched := search_upto valid (sel.length - 1) (by omega)
  rwa [Nat.sub_add_cancel (by omega)] at searched

/-- `l` is the place of the largest. -/
structure Tops (sel : List ReceiptSel) (l : Nat) : Prop where
  valid : l < sel.length
  top : ∀ y ∈ sel, y ≤ selAt sel l

theorem selAt_eq {sel : List ReceiptSel} {i : Nat} (inside : i < sel.length) :
    selAt sel i = sel[i] := by
  rw [selAt, List.getD_eq_getElem?_getD, List.getElem?_eq_getElem inside, Option.getD_some]

/-- A search that starts from slot 0 looks at every slot. -/
theorem tops_of_zero {head : ReceiptSel} (rest : List ReceiptSel) :
    Tops (head :: rest) (rederiveLargest (head :: rest) 0) := by
  have searched : Searched (head :: rest) 0 _ _ := rederiveLargest_searched (by simp)
  refine ⟨searched.valid, fun y mem => ?_⟩
  obtain ⟨i, inside, rfl⟩ := exists_selAt mem
  rcases Nat.eq_zero_or_pos i with rfl | low
  · exact searched.begun
  · exact searched.slots i low inside

/-- A search that starts behind slot 0 stays there. -/
theorem tops_of_succ (head : ReceiptSel) {rest : List ReceiptSel} {l : Nat} (inside : l < rest.length) :
    ∃ m, rederiveLargest (head :: rest) (l + 1) = m + 1 ∧ Tops rest m := by
  have searched : Searched (head :: rest) (l + 1) _ _ :=
    rederiveLargest_searched (by simpa using inside)
  have behind := searched.later (by omega)
  obtain ⟨m, isSucc⟩ : ∃ m, rederiveLargest (head :: rest) (l + 1) = m + 1 :=
    ⟨rederiveLargest (head :: rest) (l + 1) - 1, by omega⟩
  rw [isSucc] at searched
  refine ⟨m, isSucc, by simpa using searched.valid, fun y mem => ?_⟩
  obtain ⟨i, inside, rfl⟩ := exists_selAt mem
  exact searched.slots (i + 1) (by omega) (by simpa using inside)

/-! ## The receipt in slot 0 -/

/-- How many of `sels` are smaller than `s`. -/
def countLess (s : ReceiptSel) (sels : List ReceiptSel) : Nat := sels.countP fun t => receiptSelLess t s

/-- What slot 0 holds when the walk ends; `seen` has filled the slots and `head` is in slot 0. While
`head` is the largest that is kept, the next smaller receipt replaces it. -/
def slotZero (maxEntries : Nat) (head : ReceiptSel) (seen : List ReceiptSel) :
    List ReceiptSel → ReceiptSel
  | [] => head
  | x :: later =>
      if countLess head seen + 1 < maxEntries then head
      else slotZero maxEntries (if receiptSelLess x head then x else head) (seen ++ [x]) later

/-- Fewer than `maxEntries` of the receipts are smaller than the one that ends in slot 0. -/
def SlotZeroFits (maxEntries : Nat) (walk : List ReceiptSel) : Prop :=
  ∀ first ∈ walk.head?,
    countLess (slotZero maxEntries first (walk.take maxEntries) (walk.drop maxEntries)) walk < maxEntries

instance (maxEntries : Nat) (walk : List ReceiptSel) : Decidable (SlotZeroFits maxEntries walk) := by
  unfold SlotZeroFits
  infer_instance

theorem countLess_eq (s : ReceiptSel) (sels : List ReceiptSel) :
    countLess s sels = sels.countP fun t => t < s := by
  simp only [countLess, receiptSelLess_eq]

/-! ## The walk, turn by turn -/

section Select

variable {k l total : Nat} {sel : List ReceiptSel} {x : ReceiptSel}

theorem receiptSelect_less (full : sel.length = k) (less : x < selAt sel l) :
    receiptSelect k ⟨sel, l, total⟩ x =
      ⟨sel.set l x, rederiveLargest (sel.set l x) l, total + 1⟩ := by
  rw [receiptSelect, if_neg (by simp [full]), if_pos ((receiptSelLess_iff _ _).mpr less)]

theorem receiptSelect_skip (full : sel.length = k) (above : ¬ x < selAt sel l) :
    receiptSelect k ⟨sel, l, total⟩ x = ⟨sel, l, total + 1⟩ := by
  rw [receiptSelect, if_neg (by simp [full]),
    if_neg fun holds => above ((receiptSelLess_iff _ _).mp holds)]

theorem receiptSelect_total (k : Nat) (st : ReceiptSelection) (x : ReceiptSel) :
    (receiptSelect k st x).total = st.total + 1 := by
  unfold receiptSelect
  split
  · rfl
  · split <;> rfl

theorem walk_total (walk : List ReceiptSel) (st : ReceiptSelection) :
    (walk.foldl (receiptSelect k) st).total = st.total + walk.length := by
  induction walk generalizing st with
  | nil => rfl
  | cons x walk ih =>
      rw [List.foldl_cons, ih, receiptSelect_total, List.length_cons]
      omega

theorem Tops.grow (tops : Tops sel l) :
    Tops (sel ++ [x]) (if receiptSelLess (selAt sel l) x then sel.length else l) := by
  have last : selAt (sel ++ [x]) sel.length = x := by simp [selAt, List.getD_eq_getElem?_getD]
  have old : selAt (sel ++ [x]) l = selAt sel l := by
    simp only [selAt, List.getD_eq_getElem?_getD]
    rw [List.getElem?_append_left tops.valid]
  have split {y : ReceiptSel} (mem : y ∈ sel ++ [x]) : y ≤ selAt sel l ∨ y = x :=
    (List.mem_append.mp mem).imp (tops.top y) List.mem_singleton.mp
  by_cases less : selAt sel l < x
  · rw [if_pos ((receiptSelLess_iff _ _).mpr less)]
    refine ⟨by simp, fun y mem => ?_⟩
    rw [last]
    exact (split mem).elim (fun le => le.trans less.le) le_of_eq
  · rw [if_neg fun holds => less ((receiptSelLess_iff _ _).mp holds)]
    refine ⟨?_, fun y mem => ?_⟩
    · rw [List.length_append]
      exact Nat.lt_add_right _ tops.valid
    · rw [old]
      exact (split mem).elim id fun same => same ▸ not_lt.mp less

end Select

/-- The first receipts fill the slots. -/
theorem fill {k : Nat} (positive : 0 < k) (first : ReceiptSel) {xs : List ReceiptSel}
    (room : xs.length < k) :
    ∃ l, (first :: xs).foldl (receiptSelect k) ⟨[], 0, 0⟩ = ⟨first :: xs, l, xs.length + 1⟩ ∧
      Tops (first :: xs) l := by
  induction xs using List.reverseRecOn with
  | nil =>
      refine ⟨0, ?_, by simp, fun y mem => le_of_eq (List.mem_singleton.mp mem)⟩
      simp [receiptSelect, positive]
  | append_singleton xs x ih =>
      rw [List.length_append, List.length_singleton] at room
      obtain ⟨l, filled, tops⟩ := ih (by omega)
      refine ⟨_, ?_, tops.grow (x := x)⟩
      rw [← List.cons_append, List.foldl_append, filled, List.foldl_cons, List.foldl_nil,
        receiptSelect, if_pos (by simpa using room)]
      simp

/-- The full slots hold the smallest of what the walk has seen, and the place of the largest is
right. -/
structure Tracks (n : Nat) (seen : List ReceiptSel) (head : ReceiptSel) (st : ReceiptSelection) :
    Prop where
  small : Smallest (n + 1) seen st.sel
  full : st.sel.length = n + 1
  tops : Tops st.sel st.largest
  slot : st.sel.head? = some head

/-- Slot 0 is out of reach, and the others hold the smallest of the others. -/
structure Settled (n : Nat) (seen : List ReceiptSel) (head : ReceiptSel) (st : ReceiptSelection) :
    Prop where
  met : head ∈ seen
  slots : ∃ rest l, st.sel = head :: rest ∧ st.largest = l + 1 ∧ Tops rest l ∧ rest.length = n ∧
    Smallest n (seen.erase head) rest

section Turn

variable {n : Nat} {seen : List ReceiptSel} {head x : ReceiptSel} {st : ReceiptSelection}

theorem Tracks.cons (tracks : Tracks n seen head st) :
    ∃ rest, st.sel = head :: rest ∧ rest.length = n := by
  obtain ⟨rest, isCons⟩ := List.head?_eq_some_iff.mp tracks.slot
  have full := tracks.full
  rw [isCons, List.length_cons] at full
  exact ⟨rest, isCons, by omega⟩

/-- All other kept receipts are below the one in slot 0 just when enough receipts are. -/
theorem Tracks.largest_zero_iff (tracks : Tracks n seen head st) (distinct : seen.Nodup) :
    st.largest = 0 ↔ ¬ countLess head seen < n := by
  obtain ⟨rest, isCons, size⟩ := tracks.cons
  have small := tracks.small
  have tops := tracks.tops
  rw [isCons] at small tops
  have apart := List.nodup_cons.mp small.distinct
  rw [countLess_eq, List.countP_eq_length_filter, not_lt]
  constructor
  · intro zero
    have sub : rest.Subperm (seen.filter fun t => t < head) := by
      refine List.Nodup.subperm apart.2 fun t mem => List.mem_filter.mpr
        ⟨small.subset (List.mem_cons_of_mem _ mem), decide_eq_true ?_⟩
      have le := tops.top t (List.mem_cons_of_mem _ mem)
      rw [zero] at le
      exact lt_of_le_of_ne le fun same => apart.1 (same ▸ mem)
    exact size ▸ sub.length_le
  · intro many
    by_contra behind
    obtain ⟨l, isSucc⟩ : ∃ l, st.largest = l + 1 := ⟨st.largest - 1, by omega⟩
    rw [isSucc] at tops
    have inside : l < rest.length := by simpa using tops.valid
    -- `selAt rest l` is kept and not below `head`, so it is missing in the count
    have sub : (seen.filter fun t => t < head).Subperm (rest.erase (selAt rest l)) := by
      refine List.Nodup.subperm (distinct.filter _) fun t mem => ?_
      obtain ⟨inSeen, lower⟩ := List.mem_filter.mp mem
      rw [decide_eq_true_eq] at lower
      have inRest := (List.mem_cons.mp (small.kept_of_lt List.mem_cons_self inSeen lower)).resolve_left
        (ne_of_lt lower)
      refine (List.Nodup.mem_erase_iff apart.2).mpr ⟨fun same => ?_, inRest⟩
      exact absurd (tops.top head List.mem_cons_self) (not_le.mpr (same ▸ lower))
    have count := sub.length_le
    rw [List.length_erase_of_mem (selAt_mem inside)] at count
    omega

/-- A larger receipt is kept: slot 0 is not the place of the largest. -/
theorem Tracks.settled (tracks : Tracks n seen head st) (distinct : seen.Nodup)
    (few : countLess head seen < n) : Settled n seen head st := by
  have behind : st.largest ≠ 0 := fun zero => (tracks.largest_zero_iff distinct).mp zero few
  obtain ⟨rest, isCons, size⟩ := tracks.cons
  obtain ⟨l, isSucc⟩ : ∃ l, st.largest = l + 1 := ⟨st.largest - 1, by omega⟩
  have small := tracks.small
  have tops := tracks.tops
  rw [isCons] at small tops
  rw [isSucc] at tops
  exact ⟨small.subset List.mem_cons_self, rest, l, isCons, isSucc,
    ⟨by simpa using tops.valid, fun y mem => tops.top y (List.mem_cons_of_mem _ mem)⟩, size,
    small.tail distinct⟩

/-- The receipt in slot 0 is the largest: it is replaced by a smaller one. -/
theorem Tracks.turn (tracks : Tracks n seen head st) (zero : st.largest = 0) (new : x ∉ seen) :
    Tracks n (seen ++ [x]) (if receiptSelLess x head then x else head) (receiptSelect (n + 1) st x) := by
  obtain ⟨rest, isCons, size⟩ := tracks.cons
  obtain ⟨sel, largest, total⟩ := st
  obtain ⟨small, full, tops, -⟩ := tracks
  subst isCons zero
  by_cases less : x < head
  · rw [if_pos ((receiptSelLess_iff _ _).mpr less), receiptSelect_less full less]
    exact ⟨small.replace full new tops.valid tops.top less, full, tops_of_zero rest, rfl⟩
  · rw [if_neg fun holds => less ((receiptSelLess_iff _ _).mp holds), receiptSelect_skip full less]
    refine ⟨small.skip full fun y kept => ?_, full, tops, rfl⟩
    refine lt_of_le_of_ne ((tops.top y kept).trans (not_lt.mp less)) fun same => new ?_
    exact same ▸ small.subset kept

theorem Settled.turn (settled : Settled n seen head st) (new : x ∉ seen) :
    Settled n (seen ++ [x]) head (receiptSelect (n + 1) st x) := by
  obtain ⟨met, rest, l, isCons, isSucc, tops, size, small⟩ := settled
  obtain ⟨sel, largest, total⟩ := st
  subst isCons isSucc
  have fresh : x ∉ seen.erase head := fun mem => new (List.mem_of_mem_erase mem)
  have value := selAt_eq tops.valid
  refine ⟨List.mem_append_left _ met, ?_⟩
  rw [List.erase_append_left _ met]
  have full : (head :: rest).length = n + 1 := by rw [List.length_cons, size]
  by_cases less : x < selAt rest l
  · rw [receiptSelect_less full less]
    obtain ⟨m, isSucc, tops'⟩ := tops_of_succ head (show l < (rest.set l x).length by simpa using tops.valid)
    exact ⟨rest.set l x, m, rfl, isSucc, tops', by simpa using size,
      small.replace size fresh tops.valid (value ▸ tops.top) (value ▸ less)⟩
  · rw [receiptSelect_skip full less]
    refine ⟨rest, l, rfl, rfl, tops, size, small.skip size fun y kept => ?_⟩
    refine lt_of_le_of_ne ((tops.top y kept).trans (not_lt.mp less)) fun same => fresh ?_
    exact same ▸ small.subset kept

theorem new_of_nodup {later : List ReceiptSel} (distinct : (seen ++ x :: later).Nodup) : x ∉ seen :=
  fun old => (List.nodup_append.mp distinct).2.2 x old x List.mem_cons_self rfl

theorem Settled.walk (settled : Settled n seen head st) {later : List ReceiptSel}
    (distinct : (seen ++ later).Nodup) :
    Settled n (seen ++ later) head (later.foldl (receiptSelect (n + 1)) st) := by
  induction later generalizing seen st with
  | nil => rwa [List.append_nil]
  | cons x later ih =>
      have next := ih (settled.turn (new_of_nodup distinct)) (by rwa [List.append_assoc])
      rwa [List.append_assoc] at next

/-- The whole walk: slot 0 ends with `slotZero`, found or missed by the search. -/
theorem Tracks.walk (tracks : Tracks n seen head st) {later : List ReceiptSel}
    (distinct : (seen ++ later).Nodup) :
    Tracks n (seen ++ later) (slotZero (n + 1) head seen later)
        (later.foldl (receiptSelect (n + 1)) st) ∨
      Settled n (seen ++ later) (slotZero (n + 1) head seen later)
        (later.foldl (receiptSelect (n + 1)) st) := by
  induction later generalizing seen head st with
  | nil =>
      rw [List.append_nil]
      exact Or.inl tracks
  | cons x later ih =>
      have before := (List.nodup_append.mp distinct).1
      rw [slotZero]
      by_cases few : countLess head seen < n
      · rw [if_pos (by omega)]
        exact Or.inr ((tracks.settled before few).walk distinct)
      · rw [if_neg (by omega)]
        have zero := (tracks.largest_zero_iff before).mpr few
        have next := ih (tracks.turn zero (new_of_nodup distinct)) (by rwa [List.append_assoc])
        rwa [List.append_assoc] at next

end Turn

/-- What the walk keeps, and when it is what it should be. -/
structure Picks (k : Nat) (walk kept : List ReceiptSel) : Prop where
  subset : kept ⊆ walk
  size : kept.length = min k walk.length
  right : Smallest k walk kept ↔ SlotZeroFits k walk

theorem Tracks.picks {n : Nat} {walk : List ReceiptSel} {head : ReceiptSel} {st : ReceiptSelection}
    (distinct : walk.Nodup) (ends : Tracks n walk head st ∨ Settled n walk head st) :
    st.sel ⊆ walk ∧ st.sel.length = n + 1 ∧
      (Smallest (n + 1) walk st.sel ↔ countLess head walk < n + 1) := by
  rw [countLess_eq]
  rcases ends with tracks | ⟨met, rest, l, isCons, -, -, size, small⟩
  · have small := tracks.small
    exact ⟨small.subset, tracks.full, fun _ => small.countP_lt distinct (List.mem_of_mem_head? tracks.slot),
      fun _ => small⟩
  · rw [isCons]
    exact ⟨List.cons_subset.mpr ⟨met, fun y mem => List.mem_of_mem_erase (small.subset mem)⟩,
      by rw [List.length_cons, size], small.cons_iff size met distinct⟩

theorem walk_picks {k : Nat} (positive : 0 < k) {walk : List ReceiptSel} (distinct : walk.Nodup) :
    Picks k walk (walk.foldl (receiptSelect k) ⟨[], 0, 0⟩).sel := by
  obtain ⟨n, rfl⟩ : ∃ n, k = n + 1 := ⟨k - 1, by omega⟩
  cases walk with
  | nil => exact ⟨fun _ mem => mem, rfl, fun _ first mem => (by cases mem),
      fun _ => Smallest.all distinct (by simp)⟩
  | cons first later =>
      have fits : SlotZeroFits (n + 1) (first :: later) ↔
          countLess (slotZero (n + 1) first (first :: later.take n) (later.drop n)) (first :: later) <
            n + 1 :=
        ⟨fun all => all first rfl, fun few other mem => Option.some.inj mem ▸ few⟩
      rcases Nat.lt_or_ge later.length n with short | long
      · -- everything is kept
        obtain ⟨l, filled, -⟩ := fill positive first (show later.length < n + 1 by omega)
        have small := Smallest.all distinct (show (first :: later).length ≤ n + 1 by simpa using short.le)
        rw [filled]
        refine ⟨fun _ mem => mem, (by rw [List.length_cons]; omega), fun _ => fits.mpr ?_, fun _ => small⟩
        rw [List.drop_eq_nil_of_le short.le, countLess_eq]
        exact small.countP_lt distinct List.mem_cons_self
      · have size : (later.take n).length = n := by rw [List.length_take]; omega
        obtain ⟨l, filled, tops⟩ := fill positive first (show (later.take n).length < n + 1 by omega)
        have split : first :: later = (first :: later.take n) ++ later.drop n := by
          rw [List.cons_append, List.take_append_drop]
        have early : (first :: later.take n).Nodup := (List.nodup_append.mp (split ▸ distinct)).1
        have tracks : Tracks n (first :: later.take n) first
            ⟨first :: later.take n, l, (later.take n).length + 1⟩ :=
          ⟨Smallest.all early (by rw [List.length_cons, size]), by rw [List.length_cons, size], tops, rfl⟩
        have ends := tracks.walk (split ▸ distinct)
        rw [← split, ← filled, ← List.foldl_append, ← split] at ends
        obtain ⟨subset, full, right⟩ := Tracks.picks distinct ends
        exact ⟨subset, by rw [full, List.length_cons]; omega, right.trans fits.symm⟩

/-! ## One call -/

/-- Ascending in completion time and operation id. -/
def receiptLe (a b : JobReceiptRec) : Bool := !receiptSelLess b.sel a.sel

/-- The matching receipts in ascending order. -/
def sortedReceipts (je : JobEngine) (query : ReceiptQuery) : List JobReceiptRec :=
  (je.receipts.filter query.selects).mergeSort receiptLe

/-- The matching receipts in the order of the walk. -/
def matchingWalk (je : JobEngine) (query : ReceiptQuery) : List ReceiptSel :=
  ((receiptWalk je).filter query.selects).map JobReceiptRec.sel

theorem receiptLe_iff (a b : JobReceiptRec) : receiptLe a b = true ↔ a.sel ≤ b.sel := by
  rw [receiptLe, receiptSelLess_eq, Bool.not_eq_true', decide_eq_false_iff_not, not_lt]

theorem receiptShift_eq (sorted : List ReceiptSel) (key : ReceiptSel) :
    receiptShift sorted key = insertRight key sorted := by
  have less : receiptSelLess key = fun y => decide (key < y) := funext (receiptSelLess_eq key)
  rw [receiptShift, insertRight, less]

theorem receiptWalk_perm (je : JobEngine) : (receiptWalk je).Perm je.receipts := by
  have all : (je.receipts.filter fun r => jobReceiptBucket r.opId < jobReceiptBuckets) = je.receipts :=
    List.filter_eq_self.mpr fun r _ => decide_eq_true (Nat.mod_lt _ (by decide))
  have perm := buckets_perm (fun r => jobReceiptBucket r.opId) je.receipts jobReceiptBuckets
  rw [all] at perm
  exact perm

theorem jobReceiptForeach_eq (je : JobEngine) (query : ReceiptQuery) {k : Nat} (positive : 0 < k) :
    jobReceiptForeach je query k =
      ((sortRight ((matchingWalk je query).foldl (receiptSelect k) ⟨[], 0, 0⟩).sel).filterMap
          fun s => jobReceiptFindLocked je s.opId,
        (matchingWalk je query).length) := by
  have total := walk_total (k := k) (matchingWalk je query) ⟨[], 0, 0⟩
  rw [Nat.zero_add] at total
  rw [← total, jobReceiptForeach, if_neg (by omega), ← matchingWalk, sortRight, ← funext₂ receiptShift_eq]

section Call

variable {je : JobEngine} (ops : (je.receipts.map JobReceiptRec.opId).Nodup) (query : ReceiptQuery)
include ops

/-- A receipt is found under its operation id. -/
theorem find_receipt {r : JobReceiptRec} (mem : r ∈ je.receipts) :
    jobReceiptFindLocked je r.opId = some r :=
  lookup_of_mem JobReceiptRec.opId ops mem

theorem matching_ops : ((je.receipts.filter query.selects).map JobReceiptRec.opId).Nodup :=
  ops.sublist (List.filter_sublist.map _)

omit ops in
theorem sortedReceipts_perm : (sortedReceipts je query).Perm (je.receipts.filter query.selects) :=
  List.mergeSort_perm _ _

theorem sortedReceipts_ascends :
    (sortedReceipts je query).Pairwise (fun a b => a.sel < b.sel) := by
  have sorted : (sortedReceipts je query).Pairwise (fun a b => receiptLe a b = true) :=
    List.pairwise_mergeSort
      (fun a b c ab bc => by
        rw [receiptLe_iff] at ab bc ⊢
        exact ab.trans bc)
      (fun a b => by
        rw [Bool.or_eq_true, receiptLe_iff, receiptLe_iff]
        exact le_total _ _) _
  have distinct : ((sortedReceipts je query).map JobReceiptRec.opId).Nodup :=
    (((sortedReceipts_perm query).map _).nodup_iff).mpr (matching_ops ops query)
  refine (sorted.and (List.pairwise_map.mp distinct)).imp fun {a b} ⟨le, other⟩ => ?_
  exact lt_of_le_of_ne ((receiptLe_iff a b).mp le) fun same => other (congrArg ReceiptSel.opId same)

omit ops in
theorem matchingWalk_perm :
    ((sortedReceipts je query).map JobReceiptRec.sel).Perm (matchingWalk je query) := by
  have walk := ((receiptWalk_perm je).filter query.selects).map JobReceiptRec.sel
  exact ((sortedReceipts_perm query).map _).trans walk.symm

theorem matchingWalk_nodup : (matchingWalk je query).Nodup :=
  (matchingWalk_perm query).nodup_iff.mp
    ((List.pairwise_map.mpr (sortedReceipts_ascends ops query)).imp fun lt => ne_of_lt lt)

/-- What the callback is given, as keys: the slots, sorted. -/
theorem foreach_sel {k : Nat} (positive : 0 < k) :
    (jobReceiptForeach je query k).1.map JobReceiptRec.sel =
      sortRight ((matchingWalk je query).foldl (receiptSelect k) ⟨[], 0, 0⟩).sel := by
  have picks := walk_picks positive (matchingWalk_nodup ops query)
  rw [jobReceiptForeach_eq je query positive, List.map_filterMap,
    List.filterMap_congr fun s mem => ?_, List.filterMap_some]
  -- every slot holds the key of a receipt of the ledger
  obtain ⟨r, matching, rfl⟩ := List.mem_map.mp (picks.subset ((sortRight_perm _).subset mem))
  have inLedger := (receiptWalk_perm je).subset (List.mem_of_mem_filter matching)
  rw [JobReceiptRec.sel, find_receipt ops inLedger]
  rfl

theorem foreach_length {k : Nat} (positive : 0 < k) :
    (jobReceiptForeach je query k).1.length = min k (sortedReceipts je query).length := by
  have lengths := congrArg List.length (foreach_sel ops query positive)
  have perm : ((sortedReceipts je query).map JobReceiptRec.sel).Perm _ := matchingWalk_perm query
  rw [List.length_map, (sortRight_perm _).length_eq,
    (walk_picks positive (matchingWalk_nodup ops query)).size, ← perm.length_eq, List.length_map] at lengths
  exact lengths

/-- A call counts the matching receipts, and delivers the smallest of them in ascending order just when
few are smaller than the one that ends in slot 0. -/
theorem foreach_iff {k : Nat} (positive : 0 < k) :
    (jobReceiptForeach je query k).2 = (sortedReceipts je query).length ∧
      ((jobReceiptForeach je query k).1 = (sortedReceipts je query).take k ↔
        SlotZeroFits k (matchingWalk je query)) := by
  have keys : ((sortedReceipts je query).map JobReceiptRec.sel).Pairwise (· < ·) :=
    List.pairwise_map.mpr (sortedReceipts_ascends ops query)
  have perm : ((sortedReceipts je query).map JobReceiptRec.sel).Perm _ := matchingWalk_perm query
  have picks := walk_picks positive (matchingWalk_nodup ops query)
  have sorted := picks.right.symm.trans (Smallest.iff_sortRight keys perm)
  rw [← List.map_take] at sorted
  refine ⟨?_, fun page => sorted.mpr ?_, fun fits => ?_⟩
  · rw [jobReceiptForeach_eq je query positive, ← perm.length_eq, List.length_map]
  · rw [← foreach_sel ops query positive, page]
  · have found (r : JobReceiptRec) (mem : r ∈ (sortedReceipts je query).take k) :
        jobReceiptFindLocked je r.sel.opId = some r := by
      refine find_receipt ops (List.mem_of_mem_filter (p := query.selects) ?_)
      exact (sortedReceipts_perm query).subset (List.mem_of_mem_take mem)
    rw [jobReceiptForeach_eq je query positive, sorted.mp fits, List.filterMap_map]
    exact (List.filterMap_congr found).trans List.filterMap_some

end Call

/-! ## Page after page -/

/-- The position behind the last receipt of a page. -/
def ReceiptQuery.resume (query : ReceiptQuery) (page : List JobReceiptRec) : ReceiptQuery :=
  match page.getLast? with
  | none => query
  | some r => { query with afterCompletedMs := r.completedAtMs, afterOp := some r.opId }

/-- `n` calls, each from the position the one before left. -/
def readReceipts (je : JobEngine) (maxEntries : Nat) : Nat → ReceiptQuery → List JobReceiptRec
  | 0, _ => []
  | n + 1, query =>
      let page := (jobReceiptForeach je query maxEntries).1
      page ++ readReceipts je maxEntries n (query.resume page)

/-- Every one of the `n` calls meets the condition. -/
def EverySlotZeroFits (je : JobEngine) (maxEntries : Nat) : Nat → ReceiptQuery → Prop
  | 0, _ => True
  | n + 1, query =>
      SlotZeroFits maxEntries (matchingWalk je query) ∧
        EverySlotZeroFits je maxEntries n (query.resume (jobReceiptForeach je query maxEntries).1)

/-- Behind a delivered receipt stands what it is smaller than. -/
theorem selects_resume {query : ReceiptQuery} {page : List JobReceiptRec} {r : JobReceiptRec}
    (last : page.getLast? = some r) (chosen : query.selects r = true)
    (named : r.opId ≠ List.replicate jobIdLen 0) (x : JobReceiptRec) :
    (query.resume page).selects x = (query.selects x && decide (r.sel < x.sel)) := by
  have position : (query.resume page) =
      { query with afterCompletedMs := r.completedAtMs, afterOp := some r.opId } := by
    rw [ReceiptQuery.resume, last]
  have placed : (query.resume page).positioned = true := by
    rw [position]
    simpa [ReceiptQuery.positioned] using named
  have behind : (query.resume page).selects x =
      ((query.kindFilter = 0 || x.kind.code = query.kindFilter % 256) && decide (r.sel < x.sel)) := by
    rw [ReceiptQuery.selects, placed, position, Bool.not_true, Bool.false_or, receiptSelLess_eq]
    rfl
  rw [behind]
  by_cases above : r.sel < x.sel
  · -- what is above `r` is above the old position, as `r` is
    have old : (!query.positioned ||
        receiptSelLess ⟨query.afterCompletedMs, query.afterOp.getD []⟩ x.sel) = true := by
      have here := (Bool.and_eq_true_iff.mp chosen).2
      rw [Bool.or_eq_true, receiptSelLess_iff] at here ⊢
      exact here.imp id fun less => less.trans above
    rw [ReceiptQuery.selects, old, Bool.and_true]
  · simp [above]

section Pages

variable {je : JobEngine} (ops : (je.receipts.map JobReceiptRec.opId).Nodup)
  (named : ∀ r ∈ je.receipts, r.opId ≠ List.replicate jobIdLen 0)
include ops named

theorem sortedReceipts_resume (query : ReceiptQuery) {k : Nat} (positive : 0 < k) :
    sortedReceipts je (query.resume ((sortedReceipts je query).take k)) =
      (sortedReceipts je query).drop k := by
  have ascends := sortedReceipts_ascends ops query
  have perm : (sortedReceipts je query).Perm _ := sortedReceipts_perm query
  by_cases empty : sortedReceipts je query = []
  · rw [empty, List.take_nil, List.drop_nil]
    exact empty
  · -- `n` is the place of the last receipt of the page
    have some := List.length_pos_iff.mpr empty
    obtain ⟨n, isLast⟩ : ∃ n, min k (sortedReceipts je query).length = n + 1 :=
      ⟨min k (sortedReceipts je query).length - 1, by omega⟩
    have inside : n < (sortedReceipts je query).length := by omega
    have last : ((sortedReceipts je query).take k).getLast? = Option.some (sortedReceipts je query)[n] := by
      rw [List.getLast?_eq_getElem?, List.length_take, isLast, Nat.add_sub_cancel,
        List.getElem?_take_of_lt (by omega), List.getElem?_eq_getElem inside]
    have chosen := perm.subset (List.getElem_mem inside)
    have selects := selects_resume last (List.of_mem_filter chosen)
      (named _ (List.mem_of_mem_filter chosen))
    have above : (sortedReceipts je query).drop k = (sortedReceipts je query).filter
        (fun x => (sortedReceipts je query)[n].sel < x.sel) := by
      rw [filter_above JobReceiptRec.sel ascends inside, ← isLast]
      rcases Nat.le_total k (sortedReceipts je query).length with short | long
      · rw [Nat.min_eq_left short]
      · rw [Nat.min_eq_right long, List.drop_length, List.drop_eq_nil_of_le long]
    have filtered : je.receipts.filter (query.resume ((sortedReceipts je query).take k)).selects =
        (je.receipts.filter query.selects).filter
          (fun x => (sortedReceipts je query)[n].sel < x.sel) := by
      rw [List.filter_filter]
      exact List.filter_congr fun x _ => (selects x).trans (Bool.and_comm _ _)
    rw [above]
    refine List.Perm.eq_of_pairwise (fun a b _ _ ab ba => absurd ab (lt_asymm ba))
      (sortedReceipts_ascends ops _) (ascends.sublist List.filter_sublist) ?_
    exact (sortedReceipts_perm _).trans (filtered ▸ (perm.filter _).symm)

/-- Reading on from the last receipt gives the sorted list piece by piece. -/
theorem readReceipts_iff {k : Nat} (positive : 0 < k) (n : Nat) (query : ReceiptQuery) :
    readReceipts je k n query = (sortedReceipts je query).take (n * k) ↔
      EverySlotZeroFits je k n query := by
  induction n generalizing query with
  | zero => simp [readReceipts, EverySlotZeroFits]
  | succ n ih =>
      have page := (foreach_iff ops query positive).2
      have resumed := sortedReceipts_resume ops named query positive
      have split : (sortedReceipts je query).take ((n + 1) * k) =
          (sortedReceipts je query).take k ++ ((sortedReceipts je query).drop k).take (n * k) := by
        rw [Nat.succ_mul, Nat.add_comm, List.take_add]
      rw [readReceipts, split]
      constructor
      · intro read
        -- the first page is as long as it should be, so it is the first page of the sorted list
        have sizes : (jobReceiptForeach je query k).1.length = ((sortedReceipts je query).take k).length := by
          rw [foreach_length ops query positive, List.length_take]
        obtain ⟨first, later⟩ := List.append_inj read sizes
        refine ⟨page.mp first, (ih _).mp ?_⟩
        rw [first] at later ⊢
        rw [resumed]
        exact later
      · rintro ⟨here, later⟩
        have first := page.mpr here
        rw [first] at later ⊢
        rw [(ih _).mpr later, resumed]

end Pages

/-! ## The ledger -/

/-- What changes the ledger: replay, a live call, the collector. -/
inductive LedgerStep
  | insert (r : JobReceiptRec)
  | link (r : JobReceiptRec)
  | gc (now : Nat)

def ledgerStep (je : JobEngine) : LedgerStep → JobEngine
  | .insert r => (jobReceiptInsertLocked je r).getD je
  | .link r => receiptLinkLocked je r
  | .gc now => jobReceiptGcLocked je now

def ledgerAfter (cfg : JobEngineConfig) (epoch : Bytes) (steps : List LedgerStep) : JobEngine :=
  steps.foldl ledgerStep (jobEngineCreate cfg epoch)

theorem pushReceipt_ops {je : JobEngine} {r : JobReceiptRec}
    (ops : (je.receipts.map JobReceiptRec.opId).Nodup)
    (absent : jobReceiptFindLocked je r.opId = none) :
    ((pushReceipt je r).receipts.map JobReceiptRec.opId).Nodup := by
  refine List.nodup_cons.mpr ⟨fun mem => ?_, ops⟩
  obtain ⟨old, inLedger, same⟩ := List.mem_map.mp mem
  exact (lookup_none JobReceiptRec.opId).mp absent old inLedger same

theorem ledgerStep_ops {je : JobEngine} (ops : (je.receipts.map JobReceiptRec.opId).Nodup)
    (step : LedgerStep) : ((ledgerStep je step).receipts.map JobReceiptRec.opId).Nodup := by
  cases step with
  | insert r =>
      rw [ledgerStep, jobReceiptInsertLocked]
      split
      · split <;> exact ops
      · next absent => exact pushReceipt_ops ops absent
  | link r =>
      rw [ledgerStep, receiptLinkLocked]
      split
      · exact ops
      · next absent => exact pushReceipt_ops ops absent
  | gc now => exact ops.sublist (List.filter_sublist.map _)

/-- An engine whose ledger was built by the calls. -/
def Reached (je : JobEngine) : Prop := ∃ cfg epoch steps, je = ledgerAfter cfg epoch steps

/-- One receipt per operation id, whatever happened to the ledger. -/
theorem Reached.ops {je : JobEngine} (reached : Reached je) :
    (je.receipts.map JobReceiptRec.opId).Nodup := by
  obtain ⟨cfg, epoch, steps, rfl⟩ := reached
  induction steps using List.reverseRecOn with
  | nil => exact List.nodup_nil
  | append_singleton steps step ih =>
      rw [ledgerAfter, List.foldl_append]
      exact ledgerStep_ops ih step

/-- **Receipts come in pages**: a call counts the matching receipts, and it delivers the smallest ones
behind its position in ascending order exactly when fewer than `max_entries` of them are smaller than
the one that ends in slot 0. Calls that resume from the last receipt deliver the matching receipts in
ascending order, each once, exactly when every call meets that condition. -/
theorem receipts_in_pages {je : JobEngine} (reached : Reached je)
    (named : ∀ r ∈ je.receipts, r.opId ≠ List.replicate jobIdLen 0) {k : Nat} (positive : 0 < k)
    (n : Nat) (query : ReceiptQuery) :
    (jobReceiptForeach je query k).2 = (sortedReceipts je query).length ∧
      ((jobReceiptForeach je query k).1 = (sortedReceipts je query).take k ↔
        SlotZeroFits k (matchingWalk je query)) ∧
      (readReceipts je k (n + 1) query = (sortedReceipts je query).take ((n + 1) * k) ↔
        EverySlotZeroFits je k (n + 1) query) ∧
      ((je.receipts.filter query.selects).length ≤ (n + 1) * k → EverySlotZeroFits je k (n + 1) query →
        (readReceipts je k (n + 1) query).Perm (je.receipts.filter query.selects)) := by
  have perm : (sortedReceipts je query).Perm _ := sortedReceipts_perm query
  have call := foreach_iff reached.ops query positive
  have read := readReceipts_iff reached.ops named positive (n + 1) query
  refine ⟨call.1, call.2, read, fun enough fit => ?_⟩
  rw [read.mpr fit, List.take_of_length_le (perm.length_eq ▸ enough)]
  exact perm

/-! ## The receipt that is passed over -/

/-- A completion of operation `op` at `ms`. -/
def completionAt (op : UInt8) (ms : Nat) : JobReceiptRec where
  opId := op :: List.replicate 15 0
  digest := []
  kind := .completion
  commitId := ms
  stateVersion := ms
  inputQueue := [113]
  inputMessageId := ms
  outputQueue := []
  outputMessageId := 0
  completedAtMs := ms
  receiptExpiresMs := ms + 86400000

/-- The ledger after completions at the times given, oldest first. -/
def ledgerOf (completions : List (UInt8 × Nat)) : JobEngine :=
  ledgerAfter ⟨0, 0, 0, 0, 0, 0⟩ [] (completions.map fun (op, ms) => .link (completionAt op ms))

def everyReceipt : ReceiptQuery := ⟨0, 0, none⟩

theorem reached_ledgerOf (completions : List (UInt8 × Nat)) : Reached (ledgerOf completions) :=
  ⟨_, _, _, rfl⟩

/-- The walk meets 5, 3, 4. -/
def threeReceipts : JobEngine := ledgerOf [(7, 3), (4, 5), (1, 4)]

theorem threeReceipts_walk : receiptWalk threeReceipts =
    [completionAt 4 5, completionAt 7 3, completionAt 1 4] := by decide +kernel

/-- With two slots, 4 takes the place of 5 in slot 0, and 5 is on the second page. -/
theorem receipts_in_pages_three :
    (jobReceiptForeach threeReceipts everyReceipt 2).1 =
        (sortedReceipts threeReceipts everyReceipt).take 2 ∧
      (readReceipts threeReceipts 2 2 everyReceipt).Perm
        (threeReceipts.receipts.filter everyReceipt.selects) := by
  have fits : SlotZeroFits 2 (matchingWalk threeReceipts everyReceipt) := by
    rw [matchingWalk, threeReceipts_walk]
    decide +kernel
  have next : SlotZeroFits 2 (matchingWalk threeReceipts
      (everyReceipt.resume (jobReceiptForeach threeReceipts everyReceipt 2).1)) := by
    rw [matchingWalk, jobReceiptForeach, threeReceipts_walk]
    decide +kernel
  have reached : Reached threeReceipts := reached_ledgerOf _
  have pages := receipts_in_pages reached (by decide) (show 0 < 2 by decide) 1 everyReceipt
  exact ⟨pages.2.1.mpr fits, pages.2.2.2 (by decide) ⟨fits, next, trivial⟩⟩

/-- The walk meets 5, 9, 3, 4. -/
def fourReceipts : JobEngine := ledgerOf [(1, 3), (2, 4), (4, 5), (7, 9)]

theorem fourReceipts_walk : receiptWalk fourReceipts =
    [completionAt 4 5, completionAt 7 9, completionAt 1 3, completionAt 2 4] := by decide +kernel

/-- With two slots, 3 replaces 9 in slot 1, the search does not look at the 5 in slot 0, and 4 is not
smaller than 3: it is neither on the first page nor on a later one. -/
theorem smaller_receipt_missed :
    (receiptWalk fourReceipts).map JobReceiptRec.completedAtMs = [5, 9, 3, 4] ∧
      (jobReceiptForeach fourReceipts everyReceipt 2).1.map JobReceiptRec.completedAtMs = [3, 5] ∧
      (readReceipts fourReceipts 2 3 everyReceipt).map JobReceiptRec.completedAtMs = [3, 5, 9] := by
  simp only [readReceipts, jobReceiptForeach, fourReceipts_walk]
  decide +kernel

end KuttiDB.Job
