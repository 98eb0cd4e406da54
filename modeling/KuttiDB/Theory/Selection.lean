/- # KuttiDB.Theory.Selection -- the smallest elements of a list, and reading a list by them

`Smallest k seen kept` says that `kept` holds the `k` smallest elements of `seen`, in any order. An
element above all kept ones is skipped (`skip`), one below the largest takes its place (`replace`), and
a selection without one of its elements selects from what is left (`tail`, `cons_iff`). Being the
smallest is being, up to order, a prefix of the sorted list (`iff_perm_take`). Reading a sorted list by
pages that start behind the last element read gives the list (`filter_above`).
-/
import Mathlib.Data.List.Sort
import Mathlib.Data.List.DropRight
import Mathlib.Data.List.Nodup
import Mathlib.Data.List.Perm.Subperm

namespace KuttiDB.Theory

set_option autoImplicit false

variable {α : Type} [LinearOrder α]

structure Smallest (k : Nat) (seen kept : List α) : Prop where
  distinct : kept.Nodup
  subset : kept ⊆ seen
  size : kept.length = min k seen.length
  below : ∀ x ∈ seen, x ∉ kept → ∀ y ∈ kept, y < x

namespace Smallest

variable {k : Nat} {seen kept : List α} {x : α}

theorem all (distinct : seen.Nodup) (room : seen.length ≤ k) : Smallest k seen seen :=
  ⟨distinct, fun _ mem => mem, by omega, fun _ mem out => absurd mem out⟩

/-- What is below a kept element is kept. -/
theorem kept_of_lt (small : Smallest k seen kept) (mem : x ∈ kept) {y : α} (inSeen : y ∈ seen)
    (lower : y < x) : y ∈ kept := by
  by_contra out
  exact lt_asymm lower (small.below y inSeen out x mem)

/-- Fewer than `k` elements are below a kept one. -/
theorem countP_lt (small : Smallest k seen kept) (distinct : seen.Nodup) (mem : x ∈ kept) :
    seen.countP (fun y => y < x) < k := by
  have sub : (seen.filter fun y => y < x).Subperm (kept.erase x) := by
    refine List.Nodup.subperm (distinct.filter _) fun y inFilter => ?_
    obtain ⟨inSeen, lower⟩ := List.mem_filter.mp inFilter
    rw [decide_eq_true_eq] at lower
    exact (List.Nodup.mem_erase_iff small.distinct).mpr
      ⟨ne_of_lt lower, small.kept_of_lt mem inSeen lower⟩
  have count := sub.length_le
  have positive := List.length_pos_of_mem mem
  have size := small.size
  rw [List.length_erase_of_mem mem, ← List.countP_eq_length_filter] at count
  omega

/-- Without one kept element the others are the smallest of what is left. -/
theorem tail [BEq α] [LawfulBEq α] {rest : List α} (small : Smallest (k + 1) seen (x :: rest))
    (distinct : seen.Nodup) : Smallest k (seen.erase x) rest where
  distinct := (List.nodup_cons.mp small.distinct).2
  subset y mem := (List.Nodup.mem_erase_iff distinct).mpr
    ⟨fun same => (List.nodup_cons.mp small.distinct).1 (same ▸ mem),
      small.subset (List.mem_cons_of_mem _ mem)⟩
  size := by
    have size := small.size
    rw [List.length_erase_of_mem (small.subset List.mem_cons_self)]
    rw [List.length_cons] at size
    omega
  below y inSeen out z mem := by
    obtain ⟨other, old⟩ := (List.Nodup.mem_erase_iff distinct).mp inSeen
    refine small.below y old (fun kept => ?_) z (List.mem_cons_of_mem _ mem)
    exact (List.mem_cons.mp kept).elim other out

/-- With `k` smallest of the others, `x` completes the `k + 1` smallest just when few are below it. -/
theorem cons_iff [BEq α] [LawfulBEq α] {rest : List α} (small : Smallest k (seen.erase x) rest)
    (full : rest.length = k) (mem : x ∈ seen) (distinct : seen.Nodup) :
    Smallest (k + 1) seen (x :: rest) ↔ seen.countP (fun y => y < x) < k + 1 := by
  refine ⟨fun whole => whole.countP_lt distinct List.mem_cons_self, fun few => ?_⟩
  have old {y : α} (inRest : y ∈ rest) := (List.Nodup.mem_erase_iff distinct).mp (small.subset inRest)
  have count := List.length_pos_of_mem mem
  have erased := List.length_erase_of_mem mem
  refine ⟨List.nodup_cons.mpr ⟨fun again => (old again).1 rfl, small.distinct⟩,
    List.cons_subset.mpr ⟨mem, fun y inRest => (old inRest).2⟩, ?_, fun y inSeen out z inWhole => ?_⟩
  · have size := small.size
    rw [List.length_cons]
    omega
  · obtain ⟨other, unkept⟩ := not_or.mp fun either => out (List.mem_cons.mpr either)
    have above := small.below y ((List.Nodup.mem_erase_iff distinct).mpr ⟨other, inSeen⟩) unkept
    rcases List.mem_cons.mp inWhole with rfl | inRest
    · -- otherwise `y` and all of `rest` are below `x`
      refine lt_of_le_of_ne (not_lt.mp fun lower => ?_) (Ne.symm other)
      have sub : (y :: rest).Subperm (seen.filter fun t => t < z) := by
        refine List.Nodup.subperm (List.nodup_cons.mpr ⟨unkept, small.distinct⟩) fun t inList => ?_
        rcases List.mem_cons.mp inList with rfl | inRest
        · exact List.mem_filter.mpr ⟨inSeen, decide_eq_true lower⟩
        · exact List.mem_filter.mpr ⟨(old inRest).2, decide_eq_true ((above t inRest).trans lower)⟩
      have length := sub.length_le
      rw [List.length_cons, ← List.countP_eq_length_filter] at length
      omega
    · exact above z inRest

theorem skip (small : Smallest k seen kept) (full : kept.length = k) (above : ∀ y ∈ kept, y < x) :
    Smallest k (seen ++ [x]) kept where
  distinct := small.distinct
  subset a mem := List.mem_append_left _ (small.subset mem)
  size := by
    have size := small.size
    simp only [List.length_append, List.length_singleton]
    omega
  below y inSeen notKept := by
    rcases List.mem_append.mp inSeen with old | isX
    · exact small.below y old notKept
    · exact List.mem_singleton.mp isX ▸ above

theorem replace (small : Smallest k seen kept) (full : kept.length = k) (new : x ∉ seen) {i : Nat}
    (inside : i < kept.length) (largest : ∀ y ∈ kept, y ≤ kept[i]) (lower : x < kept[i]) :
    Smallest k (seen ++ [x]) (kept.set i x) where
  distinct := by
    refine List.Nodup.set small.distinct ?_
    exact fun mem => new (small.subset mem)
  subset a mem := by
    rcases List.mem_or_eq_of_mem_set mem with old | rfl
    · exact List.mem_append_left _ (small.subset old)
    · exact List.mem_append_right _ (List.mem_singleton_self a)
  size := by
    have size := small.size
    simp only [List.length_set, List.length_append, List.length_singleton]
    omega
  below y inSeen notKept z inSet := by
    -- everything in the new selection is at most the element that left, and was kept or is `x`
    have atMost : z ≤ kept[i] := by
      rcases List.mem_or_eq_of_mem_set inSet with old | rfl
      · exact largest z old
      · exact le_of_lt lower
    rcases List.mem_append.mp inSeen with old | isX
    · by_cases wasKept : y ∈ kept
      · -- only the replaced element leaves
        obtain ⟨j, bound, rfl⟩ := List.getElem_of_mem wasKept
        by_cases same : j = i
        · subst same
          refine lt_of_le_of_ne atMost fun equal => notKept ?_
          exact equal ▸ inSet
        · have stays : (kept.set i x)[j]? = some kept[j] := by
            rw [List.getElem?_set_ne (Ne.symm same), List.getElem?_eq_getElem bound]
          exact absurd (List.mem_of_getElem? stays) notKept
      · exact lt_of_le_of_lt atMost (small.below y old wasKept _ (List.getElem_mem inside))
    · have isSet : x ∈ kept.set i x := List.mem_set inside x
      exact absurd (List.mem_singleton.mp isX ▸ isSet) notKept

/-- Against the sorted list: the kept elements are its first `k`. -/
theorem iff_perm_take {sorted : List α} (ascends : sorted.Pairwise (· < ·)) (perm : sorted.Perm seen) :
    Smallest k seen kept ↔ kept.Perm (sorted.take k) := by
  have distinct : (sorted.take k).Nodup :=
    (ascends.sublist (List.take_sublist k sorted)).imp fun lt => ne_of_lt lt
  have across : ∀ y ∈ sorted.take k, ∀ x ∈ sorted.drop k, y < x := by
    rw [← List.take_append_drop k sorted] at ascends
    exact (List.pairwise_append.mp ascends).2.2
  have behind {x : α} (inSeen : x ∈ seen) (out : x ∉ sorted.take k) : x ∈ sorted.drop k := by
    have inSorted := perm.symm.subset inSeen
    rw [← List.take_append_drop k sorted] at inSorted
    exact (List.mem_append.mp inSorted).resolve_left out
  constructor
  · intro small
    have sizes : (sorted.take k).length = kept.length := by
      rw [List.length_take, small.size, perm.length_eq]
    refine (List.Nodup.subperm small.distinct fun y inKept => ?_).perm_of_length_le (le_of_eq sizes)
    by_contra left
    -- a kept element outside the prefix leaves a smaller one of the prefix unkept
    have missing : ∃ x ∈ sorted.take k, x ∉ kept := by
      by_contra none
      push Not at none
      have all : (y :: sorted.take k).Subperm kept :=
        List.Nodup.subperm (List.nodup_cons.mpr ⟨left, distinct⟩) (List.cons_subset.mpr ⟨inKept, none⟩)
      have length := all.length_le
      rw [List.length_cons] at length
      omega
    obtain ⟨x, early, unkept⟩ := missing
    have order := small.below x (perm.subset (List.mem_of_mem_take early)) unkept y inKept
    exact lt_asymm order (across x early y (behind (small.subset inKept) left))
  · intro same
    refine ⟨same.nodup_iff.mpr distinct, fun y inKept => ?_, ?_, fun x inSeen out y inKept => ?_⟩
    · exact perm.subset (List.mem_of_mem_take (same.subset inKept))
    · rw [same.length_eq, List.length_take, perm.length_eq]
    · exact across y (same.subset inKept) x (behind inSeen fun early => out (same.symm.subset early))

end Smallest

/-! ## Sorting by insertion from the right -/

/-- `x` goes behind the last element that is not above it. -/
def insertRight (x : α) (sorted : List α) : List α :=
  sorted.rdropWhile (fun y => x < y) ++ x :: sorted.rtakeWhile (fun y => x < y)

def sortRight (xs : List α) : List α := xs.foldl (fun sorted x => insertRight x sorted) []

theorem insertRight_perm (x : α) (sorted : List α) : (insertRight x sorted).Perm (x :: sorted) := by
  unfold insertRight
  refine List.perm_middle.trans (List.Perm.cons x ?_)
  rw [List.rdropWhile_append_rtakeWhile]

/-- In a sorted list everything before an element that is not above `x` is not above `x`. -/
theorem le_of_mem_rdropWhile {x : α} {sorted : List α} (ascends : sorted.Pairwise (· ≤ ·)) {y : α}
    (mem : y ∈ sorted.rdropWhile (fun y => x < y)) : y ≤ x := by
  have nonempty := List.ne_nil_of_mem mem
  have last := List.rdropWhile_last_not (fun y => decide (x < y)) sorted nonempty
  have kept := ascends.sublist (List.rdropWhile_prefix (fun y => decide (x < y)) sorted).sublist
  rw [← List.dropLast_append_getLast nonempty] at kept mem
  simp only [decide_eq_true_eq, not_lt] at last
  rcases List.mem_append.mp mem with early | isLast
  · exact le_trans ((List.pairwise_append.mp kept).2.2 y early _ (List.mem_singleton_self _)) last
  · exact List.mem_singleton.mp isLast ▸ last

theorem insertRight_sorted (x : α) {sorted : List α} (ascends : sorted.Pairwise (· ≤ ·)) :
    (insertRight x sorted).Pairwise (· ≤ ·) := by
  have parts := ascends
  rw [← List.rdropWhile_append_rtakeWhile (p := fun y => decide (x < y)) (l := sorted),
    List.pairwise_append] at parts
  obtain ⟨low, high, across⟩ := parts
  have above : ∀ y ∈ sorted.rtakeWhile (fun y => decide (x < y)), x ≤ y := fun y mem =>
    le_of_lt (by simpa using List.mem_rtakeWhile_imp mem)
  refine List.pairwise_append.mpr ⟨low, List.pairwise_cons.mpr ⟨above, high⟩, fun y inLow z inHigh => ?_⟩
  rcases List.mem_cons.mp inHigh with rfl | later
  · exact le_of_mem_rdropWhile ascends inLow
  · exact across y inLow z later

theorem sortRight_append (xs : List α) (x : α) :
    sortRight (xs ++ [x]) = insertRight x (sortRight xs) := by
  simp [sortRight]

theorem sortRight_perm (xs : List α) : (sortRight xs).Perm xs := by
  induction xs using List.reverseRecOn with
  | nil => exact List.Perm.nil
  | append_singleton xs x ih =>
      rw [sortRight_append]
      exact (insertRight_perm x _).trans ((ih.cons x).trans (List.perm_append_singleton x xs).symm)

theorem sortRight_sorted (xs : List α) : (sortRight xs).Pairwise (· ≤ ·) := by
  induction xs using List.reverseRecOn with
  | nil => exact List.Pairwise.nil
  | append_singleton xs x ih =>
      rw [sortRight_append]
      exact insertRight_sorted x ih

/-- The kept elements are the smallest just when sorting them gives the beginning of the sorted list. -/
theorem Smallest.iff_sortRight {k : Nat} {seen kept sorted : List α}
    (ascends : sorted.Pairwise (· < ·)) (perm : sorted.Perm seen) :
    Smallest k seen kept ↔ sortRight kept = sorted.take k := by
  rw [Smallest.iff_perm_take ascends perm]
  have prefixAscends := (ascends.sublist (List.take_sublist k sorted)).imp le_of_lt
  refine ⟨fun same => ?_, fun same => same ▸ (sortRight_perm kept).symm⟩
  refine List.Perm.eq_of_pairwise (fun a b _ _ => le_antisymm) (sortRight_sorted kept) prefixAscends ?_
  exact (sortRight_perm kept).trans same

/-! ## Reading behind the last element -/

/-- Along strictly ascending keys what lies above the `n`-th element is what follows it. -/
theorem filter_above {γ : Type} (key : γ → α) {xs : List γ}
    (ascends : xs.Pairwise (fun a b => key a < key b)) {n : Nat} (inside : n < xs.length) :
    xs.filter (fun y => key xs[n] < key y) = xs.drop (n + 1) := by
  have parts := ascends
  rw [← List.take_append_drop (n + 1) xs, List.pairwise_append] at parts
  have early : (xs.take (n + 1)).filter (fun y => key xs[n] < key y) = [] := by
    refine List.filter_eq_nil_iff.mpr fun y mem => ?_
    obtain ⟨j, bound, rfl⟩ := List.getElem_of_mem mem
    simp only [List.getElem_take, decide_eq_true_eq, not_lt]
    rw [List.length_take] at bound
    rcases Nat.lt_or_ge j n with before | same
    · exact le_of_lt (List.pairwise_iff_getElem.mp ascends j n (by omega) inside before)
    · obtain rfl : j = n := by omega
      exact le_refl _
  have late : (xs.drop (n + 1)).filter (fun y => key xs[n] < key y) = xs.drop (n + 1) := by
    refine List.filter_eq_self.mpr fun y mem => decide_eq_true ?_
    refine parts.2.2 _ ?_ y mem
    rw [List.mem_take_iff_getElem]
    exact ⟨n, by omega, rfl⟩
  generalize xs[n] = pivot at early late ⊢
  rw [← List.take_append_drop (n + 1) xs, List.filter_append, early, late, List.nil_append,
    List.take_append_drop]

/-! ## Walking over buckets -/

/-- Every element stands in one of the buckets. -/
theorem buckets_perm {γ : Type} (bucket : γ → Nat) (xs : List γ) (n : Nat) :
    ((List.range n).flatMap fun b => xs.filter fun x => bucket x = b).Perm
      (xs.filter fun x => bucket x < n) := by
  induction n with
  | zero => simp
  | succ n ih =>
      rw [List.range_succ, List.flatMap_append, List.flatMap_singleton]
      refine (List.Perm.append_right _ ih).trans ?_
      have below : xs.filter (fun x => bucket x < n) =
          (xs.filter fun x => bucket x < n + 1).filter fun x => bucket x < n := by
        rw [List.filter_filter]
        refine List.filter_congr fun x _ => ?_
        simp only [← Bool.decide_and, decide_eq_decide]
        omega
      have last : xs.filter (fun x => bucket x = n) =
          (xs.filter fun x => bucket x < n + 1).filter fun x => !decide (bucket x < n) := by
        rw [List.filter_filter]
        refine List.filter_congr fun x _ => ?_
        simp only [← decide_not, ← Bool.decide_and, decide_eq_decide]
        omega
      rw [below, last]
      exact List.filter_append_perm _ _

end KuttiDB.Theory
