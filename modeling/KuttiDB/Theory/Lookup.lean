/- # KuttiDB.Theory.Lookup -- a list with distinct keys as a finite map

A keyed list is searched by `List.find?`. `lookup key xs` is that search as a function of the key; two
lists with the same lookup hold the same entries, whatever their order. The lemmas say what an
insertion, a replacement, a removal and a filter do to the lookup.
-/
import KuttiDB.Theory.FirstMatch
import Mathlib.Data.List.Perm.Basic

namespace KuttiDB.Theory

set_option autoImplicit false

variable {α κ : Type} [BEq κ] [LawfulBEq κ] (key : α → κ)

def lookup (xs : List α) (k : κ) : Option α := xs.find? (fun x => key x == k)

theorem lookup_cons_hit {x : α} {k : κ} (hit : key x = k) (xs : List α) :
    lookup key (x :: xs) k = some x :=
  List.find?_cons_of_pos (by simp [hit])

theorem lookup_cons_miss {x : α} {k : κ} (miss : key x ≠ k) (xs : List α) :
    lookup key (x :: xs) k = lookup key xs k :=
  List.find?_cons_of_neg (by simp [miss])

theorem lookup_some {xs : List α} {k : κ} {x : α} (found : lookup key xs k = some x) :
    x ∈ xs ∧ key x = k :=
  ⟨List.mem_of_find?_eq_some found, by simpa using List.find?_some found⟩

theorem lookup_none {xs : List α} {k : κ} : lookup key xs k = none ↔ ∀ x ∈ xs, key x ≠ k := by
  simp [lookup]

/-- With distinct keys, an entry is found under its key. -/
theorem lookup_of_mem : ∀ {xs : List α} {x : α}, (xs.map key).Nodup → x ∈ xs →
    lookup key xs (key x) = some x
  | y :: rest, x, distinct, mem => by
      obtain ⟨head, tail⟩ := List.nodup_cons.mp distinct
      cases mem with
      | head => exact lookup_cons_hit key rfl rest
      | tail _ mem =>
          have miss : key y ≠ key x := fun eq => head (eq ▸ List.mem_map_of_mem mem)
          rw [lookup_cons_miss key miss]
          exact lookup_of_mem tail mem

/-- Replacing the entry of a key by another one of the same key. -/
theorem lookup_replace_same {k : κ} {y : α} (named : key y = k) :
    ∀ {xs : List α} {x : α}, lookup key xs k = some x →
      lookup key (updateFirst (fun x => key x == k) (fun _ => y) xs) k = some y
  | z :: rest, x, found => by
      by_cases hit : key z = k
      · rw [updateFirst_cons_hit (by simp [hit])]
        exact lookup_cons_hit key named rest
      · rw [updateFirst_cons_miss (by simp [hit]), lookup_cons_miss key hit]
        exact lookup_replace_same named (by rwa [lookup_cons_miss key hit] at found)

theorem lookup_replace_other {k k' : κ} (other : k' ≠ k) {y : α} (named : key y = k) :
    ∀ xs : List α, lookup key (updateFirst (fun x => key x == k) (fun _ => y) xs) k' =
      lookup key xs k'
  | [] => rfl
  | z :: rest => by
      by_cases hit : key z = k
      · rw [updateFirst_cons_hit (by simp [hit]), lookup_cons_miss key (by rw [named]; exact other.symm),
          lookup_cons_miss key (by rw [hit]; exact other.symm)]
      · rw [updateFirst_cons_miss (by simp [hit])]
        by_cases there : key z = k'
        · rw [lookup_cons_hit key there, lookup_cons_hit key there]
        · rw [lookup_cons_miss key there, lookup_cons_miss key there]
          exact lookup_replace_other other named rest

theorem map_key_replace {k : κ} {y : α} (named : key y = k) :
    ∀ xs : List α, (updateFirst (fun x => key x == k) (fun _ => y) xs).map key = xs.map key
  | [] => rfl
  | z :: rest => by
      by_cases hit : key z = k
      · rw [updateFirst_cons_hit (by simp [hit]), List.map_cons, List.map_cons, named, hit]
      · rw [updateFirst_cons_miss (by simp [hit]), List.map_cons, List.map_cons,
          map_key_replace named rest]

/-- Replacing an entry by itself. -/
theorem replace_found {y : α} : ∀ {xs : List α}, lookup key xs (key y) = some y →
    updateFirst (fun x => key x == key y) (fun _ => y) xs = xs
  | z :: rest, found => by
      by_cases hit : key z = key y
      · rw [lookup_cons_hit key hit] at found
        cases found
        exact updateFirst_cons_hit (by simp) _ rest
      · rw [lookup_cons_miss key hit] at found
        rw [updateFirst_cons_miss (by simp [hit]), replace_found found]

theorem lookup_erase_other {k k' : κ} (other : k' ≠ k) :
    ∀ xs : List α, lookup key (xs.eraseP (fun x => key x == k)) k' = lookup key xs k'
  | [] => rfl
  | z :: rest => by
      by_cases hit : key z = k
      · rw [List.eraseP_cons_of_pos (by simp [hit]), lookup_cons_miss key (by rw [hit]; exact other.symm)]
      · rw [List.eraseP_cons_of_neg (by simp [hit])]
        by_cases there : key z = k'
        · rw [lookup_cons_hit key there, lookup_cons_hit key there]
        · rw [lookup_cons_miss key there, lookup_cons_miss key there]
          exact lookup_erase_other other rest

/-- With distinct keys, nothing is left under a key that was removed. -/
theorem lookup_erase_same {k : κ} :
    ∀ {xs : List α}, (xs.map key).Nodup →
      lookup key (xs.eraseP (fun x => key x == k)) k = none
  | [], _ => rfl
  | z :: rest, distinct => by
      obtain ⟨head, tail⟩ := List.nodup_cons.mp distinct
      by_cases hit : key z = k
      · rw [List.eraseP_cons_of_pos (by simp [hit]), lookup_none key]
        exact fun x mem eq => head (hit ▸ eq ▸ List.mem_map_of_mem mem)
      · rw [List.eraseP_cons_of_neg (by simp [hit]), lookup_cons_miss key hit]
        exact lookup_erase_same tail

theorem lookup_map {f : α → α} (keeps : ∀ x, key (f x) = key x) (k : κ) :
    ∀ xs : List α, lookup key (xs.map f) k = (lookup key xs k).map f
  | [] => rfl
  | z :: rest => by
      by_cases hit : key z = k
      · rw [List.map_cons, lookup_cons_hit key ((keeps z).trans hit), lookup_cons_hit key hit,
          Option.map_some]
      · rw [List.map_cons, lookup_cons_miss key (by rw [keeps]; exact hit), lookup_cons_miss key hit,
          lookup_map keeps k rest]

theorem lookup_perm {xs ys : List α} (distinct : (xs.map key).Nodup) (perm : xs.Perm ys) (k : κ) :
    lookup key xs k = lookup key ys k := by
  have distinctY : (ys.map key).Nodup := (perm.map key).nodup_iff.mp distinct
  cases found : lookup key xs k with
  | none =>
      exact ((lookup_none key).mpr fun y mem => (lookup_none key).mp found y (perm.mem_iff.mpr mem)).symm
  | some x =>
      obtain ⟨mem, eq⟩ := lookup_some key found
      rw [← eq]
      exact (lookup_of_mem key distinctY (perm.mem_iff.mp mem)).symm

end KuttiDB.Theory
