/- # KuttiDB.Theory.RoundRobin -- dealing numbers out over a list

Number `p` goes to the entry at place `p % length`. In a list without repetition every number goes to
exactly one entry (`dealt_unique`), and the entry may be found by its place or the place by its entry
(`dealt_iff`).
-/
import Mathlib.Data.List.Nodup
import Mathlib.Data.List.Sort

namespace KuttiDB.Theory

set_option autoImplicit false

variable {α : Type} [DecidableEq α]

/-- Looks up the place of `a` and compares it with the place of `p`. -/
def dealt (xs : List α) (a : α) (p : Nat) : Bool :=
  match xs.findIdx? (fun x => x == a) with
  | none => false
  | some i => p % xs.length == i

theorem dealt_iff {xs : List α} (distinct : xs.Nodup) (a : α) (p : Nat) :
    dealt xs a p = true ↔ xs[p % xs.length]? = some a := by
  unfold dealt
  constructor
  · intro here
    split at here
    · cases here
    · rename_i i found
      obtain ⟨bound, hit, -⟩ := List.findIdx?_eq_some_iff_getElem.mp found
      rw [beq_iff_eq.mp here, List.getElem?_eq_getElem bound, beq_iff_eq.mp hit]
  · intro here
    obtain ⟨bound, eq⟩ := List.getElem?_eq_some_iff.mp here
    have found : xs.findIdx? (fun x => x == a) = some (p % xs.length) := by
      refine List.findIdx?_eq_some_iff_getElem.mpr ⟨bound, beq_iff_eq.mpr eq, fun j before hit => ?_⟩
      -- an earlier hit would be a second place of `a`
      have same : xs[j] = xs[p % xs.length] := (beq_iff_eq.mp hit).trans eq.symm
      have := (distinct.getElem_inj_iff).mp same
      omega
    simp [found]

theorem dealt_unique {xs : List α} (distinct : xs.Nodup) (some_ : xs ≠ []) (p : Nat) :
    ∃ a ∈ xs, ∀ b, dealt xs b p = true ↔ b = a := by
  have bound : p % xs.length < xs.length := Nat.mod_lt p (List.length_pos_iff.mpr some_)
  refine ⟨xs[p % xs.length], List.getElem_mem bound, fun b => ?_⟩
  rw [dealt_iff distinct, List.getElem?_eq_getElem bound, Option.some.injEq]
  exact eq_comm

end KuttiDB.Theory
