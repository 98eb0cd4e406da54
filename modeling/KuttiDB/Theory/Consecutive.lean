/- # KuttiDB.Theory.Consecutive -- lists numbered without gaps

`Consecutive f a xs` says that the elements of `xs` are numbered `a`, `a + 1`, … by `f`. In such a list
the elements numbered below `b` are the first `b - a`, so cutting it at a number is cutting it at a
position.
-/
import Mathlib.Data.List.Basic

namespace KuttiDB.Theory

set_option autoImplicit false

variable {α : Type} (f : α → Nat)

def Consecutive (a : Nat) (xs : List α) : Prop := xs.map f = List.range' a xs.length

variable {f} {a b : Nat} {x : α} {xs : List α}

@[simp] theorem consecutive_nil : Consecutive f a [] := rfl

theorem consecutive_cons :
    Consecutive f a (x :: xs) ↔ f x = a ∧ Consecutive f (a + 1) xs := by
  simp [Consecutive, List.range'_succ]

theorem Consecutive.snoc (run : Consecutive f a xs) (last : f x = a + xs.length) :
    Consecutive f a (xs ++ [x]) := by
  have step : List.range' a (xs.length + 1) = List.range' a xs.length ++ [a + xs.length] := by
    rw [List.range'_concat, Nat.one_mul]
  simp only [Consecutive, List.map_append, List.map_cons, List.map_nil, List.length_append,
    List.length_cons, List.length_nil, Nat.zero_add, step, last]
  rw [run]

theorem Consecutive.drop : ∀ {xs : List α} {a : Nat} (k : Nat), Consecutive f a xs →
    Consecutive f (a + k) (xs.drop k)
  | [], _, _, _ => by simp
  | _ :: _, _, 0, run => run
  | _ :: _, a, k + 1, run => by
    have rest := ((consecutive_cons.mp run).2).drop k
    rwa [Nat.add_assoc, Nat.add_comm 1 k] at rest

theorem Consecutive.dropWhile_lt : ∀ {xs : List α} {a : Nat}, Consecutive f a xs →
    xs.dropWhile (fun x => f x < b) = xs.drop (b - a)
  | [], _, _ => by simp
  | x :: xs, a, run => by
    obtain ⟨first, rest⟩ := consecutive_cons.mp run
    by_cases low : a < b
    · have step : b - a = (b - (a + 1)) + 1 := by omega
      rw [List.dropWhile_cons_of_pos (by simp [first, low]), rest.dropWhile_lt, step,
        List.drop_succ_cons]
    · have none : b - a = 0 := by omega
      rw [List.dropWhile_cons_of_neg (by simp [first, low]), none, List.drop_zero]

theorem Consecutive.takeWhile_lt : ∀ {xs : List α} {a : Nat}, Consecutive f a xs →
    xs.takeWhile (fun x => f x < b) = xs.take (b - a)
  | [], _, _ => by simp
  | x :: xs, a, run => by
    obtain ⟨first, rest⟩ := consecutive_cons.mp run
    by_cases low : a < b
    · have step : b - a = (b - (a + 1)) + 1 := by omega
      rw [List.takeWhile_cons_of_pos (by simp [first, low]), rest.takeWhile_lt, step,
        List.take_succ_cons]
    · have none : b - a = 0 := by omega
      rw [List.takeWhile_cons_of_neg (by simp [first, low]), none, List.take_zero]

end KuttiDB.Theory
