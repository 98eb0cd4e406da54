/- # KuttiDB.Theory.FirstMatch -- updating the first match in a list

Linked lists are searched from the head and changed in place at the first match. `updateFirst` is
that change; `List.eraseP` is the removal. The lemmas say when the two commute, how they pass
through `map` and `++`, and that an update keeps what it does not touch.
-/
import Mathlib.Data.List.Basic
import Mathlib.Data.List.Nodup
import Mathlib.Algebra.BigOperators.Group.List.Basic
import Mathlib.Algebra.Order.Ring.Int

namespace KuttiDB.Theory

set_option autoImplicit false

variable {α β : Type}

/-- Replaces the first element that satisfies `p`. -/
def updateFirst (p : α → Bool) (f : α → α) : List α → List α
  | [] => []
  | x :: rest => if p x then f x :: rest else x :: updateFirst p f rest

@[simp] theorem updateFirst_nil (p : α → Bool) (f : α → α) : updateFirst p f [] = [] := rfl

theorem updateFirst_cons_hit {p : α → Bool} {x : α} (hit : p x = true) (f : α → α) (rest : List α) :
    updateFirst p f (x :: rest) = f x :: rest := by
  simp [updateFirst, hit]

theorem updateFirst_cons_miss {p : α → Bool} {x : α} (miss : p x = false) (f : α → α)
    (rest : List α) : updateFirst p f (x :: rest) = x :: updateFirst p f rest := by
  simp [updateFirst, miss]

theorem updateFirst_append_miss {p : α → Bool} (f : α → α) (ys : List α) :
    ∀ {xs : List α}, (∀ x ∈ xs, p x = false) → updateFirst p f (xs ++ ys) = xs ++ updateFirst p f ys
  | [], _ => rfl
  | x :: rest, miss => by
      rw [List.cons_append, updateFirst_cons_miss (miss x List.mem_cons_self)]
      rw [updateFirst_append_miss f ys (fun y mem => miss y (List.mem_cons_of_mem x mem))]
      rfl

@[simp] theorem length_updateFirst (p : α → Bool) (f : α → α) :
    ∀ xs : List α, (updateFirst p f xs).length = xs.length
  | [] => rfl
  | x :: rest => by
      unfold updateFirst
      split
      · rfl
      · simp [length_updateFirst p f rest]

/-- A projection the change does not touch is the same after the update. -/
theorem map_updateFirst_eq {p : α → Bool} {f : α → α} (h : α → β) (same : ∀ x, h (f x) = h x) :
    ∀ xs : List α, (updateFirst p f xs).map h = xs.map h
  | [] => rfl
  | x :: rest => by
      unfold updateFirst
      split
      · rw [List.map_cons, List.map_cons, same]
      · rw [List.map_cons, List.map_cons, map_updateFirst_eq h same rest]

theorem mem_updateFirst {p : α → Bool} {f : α → α} {y : α} :
    ∀ {xs : List α}, y ∈ updateFirst p f xs → y ∈ xs ∨ ∃ x ∈ xs, p x = true ∧ y = f x
  | [], mem => by cases mem
  | x :: rest, mem => by
      cases here : p x with
      | true =>
          rw [updateFirst_cons_hit here] at mem
          cases mem with
          | head => exact Or.inr ⟨x, List.mem_cons_self, here, rfl⟩
          | tail _ mem => exact Or.inl (List.mem_cons_of_mem x mem)
      | false =>
          rw [updateFirst_cons_miss here] at mem
          cases mem with
          | head => exact Or.inl List.mem_cons_self
          | tail _ mem =>
              rcases mem_updateFirst mem with old | ⟨z, zmem, hit, eq⟩
              · exact Or.inl (List.mem_cons_of_mem x old)
              · exact Or.inr ⟨z, List.mem_cons_of_mem x zmem, hit, eq⟩

/-- Two updates of one target compose when the first keeps it the target. -/
theorem updateFirst_updateFirst {p : α → Bool} {f : α → α} (g : α → α)
    (keeps : ∀ x, p x = true → p (f x) = true) :
    ∀ xs : List α, updateFirst p g (updateFirst p f xs) = updateFirst p (fun x => g (f x)) xs
  | [] => rfl
  | x :: rest => by
      cases here : p x with
      | true =>
          rw [updateFirst_cons_hit here, updateFirst_cons_hit here,
            updateFirst_cons_hit (keeps x here)]
      | false =>
          rw [updateFirst_cons_miss here, updateFirst_cons_miss here, updateFirst_cons_miss here,
            updateFirst_updateFirst g keeps rest]

/-- An update changes a sum by the difference at the match. -/
theorem sum_updateFirst {p : α → Bool} {f : α → α} (weight : α → Nat) {x : α} :
    ∀ {xs : List α}, xs.find? p = some x →
      ((updateFirst p f xs).map weight).sum + weight x = (xs.map weight).sum + weight (f x)
  | [], found => by cases found
  | y :: rest, found => by
      cases here : p y with
      | true =>
          rw [List.find?_cons_of_pos here] at found
          cases found
          rw [updateFirst_cons_hit here, List.map_cons, List.map_cons, List.sum_cons, List.sum_cons]
          omega
      | false =>
          rw [List.find?_cons_of_neg (by simp [here])] at found
          have later := sum_updateFirst (f := f) weight found
          rw [updateFirst_cons_miss here, List.map_cons, List.map_cons, List.sum_cons, List.sum_cons]
          omega

/-- A removal takes the match out of a sum. -/
theorem sum_eraseP {p : α → Bool} (weight : α → Nat) {x : α} :
    ∀ {xs : List α}, xs.find? p = some x →
      ((xs.eraseP p).map weight).sum + weight x = (xs.map weight).sum
  | [], found => by cases found
  | y :: rest, found => by
      cases here : p y with
      | true =>
          rw [List.find?_cons_of_pos here] at found
          cases found
          rw [List.eraseP_cons_of_pos here, List.map_cons, List.sum_cons]
          omega
      | false =>
          rw [List.find?_cons_of_neg (by simp [here])] at found
          have later := sum_eraseP weight found
          rw [List.eraseP_cons_of_neg (by simp [here]), List.map_cons, List.map_cons, List.sum_cons,
            List.sum_cons]
          omega

end KuttiDB.Theory
