/- # KuttiDB.Theory.Keyed -- lists whose live elements have distinct keys

A table kept as a list with tombstones: an element is addressed by position, readers only see the
live ones, and the live keys are distinct. `updateKey` and `dropKey` are the changes a reader sees
when one position is changed or dies.
-/
import Mathlib.Data.List.Nodup
import KuttiDB.Theory.FirstMatch

namespace KuttiDB.Theory

set_option autoImplicit false

section

variable {α κ : Type} [DecidableEq κ] (key : α → κ)

/-- Changes every element with this key. -/
def updateKey (k : κ) (f : α → α) (xs : List α) : List α :=
  xs.map (fun x => if key x = k then f x else x)

/-- Removes every element with this key. -/
def dropKey (k : κ) (xs : List α) : List α := xs.filter (fun x => !decide (key x = k))

@[simp] theorem updateKey_nil (k : κ) (f : α → α) : updateKey key k f [] = [] := rfl

theorem updateKey_cons (k : κ) (f : α → α) (x : α) (xs : List α) :
    updateKey key k f (x :: xs) = (if key x = k then f x else x) :: updateKey key k f xs := rfl

theorem updateKey_of_absent {k : κ} (f : α → α) {xs : List α} (absent : ∀ x ∈ xs, key x ≠ k) :
    updateKey key k f xs = xs := by
  refine (List.map_congr_left fun x mem => ?_).trans (List.map_id xs)
  simp [absent x mem]

theorem dropKey_of_absent {k : κ} {xs : List α} (absent : ∀ x ∈ xs, key x ≠ k) :
    dropKey key k xs = xs :=
  List.filter_eq_self.mpr fun x mem => by simp [absent x mem]

theorem mem_updateKey {k : κ} {f : α → α} {xs : List α} {y : α} :
    y ∈ updateKey key k f xs ↔ (y ∈ xs ∧ key y ≠ k) ∨ ∃ x ∈ xs, key x = k ∧ f x = y := by
  simp only [updateKey, List.mem_map]
  constructor
  · rintro ⟨x, mem, eq⟩
    by_cases here : key x = k
    · rw [if_pos here] at eq
      exact Or.inr ⟨x, mem, here, eq⟩
    · rw [if_neg here] at eq
      subst eq
      exact Or.inl ⟨mem, here⟩
  · rintro (⟨mem, away⟩ | ⟨x, mem, here, eq⟩)
    · exact ⟨y, mem, if_neg away⟩
    · exact ⟨x, mem, by rw [if_pos here, eq]⟩

theorem mem_dropKey {k : κ} {xs : List α} {y : α} : y ∈ dropKey key k xs ↔ y ∈ xs ∧ key y ≠ k := by
  simp [dropKey]

/-- A change that keeps the key keeps the list of keys. -/
theorem map_key_updateKey {k : κ} {f : α → α} {xs : List α}
    (keeps : ∀ x ∈ xs, key x = k → key (f x) = k) : (updateKey key k f xs).map key = xs.map key := by
  rw [updateKey, List.map_map]
  refine List.map_congr_left fun x mem => ?_
  by_cases here : key x = k
  · simp [here, keeps x mem here]
  · simp [here]

theorem nodup_dropKey {k : κ} {xs : List α} (distinct : (xs.map key).Nodup) :
    ((dropKey key k xs).map key).Nodup :=
  distinct.sublist (List.filter_sublist.map key)

/-- With distinct keys the first match is the only one. -/
theorem updateFirst_eq_updateKey {k : κ} (f : α → α) {xs : List α} (distinct : (xs.map key).Nodup) :
    updateFirst (fun x => decide (key x = k)) f xs = updateKey key k f xs := by
  induction xs with
  | nil => rfl
  | cons x rest ih =>
      obtain ⟨away, later⟩ := List.nodup_cons.mp distinct
      rw [updateKey_cons]
      by_cases here : key x = k
      · rw [updateFirst_cons_hit (by simpa using here), if_pos here, updateKey_of_absent]
        intro y mem eq
        exact away (List.mem_map.mpr ⟨y, mem, eq.trans here.symm⟩)
      · rw [updateFirst_cons_miss (by simpa using here), if_neg here, ih later]

theorem eraseP_eq_dropKey {k : κ} {xs : List α} (distinct : (xs.map key).Nodup) :
    xs.eraseP (fun x => decide (key x = k)) = dropKey key k xs := by
  induction xs with
  | nil => rfl
  | cons x rest ih =>
      obtain ⟨away, later⟩ := List.nodup_cons.mp distinct
      by_cases here : key x = k
      · have absent : ∀ y ∈ rest, key y ≠ k := fun y mem eq =>
          away (List.mem_map.mpr ⟨y, mem, eq.trans here.symm⟩)
        have drops : dropKey key k (x :: rest) = dropKey key k rest :=
          List.filter_cons_of_neg (by simp [here])
        rw [List.eraseP_cons_of_pos (by simpa using here), drops, dropKey_of_absent key absent]
      · have keeps : dropKey key k (x :: rest) = x :: dropKey key k rest :=
          List.filter_cons_of_pos (by simp [here])
        rw [List.eraseP_cons_of_neg (by simpa using here), keeps, ih later]

/-- A renaming of elements that carries key and change along. -/
theorem map_updateKey {β : Type} {key' : β → κ} {k : κ} {f : α → α} {g : β → β} (h : α → β)
    {xs : List α} (keys : ∀ x, key' (h x) = key x)
    (carry : ∀ x ∈ xs, key x = k → h (f x) = g (h x)) :
    (updateKey key k f xs).map h = updateKey key' k g (xs.map h) := by
  simp only [updateKey, List.map_map]
  refine List.map_congr_left fun x mem => ?_
  by_cases here : key x = k
  · simp [here, keys, carry x mem here]
  · simp [here, keys]

theorem map_dropKey {β : Type} {key' : β → κ} {k : κ} (h : α → β) (xs : List α)
    (keys : ∀ x, key' (h x) = key x) :
    (dropKey key k xs).map h = dropKey key' k (xs.map h) := by
  simp only [dropKey, List.filter_map]
  congr 2
  funext x
  simp [keys]

end

end KuttiDB.Theory
