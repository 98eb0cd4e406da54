/- # KuttiDB.Theory.Chains -- tables of chains

A hash table is a list of chains; `Placed slot table` says that every element stands in the chain its
slot names. A change of one chain is `List.modify`. The lemmas carry such a change over to the
elements of the whole table, as an equation where the order is kept (`flatten_modify_dropKey`,
`flatten_modify_updateKey`) and up to `Perm` where it is not (`push_perm`, `pushAll_perm`).
-/
import Mathlib.Data.List.Perm.Basic
import KuttiDB.Theory.Keyed

namespace KuttiDB.Theory

set_option autoImplicit false

variable {α β κ : Type}

/-! ## Changing one place of a list -/

theorem modify_congr {f g : α → α} {xs : List α} {i : Nat}
    (same : ∀ x, xs[i]? = some x → f x = g x) : xs.modify i f = xs.modify i g := by
  refine List.ext_getElem? fun j => ?_
  rw [List.getElem?_modify, List.getElem?_modify]
  by_cases here : i = j
  · subst here
    cases found : xs[i]? with
    | none => rfl
    | some x => simp [same x found]
  · simp [here]

theorem modify_fixed {f : α → α} {xs : List α} {i : Nat} (fixed : ∀ x, xs[i]? = some x → f x = x) :
    xs.modify i f = xs := by
  refine List.ext_getElem? fun j => ?_
  rw [List.getElem?_modify]
  by_cases here : i = j
  · subst here
    cases found : xs[i]? with
    | none => rfl
    | some x => simp [fixed x found]
  · simp [here]

/-- A change that leaves the other places alone anyway. -/
theorem modify_eq_map {g : α → α} {xs : List α} {i : Nat}
    (fixed : ∀ j x, j ≠ i → xs[j]? = some x → g x = x) : xs.modify i g = xs.map g := by
  refine List.ext_getElem? fun j => ?_
  rw [List.getElem?_modify, List.getElem?_map]
  cases found : xs[j]? with
  | none => rfl
  | some x =>
      by_cases here : i = j
      · simp [here]
      · simp [here, fixed j x (fun eq => here eq.symm) found]

theorem map_modify_of {f : α → α} {g : β → β} (h : α → β) {xs : List α} {i : Nat}
    (carry : ∀ x, xs[i]? = some x → h (f x) = g (h x)) :
    (xs.modify i f).map h = (xs.map h).modify i g := by
  refine List.ext_getElem? fun j => ?_
  rw [List.getElem?_modify, List.getElem?_map, List.getElem?_map, List.getElem?_modify]
  cases found : xs[j]? with
  | none => rfl
  | some x =>
      by_cases here : i = j
      · subst here
        simp [carry x found]
      · simp [here]

theorem exists_split {xs : List α} {i : Nat} {x : α} (at_ : xs[i]? = some x) :
    ∃ before after, xs = before ++ x :: after ∧ ∀ f, xs.modify i f = before ++ f x :: after := by
  obtain ⟨lt, eq⟩ := List.getElem?_eq_some_iff.mp at_
  refine ⟨xs.take i, xs.drop (i + 1), ?_, fun f => ?_⟩
  · rw [← eq, List.getElem_cons_drop, List.take_append_drop]
  · rw [List.modify_eq_take_cons_drop lt, eq]

theorem eraseP_congr {p q : α → Bool} : ∀ {xs : List α}, (∀ x ∈ xs, p x = q x) →
    xs.eraseP p = xs.eraseP q
  | [], _ => rfl
  | x :: rest, same => by
      rw [List.eraseP_cons, List.eraseP_cons, same x List.mem_cons_self,
        eraseP_congr fun y mem => same y (List.mem_cons_of_mem x mem)]

theorem updateFirst_congr {p q : α → Bool} {f : α → α} : ∀ {xs : List α}, (∀ x ∈ xs, p x = q x) →
    updateFirst p f xs = updateFirst q f xs
  | [], _ => rfl
  | x :: rest, same => by
      rw [updateFirst, updateFirst, same x List.mem_cons_self,
        updateFirst_congr fun y mem => same y (List.mem_cons_of_mem x mem)]

/-! ## Elements stand in their chain -/

def Placed (slot : α → Nat) (table : List (List α)) : Prop :=
  ∀ i chain, table[i]? = some chain → ∀ x ∈ chain, slot x = i

variable {slot : α → Nat} {table : List (List α)} {i : Nat}

theorem placed_replicate (n : Nat) : Placed slot (List.replicate n []) := by
  intro i chain at_ x mem
  obtain ⟨-, rfl⟩ := List.mem_replicate.mp (List.mem_of_getElem? at_)
  cases mem

theorem Placed.modify {f : List α → List α} (placed : Placed slot table)
    (fits : ∀ chain, table[i]? = some chain → ∀ x ∈ f chain, slot x = i) :
    Placed slot (table.modify i f) := by
  intro j chain at_ x mem
  rw [List.getElem?_modify] at at_
  cases found : table[j]? with
  | none => simp [found] at at_
  | some old =>
      by_cases here : i = j
      · subst here
        simp only [found, Option.map_eq_map, Option.map_some, if_true, Option.some.injEq] at at_
        subst at_
        exact fits old found x mem
      · simp only [found, Option.map_eq_map, Option.map_some, if_neg here, Option.some.injEq] at at_
        subst at_
        exact placed j old found x mem

/-- The slot of an element is a chain of the table. -/
theorem Placed.mem_chain (placed : Placed slot table) {x : α} (mem : x ∈ table.flatten) :
    ∃ chain, table[slot x]? = some chain ∧ x ∈ chain := by
  obtain ⟨chain, inTable, inChain⟩ := List.mem_flatten.mp mem
  obtain ⟨i, at_⟩ := List.getElem?_of_mem inTable
  exact ⟨chain, (placed i chain at_ x inChain).symm ▸ at_, inChain⟩

section Keyed

variable [DecidableEq κ] {key : α → κ} {k : κ}

theorem flatten_modify_dropKey (placed : Placed slot table)
    (here : ∀ x ∈ table.flatten, key x = k → slot x = i) :
    (table.modify i (dropKey key k)).flatten = dropKey key k table.flatten := by
  have elsewhere : table.modify i (dropKey key k) = table.map (dropKey key k) := by
    refine modify_eq_map fun j chain away at_ => dropKey_of_absent key fun x mem named => away ?_
    rw [← placed j chain at_ x mem]
    exact here x (List.mem_flatten_of_mem (List.mem_of_getElem? at_) mem) named
  rw [elsewhere]
  exact List.filter_flatten.symm

theorem flatten_modify_updateKey {f : α → α} (placed : Placed slot table)
    (here : ∀ x ∈ table.flatten, key x = k → slot x = i) :
    (table.modify i (updateKey key k f)).flatten = updateKey key k f table.flatten := by
  have elsewhere : table.modify i (updateKey key k f) = table.map (updateKey key k f) := by
    refine modify_eq_map fun j chain away at_ => updateKey_of_absent key f fun x mem named => away ?_
    rw [← placed j chain at_ x mem]
    exact here x (List.mem_flatten_of_mem (List.mem_of_getElem? at_) mem) named
  rw [elsewhere]
  exact List.map_flatten.symm

/-- Replacing the one element of a key. -/
theorem updateKey_perm {y : α} : ∀ {xs : List α}, (xs.map key).Nodup → (∃ x ∈ xs, key x = k) →
    (updateKey key k (fun _ => y) xs).Perm (y :: dropKey key k xs)
  | [], _, found => by
      obtain ⟨_, mem, -⟩ := found
      cases mem
  | x :: rest, distinct, found => by
      obtain ⟨fresh, tail⟩ := List.nodup_cons.mp distinct
      by_cases hit : key x = k
      · have absent : ∀ z ∈ rest, key z ≠ k := fun z mem named =>
          fresh (List.mem_map.mpr ⟨z, mem, named.trans hit.symm⟩)
        have dropped : dropKey key k (x :: rest) = rest := by
          rw [dropKey, List.filter_cons_of_neg (by simp [hit])]
          exact dropKey_of_absent key absent
        rw [updateKey_cons, updateKey_of_absent key _ absent, if_pos hit, dropped]
      · have later : ∃ z ∈ rest, key z = k := by
          obtain ⟨z, mem, named⟩ := found
          cases mem with
          | head => exact absurd named hit
          | tail _ mem => exact ⟨z, mem, named⟩
        rw [updateKey_cons, if_neg hit, dropKey, List.filter_cons_of_pos (by simp [hit])]
        exact ((updateKey_perm tail later).cons x).trans (.swap y x _)

end Keyed

/-- What a filter of one chain takes away. -/
theorem flatten_modify_filter_perm (keep : α → Bool) {chain : List α}
    (at_ : table[i]? = some chain) :
    table.flatten.Perm
      (chain.filter (fun x => !keep x) ++ (table.modify i (List.filter keep)).flatten) := by
  obtain ⟨before, after, eq, changed⟩ := exists_split at_
  rw [changed, eq]
  simp only [List.flatten_append, List.flatten_cons]
  have split : chain.Perm (chain.filter (fun x => !keep x) ++ chain.filter keep) :=
    (List.perm_append_comm.trans (List.filter_append_perm keep chain)).symm
  refine ((split.append_right after.flatten).append_left before.flatten).trans ?_
  rw [List.append_assoc]
  exact List.perm_append_comm_assoc ..

/-! ## Pushing elements on their chains -/

def push (slot : α → Nat) (table : List (List α)) (x : α) : List (List α) :=
  table.modify (slot x) (x :: ·)

theorem push_perm (slot : α → Nat) {x : α} (lt : slot x < table.length) :
    (push slot table x).flatten.Perm (x :: table.flatten) := by
  have at_ : table[slot x]? = some table[slot x] := List.getElem?_eq_getElem lt
  generalize table[slot x] = chain at at_
  obtain ⟨before, after, eq, changed⟩ := exists_split at_
  rw [push, changed, eq]
  simp only [List.flatten_append, List.flatten_cons, List.cons_append]
  exact List.perm_middle

theorem Placed.push {x : α} (placed : Placed slot table) : Placed slot (push slot table x) := by
  refine placed.modify fun chain at_ y mem => ?_
  rcases List.mem_cons.mp mem with rfl | old
  · rfl
  · exact placed _ chain at_ y old

/-- **Rehashing** puts every element on the chain of its slot and loses none. -/
theorem pushAll (slot : α → Nat) {table : List (List α)} (bound : ∀ x, slot x < table.length) :
    ∀ xs : List α,
    (xs.foldl (push slot) table).length = table.length ∧
      (xs.foldl (push slot) table).flatten.Perm (xs ++ table.flatten) ∧
      (Placed slot table → Placed slot (xs.foldl (push slot) table)) := by
  intro xs
  induction xs generalizing table with
  | nil => exact ⟨rfl, .refl _, id⟩
  | cons x rest ih =>
      have same : (push slot table x).length = table.length := List.length_modify ..
      obtain ⟨length, perm, placed⟩ := ih (fun y => same ▸ bound y)
      refine ⟨length.trans same, ?_, fun before => placed before.push⟩
      exact perm.trans (((push_perm slot (bound x)).append_left rest).trans List.perm_middle)

end KuttiDB.Theory
