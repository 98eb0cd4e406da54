/- # KuttiDB.QueueStore.Reservations -- room found in a queue, and who may use it

The discipline behind the bounds of the queues. Messages are added to a queue only by a thread that is
`inside` it, so the room such a thread has found stays until it uses it. What a thread has found is
its `Grant`; `lost` says that it was not alone, and then nothing is promised.

The one excess is by design: a completion whose input and output are in one queue adds the output
before it removes the input. `Slot.doubled` marks that, under the lock of the queue.
-/
import KuttiDB.QueueStore.LockPaths

namespace KuttiDB.QueueStore.Locks

open KuttiDB.Theory

set_option autoImplicit false

/-! ## Bounds -/

/-- The bound of a queue, with the input of a completion beside its output not counted. -/
def Slot.Fits (q : Slot) : Prop := q.maxDepth = 0 ∨ q.depth ≤ q.maxDepth + q.doubled.toNat

/-- As long as no one was overtaken, every queue is within its bound. -/
def Within (s : Shared) : Prop :=
  s.overlapped = true ∨ ∀ (i : Nat) (q : Slot), s.slots[i]? = some q → q.Fits

/-- What a thread with these locks may do. -/
structure MayFill (held : Set QLock) (s s' : Shared) : Prop where
  keeps : Within s → Within s'
  overlapped : s.overlapped = true → s'.overlapped = true
  slot : ∀ (i : Nat) (q : Slot), s.slots[i]? = some q →
    ∃ q', s'.slots[i]? = some q' ∧ q'.maxDepth = q.maxDepth ∧
    (.inside i ∈ held ∨ s'.overlapped = true ∨ q'.depth ≤ q.depth) ∧
    (.queue i ∈ held ∨ q'.doubled = q.doubled)
  fresh : ∀ (i : Nat) (q' : Slot), s.slots[i]? = none → s'.slots[i]? = some q' → q'.doubled = false

/-- The queue holds no output beside its input. -/
def Single (i : Nat) (s : Shared) : Prop :=
  ∀ q : Slot, s.slots[i]? = some q → q.doubled = false

theorem Single.step {held : Set QLock} {i : Nat} {s s' : Shared} (apart : .queue i ∉ held)
    (single : Single i s) (may : MayFill held s s') : Single i s' := by
  intro q' found
  cases before : s.slots[i]? with
  | none => exact may.fresh i q' before found
  | some q =>
    obtain ⟨after, found', -, -, same⟩ := may.slot i q before
    rw [found'] at found
    cases found
    rw [same.resolve_left apart]
    exact single q before

def capacity : Discipline Shared QLock where
  inv := Within
  lockInv
    | .queue i => Single i
    | _ => fun _ => True
  may := MayFill
  may_refl _ _ := ⟨id, id, fun _ q found => ⟨q, found, rfl, .inr (.inr le_rfl), .inr rfl⟩,
    fun _ _ missing found => by rw [missing] at found; cases found⟩
  inv_step within may := may.keeps within
  lockInv_step {_ _ _ l} _ apart known may := by
    cases l with
    | queue i => exact Single.step apart known may
    | store => trivial
    | state => trivial
    | wal => trivial
    | inside i => trivial

theorem room_some {s : Shared} {i count : Nat} {q : Slot} (found : s.slots[i]? = some q) :
    s.room i count = true ↔ q.maxDepth = 0 ∨ q.depth + count ≤ q.maxDepth := by
  simp [Shared.room, found]

theorem room_found {s : Shared} {i count : Nat} (room : s.room i count = true) :
    ∃ q, s.slots[i]? = some q := by
  cases found : s.slots[i]? with
  | none => simp [Shared.room, found] at room
  | some q => exact ⟨q, rfl⟩

/-- Room stays while no one adds to the queue. -/
theorem room_step {held : Set QLock} {s s' : Shared} {i count : Nat} (apart : .inside i ∉ held)
    (room : s.room i count = true) (may : MayFill held s s') :
    s'.overlapped = true ∨ s'.room i count = true := by
  obtain ⟨q, found⟩ := room_found room
  obtain ⟨q', found', bound, rise, -⟩ := may.slot i q found
  rcases rise with inside | lost | less
  · exact absurd inside apart
  · exact .inl lost
  · refine .inr ((room_some found').mpr ?_)
    rcases (room_some found).mp room with unbounded | fits
    · exact .inl (bound.trans unbounded)
    · exact .inr (by omega)

/-! ## Grants -/

/-- What a thread has found: free places by queue, the queue where its output stands beside its input,
and whether it was not alone. -/
structure Grant where
  places : Nat → Nat
  doubled : Option Nat
  lost : Bool

namespace Grant

/-- Nothing found yet. -/
def none : Grant := ⟨fun _ => 0, .none, false⟩

/-- The free places found in a queue; a thread that was not alone counts none. -/
def reserve (g : Grant) (i count : Nat) : Grant :=
  if g.lost then g else { g with places := Function.update g.places i count }

def spend (g : Grant) (i : Nat) : Grant := g.reserve i (g.places i - 1)

def lose (g : Grant) : Grant := { g with lost := true }

def double (g : Grant) (i : Nat) : Grant := { g with doubled := some i }

def single (g : Grant) : Grant := { g with doubled := .none }

/-- The locks protect what was found. -/
def Covers (held : Set QLock) (g : Grant) : Prop :=
  (g.lost = false → ∀ i, g.places i ≠ 0 → .inside i ∈ held) ∧
    ∀ i, g.doubled = some i → .queue i ∈ held

def Frees (g : Grant) : QLock → Prop
  | .queue i => g.doubled ≠ some i
  | .inside i => g.lost = true ∨ g.places i = 0
  | _ => True

def Knows (held : Set QLock) (g : Grant) (s : Shared) : Prop :=
  (∀ i, .queue i ∈ held → g.doubled ≠ some i → Single i s) ∧
    (s.overlapped = true ∨ g.lost = false ∧ ∀ i, g.places i ≠ 0 → s.room i (g.places i) = true)

variable {held : Set QLock} {g : Grant} {l : QLock} {s : Shared}

@[simp] theorem reserve_lost (g : Grant) (i count : Nat) : (g.reserve i count).lost = g.lost := by
  unfold reserve
  split <;> rfl

@[simp] theorem reserve_doubled (g : Grant) (i count : Nat) :
    (g.reserve i count).doubled = g.doubled := by
  unfold reserve
  split <;> rfl

theorem reserve_of_lost (lost : g.lost = true) (i count : Nat) : g.reserve i count = g := by
  simp [reserve, lost]

theorem reserve_places (alone : g.lost = false) (i count : Nat) :
    (g.reserve i count).places = Function.update g.places i count := by
  simp [reserve, alone]

theorem Covers.give (covers : Covers held g) (frees : g.Frees l) : Covers (held \ {l}) g := by
  refine ⟨fun alone i some => ⟨covers.1 alone i some, ?_⟩, fun i same => ⟨covers.2 i same, ?_⟩⟩
  · rintro rfl
    exact frees.elim (by simp [alone]) some
  · rintro rfl
    exact frees same

theorem stable_knows (covers : Covers held g) : capacity.Stable held (Knows held g) := by
  intro others s s' apart _ know may
  refine ⟨fun i mine other => (know.1 i mine other).step (apart _ mine) may, ?_⟩
  by_cases lost : s'.overlapped = true
  · exact .inl lost
  · rcases know.2 with before | ⟨alone, rooms⟩
    · exact .inl (may.overlapped before)
    · refine .inr ⟨alone, fun i some => ?_⟩
      exact (room_step (apart _ (covers.1 alone i some)) (rooms i some) may).resolve_left lost

def account : capacity.Account Grant where
  covers := Covers
  frees := Frees
  knows := Knows
  covers_take _ covers :=
    ⟨fun alone i some => .inr (covers.1 alone i some), fun i same => .inr (covers.2 i same)⟩
  covers_give := Covers.give
  stable := stable_knows
  take {_ _ _ _} _ _ know free := by
    refine ⟨fun i mine other => ?_, know.2⟩
    rcases mine with rfl | mine
    · exact free
    · exact know.1 i mine other
  give {_ _ l _} frees mine know := by
    refine ⟨?_, fun i held other => know.1 i held.1 other, know.2⟩
    cases l with
    | queue i => exact know.1 i mine frees
    | store => trivial
    | state => trivial
    | wal => trivial
    | inside i => trivial

theorem covers_none (held : Set QLock) : account.covers held none :=
  ⟨fun _ _ some => absurd rfl some, fun _ same => by cases same⟩

theorem knows_none (s : Shared) : account.knows ∅ none s :=
  ⟨fun _ mine => absurd mine (Set.notMem_empty _), .inr ⟨rfl, fun _ some => absurd rfl some⟩⟩

/-! ## What threads do to the queues -/

/-- A step that leaves the queues alone. -/
theorem allows_quiet {effect : Shared → Shared} (slots : ∀ s, (effect s).slots = s.slots)
    (overlapped : ∀ s, (effect s).overlapped = s.overlapped) :
    account.Allows held g effect (fun _ => g) := by
  refine fun covers => ⟨fun _ => covers, fun s _ know => ⟨⟨?_, ?_, ?_, ?_⟩, ?_⟩⟩
  · simp [Within, slots, overlapped]
  · simp [overlapped]
  · exact fun i q found => ⟨q, by rw [slots, found], rfl, .inr (.inr le_rfl), .inr rfl⟩
  · intro i q' missing found
    rw [slots, missing] at found
    cases found
  · simpa [account, Knows, Single, Shared.room, slots, overlapped] using know

/-- Another thread was inside: from here on nothing is promised. -/
theorem allows_overlap : account.Allows held g Shared.overlap (fun _ => g.lose) := by
  refine fun covers => ⟨fun _ => ⟨fun alone => Bool.noConfusion alone, covers.2⟩,
    fun s _ know => ⟨⟨fun _ => .inl rfl, fun _ => rfl, ?_, ?_⟩, know.1, .inl rfl⟩⟩
  · exact fun i q found => ⟨q, found, rfl, .inr (.inl rfl), .inr rfl⟩
  · intro i q' missing found
    rw [show s.overlap.slots = s.slots from rfl, missing] at found
    cases found

/-- The same for a thread that has found nothing by it. -/
theorem allows_forfeit : account.Allows held g Shared.overlap (fun _ => g) := by
  refine fun covers => ⟨fun _ => covers, fun s within know => ?_⟩
  exact ⟨((allows_overlap covers).2 s within know).1, know.1, .inl rfl⟩

theorem slots_modify (i j : Nat) (change : Slot → Slot) (s : Shared) :
    (s.modify i change).slots[j]? = (s.slots[j]?).map (fun q => if i = j then change q else q) :=
  List.getElem?_modify ..

/-- The rule for a change to one queue. -/
theorem may_modify {i : Nat} {change : Slot → Slot} (bound : ∀ q, (change q).maxDepth = q.maxDepth)
    (rise : .inside i ∈ held ∨ s.overlapped = true ∨ ∀ q, (change q).depth ≤ q.depth)
    (doubled : .queue i ∈ held ∨ ∀ q, (change q).doubled = q.doubled)
    (fits : s.overlapped = true ∨ ∀ q, s.slots[i]? = some q → q.Fits → (change q).Fits) :
    MayFill held s (s.modify i change) := by
  refine ⟨?_, id, fun j q found => ⟨if i = j then change q else q, ?_, ?_, ?_, ?_⟩, ?_⟩
  · rintro (lost | within)
    · exact .inl lost
    · refine fits.imp id fun fits j q' found => ?_
      rw [slots_modify] at found
      obtain ⟨q, before, rfl⟩ := Option.map_eq_some_iff.mp found
      by_cases eq : i = j
      · subst eq
        simpa using fits q before (within i q before)
      · simpa [eq] using within j q before
  · rw [slots_modify, found, Option.map_some]
  · split
    · exact bound q
    · rfl
  · by_cases eq : i = j
    · subst eq
      rw [if_pos rfl]
      exact rise.imp_right (Or.imp_right (· q))
    · simp [eq]
  · by_cases eq : i = j
    · subst eq
      simpa using doubled.imp_right (· q)
    · simp [eq]
  · intro j q' missing found
    rw [slots_modify, missing] at found
    cases found

theorem single_modify {i j : Nat} {change : Slot → Slot}
    (doubled : j = i → ∀ q, s.slots[i]? = some q → q.doubled = false → (change q).doubled = false)
    (single : Single j s) : Single j (s.modify i change) := by
  intro q' found
  rw [slots_modify] at found
  obtain ⟨q, before, rfl⟩ := Option.map_eq_some_iff.mp found
  by_cases eq : i = j
  · subst eq
    simpa using doubled rfl q before (single q before)
  · simpa [eq] using single q before

theorem room_modify {i j count more : Nat} {change : Slot → Slot}
    (bound : ∀ q, (change q).maxDepth = q.maxDepth)
    (depth : ∀ q, (change q).depth + count ≤ q.depth + more) (less : count ≤ more)
    (room : s.room j more = true) : (s.modify i change).room j count = true := by
  obtain ⟨q, found⟩ := room_found room
  have after : (s.modify i change).slots[j]? = some (if i = j then change q else q) := by
    rw [slots_modify, found, Option.map_some]
  refine (room_some after).mpr ?_
  rcases (room_some found).mp room with unbounded | fits
  · refine .inl ?_
    split
    · rw [bound, unbounded]
    · exact unbounded
  · refine .inr ?_
    split
    · have := depth q
      rw [bound]
      omega
    · omega

/-- Messages leave a queue. -/
theorem allows_shrink {i : Nat} {change : Slot → Slot}
    (bound : ∀ q, (change q).maxDepth = q.maxDepth) (depth : ∀ q, (change q).depth ≤ q.depth)
    (doubled : ∀ q, (change q).doubled = q.doubled) :
    account.Allows held g (Shared.modify i change) (fun _ => g) := by
  refine fun covers => ⟨fun _ => covers, fun s _ know => ⟨?_, ?_, ?_⟩⟩
  · refine may_modify bound (.inr (.inr depth)) (.inr doubled) (.inr fun q _ fits => ?_)
    rcases fits with unbounded | fits
    · exact .inl ((bound q).trans unbounded)
    · refine .inr ?_
      rw [bound, doubled]
      exact (depth q).trans fits
  · exact fun j mine other => single_modify (fun _ q _ single => (doubled q).trans single)
      (know.1 j mine other)
  · refine know.2.imp id fun ⟨alone, rooms⟩ => ⟨alone, fun j some => ?_⟩
    exact room_modify bound (fun q => Nat.add_le_add_right (depth q) _) le_rfl (rooms j some)

theorem allows_remove (i : Nat) : account.Allows held g (Shared.remove i) (fun _ => g) :=
  allows_shrink (fun _ => rfl) (fun q => Nat.sub_le q.depth 1) (fun _ => rfl)

/-- A `depth--` that is not atomic removes one message, or an update is lost. -/
theorem allows_storeDepth (i seen : Nat) :
    account.Allows held g (Shared.storeDepth i seen) (fun _ => g) := by
  refine fun covers => ⟨fun _ => covers, fun s within know => ?_⟩
  unfold Shared.storeDepth
  split
  · exact (allows_remove i covers).2 s within know
  · refine ⟨⟨fun _ => .inl rfl, fun _ => rfl, fun j q found => ?_, fun j q' missing found => ?_⟩, ?_,
      .inl rfl⟩
    · refine ⟨if i = j then { q with depth := seen - 1 } else q, ?_, ?_, .inr (.inl rfl), .inr ?_⟩
      · exact (slots_modify i j _ s).trans (by rw [found, Option.map_some])
      · split <;> rfl
      · split <;> rfl
    · have none := slots_modify i j (fun q => { q with depth := seen - 1 }) s
      rw [missing] at none
      cases none.symm.trans found
    · exact fun j mine other => single_modify (fun _ _ _ single => single) (know.1 j mine other)

theorem allows_purge (i : Nat) : account.Allows held g (Shared.purge i) (fun _ => g) :=
  allows_shrink (fun _ => rfl) (fun q => Nat.zero_le q.depth) (fun _ => rfl)

theorem slots_create {maxDepth i : Nat} {q : Slot} (found : (s.create maxDepth).slots[i]? = some q) :
    s.slots[i]? = some q ∨ s.slots[i]? = Option.none ∧ q = ⟨maxDepth, 0, false⟩ := by
  simp only [Shared.create, List.getElem?_append] at found
  split at found
  · exact .inl found
  · rename_i late
    refine .inr ⟨List.getElem?_eq_none (Nat.le_of_not_lt late), ?_⟩
    have at_ : q ∈ [(⟨maxDepth, 0, false⟩ : Slot)] := List.mem_of_getElem? found
    simpa using at_

theorem kept_create {maxDepth i : Nat} {q : Slot} (found : s.slots[i]? = some q) :
    (s.create maxDepth).slots[i]? = some q := by
  have early := (List.getElem?_eq_some_iff.mp found).1
  simpa [Shared.create, List.getElem?_append, early] using found

theorem allows_create (maxDepth : Nat) :
    account.Allows held g (Shared.create maxDepth) (fun _ => g) := by
  refine fun covers => ⟨fun _ => covers, fun s _ know => ⟨⟨?_, id, ?_, ?_⟩, ?_, ?_⟩⟩
  · refine Or.imp id fun within i q found => ?_
    rcases slots_create found with old | ⟨-, rfl⟩
    · exact within i q old
    · exact .inr (Nat.zero_le _)
  · exact fun i q found => ⟨q, kept_create found, rfl, .inr (.inr le_rfl), .inr rfl⟩
  · intro i q' missing found
    rcases slots_create found with old | ⟨-, rfl⟩
    · rw [missing] at old
      cases old
    · rfl
  · intro i mine other q found
    rcases slots_create found with old | ⟨-, rfl⟩
    · exact know.1 i mine other q old
    · rfl
  · refine know.2.imp id fun ⟨alone, rooms⟩ => ⟨alone, fun i some => ?_⟩
    obtain ⟨q, found⟩ := room_found (rooms i some)
    exact (room_some (kept_create found)).mpr ((room_some found).mp (rooms i some))

/-- A change to one queue says nothing about the room of another. -/
theorem room_other {i j count : Nat} {change : Slot → Slot} (ne : j ≠ i)
    (room : s.room j count = true) : (s.modify i change).room j count = true := by
  obtain ⟨q, found⟩ := room_found room
  have after : (s.modify i change).slots[j]? = some q := by
    rw [slots_modify, found]
    simp [Ne.symm ne]
  exact (room_some after).mpr ((room_some found).mp room)

/-- A thread adds a message to a queue it has found room in. -/
theorem allows_link {i : Nat} (ready : g.lost = true ∨ g.places i ≠ 0) :
    account.Allows held g (Shared.link i) (fun _ => g.spend i) := by
  have found (alone : g.lost = false) : g.places i ≠ 0 := ready.resolve_left (by simp [alone])
  refine fun covers => ⟨fun _ => ⟨fun alone j some => ?_, ?_⟩, fun s _ know => ⟨?_, ?_, ?_⟩⟩
  · have alone : g.lost = false := by simpa [spend] using alone
    rw [spend, reserve_places alone] at some
    refine covers.1 alone j ?_
    by_cases eq : j = i
    · exact eq ▸ found alone
    · rwa [Function.update_of_ne eq] at some
  · simpa [spend] using covers.2
  · refine may_modify (fun _ => rfl) ?_ (.inr fun _ => rfl) ?_
    · rcases know.2 with lost | ⟨alone, -⟩
      · exact .inr (.inl lost)
      · exact .inl (covers.1 alone i (found alone))
    · refine know.2.imp id fun ⟨alone, rooms⟩ q here _ => ?_
      have some := found alone
      rcases (room_some here).mp (rooms i some) with unbounded | fits
      · exact .inl unbounded
      · refine .inr ?_
        show q.depth + 1 ≤ q.maxDepth + q.doubled.toNat
        omega
  · intro j mine other
    exact single_modify (fun _ _ _ single => single) (know.1 j mine (by simpa [spend] using other))
  · refine know.2.imp id fun ⟨alone, rooms⟩ => ⟨by simpa [spend] using alone, fun j some => ?_⟩
    show (s.link i).room j ((g.spend i).places j) = true
    replace some : (g.spend i).places j ≠ 0 := some
    rw [spend, reserve_places alone] at some ⊢
    by_cases eq : j = i
    · subst eq
      rw [Function.update_self]
      refine room_modify (fun _ => rfl) (fun q => ?_) (Nat.sub_le _ 1) (rooms j (found alone))
      show q.depth + 1 + (g.places j - 1) ≤ q.depth + g.places j
      have := found alone
      omega
    · rw [Function.update_of_ne eq] at some ⊢
      exact room_other eq (rooms j some)

/-- The output of a completion goes beside its input. -/
theorem allows_linkBeside {i : Nat} (ready : g.lost = true ∨ .inside i ∈ held)
    (unused : g.lost = true ∨ g.places i = 0) (mine : .queue i ∈ held)
    (single : g.doubled = .none) :
    account.Allows held g (Shared.linkBeside i) (fun _ => g.double i) := by
  refine fun covers => ⟨fun _ => ⟨covers.1, fun j same => ?_⟩, fun s _ know => ⟨?_, ?_, ?_⟩⟩
  · cases same
    exact mine
  · refine may_modify (fun _ => rfl) ?_ (.inl mine) (.inr fun q found fits => ?_)
    · rcases know.2 with lost | ⟨alone, -⟩
      · exact .inr (.inl lost)
      · exact .inl (ready.resolve_left (by simp [alone]))
    · have alone : q.doubled = false := know.1 i mine (by simp [single]) q found
      rcases fits with unbounded | fits
      · exact .inl unbounded
      · refine .inr ?_
        rw [alone] at fits
        exact Nat.add_le_add_right fits 1
  · intro j held other
    have ne : j ≠ i := by
      rintro rfl
      exact other rfl
    exact single_modify (fun eq => absurd eq ne) (know.1 j held (by simp [single]))
  · refine know.2.imp id fun ⟨alone, rooms⟩ => ⟨alone, fun j some => ?_⟩
    have ne : j ≠ i := by
      rintro rfl
      exact some (unused.resolve_left (by simp [alone]))
    exact room_other ne (rooms j some)

/-- The input leaves from beside the output. -/
theorem allows_removeBeside {i : Nat} (mine : .queue i ∈ held) (double : g.doubled = some i) :
    account.Allows held g (Shared.removeBeside i) (fun _ => g.single) := by
  refine fun covers => ⟨fun _ => ⟨covers.1, fun j same => by cases same⟩, fun s _ know =>
    ⟨?_, ?_, ?_⟩⟩
  · refine may_modify (fun _ => rfl) (.inr (.inr fun q => Nat.sub_le q.depth 1)) (.inl mine)
      (.inr fun q _ fits => ?_)
    rcases fits with unbounded | fits
    · exact .inl unbounded
    · refine .inr ?_
      show q.depth - 1 ≤ q.maxDepth + 0
      have one : q.doubled.toNat ≤ 1 := Bool.toNat_le _
      omega
  · intro j held _
    by_cases eq : j = i
    · subst eq
      intro q' found
      change (s.modify j _).slots[j]? = _ at found
      rw [slots_modify] at found
      obtain ⟨q, -, rfl⟩ := Option.map_eq_some_iff.mp found
      simp
    · refine single_modify (fun same => absurd same eq) (know.1 j held ?_)
      rw [double]
      exact fun same => eq (Option.some.inj same).symm
  · refine know.2.imp id fun ⟨alone, rooms⟩ => ⟨alone, fun j some => ?_⟩
    exact room_modify (fun _ => rfl) (fun q => Nat.add_le_add_right (Nat.sub_le q.depth 1) _) le_rfl
      (rooms j some)

theorem covers_reserve {i : Nat} (count : Nat) (inside : .inside i ∈ held) (covers : Covers held g) :
    Covers held (g.reserve i count) := by
  refine ⟨fun alone j some => ?_, by simpa using covers.2⟩
  rw [reserve_lost] at alone
  by_cases eq : j = i
  · exact eq ▸ inside
  · rw [reserve_places alone, Function.update_of_ne eq] at some
    exact covers.1 alone j some

/-- A look at the room of a queue, by a thread that is inside. -/
theorem allows_look {i : Nat} (count : Nat) (inside : .inside i ∈ held) :
    account.Allows held g id (fun s => if s.room i count then g.reserve i count else g) := by
  refine fun covers => ⟨fun s => ?_, fun s _ know => ⟨capacity.may_refl held s, ?_⟩⟩
  · show Covers held (if s.room i count then g.reserve i count else g)
    split
    · exact covers_reserve count inside covers
    · exact covers
  · show Knows held (if s.room i count then g.reserve i count else g) s
    split
    · rename_i room
      refine ⟨by simpa using know.1, know.2.imp id fun ⟨alone, rooms⟩ => ⟨by simpa using alone, ?_⟩⟩
      intro j some
      rw [reserve_places alone] at some ⊢
      by_cases eq : j = i
      · subst eq
        rwa [Function.update_self]
      · rw [Function.update_of_ne eq] at some ⊢
        exact rooms j some
    · exact know

/-! ## Entering and leaving -/

/-- The locks of a thread that looks at a queue: it is inside if no other thread was. -/
def entered (i : Nat) (mine : Bool) (held : Set QLock) : Set QLock :=
  if mine then insert (.inside i) held else held

/-- What it has found. -/
def granted (g : Grant) (i count : Nat) (mine : Bool) : Grant :=
  if mine then g.reserve i count else g.lose

/-- A thread that has found no place in a queue has none there. -/
theorem frees_inside {i : Nat} (covers : Covers held g) (fresh : .inside i ∉ held) :
    g.Frees (.inside i) := by
  by_cases lost : g.lost = true
  · exact .inl lost
  · refine .inr ?_
    by_contra some
    exact fresh (covers.1 (by simpa using lost) i some)

theorem spend_granted {i count : Nat} {mine : Bool} :
    (g.granted i (count + 1) mine).spend i = g.granted i count mine := by
  cases mine with
  | false => simp [granted, spend, reserve, lose]
  | true =>
    by_cases lost : g.lost = true
    · simp [granted, spend, reserve_of_lost lost]
    · simp [granted, spend, reserve, lost]

theorem ready_granted {i count : Nat} {mine : Bool} :
    (g.granted i (count + 1) mine).lost = true ∨ (g.granted i (count + 1) mine).places i ≠ 0 := by
  cases mine with
  | false => exact .inl rfl
  | true =>
    by_cases lost : g.lost = true
    · exact .inl (by simpa [granted] using lost)
    · exact .inr (by simp [granted, reserve, lost])

/-- Afterwards the thread goes on with what it had found before. -/
theorem implies_granted {i count : Nat} {mine : Bool} (covers : Covers held g)
    (fresh : mine = true → .inside i ∉ held) :
    account.Implies (entered i mine held) (g.granted i count mine) g := by
  cases mine with
  | false =>
    refine fun _ => ⟨covers, fun s know => ⟨know.1, .inl (know.2.resolve_right ?_)⟩⟩
    rintro ⟨alone, -⟩
    cases alone
  | true =>
    have free := frees_inside covers (fresh rfl)
    refine fun _ => ⟨account.covers_take _ covers, fun s know => ⟨?_, ?_⟩⟩
    · simpa [granted] using know.1
    · refine know.2.imp id fun ⟨alone, rooms⟩ => ?_
      replace alone : g.lost = false := by simpa [granted] using alone
      refine ⟨alone, fun j some => ?_⟩
      have ne : j ≠ i := by
        rintro rfl
        exact free.elim (by simp [alone]) some
      have same : (g.granted i count true).places j = g.places j := by
        simp [granted, reserve_places alone, Function.update_of_ne ne]
      rw [← same]
      exact rooms j (same.symm ▸ some)

/-- Any thread may forget what it has found. -/
theorem implies_none (single : g.doubled = Option.none) : account.Implies held g none := by
  refine fun _ => ⟨covers_none held, fun s know => ⟨fun i mine _ => ?_, know.2.imp id fun _ => ?_⟩⟩
  · exact know.1 i mine (by simp [single])
  · exact ⟨rfl, fun _ some => absurd rfl some⟩

end Grant

end KuttiDB.QueueStore.Locks
