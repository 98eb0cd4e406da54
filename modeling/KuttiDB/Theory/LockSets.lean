/- # KuttiDB.Theory.LockSets -- the locks a program holds, what it knows with them, and deadlocks

Two questions about programs that take locks are answered by their text alone, whatever the shared
state says:

* `Prog.Balanced`: a program unlocks only what it holds, never waits for a lock it holds, and ends
  with the locks `exit` says;
* `World.Deadlocked`: threads wait for each other in a cycle. `not_deadlocked` excludes that where
  each waiting thread has a level and waits for threads of higher levels only.

A third one, whether a program keeps to a discipline, depends on what the program found out on the
way. An `Account` says what a thread knows from its locks and a record of its own. `Prog.Paced` is the
one derivation behind all three: it follows the locks and the record through the program
(`Paced.orderly`, `Paced.secure`).
-/
import KuttiDB.Theory.Interleaving

namespace KuttiDB.Theory

set_option autoImplicit false

variable {σ ι κ ρ γ : Type}

/-! ## Balance -/

/-- Whatever the pieces of work give: only held locks are released, no held lock is waited for, every
wait is one that `asks` lists, and the locks held at the end are as `exit` says. A try at a held lock
fails. -/
def Prog.Asks (asks : Set ι → κ → ι → Prop) (exit : ρ → Set ι → Prop) :
    Prog σ ι κ ρ → Set ι → Prop
  | .done result, held => exit result held
  | .act _ next, held => ∀ s, (next s).Asks asks exit held
  | .lock site l next, held => l ∉ held ∧ asks held site l ∧ next.Asks asks exit (insert l held)
  | .tryLock _ l got busy, held =>
      (l ∉ held → got.Asks asks exit (insert l held)) ∧ busy.Asks asks exit held
  | .unlock l next, held => l ∈ held ∧ next.Asks asks exit (held \ {l})

/-- Locks are released by their holders only, and at the end held as `exit` says. -/
def Prog.Balanced (exit : ρ → Set ι → Prop) (p : Prog σ ι κ ρ) (held : Set ι) : Prop :=
  p.Asks (fun _ _ _ => True) exit held

/-- The locks a call returns with: none. -/
def LeavesNone (_ : ρ) (held : Set ι) : Prop := held = ∅

theorem Prog.Asks.balanced {asks : Set ι → κ → ι → Prop} {exit : ρ → Set ι → Prop}
    {p : Prog σ ι κ ρ} {held : Set ι} (known : p.Asks asks exit held) : p.Balanced exit held := by
  induction p generalizing held with
  | done result => exact known
  | act effect next ih => exact fun s => ih s (known s)
  | lock site l next ih => exact ⟨known.1, trivial, ih known.2.2⟩
  | tryLock site l got busy ihGot ihBusy =>
    exact ⟨fun fresh => ihGot (known.1 fresh), ihBusy known.2⟩
  | unlock l next ih => exact ⟨known.1, ih known.2⟩

/-! ## Accounts -/

/-- What a thread knows from the locks it holds and a record of its own. `covers` says that the locks
protect what the record says, `frees` that the record no longer needs a lock. -/
structure Discipline.Account (D : Discipline σ ι) (γ : Type) where
  covers : Set ι → γ → Prop
  frees : γ → ι → Prop
  knows : Set ι → γ → σ → Prop
  covers_take : ∀ {held : Set ι} {g : γ} (l : ι), covers held g → covers (insert l held) g
  covers_give : ∀ {held : Set ι} {g : γ} {l : ι}, covers held g → frees g l → covers (held \ {l}) g
  stable : ∀ {held : Set ι} {g : γ}, covers held g → D.Stable held (knows held g)
  take : ∀ {held : Set ι} {g : γ} {l : ι} {s : σ}, covers held g → l ∉ held → knows held g s →
    D.lockInv l s → knows (insert l held) g s
  give : ∀ {held : Set ι} {g : γ} {l : ι} {s : σ}, frees g l → l ∈ held → knows held g s →
    D.lockInv l s ∧ knows (held \ {l}) g s

namespace Discipline.Account

variable {D : Discipline σ ι} (A : D.Account γ)

/-- The change is one the discipline lets the thread make, and the record afterwards is right. -/
def Allows (held : Set ι) (g : γ) (effect : σ → σ) (after : σ → γ) : Prop :=
  A.covers held g → (∀ s, A.covers held (after s)) ∧
    ∀ s, D.inv s → A.knows held g s → D.may held s (effect s) ∧ A.knows held (after s) (effect s)

/-- A thread with the first record may go on with the second. -/
def Implies (held : Set ι) (g g' : γ) : Prop :=
  A.covers held g → A.covers held g' ∧ ∀ s, A.knows held g s → A.knows held g' s

end Discipline.Account

/-! ## Derivations -/

/-- The locks and the record along a program. -/
inductive Prog.Paced {D : Discipline σ ι} (A : D.Account γ) (asks : Set ι → κ → ι → Prop)
    (exit : ρ → Set ι → Prop) : Prog σ ι κ ρ → Set ι → γ → Prop where
  | done {result : ρ} {held : Set ι} {g : γ} (left : exit result held) :
      Prog.Paced A asks exit (.done result) held g
  | act {effect : σ → σ} {next : σ → Prog σ ι κ ρ} {held : Set ι} {g : γ} (after : σ → γ)
      (ok : A.Allows held g effect after)
      (go : ∀ s, Prog.Paced A asks exit (next s) held (after s)) :
      Prog.Paced A asks exit (.act effect next) held g
  | lock {site : κ} {l : ι} {next : Prog σ ι κ ρ} {held : Set ι} {g : γ} (fresh : l ∉ held)
      (asked : asks held site l) (go : Prog.Paced A asks exit next (insert l held) g) :
      Prog.Paced A asks exit (.lock site l next) held g
  | tryLock {site : κ} {l : ι} {got busy : Prog σ ι κ ρ} {held : Set ι} {g : γ}
      (go : l ∉ held → A.covers held g → Prog.Paced A asks exit got (insert l held) g)
      (other : A.covers held g → Prog.Paced A asks exit busy held g) :
      Prog.Paced A asks exit (.tryLock site l got busy) held g
  | unlock {l : ι} {next : Prog σ ι κ ρ} {held : Set ι} {g : γ} (mine : l ∈ held)
      (free : A.frees g l) (go : Prog.Paced A asks exit next (held \ {l}) g) :
      Prog.Paced A asks exit (.unlock l next) held g
  | weaken {p : Prog σ ι κ ρ} {held : Set ι} {g g' : γ} (less : A.Implies held g g')
      (go : Prog.Paced A asks exit p held g') : Prog.Paced A asks exit p held g

namespace Prog.Paced

variable {D : Discipline σ ι} {A : D.Account γ} {asks : Set ι → κ → ι → Prop}
  {exit : ρ → Set ι → Prop} {p next : Prog σ ι κ ρ} {held : Set ι} {g : γ} {l : ι}

/-- Releases the lock taken last. -/
theorem release (fresh : l ∉ held) (free : A.frees g l) (go : Prog.Paced A asks exit next held g) :
    Prog.Paced A asks exit (.unlock l next) (insert l held) g := by
  refine .unlock (Set.mem_insert l held) free ?_
  have back : insert l held \ {l} = held := by
    ext l'
    constructor
    · rintro ⟨rfl | mem, other⟩
      · exact absurd rfl other
      · exact mem
    · exact fun mem => ⟨.inr mem, fun eq => fresh (eq ▸ mem)⟩
  rwa [back]

theorem orderly (covered : A.covers held g) (paced : Prog.Paced A asks exit p held g) :
    p.Asks asks exit held := by
  induction paced with
  | done left => exact left
  | act after ok _ ih => exact fun s => ih s ((ok covered).1 s)
  | lock fresh asked _ ih => exact ⟨fresh, asked, ih (A.covers_take _ covered)⟩
  | tryLock _ _ ih ihOther =>
    exact ⟨fun fresh => ih fresh covered (A.covers_take _ covered), ihOther covered covered⟩
  | unlock mine free _ ih => exact ⟨mine, ih (A.covers_give covered free)⟩
  | weaken less _ ih => exact ih (less covered).1

theorem read {next : σ → Prog σ ι κ ρ} (ok : A.Allows held g id (fun _ => g))
    (go : ∀ s, Prog.Paced A asks exit (next s) held g) :
    Prog.Paced A asks exit (.read next) held g :=
  .act _ ok go

theorem write {effect : σ → σ} {g' : γ} (ok : A.Allows held g effect (fun _ => g'))
    (go : Prog.Paced A asks exit next held g') : Prog.Paced A asks exit (.write effect next) held g :=
  .act _ ok fun _ => go

/-- A program with a derivation keeps to the discipline. -/
theorem secure {meets : κ → ι → σ → Prop} {s : σ} (covered : A.covers held g)
    (paced : Prog.Paced A asks LeavesNone p held g) (inv : D.inv s) (knows : A.knows held g s) :
    D.Secure meets p held s := by
  induction paced generalizing s with
  | done left =>
    subst left
    exact .done _
  | act after ok _ ih =>
    refine .act _ (A.stable covered) knows fun s inv knows => ?_
    obtain ⟨may, known⟩ := (ok covered).2 s inv knows
    exact ⟨may, ih s ((ok covered).1 s) (D.inv_step inv may) known⟩
  | lock fresh _ _ ih =>
    exact .lock _ (A.stable covered) knows fresh fun s inv knows free _ =>
      ih (A.covers_take _ covered) inv (A.take covered fresh knows free)
  | tryLock _ _ ih ihOther =>
    exact .tryLock _ (A.stable covered) knows
      (fun fresh s inv knows free _ =>
        ih fresh covered (A.covers_take _ covered) inv (A.take covered fresh knows free))
      (fun s inv knows => ihOther covered covered inv knows)
  | unlock mine free _ ih =>
    refine .unlock _ (A.stable covered) knows mine fun s inv knows => ?_
    obtain ⟨kept, known⟩ := A.give free mine knows
    exact ⟨kept, ih (A.covers_give covered free) inv known⟩
  | weaken less _ ih => exact ih (less covered).1 inv ((less covered).2 _ knows)

end Prog.Paced

/-! ## Worlds of programs that ask -/

section Worlds

variable {asks : Set ι → κ → ι → Prop} {calls : Set (Prog σ ι κ ρ)} {meets : κ → ι → σ → Prop}
  {w w' : World σ ι κ ρ}

/-- Every thread asks as it should. -/
def World.Asking (asks : Set ι → κ → ι → Prop) (w : World σ ι κ ρ) : Prop :=
  ∀ t, (w.thread t).Asks asks LeavesNone (w.held t)

theorem World.Asking.goOn (held : Nat → Set ι) {t : Nat} {p : Prog σ ι κ ρ}
    (mover : p.Asks asks LeavesNone (held t))
    (others : ∀ u, u ≠ t → (w.thread u).Asks asks LeavesNone (held u)) (u : Nat) :
    ((w.goOn t p).thread u).Asks asks LeavesNone (held u) := by
  by_cases eq : u = t
  · subst eq
    simpa [World.goOn] using mover
  · simpa [World.goOn, Function.update_of_ne eq] using others u eq

theorem World.asking_resting (s : σ) (result : ρ) :
    (World.resting s result : World σ ι κ ρ).Asking asks := by
  intro t
  have none_held : (World.resting s result : World σ ι κ ρ).held t = ∅ := by
    ext l
    simp [World.held, World.resting]
  exact none_held

theorem World.Asking.at {t : Nat} {p : Prog σ ι κ ρ} (asking : w.Asking asks)
    (here : w.thread t = p) : p.Asks asks LeavesNone (w.held t) := here ▸ asking t

variable [DecidableEq ι]

theorem World.Asking.take {t : Nat} {l : ι} {next : Prog σ ι κ ρ} (asking : w.Asking asks)
    (free : w.holder l = none) (go : next.Asks asks LeavesNone (insert l (w.held t))) :
    ((w.goOn t next).hand l (some t)).Asking asks := by
  refine World.Asking.goOn ((w.goOn t next).hand l (some t)).held ?_ fun u ne => ?_
  · rw [World.held_hand_self]
    exact go
  · rw [World.held_hand_other ne next free]
    exact asking u

theorem ThreadStep.asking (callsAsk : ∀ p ∈ calls, p.Asks asks LeavesNone ∅) (asking : w.Asking asks)
    (step : ThreadStep calls meets w w') : w'.Asking asks := by
  cases step with
  | start t p idle call =>
    have rests : w.held t = ∅ := asking.at idle
    refine World.Asking.goOn w.held ?_ fun u _ => asking u
    rw [rests]
    exact callsAsk p call
  | act t here => exact World.Asking.goOn w.held (asking.at here w.shared) fun u _ => asking u
  | lock t here free _ => exact asking.take free (asking.at here).2.2
  | got t here free _ =>
    exact asking.take free ((asking.at here).1 (World.not_held_of_free free t))
  | busy t here _ => exact World.Asking.goOn w.held (asking.at here).2 fun u _ => asking u
  | unlock t here =>
    obtain ⟨held, go⟩ := asking.at here
    refine World.Asking.goOn (World.held (World.hand (World.goOn w t _) _ none)) ?_ fun u ne => ?_
    · rw [World.held_drop_self]
      exact go
    · rw [World.held_drop_other ne _ held]
      exact asking u

theorem Reaches.asking (callsAsk : ∀ p ∈ calls, p.Asks asks LeavesNone ∅) (asking : w.Asking asks)
    (run : Reaches calls meets w w') : w'.Asking asks := by
  induction run with
  | refl => exact asking
  | tail _ step ih => exact ThreadStep.asking callsAsk ih step

end Worlds

/-! ## Deadlocks -/

/-- The thread stands before this lock. -/
def World.Awaits (w : World σ ι κ ρ) (t : Nat) (site : κ) (l : ι) : Prop :=
  ∃ next, w.thread t = .lock site l next

/-- The thread waits for a lock that the other one holds. -/
def World.WaitsOn (w : World σ ι κ ρ) (t u : Nat) : Prop :=
  ∃ site l, w.Awaits t site l ∧ w.holder l = some u

/-- Some threads wait for each other in a cycle. -/
def World.Deadlocked (w : World σ ι κ ρ) : Prop := ∃ t, Relation.TransGen w.WaitsOn t t

theorem World.Asking.asked {asks : Set ι → κ → ι → Prop} {w : World σ ι κ ρ} {t : Nat} {site : κ}
    {l : ι} (asking : w.Asking asks) (awaits : w.Awaits t site l) :
    l ∉ w.held t ∧ asks (w.held t) site l := by
  obtain ⟨next, here⟩ := awaits
  obtain ⟨fresh, asked, -⟩ := asking.at here
  exact ⟨fresh, asked⟩

/-- Threads that wait only for threads of higher levels are in no cycle. -/
theorem World.not_deadlocked {α : Type} [Preorder α] {w : World σ ι κ ρ} (level : Nat → α)
    (rises : ∀ t u v, w.WaitsOn t u → w.WaitsOn u v → level t < level u) : ¬ w.Deadlocked := by
  have above : ∀ {t u : Nat}, Relation.TransGen w.WaitsOn t u →
      ∀ v, w.WaitsOn u v → level t < level u := by
    intro t u path
    induction path with
    | single waits => exact fun v next => rises _ _ v waits next
    | tail _ waits ih => exact fun v next => (ih _ waits).trans (rises _ _ v waits next)
  rintro ⟨t, cycle⟩
  obtain ⟨u, waits, -⟩ := Relation.TransGen.head'_iff.mp cycle
  exact lt_irrefl _ (above cycle u waits)

end KuttiDB.Theory
