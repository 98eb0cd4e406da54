/- # KuttiDB.Theory.Interleaving -- threads that take locks, and a rule for what they keep true

A thread runs a program `Prog σ ι κ ρ`: it changes a shared state `σ` in atomic pieces and takes
and releases locks named by `ι` in between. Each acquisition carries the place `κ` it stands at, so
that a condition on runs can speak about some acquisitions and not about others.

The rule has three parts:

* `Discipline` says what always holds, what holds while a lock is free, and what a thread that
  holds given locks may do to the shared state;
* `Secure` says that a program keeps to the discipline whatever the other threads do, because what
  it relies on between two of its steps is stable under theirs;
* `Reaches.sound` concludes that everything the discipline promises holds in every world reached.

A schedule (`World.play`) computes one of the worlds reached, for runs given step by step.
-/
import Mathlib.Data.Set.Insert
import Mathlib.Logic.Function.Basic
import Mathlib.Logic.Relation

namespace KuttiDB.Theory

set_option autoImplicit false

/-! ## Programs and worlds -/

/-- A thread's program. `next` of an action sees the state the action started from. -/
inductive Prog (σ ι κ ρ : Type) where
  | done (result : ρ)
  | act (effect : σ → σ) (next : σ → Prog σ ι κ ρ)
  | lock (site : κ) (l : ι) (next : Prog σ ι κ ρ)
  | tryLock (site : κ) (l : ι) (got busy : Prog σ ι κ ρ)
  | unlock (l : ι) (next : Prog σ ι κ ρ)

structure World (σ ι κ ρ : Type) where
  shared : σ
  holder : ι → Option Nat
  thread : Nat → Prog σ ι κ ρ

variable {σ ι κ ρ : Type}

namespace Prog

/-- Looks at the shared state and goes on. -/
def read (next : σ → Prog σ ι κ ρ) : Prog σ ι κ ρ := .act id next

/-- Changes the shared state and goes on. -/
def write (effect : σ → σ) (next : Prog σ ι κ ρ) : Prog σ ι κ ρ := .act effect (fun _ => next)

/-- The program with nothing else running: a lock is free unless the program itself holds it. -/
def alone [DecidableEq ι] : Prog σ ι κ ρ → List ι → σ → ρ × σ
  | .done result, _, s => (result, s)
  | .act effect next, held, s => (next s).alone held (effect s)
  | .lock _ l next, held, s => next.alone (l :: held) s
  | .tryLock _ l got busy, held, s =>
      if l ∈ held then busy.alone held s else got.alone (l :: held) s
  | .unlock l next, held, s => next.alone (held.erase l) s

end Prog

namespace World

/-- No call is running and no lock is held. -/
def resting (s : σ) (result : ρ) : World σ ι κ ρ where
  shared := s
  holder := fun _ => none
  thread := fun _ => .done result

def held (w : World σ ι κ ρ) (t : Nat) : Set ι := {l | w.holder l = some t}

def goOn (w : World σ ι κ ρ) (t : Nat) (p : Prog σ ι κ ρ) : World σ ι κ ρ :=
  { w with thread := Function.update w.thread t p }

def become (w : World σ ι κ ρ) (s : σ) : World σ ι κ ρ := { w with shared := s }

def hand [DecidableEq ι] (w : World σ ι κ ρ) (l : ι) (t : Option Nat) : World σ ι κ ρ :=
  { w with holder := Function.update w.holder l t }

end World

section Steps

variable [DecidableEq ι]

/-- One step of one thread. An idle thread starts any of the calls, and an acquisition is only made
where `meets` allows it. -/
inductive ThreadStep (calls : Set (Prog σ ι κ ρ)) (meets : κ → ι → σ → Prop) :
    World σ ι κ ρ → World σ ι κ ρ → Prop where
  | start {w : World σ ι κ ρ} (t : Nat) {result : ρ} (p : Prog σ ι κ ρ)
      (idle : w.thread t = .done result) (call : p ∈ calls) :
      ThreadStep calls meets w (w.goOn t p)
  | act {w : World σ ι κ ρ} (t : Nat) {effect : σ → σ} {next : σ → Prog σ ι κ ρ}
      (here : w.thread t = .act effect next) :
      ThreadStep calls meets w ((w.goOn t (next w.shared)).become (effect w.shared))
  | lock {w : World σ ι κ ρ} (t : Nat) {site : κ} {l : ι} {next : Prog σ ι κ ρ}
      (here : w.thread t = .lock site l next) (free : w.holder l = none)
      (met : meets site l w.shared) :
      ThreadStep calls meets w ((w.goOn t next).hand l (some t))
  | got {w : World σ ι κ ρ} (t : Nat) {site : κ} {l : ι} {next busy : Prog σ ι κ ρ}
      (here : w.thread t = .tryLock site l next busy) (free : w.holder l = none)
      (met : meets site l w.shared) :
      ThreadStep calls meets w ((w.goOn t next).hand l (some t))
  | busy {w : World σ ι κ ρ} (t : Nat) {site : κ} {l : ι} {got next : Prog σ ι κ ρ}
      (here : w.thread t = .tryLock site l got next) (taken : w.holder l ≠ none) :
      ThreadStep calls meets w (w.goOn t next)
  | unlock {w : World σ ι κ ρ} (t : Nat) {l : ι} {next : Prog σ ι κ ρ}
      (here : w.thread t = .unlock l next) :
      ThreadStep calls meets w ((w.goOn t next).hand l none)

/-- The worlds an interleaving of the calls can reach. -/
def Reaches (calls : Set (Prog σ ι κ ρ)) (meets : κ → ι → σ → Prop) :
    World σ ι κ ρ → World σ ι κ ρ → Prop :=
  Relation.ReflTransGen (ThreadStep calls meets)

end Steps

/-! ## Disciplines -/

/-- What threads may rely on and what they have to keep. -/
structure Discipline (σ ι : Type) where
  inv : σ → Prop
  lockInv : ι → σ → Prop
  may : Set ι → σ → σ → Prop
  may_refl : ∀ held s, may held s s
  inv_step : ∀ {held : Set ι} {s s' : σ}, inv s → may held s s' → inv s'
  lockInv_step : ∀ {held : Set ι} {s s' : σ} {l : ι},
    inv s → l ∉ held → lockInv l s → may held s s' → lockInv l s'

/-- What a thread knows survives what the threads without its locks may do. -/
def Discipline.Stable (D : Discipline σ ι) (held : Set ι) (P : σ → Prop) : Prop :=
  ∀ (others : Set ι) (s s' : σ), (∀ l ∈ held, l ∉ others) → D.inv s → P s → D.may others s s' → P s'

/-- A program keeps to the discipline from every state that satisfies `P`. -/
def Discipline.Safe (D : Discipline σ ι) (meets : κ → ι → σ → Prop) :
    Prog σ ι κ ρ → Set ι → (σ → Prop) → Prop
  | .done _, held, _ => held = ∅
  | .act effect next, held, P =>
      ∀ s, D.inv s → P s → D.may held s (effect s) ∧
        ∃ Q, D.Stable held Q ∧ Q (effect s) ∧ D.Safe meets (next s) held Q
  | .lock site l next, held, P =>
      l ∉ held ∧ ∀ s, D.inv s → P s → D.lockInv l s → meets site l s →
        ∃ Q, D.Stable (insert l held) Q ∧ Q s ∧ D.Safe meets next (insert l held) Q
  | .tryLock site l got busy, held, P =>
      (l ∉ held → ∀ s, D.inv s → P s → D.lockInv l s → meets site l s →
        ∃ Q, D.Stable (insert l held) Q ∧ Q s ∧ D.Safe meets got (insert l held) Q) ∧
      ∀ s, D.inv s → P s → ∃ Q, D.Stable held Q ∧ Q s ∧ D.Safe meets busy held Q
  | .unlock l next, held, P =>
      l ∈ held ∧ ∀ s, D.inv s → P s → D.lockInv l s ∧
        ∃ Q, D.Stable (held \ {l}) Q ∧ Q s ∧ D.Safe meets next (held \ {l}) Q

/-- From this state on, a thread that holds these locks can run the program and keep to the
discipline whatever the others do. -/
def Discipline.Secure (D : Discipline σ ι) (meets : κ → ι → σ → Prop) (p : Prog σ ι κ ρ)
    (held : Set ι) (s : σ) : Prop :=
  ∃ P, D.Stable held P ∧ P s ∧ D.Safe meets p held P

/-! ## Rules for programs -/

namespace Discipline

variable {D : Discipline σ ι} {meets : κ → ι → σ → Prop} {held : Set ι} {s : σ}

theorem Stable.and {P Q : σ → Prop} (left : D.Stable held P) (right : D.Stable held Q) :
    D.Stable held (fun s => P s ∧ Q s) :=
  fun _ _ _ apart inv both step =>
    ⟨left _ _ _ apart inv both.1 step, right _ _ _ apart inv both.2 step⟩

theorem Stable.imp {P : Prop} {Q : σ → Prop} (stable : D.Stable held Q) :
    D.Stable held (fun s => P → Q s) :=
  fun _ _ _ apart inv know step premise => stable _ _ _ apart inv (know premise) step

theorem stable_true (D : Discipline σ ι) (held : Set ι) : D.Stable held (fun _ => True) :=
  fun _ _ _ _ _ _ _ => trivial

theorem Stable.mono {more : Set ι} {P : σ → Prop} (stable : D.Stable held P) (sub : held ⊆ more) :
    D.Stable more P :=
  fun _ _ _ apart inv know step => stable _ _ _ (fun l mem => apart l (sub mem)) inv know step

theorem Secure.done (result : ρ) : D.Secure meets (.done result) ∅ s :=
  ⟨fun _ => True, stable_true D ∅, trivial, rfl⟩

theorem Secure.act {effect : σ → σ} {next : σ → Prog σ ι κ ρ} (P : σ → Prop)
    (stable : D.Stable held P) (now : P s)
    (step : ∀ s, D.inv s → P s →
      D.may held s (effect s) ∧ D.Secure meets (next s) held (effect s)) :
    D.Secure meets (.act effect next) held s :=
  ⟨P, stable, now, step⟩

theorem Secure.read {next : σ → Prog σ ι κ ρ} (P : σ → Prop) (stable : D.Stable held P)
    (now : P s) (step : ∀ s, D.inv s → P s → D.Secure meets (next s) held s) :
    D.Secure meets (.read next) held s :=
  .act P stable now (fun s inv know => ⟨D.may_refl held s, step s inv know⟩)

theorem Secure.write {effect : σ → σ} {next : Prog σ ι κ ρ} (P : σ → Prop)
    (stable : D.Stable held P) (now : P s)
    (step : ∀ s, D.inv s → P s → D.may held s (effect s) ∧ D.Secure meets next held (effect s)) :
    D.Secure meets (.write effect next) held s :=
  .act P stable now step

theorem Secure.lock {site : κ} {l : ι} {next : Prog σ ι κ ρ} (P : σ → Prop)
    (stable : D.Stable held P) (now : P s) (fresh : l ∉ held)
    (step : ∀ s, D.inv s → P s → D.lockInv l s → meets site l s →
      D.Secure meets next (insert l held) s) :
    D.Secure meets (.lock site l next) held s :=
  ⟨P, stable, now, fresh, step⟩

theorem Secure.tryLock {site : κ} {l : ι} {got busy : Prog σ ι κ ρ} (P : σ → Prop)
    (stable : D.Stable held P) (now : P s)
    (step : l ∉ held → ∀ s, D.inv s → P s → D.lockInv l s → meets site l s →
      D.Secure meets got (insert l held) s)
    (other : ∀ s, D.inv s → P s → D.Secure meets busy held s) :
    D.Secure meets (.tryLock site l got busy) held s :=
  ⟨P, stable, now, step, other⟩

theorem Secure.unlock {l : ι} {next : Prog σ ι κ ρ} (P : σ → Prop) (stable : D.Stable held P)
    (now : P s) (mine : l ∈ held)
    (step : ∀ s, D.inv s → P s → D.lockInv l s ∧ D.Secure meets next (held \ {l}) s) :
    D.Secure meets (.unlock l next) held s :=
  ⟨P, stable, now, mine, step⟩

/-- The other threads do not disturb a secure program. -/
theorem Secure.rely {p : Prog σ ι κ ρ} {others : Set ι} {s' : σ}
    (secure : D.Secure meets p held s) (apart : ∀ l ∈ held, l ∉ others) (inv : D.inv s)
    (step : D.may others s s') : D.Secure meets p held s' := by
  obtain ⟨P, stable, now, safe⟩ := secure
  exact ⟨P, stable, stable _ _ _ apart inv now step, safe⟩

end Discipline

/-! ## Programs that keep every promise

Most programs need no knowledge of their own: while they hold a lock they keep its promise, so they
know at every point what the locks they hold promise. -/

/-- Locks are taken and released in order, and every change is one that `allowed` lists. Parts that
need knowledge of their own are `leaf`. -/
inductive Prog.Tidy (allowed : Set ι → (σ → σ) → Prop) (leaf : Prog σ ι κ ρ → Set ι → Prop) :
    Prog σ ι κ ρ → Set ι → Prop where
  | leaf {p : Prog σ ι κ ρ} {held : Set ι} (known : leaf p held) : Prog.Tidy allowed leaf p held
  | done (result : ρ) : Prog.Tidy allowed leaf (.done result) ∅
  | act {effect : σ → σ} {next : σ → Prog σ ι κ ρ} {held : Set ι} (ok : allowed held effect)
      (go : ∀ s, Prog.Tidy allowed leaf (next s) held) : Prog.Tidy allowed leaf (.act effect next) held
  | lock {site : κ} {l : ι} {next : Prog σ ι κ ρ} {held : Set ι} (fresh : l ∉ held)
      (go : Prog.Tidy allowed leaf next (insert l held)) :
      Prog.Tidy allowed leaf (.lock site l next) held
  | tryLock {site : κ} {l : ι} {got busy : Prog σ ι κ ρ} {held : Set ι}
      (go : l ∉ held → Prog.Tidy allowed leaf got (insert l held))
      (other : Prog.Tidy allowed leaf busy held) :
      Prog.Tidy allowed leaf (.tryLock site l got busy) held
  | unlock {l : ι} {next : Prog σ ι κ ρ} {held : Set ι} (mine : l ∈ held)
      (go : Prog.Tidy allowed leaf next (held \ {l})) : Prog.Tidy allowed leaf (.unlock l next) held

namespace Prog.Tidy

variable {allowed : Set ι → (σ → σ) → Prop} {leaf : Prog σ ι κ ρ → Set ι → Prop} {held : Set ι}

theorem read {next : σ → Prog σ ι κ ρ} (ok : allowed held id)
    (go : ∀ s, Prog.Tidy allowed leaf (next s) held) : Prog.Tidy allowed leaf (.read next) held :=
  .act ok go

theorem write {effect : σ → σ} {next : Prog σ ι κ ρ} (ok : allowed held effect)
    (go : Prog.Tidy allowed leaf next held) : Prog.Tidy allowed leaf (.write effect next) held :=
  .act ok (fun _ => go)

/-- Tidy programs are secure under a discipline whose promises the allowed changes keep. -/
theorem secure {D : Discipline σ ι} {meets : κ → ι → σ → Prop} {p : Prog σ ι κ ρ}
    (keeps : ∀ held effect, allowed held effect → ∀ s, D.inv s → (∀ l ∈ held, D.lockInv l s) →
      D.may held s (effect s) ∧ ∀ l ∈ held, D.lockInv l (effect s))
    (leaves : ∀ p held, leaf p held → ∀ s, D.inv s → (∀ l ∈ held, D.lockInv l s) →
      D.Secure meets p held s)
    (tidy : Prog.Tidy allowed leaf p held) {s : σ} (inv : D.inv s)
    (promises : ∀ l ∈ held, D.lockInv l s) : D.Secure meets p held s := by
  have stable : ∀ held, D.Stable held (fun s => ∀ l ∈ held, D.lockInv l s) :=
    fun held others s s' apart inv known step l mem =>
      D.lockInv_step inv (apart l mem) (known l mem) step
  induction tidy generalizing s with
  | leaf known => exact leaves _ _ known s inv promises
  | done result => exact .done result
  | act ok go ih =>
      refine .act _ (stable _) promises (fun s inv known => ?_)
      obtain ⟨may, after⟩ := keeps _ _ ok s inv known
      exact ⟨may, ih s (D.inv_step inv may) after⟩
  | lock fresh go ih =>
      refine .lock _ (stable _) promises fresh (fun s inv known free _ => ih inv (fun l mem => ?_))
      rcases Set.mem_insert_iff.1 mem with rfl | old
      · exact free
      · exact known l old
  | tryLock go other ih ihOther =>
      refine .tryLock _ (stable _) promises
        (fun fresh s inv known free _ => ih fresh inv (fun l mem => ?_))
        (fun s inv known => ihOther inv known)
      rcases Set.mem_insert_iff.1 mem with rfl | old
      · exact free
      · exact known l old
  | unlock mine go ih =>
      exact .unlock _ (stable _) promises mine (fun s inv known =>
        ⟨known _ mine, ih inv (fun l mem => known l mem.1)⟩)

end Prog.Tidy

/-! ## Soundness -/

section Soundness

variable {D : Discipline σ ι} {meets : κ → ι → σ → Prop} {calls : Set (Prog σ ι κ ρ)}
  {w w' : World σ ι κ ρ}

/-- Everything the discipline promises holds, and every thread can go on keeping to it. -/
structure World.Sound (D : Discipline σ ι) (meets : κ → ι → σ → Prop) (w : World σ ι κ ρ) :
    Prop where
  inv : D.inv w.shared
  free : ∀ l, w.holder l = none → D.lockInv l w.shared
  secure : ∀ t, D.Secure meets (w.thread t) (w.held t) w.shared

theorem World.held_apart (w : World σ ι κ ρ) {t u : Nat} (ne : u ≠ t) :
    ∀ l ∈ w.held u, l ∉ w.held t := by
  intro l mine theirs
  have same : some u = some t := mine.symm.trans theirs
  exact ne (Option.some.inj same)

theorem World.not_held_of_free {l : ι} (free : w.holder l = none) (t : Nat) : l ∉ w.held t := by
  intro mem
  have eq : w.holder l = some t := mem
  rw [free] at eq
  cases eq

/-- The thread that moved is secure and so is every other one. -/
theorem World.secure_goOn (held : Nat → Set ι) {t : Nat} {p : Prog σ ι κ ρ} {s : σ}
    (mover : D.Secure meets p (held t) s)
    (others : ∀ u, u ≠ t → D.Secure meets (w.thread u) (held u) s) (u : Nat) :
    D.Secure meets ((w.goOn t p).thread u) (held u) s := by
  by_cases eq : u = t
  · subst eq
    simpa [World.goOn] using mover
  · simpa [World.goOn, Function.update_of_ne eq] using others u eq

theorem World.sound_resting {s : σ} (result : ρ) (inv : D.inv s) (free : ∀ l, D.lockInv l s) :
    (World.resting s result : World σ ι κ ρ).Sound D meets := by
  refine ⟨inv, fun l _ => free l, fun t => ?_⟩
  have none_held : (World.resting s result : World σ ι κ ρ).held t = ∅ := by
    ext l
    simp [World.held, World.resting]
  rw [none_held]
  exact .done result

theorem World.Sound.act {t : Nat} {effect : σ → σ} {next : σ → Prog σ ι κ ρ}
    (sound : w.Sound D meets) (here : w.thread t = .act effect next) :
    ((w.goOn t (next w.shared)).become (effect w.shared)).Sound D meets := by
  obtain ⟨P, -, now, safe⟩ := here ▸ sound.secure t
  obtain ⟨may, go⟩ := safe w.shared sound.inv now
  refine ⟨D.inv_step sound.inv may, fun l free => ?_, World.secure_goOn w.held go (fun u ne => ?_)⟩
  · exact D.lockInv_step sound.inv (World.not_held_of_free free t) (sound.free l free) may
  · exact (sound.secure u).rely (w.held_apart ne) sound.inv may

variable [DecidableEq ι]

theorem World.held_hand_self {l : ι} (t : Nat) (p : Prog σ ι κ ρ) :
    ((w.goOn t p).hand l (some t)).held t = insert l (w.held t) := by
  ext l'
  by_cases eq : l' = l
  · subst eq
    simp [World.held, World.hand]
  · simp [World.held, World.hand, World.goOn, eq]

theorem World.held_hand_other {l : ι} {t u : Nat} (ne : u ≠ t) (p : Prog σ ι κ ρ)
    (free : w.holder l = none) : ((w.goOn t p).hand l (some t)).held u = w.held u := by
  ext l'
  by_cases eq : l' = l
  · subst eq
    simp [World.held, World.hand, free, ne.symm]
  · simp [World.held, World.hand, World.goOn, eq]

theorem World.held_drop_self {l : ι} (t : Nat) (p : Prog σ ι κ ρ) :
    ((w.goOn t p).hand l none).held t = w.held t \ {l} := by
  ext l'
  by_cases eq : l' = l
  · subst eq
    simp [World.held, World.hand]
  · simp [World.held, World.hand, World.goOn, eq]

theorem World.held_drop_other {l : ι} {t u : Nat} (ne : u ≠ t) (p : Prog σ ι κ ρ)
    (mine : l ∈ w.held t) : ((w.goOn t p).hand l none).held u = w.held u := by
  ext l'
  by_cases eq : l' = l
  · subst eq
    have held : w.holder l' = some t := mine
    simp [World.held, World.hand, held, ne.symm]
  · simp [World.held, World.hand, World.goOn, eq]

/-- Taking a free lock, by waiting for it or by a try that succeeds. -/
theorem World.Sound.take {t : Nat} {l : ι} {next : Prog σ ι κ ρ} (sound : w.Sound D meets)
    (free : w.holder l = none) (go : D.Secure meets next (insert l (w.held t)) w.shared) :
    ((w.goOn t next).hand l (some t)).Sound D meets := by
  refine ⟨sound.inv, fun l' free' => ?_, ?_⟩
  · by_cases eq : l' = l
    · subst eq
      simp [World.hand] at free'
    · exact sound.free l' (by simpa [World.hand, World.goOn, eq] using free')
  · refine World.secure_goOn ((w.goOn t next).hand l (some t)).held ?_ (fun u ne => ?_)
    · rw [World.held_hand_self]
      exact go
    · rw [World.held_hand_other ne next free]
      exact sound.secure u

theorem World.Sound.release {t : Nat} {l : ι} {next : Prog σ ι κ ρ} (sound : w.Sound D meets)
    (mine : l ∈ w.held t) (kept : D.lockInv l w.shared)
    (go : D.Secure meets next (w.held t \ {l}) w.shared) :
    ((w.goOn t next).hand l none).Sound D meets := by
  refine ⟨sound.inv, fun l' free' => ?_, ?_⟩
  · by_cases eq : l' = l
    · exact eq ▸ kept
    · exact sound.free l' (by simpa [World.hand, World.goOn, eq] using free')
  · refine World.secure_goOn ((w.goOn t next).hand l none).held ?_ (fun u ne => ?_)
    · rw [World.held_drop_self]
      exact go
    · rw [World.held_drop_other ne next mine]
      exact sound.secure u

theorem ThreadStep.sound (callsSecure : ∀ p ∈ calls, ∀ s, D.inv s → D.Secure meets p ∅ s)
    (sound : w.Sound D meets) (step : ThreadStep calls meets w w') : w'.Sound D meets := by
  cases step with
  | start t p idle call =>
      have free : w.held t = ∅ := by
        obtain ⟨P, -, -, safe⟩ := idle ▸ sound.secure t
        exact safe
      refine ⟨sound.inv, sound.free, World.secure_goOn w.held ?_ (fun u _ => sound.secure u)⟩
      rw [free]
      exact callsSecure p call w.shared sound.inv
  | act t here => exact sound.act here
  | lock t here free met =>
      obtain ⟨P, -, now, fresh, step⟩ := here ▸ sound.secure t
      exact sound.take free (step w.shared sound.inv now (sound.free _ free) met)
  | got t here free met =>
      obtain ⟨P, -, now, step, -⟩ := here ▸ sound.secure t
      exact sound.take free
        (step (World.not_held_of_free free t) w.shared sound.inv now (sound.free _ free) met)
  | busy t here taken =>
      obtain ⟨P, -, now, -, step⟩ := here ▸ sound.secure t
      exact ⟨sound.inv, sound.free,
        World.secure_goOn w.held (step w.shared sound.inv now) (fun u _ => sound.secure u)⟩
  | unlock t here =>
      obtain ⟨P, -, now, mine, step⟩ := here ▸ sound.secure t
      obtain ⟨kept, go⟩ := step w.shared sound.inv now
      exact sound.release mine kept go

/-- **Interleaving rule.** Calls that are secure on their own are sound together: from a sound
world every reachable one is sound. -/
theorem Reaches.sound (callsSecure : ∀ p ∈ calls, ∀ s, D.inv s → D.Secure meets p ∅ s)
    (sound : w.Sound D meets) (run : Reaches calls meets w w') : w'.Sound D meets := by
  induction run with
  | refl => exact sound
  | tail _ step ih => exact ThreadStep.sound callsSecure ih step

end Soundness

/-! ## Schedules -/

/-- The acquisition that comes next, if one does, is allowed. -/
def Prog.Met (meets : κ → ι → σ → Prop) (s : σ) : Prog σ ι κ ρ → Prop
  | .lock site l _ => meets site l s
  | .tryLock site l _ _ => meets site l s
  | _ => True

instance {meets : κ → ι → σ → Prop} [∀ site l s, Decidable (meets site l s)] (s : σ) :
    ∀ p : Prog σ ι κ ρ, Decidable (p.Met meets s)
  | .lock site l _ => inferInstanceAs (Decidable (meets site l s))
  | .tryLock site l _ _ => inferInstanceAs (Decidable (meets site l s))
  | .done _ => .isTrue trivial
  | .act _ _ => .isTrue trivial
  | .unlock _ _ => .isTrue trivial

theorem Prog.met_of_all {meets : κ → ι → σ → Prop} {s : σ} (all : ∀ site l, meets site l s)
    (p : Prog σ ι κ ρ) : p.Met meets s := by
  cases p with
  | lock site l next => exact all site l
  | tryLock site l got busy => exact all site l
  | done result => trivial
  | act effect next => trivial
  | unlock l next => trivial

section Schedules

variable [DecidableEq ι]

/-- A turn of a schedule: a thread starts a call, or a thread takes some steps. -/
inductive Turn (σ ι κ ρ : Type) where
  | start (t : Nat) (p : Prog σ ι κ ρ)
  | steps (t count : Nat)

namespace World

/-- The next step of a thread; a thread that is done or has to wait stays where it is. -/
def advance (w : World σ ι κ ρ) (t : Nat) : World σ ι κ ρ :=
  match w.thread t with
  | .done _ => w
  | .act effect next => (w.goOn t (next w.shared)).become (effect w.shared)
  | .lock _ l next => if w.holder l = none then (w.goOn t next).hand l (some t) else w
  | .tryLock _ l got busy =>
      if w.holder l = none then (w.goOn t got).hand l (some t) else w.goOn t busy
  | .unlock l next => (w.goOn t next).hand l none

def turn (w : World σ ι κ ρ) : Turn σ ι κ ρ → World σ ι κ ρ
  | .start t p =>
      match w.thread t with
      | .done _ => w.goOn t p
      | _ => w
  | .steps t count => (fun w => w.advance t)^[count] w

def play (w : World σ ι κ ρ) (turns : List (Turn σ ι κ ρ)) : World σ ι κ ρ := turns.foldl turn w

/-- What the last call of a thread returned. -/
def result? (w : World σ ι κ ρ) (t : Nat) : Option ρ :=
  match w.thread t with
  | .done result => some result
  | _ => none

end World

/-- The calls a turn starts are among these. -/
def Turn.Starts (calls : Set (Prog σ ι κ ρ)) : Turn σ ι κ ρ → Prop
  | .start _ p => p ∈ calls
  | .steps _ _ => True

variable {calls : Set (Prog σ ι κ ρ)}

theorem World.reaches_advance {meets : κ → ι → σ → Prop} (w : World σ ι κ ρ) (t : Nat)
    (met : (w.thread t).Met meets w.shared) : Reaches calls meets w (w.advance t) := by
  unfold World.advance
  split
  · exact .refl
  · rename_i here
    exact .single (.act t here)
  · rename_i here
    rw [here] at met
    split
    · rename_i free
      exact .single (.lock t here free met)
    · exact .refl
  · rename_i here
    rw [here] at met
    split
    · rename_i free
      exact .single (.got t here free met)
    · rename_i taken
      exact .single (.busy t here taken)
  · rename_i here
    exact .single (.unlock t here)

theorem World.reaches_steps {meets : κ → ι → σ → Prop} (t : Nat) {count : Nat} :
    ∀ (w : World σ ι κ ρ),
      (∀ k < count, (((fun w => w.advance t)^[k] w).thread t).Met meets
        ((fun w => w.advance t)^[k] w).shared) →
      Reaches calls meets w (w.turn (.steps t count)) := by
  induction count with
  | zero => exact fun _ _ => .refl
  | succ count ih =>
      intro w met
      have first : Reaches calls meets w (w.advance t) :=
        w.reaches_advance t (met 0 (Nat.zero_lt_succ count))
      exact first.trans (ih (w.advance t) (fun k bound => met (k + 1) (Nat.succ_lt_succ bound)))

/-- Every acquisition the schedule makes is allowed. -/
def World.Steady (meets : κ → ι → σ → Prop) (w : World σ ι κ ρ) : List (Turn σ ι κ ρ) → Prop
  | [] => True
  | .start t p :: rest => (w.turn (.start t p)).Steady meets rest
  | .steps t count :: rest =>
      (∀ k < count, (((fun w => w.advance t)^[k] w).thread t).Met meets
        ((fun w => w.advance t)^[k] w).shared) ∧
      (w.turn (.steps t count)).Steady meets rest

instance World.decidableSteady {meets : κ → ι → σ → Prop}
    [∀ site l s, Decidable (meets site l s)] (w : World σ ι κ ρ) :
    ∀ turns : List (Turn σ ι κ ρ), Decidable (w.Steady meets turns)
  | [] => .isTrue trivial
  | .start t p :: rest => World.decidableSteady (w.turn (.start t p)) rest
  | .steps t count :: rest =>
      have : Decidable ((w.turn (.steps t count)).Steady meets rest) :=
        World.decidableSteady (w.turn (.steps t count)) rest
      inferInstanceAs (Decidable ((∀ k < count, (((fun w => w.advance t)^[k] w).thread t).Met meets
        ((fun w => w.advance t)^[k] w).shared) ∧ (w.turn (.steps t count)).Steady meets rest))

theorem World.reaches_steady {meets : κ → ι → σ → Prop} {turns : List (Turn σ ι κ ρ)}
    (w : World σ ι κ ρ) (starts : ∀ turn ∈ turns, turn.Starts calls)
    (steady : w.Steady meets turns) : Reaches calls meets w (w.play turns) := by
  induction turns generalizing w with
  | nil => exact .refl
  | cons turn rest ih =>
      have later : ∀ x ∈ rest, Turn.Starts calls x :=
        fun x mem => starts x (List.mem_cons_of_mem turn mem)
      cases turn with
      | start t p =>
          refine Relation.ReflTransGen.trans ?_ (ih (w.turn (.start t p)) later steady)
          simp only [World.turn]
          split
          · rename_i idle
            exact .single (.start t p idle (starts _ List.mem_cons_self))
          · exact .refl
      | steps t count =>
          exact (w.reaches_steps t steady.1).trans (ih (w.turn (.steps t count)) later steady.2)

theorem World.steady_of_all {meets : κ → ι → σ → Prop} (all : ∀ site l s, meets site l s)
    (turns : List (Turn σ ι κ ρ)) (w : World σ ι κ ρ) : w.Steady meets turns := by
  induction turns generalizing w with
  | nil => trivial
  | cons turn rest ih =>
      cases turn with
      | start t p => exact ih _
      | steps t count => exact ⟨fun _ _ => Prog.met_of_all (fun site l => all site l _) _, ih _⟩

/-- What a schedule plays is reached. -/
theorem World.reaches_play {turns : List (Turn σ ι κ ρ)} (w : World σ ι κ ρ)
    (starts : ∀ turn ∈ turns, turn.Starts calls) :
    Reaches calls (fun _ _ _ => True) w (w.play turns) :=
  w.reaches_steady starts (World.steady_of_all (fun _ _ _ => trivial) turns w)

end Schedules

end KuttiDB.Theory
