/- # KuttiDB.Theory.Workers -- workers that share a state, one atomic section at a time

A worker of a kind `ω` runs a `Flow`: a sequence of atomic sections on a shared state, each at a
site that a condition on runs can speak about. A worker starts a call only when its last one is
done, so calls of one worker never overlap and calls of different workers interleave freely.

`Contract` is the rely/guarantee rule for such crews. It differs from `Theory.Interleaving` in that
sections are atomic (no lock is held between two of them) and workers are told apart: what a worker
knows has to survive the sections of the *other* workers only. `rest` is what a worker can rely on
between two of its calls.
-/
import Mathlib.Data.Set.Basic
import Mathlib.Logic.Function.Basic
import Mathlib.Logic.Relation

namespace KuttiDB.Theory

set_option autoImplicit false

/-! ## Flows and crews -/

/-- A call in progress. `next` sees the state its section started from. -/
inductive Flow (σ κ ρ : Type) where
  | done (result : ρ)
  | step (site : κ) (effect : σ → σ) (next : σ → Flow σ κ ρ)

structure Crew (ω σ κ ρ : Type) where
  shared : σ
  work : ω → Flow σ κ ρ

variable {ω σ κ ρ : Type}

namespace Flow

/-- The call with no other worker moving. -/
def alone : Flow σ κ ρ → σ → ρ × σ
  | .done result, s => (result, s)
  | .step _ effect next, s => (next s).alone (effect s)

/-- Every section of the call run alone is entered where `meets` allows it. -/
def Met (meets : κ → σ → Prop) : Flow σ κ ρ → σ → Prop
  | .done _, _ => True
  | .step site effect next, s => meets site s ∧ (next s).Met meets (effect s)

instance decidableMet {meets : κ → σ → Prop} [∀ site s, Decidable (meets site s)] :
    ∀ (p : Flow σ κ ρ) (s : σ), Decidable (p.Met meets s)
  | .done _, _ => .isTrue trivial
  | .step site effect next, s =>
      have : Decidable ((next s).Met meets (effect s)) := decidableMet (next s) (effect s)
      inferInstanceAs (Decidable (meets site s ∧ (next s).Met meets (effect s)))

end Flow

namespace Crew

variable [DecidableEq ω]

def turnTo (w : Crew ω σ κ ρ) (t : ω) (p : Flow σ κ ρ) (s : σ) : Crew ω σ κ ρ :=
  ⟨s, Function.update w.work t p⟩

/-- A worker starts one of its calls, or runs the next section of the one it is in. -/
inductive Step (calls : ω → Set (Flow σ κ ρ)) (meets : κ → σ → Prop) :
    Crew ω σ κ ρ → Crew ω σ κ ρ → Prop where
  | start {w : Crew ω σ κ ρ} (t : ω) {result : ρ} (p : Flow σ κ ρ)
      (idle : w.work t = .done result) (call : p ∈ calls t) :
      Step calls meets w (w.turnTo t p w.shared)
  | step {w : Crew ω σ κ ρ} (t : ω) {site : κ} {effect : σ → σ} {next : σ → Flow σ κ ρ}
      (here : w.work t = .step site effect next) (met : meets site w.shared) :
      Step calls meets w (w.turnTo t (next w.shared) (effect w.shared))

def Runs (calls : ω → Set (Flow σ κ ρ)) (meets : κ → σ → Prop) :
    Crew ω σ κ ρ → Crew ω σ κ ρ → Prop :=
  Relation.ReflTransGen (Step calls meets)

theorem Runs.mono {calls : ω → Set (Flow σ κ ρ)} {meets weaker : κ → σ → Prop}
    {w w' : Crew ω σ κ ρ} (imp : ∀ site s, meets site s → weaker site s)
    (run : Runs calls meets w w') : Runs calls weaker w w' := by
  induction run with
  | refl => exact .refl
  | tail _ step ih =>
      refine ih.tail ?_
      cases step with
      | start t p idle call => exact .start t p idle call
      | step t here met => exact .step t here (imp _ _ met)

/-- Nobody is in a call. -/
def idle (s : σ) (result : ρ) : Crew ω σ κ ρ := ⟨s, fun _ => .done result⟩

end Crew

/-! ## Contracts -/

/-- What always holds, what a worker finds when it starts a call, and what a worker may do. -/
structure Contract (ω σ : Type) where
  inv : σ → Prop
  rest : ω → σ → Prop
  may : ω → σ → σ → Prop
  inv_step : ∀ {t : ω} {s s' : σ}, inv s → may t s s' → inv s'
  rest_step : ∀ {t u : ω} {s s' : σ}, t ≠ u → inv s → rest t s → may u s s' → rest t s'

namespace Contract

variable {C : Contract ω σ} {meets : κ → σ → Prop} {t : ω} {s : σ}

/-- What the worker knows survives the sections of the others. -/
def Stable (C : Contract ω σ) (t : ω) (P : σ → Prop) : Prop :=
  ∀ (u : ω) (s s' : σ), t ≠ u → C.inv s → P s → C.may u s s' → P s'

/-- From this state on, the worker can run the call and keep the contract whatever the others do. -/
def Secure (C : Contract ω σ) (meets : κ → σ → Prop) (t : ω) : Flow σ κ ρ → σ → Prop
  | .done _, s => C.rest t s
  | .step site effect next, s => ∃ P : σ → Prop, C.Stable t P ∧ P s ∧
      ∀ s, C.inv s → P s → meets site s →
        C.may t s (effect s) ∧ C.Secure meets t (next s) (effect s)

/-- A call that needs no knowledge of its own. -/
def Always (C : Contract ω σ) (meets : κ → σ → Prop) (t : ω) (p : Flow σ κ ρ) : Prop :=
  ∀ s, C.inv s → C.rest t s → C.Secure meets t p s

/-- A section that keeps the contract from wherever it is entered. -/
def Fine (C : Contract ω σ) (meets : κ → σ → Prop) (t : ω) (site : κ) (effect : σ → σ) : Prop :=
  ∀ s, C.inv s → C.rest t s → meets site s → C.may t s (effect s) ∧ C.rest t (effect s)

theorem Stable.and {P Q : σ → Prop} (left : C.Stable t P) (right : C.Stable t Q) :
    C.Stable t (fun s => P s ∧ Q s) :=
  fun u s s' ne inv both step =>
    ⟨left u s s' ne inv both.1 step, right u s s' ne inv both.2 step⟩

theorem stable_rest (C : Contract ω σ) (t : ω) : C.Stable t (C.rest t) :=
  fun _ _ _ ne inv rest step => C.rest_step ne inv rest step

/-- The sections of the other workers do not disturb a secure call. -/
theorem Secure.rely {p : Flow σ κ ρ} {u : ω} {s' : σ} (secure : C.Secure meets t p s)
    (ne : t ≠ u) (inv : C.inv s) (step : C.may u s s') : C.Secure meets t p s' := by
  cases p with
  | done result => exact C.rest_step ne inv secure step
  | step site effect next =>
      obtain ⟨P, stable, now, go⟩ := secure
      exact ⟨P, stable, stable u s s' ne inv now step, go⟩

/-- A section whose safety needs knowledge: `P` beside what `rest` gives. -/
theorem Secure.knowing {site : κ} {effect : σ → σ} {next : σ → Flow σ κ ρ} (P : σ → Prop)
    (stable : C.Stable t P) (now : P s) (rest : C.rest t s)
    (go : ∀ s, C.inv s → C.rest t s → P s → meets site s →
      C.may t s (effect s) ∧ C.Secure meets t (next s) (effect s)) :
    C.Secure meets t (.step site effect next) s :=
  ⟨fun s => C.rest t s ∧ P s, (stable_rest C t).and stable, ⟨rest, now⟩,
    fun s inv both met => go s inv both.1 both.2 met⟩

theorem Always.done (result : ρ) : C.Always meets t (.done result : Flow σ κ ρ) :=
  fun _ _ rest => rest

theorem Always.step {site : κ} {effect : σ → σ} {next : σ → Flow σ κ ρ}
    (fine : C.Fine meets t site effect) (go : ∀ s, C.Always meets t (next s)) :
    C.Always meets t (.step site effect next) := by
  intro s _ rest
  refine ⟨C.rest t, stable_rest C t, rest, fun s inv rest met => ?_⟩
  obtain ⟨may, after⟩ := fine s inv rest met
  exact ⟨may, go s (effect s) (C.inv_step inv may) after⟩

variable [DecidableEq ω]

/-- The invariant holds and every worker can go on. -/
structure Sound (C : Contract ω σ) (meets : κ → σ → Prop) (w : Crew ω σ κ ρ) : Prop where
  inv : C.inv w.shared
  secure : ∀ t, C.Secure meets t (w.work t) w.shared

theorem sound_turnTo {w : Crew ω σ κ ρ} {p : Flow σ κ ρ} {s : σ} (inv : C.inv s)
    (mover : C.Secure meets t p s)
    (others : ∀ u, u ≠ t → C.Secure meets u (w.work u) s) : C.Sound meets (w.turnTo t p s) := by
  refine ⟨inv, fun u => ?_⟩
  by_cases same : u = t
  · subst same
    simpa [Crew.turnTo] using mover
  · simpa [Crew.turnTo, Function.update_of_ne same] using others u same

theorem Sound.step {calls : ω → Set (Flow σ κ ρ)} {w w' : Crew ω σ κ ρ}
    (secure : ∀ t, ∀ p ∈ calls t, C.Always meets t p) (sound : C.Sound meets w)
    (step : Crew.Step calls meets w w') : C.Sound meets w' := by
  cases step with
  | start t p idle call =>
      have rest : C.rest t w.shared := by
        have here := sound.secure t
        rw [idle] at here
        exact here
      exact sound_turnTo sound.inv (secure t p call w.shared sound.inv rest)
        (fun u _ => sound.secure u)
  | step t here met =>
      have mine := sound.secure t
      rw [here] at mine
      obtain ⟨P, -, now, go⟩ := mine
      obtain ⟨may, after⟩ := go w.shared sound.inv now met
      exact sound_turnTo (C.inv_step sound.inv may) after
        (fun u ne => (sound.secure u).rely ne sound.inv may)

/-- **Contract rule.** What calls keep one by one holds in every state an interleaving reaches. -/
theorem sound_runs {calls : ω → Set (Flow σ κ ρ)} {s : σ} {result : ρ} {w : Crew ω σ κ ρ}
    (secure : ∀ t, ∀ p ∈ calls t, C.Always meets t p) (inv : C.inv s) (rest : ∀ t, C.rest t s)
    (run : Crew.Runs calls meets (Crew.idle s result) w) : C.Sound meets w := by
  induction run with
  | refl => exact ⟨inv, rest⟩
  | tail _ step ih => exact ih.step secure step

end Contract

/-! ## Histories: calls one after another -/

namespace Crew

variable [DecidableEq ω] {calls : ω → Set (Flow σ κ ρ)} {meets : κ → σ → Prop}

/-- Runs whole calls in order. -/
def history : List (ω × Flow σ κ ρ) → σ → σ
  | [], s => s
  | (_, p) :: rest, s => history rest (p.alone s).2

/-- Every section of the history is entered where `meets` allows it. -/
def Meets (meets : κ → σ → Prop) : List (ω × Flow σ κ ρ) → σ → Prop
  | [], _ => True
  | (_, p) :: rest, s => p.Met meets s ∧ Meets meets rest (p.alone s).2

instance decidableMeets {meets : κ → σ → Prop} [∀ site s, Decidable (meets site s)] :
    ∀ (turns : List (ω × Flow σ κ ρ)) (s : σ), Decidable (Meets meets turns s)
  | [], _ => .isTrue trivial
  | (_, p) :: rest, s =>
      have : Decidable (Meets meets rest (p.alone s).2) := decidableMeets rest (p.alone s).2
      inferInstanceAs (Decidable (p.Met meets s ∧ Meets meets rest (p.alone s).2))

theorem runs_alone (t : ω) (p : Flow σ κ ρ) : ∀ (w : Crew ω σ κ ρ), w.work t = p →
    p.Met meets w.shared →
    Runs calls meets w (w.turnTo t (.done (p.alone w.shared).1) (p.alone w.shared).2) := by
  induction p with
  | done result =>
      intro w here _
      have same : w.turnTo t (.done result) w.shared = w := by
        rw [turnTo, ← here, Function.update_eq_self]
      show Runs calls meets w (w.turnTo t (.done result) w.shared)
      rw [same]
      exact .refl
  | step site effect next ih =>
      intro w here met
      let mid := w.turnTo t (next w.shared) (effect w.shared)
      have first : Step calls meets w mid := .step t here met.1
      have later := ih w.shared mid (by simp [mid, turnTo]) met.2
      have target : mid.turnTo t (.done ((next w.shared).alone (effect w.shared)).1)
          ((next w.shared).alone (effect w.shared)).2 =
          w.turnTo t (.done ((next w.shared).alone (effect w.shared)).1)
            ((next w.shared).alone (effect w.shared)).2 := by
        simp [mid, turnTo]
      exact .head first (target ▸ later)

/-- What a history computes is reached. -/
theorem runs_history : ∀ (turns : List (ω × Flow σ κ ρ)) (w : Crew ω σ κ ρ),
    (∀ t, ∃ result, w.work t = .done result) → (∀ turn ∈ turns, turn.2 ∈ calls turn.1) →
    Meets meets turns w.shared →
    ∃ w', Runs calls meets w w' ∧ w'.shared = history turns w.shared
  | [], w, _, _, _ => ⟨w, .refl, rfl⟩
  | (t, p) :: rest, w, idle, allowed, met => by
      obtain ⟨result, here⟩ := idle t
      let started := w.turnTo t p w.shared
      have first : Step calls meets w started :=
        .start t p here (allowed (t, p) List.mem_cons_self)
      have call : Runs calls meets started
          (started.turnTo t (.done (p.alone w.shared).1) (p.alone w.shared).2) :=
        runs_alone t p started (by simp [started, turnTo]) met.1
      let after := started.turnTo t (.done (p.alone w.shared).1) (p.alone w.shared).2
      have stillIdle : ∀ u, ∃ result, after.work u = .done result := by
        intro u
        by_cases same : u = t
        · subst same
          exact ⟨_, Function.update_self ..⟩
        · obtain ⟨other, there⟩ := idle u
          exact ⟨other, by simp [after, started, turnTo, Function.update_of_ne same, there]⟩
      obtain ⟨w', reached, same⟩ := runs_history rest after stillIdle
        (fun turn mem => allowed turn (List.mem_cons_of_mem _ mem)) met.2
      exact ⟨w', .head first (.trans call reached), same⟩

/-! ## Schedules: one section at a time -/

inductive Move (ω σ κ ρ : Type) where
  | start (t : ω) (p : Flow σ κ ρ)
  | go (t : ω)

/-- Makes the move, when the worker can. -/
def move (w : Crew ω σ κ ρ) : Move ω σ κ ρ → Crew ω σ κ ρ
  | .start t p =>
      match w.work t with
      | .done _ => w.turnTo t p w.shared
      | .step .. => w
  | .go t =>
      match w.work t with
      | .done _ => w
      | .step _ effect next => w.turnTo t (next w.shared) (effect w.shared)

/-- What a schedule computes is reached, when nothing has to be met. -/
theorem runs_schedule (free : ∀ site s, meets site s) : ∀ (moves : List (Move ω σ κ ρ))
    (w : Crew ω σ κ ρ), (∀ t p, Move.start t p ∈ moves → p ∈ calls t) →
    Runs calls meets w (moves.foldl move w)
  | [], w, _ => .refl
  | m :: rest, w, allowed => by
      have later := runs_schedule free rest (w.move m)
        (fun t p mem => allowed t p (List.mem_cons_of_mem m mem))
      refine Relation.ReflTransGen.trans ?_ later
      cases m with
      | start t p =>
          cases here : w.work t with
          | done result =>
              rw [move, here]
              exact .single (.start t p here (allowed t p List.mem_cons_self))
          | step site effect next => rw [move, here]
      | go t =>
          cases here : w.work t with
          | done result => rw [move, here]
          | step site effect next =>
              rw [move, here]
              exact .single (.step t here (free site w.shared))

end Crew

end KuttiDB.Theory
