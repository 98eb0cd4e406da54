/- # KuttiDB.Theory.Resumable -- reading a stream that arrives in pieces

A `Reader` looks at what it has not consumed yet and either waits for more, or consumes the first
items and moves to its next state; a closed reader consumes nothing. A reader is `Steady` when a
step it can take is not changed by what arrives later and when it cannot step for ever without
consuming. Then what it has done after some pieces depends on their concatenation alone
(`Follows.feed`), however the stream was cut.

`Reads` is the relation "from this state, over these items, the reader comes to rest there having
consumed so many"; `Reader.read` computes it.
-/
import Mathlib.Data.List.Basic

namespace KuttiDB.Theory

set_option autoImplicit false

variable {σ β : Type}

structure Reader (σ β : Type) where
  step : σ → List β → Option (σ × Nat)
  closed : σ → Bool

/-- Decisions depend on what has been seen, never on what follows. A step that consumes nothing
closes the reader or lowers its rank, which is 0 or 1. -/
structure Reader.Steady (R : Reader σ β) (rank : σ → Nat) : Prop where
  bounded : ∀ {s t : σ} {items : List β} {used : Nat},
    R.step s items = some (t, used) → used ≤ items.length
  settled : ∀ {s : σ} {items : List β} {out : σ × Nat} (more : List β),
    R.step s items = some out → R.step s (items ++ more) = some out
  rank_le : ∀ s, rank s ≤ 1
  advances : ∀ {s t : σ} {items : List β} {used : Nat},
    R.step s items = some (t, used) → R.closed t = true ∨ 0 < used ∨ rank t < rank s

/-! ## Coming to rest -/

/-- At most `fuel` steps; the state reached and how many items were consumed. -/
def Reader.drain (R : Reader σ β) : Nat → σ → List β → σ × Nat
  | 0, s, _ => (s, 0)
  | fuel + 1, s, items =>
      if R.closed s then (s, 0)
      else
        match R.step s items with
        | none => (s, 0)
        | some (t, used) =>
            let out := R.drain fuel t (items.drop used)
            (out.1, used + out.2)

def Reader.read (R : Reader σ β) (s : σ) (items : List β) : σ × Nat :=
  R.drain (2 * items.length + 2) s items

def Reader.AtRest (R : Reader σ β) (s : σ) (items : List β) : Prop :=
  R.closed s = true ∨ R.step s items = none

inductive Reads (R : Reader σ β) : σ → List β → σ → Nat → Prop
  | rest {s : σ} {items : List β} (still : R.AtRest s items) : Reads R s items s 0
  | next {s t u : σ} {items : List β} {used n : Nat} (live : R.closed s = false)
      (step : R.step s items = some (t, used)) (later : Reads R t (items.drop used) u n) :
      Reads R s items u (used + n)

theorem Reads.unique {R : Reader σ β} {s t u : σ} {items : List β} {n m : Nat}
    (first : Reads R s items t n) (second : Reads R s items u m) : t = u ∧ n = m := by
  induction first generalizing u m with
  | rest still =>
      cases second with
      | rest => exact ⟨rfl, rfl⟩
      | next live step later => simp [Reader.AtRest, live, step] at still
  | next live step later ih =>
      cases second with
      | rest still => simp [Reader.AtRest, live, step] at still
      | next live' step' later' =>
          obtain ⟨rfl, rfl⟩ := Prod.mk.inj (Option.some.inj (step.symm.trans step'))
          obtain ⟨rfl, rfl⟩ := ih later'
          exact ⟨rfl, rfl⟩

section Steady

variable {R : Reader σ β} {rank : σ → Nat} (steady : R.Steady rank)
include steady

/-- Twice the items left, plus the rank: what every step of an open reader lowers. -/
theorem Reader.Steady.lowers {s t : σ} {items : List β} {used : Nat}
    (step : R.step s items = some (t, used)) (live : R.closed t = false) :
    2 * (items.drop used).length + rank t < 2 * items.length + rank s := by
  have bound := steady.bounded step
  have top := steady.rank_le t
  have drop : (items.drop used).length = items.length - used := List.length_drop
  rcases steady.advances step with shut | taken | lower
  · rw [live] at shut
    exact absurd shut Bool.false_ne_true
  · omega
  · omega

theorem Reader.Steady.drain_reads (fuel : Nat) (s : σ) (items : List β)
    (enough : 2 * items.length + rank s < fuel) :
    Reads R s items (R.drain fuel s items).1 (R.drain fuel s items).2 := by
  induction fuel generalizing s items with
  | zero => omega
  | succ fuel ih =>
      unfold Reader.drain
      by_cases shut : R.closed s = true
      · rw [if_pos shut]
        exact .rest (Or.inl shut)
      · rw [if_neg shut]
        cases step : R.step s items with
        | none => exact .rest (Or.inr step)
        | some out =>
            obtain ⟨t, used⟩ := out
            refine .next (by simpa using shut) step ?_
            dsimp only
            by_cases shutNext : R.closed t = true
            · -- a closed reader is at rest, whatever fuel is left
              have stop : R.drain fuel t (items.drop used) = (t, 0) := by
                cases fuel with
                | zero => rfl
                | succ fuel => simp [Reader.drain, shutNext]
              rw [stop]
              exact .rest (Or.inl shutNext)
            · have lower := steady.lowers step (by simpa using shutNext)
              exact ih t (items.drop used) (by omega)

/-- A steady reader always comes to rest. -/
theorem Reader.Steady.read_reads (s : σ) (items : List β) :
    Reads R s items (R.read s items).1 (R.read s items).2 :=
  steady.drain_reads _ s items (by have := steady.rank_le s; omega)

/-! ## Pieces -/

theorem Reads.used_le {s t : σ} {items : List β} {n : Nat} (reads : Reads R s items t n) :
    n ≤ items.length := by
  induction reads with
  | rest => exact Nat.zero_le _
  | next live step later ih =>
      have bound := steady.bounded step
      rw [List.length_drop] at ih
      omega

/-- Stopping at the end of a piece and going on with the next is reading both at once. -/
theorem Reads.append {s t u : σ} {items more : List β} {n m : Nat} (first : Reads R s items t n)
    (second : Reads R t ((items ++ more).drop n) u m) : Reads R s (items ++ more) u (n + m) := by
  induction first with
  | rest still => simpa using second
  | @next s t v items used n live step later ih =>
      have bound := steady.bounded step
      have dropped : (items ++ more).drop used = items.drop used ++ more :=
        List.drop_append_of_le_length bound
      have rest : Reads R t ((items ++ more).drop used) u (n + m) := by
        rw [dropped]
        apply ih
        rw [← dropped, List.drop_drop]
        exact second
      rw [Nat.add_assoc]
      exact .next live (steady.settled more step) rest

end Steady

/-- A reader with what it holds of the stream, having consumed `position` items before that. -/
structure Fed (σ β : Type) where
  state : σ
  position : Nat
  held : List β

/-- After `stream`, in whatever pieces it came. What a closed reader holds does not matter. -/
structure Follows (R : Reader σ β) (s : σ) (stream : List β) (f : Fed σ β) : Prop where
  reads : Reads R s stream f.state f.position
  held : R.closed f.state = false → f.held = stream.drop f.position

/-- One more piece: whatever the reader does with what it held and the piece, it has now read the
longer stream. -/
theorem Follows.feed {R : Reader σ β} {rank : σ → Nat} (steady : R.Steady rank) {s t : σ}
    {stream piece : List β} {f : Fed σ β} {n : Nat} (before : Follows R s stream f)
    (live : R.closed f.state = false) (reads : Reads R f.state (f.held ++ piece) t n) :
    Follows R s (stream ++ piece) ⟨t, f.position + n, (f.held ++ piece).drop n⟩ := by
  have reach : f.position ≤ stream.length := Reads.used_le steady before.reads
  have joined : (stream ++ piece).drop f.position = f.held ++ piece := by
    rw [List.drop_append_of_le_length reach, before.held live]
  refine ⟨Reads.append steady before.reads (by rw [joined]; exact reads), fun _ => ?_⟩
  change (f.held ++ piece).drop n = (stream ++ piece).drop (f.position + n)
  rw [← List.drop_drop, joined]

/-- A closed reader has read the longer stream too. -/
theorem Follows.closed {R : Reader σ β} {rank : σ → Nat} (steady : R.Steady rank) {s : σ}
    {stream : List β} {f : Fed σ β} (piece : List β) (before : Follows R s stream f)
    (shut : R.closed f.state = true) : Follows R s (stream ++ piece) f := by
  refine ⟨?_, fun live => ?_⟩
  · exact Reads.append steady before.reads (.rest (Or.inl shut))
  · rw [shut] at live
    exact absurd live (by decide)

end KuttiDB.Theory
