/- # KuttiDB.Theory.Parse -- parsers as trees of reads

A parser of a flat buffer that reads numbers at offsets it has computed from numbers read before. The
tree keeps every read apart from what is made of it, so that one can ask whether a run of the parser
stays inside the buffer (`Parse.Inside`) also where it goes on to refuse what it read. A check carries
whether the arithmetic before it was exact.
-/

namespace KuttiDB.Theory

set_option autoImplicit false

inductive Parse (α : Type) where
  | done (result : α)
  | read (offset width : Nat) (next : Nat → Parse α)
  | span (offset width : Nat) (next : Parse α)
  | check (exact : Bool) (next : Parse α)

namespace Parse

variable {α : Type} (number : Nat → Nat → Nat) (size : Nat)

/-- `number offset width` is what the buffer holds there. -/
def run : Parse α → α
  | done result => result
  | read offset width next => (next (number offset width)).run
  | span _ _ next => next.run
  | check _ next => next.run

/-- Along the run every read and every span that is not empty ends inside the buffer, and every check
is exact. -/
def Inside : Parse α → Prop
  | done _ => True
  | read offset width next => offset + width ≤ size ∧ (next (number offset width)).Inside
  | span offset width next => (0 < width → offset + width ≤ size) ∧ next.Inside
  | check exact next => exact = true ∧ next.Inside

variable {number size}

@[simp] theorem inside_done (result : α) : (done result).Inside number size := trivial

@[simp] theorem inside_read {offset width : Nat} {next : Nat → Parse α} :
    (read offset width next).Inside number size ↔
      offset + width ≤ size ∧ (next (number offset width)).Inside number size := Iff.rfl

@[simp] theorem inside_span {offset width : Nat} {next : Parse α} :
    (span offset width next).Inside number size ↔
      (0 < width → offset + width ≤ size) ∧ next.Inside number size := Iff.rfl

@[simp] theorem inside_check {exact : Prop} [Decidable exact] {next : Parse α} :
    (check (decide exact) next).Inside number size ↔ exact ∧ next.Inside number size := by
  rw [Inside, decide_eq_true_eq]

@[simp] theorem inside_ite {p : Prop} [Decidable p] {yes no : Parse α} :
    (if p then yes else no).Inside number size ↔
      (p → yes.Inside number size) ∧ (¬ p → no.Inside number size) := by
  by_cases holds : p <;> simp [holds]

theorem run_ite {p : Prop} [Decidable p] {yes no : Parse α} :
    (if p then yes else no).run number = if p then yes.run number else no.run number :=
  apply_ite (run number) p yes no

end Parse

end KuttiDB.Theory
