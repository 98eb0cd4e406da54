/- # KuttiDB.Theory.Expiring -- a map whose entries disappear at their second

`DatedMap` is what a cache with expiries is for: a finite map whose entries stop being visible at
their expiry second, zero meaning never. A store that implements it keeps a list of dated entries
with distinct keys and may forget an entry that has passed whenever it likes. `Serves` says, up to
the order of the list, what one call may answer and leave behind; `play_explained` turns that into
the whole run: every answer is one the map gives.

The `found` flag of a delete is left open for an entry that has passed: the store may have forgotten
it already.
-/
import Mathlib.Data.List.Perm.Basic
import KuttiDB.Theory.Keyed

namespace KuttiDB.Theory

set_option autoImplicit false

/-- A stored pair and the second at which it disappears. -/
structure Dated (κ ν : Type) where
  key : κ
  value : ν
  expiry : Nat
  deriving DecidableEq, Repr

def passed (expiry now : Nat) : Bool := expiry != 0 && decide (expiry ≤ now)

theorem passed_mono {expiry now later : Nat} (le : now ≤ later) (past : passed expiry now = true) :
    passed expiry later = true := by
  simp only [passed, Bool.and_eq_true, bne_iff_ne, decide_eq_true_eq] at past ⊢
  exact ⟨past.1, Nat.le_trans past.2 le⟩

inductive MapCall (κ ν : Type) where
  | put (key : κ) (value : ν) (expiry : Nat)
  | get (key : κ)
  | delete (key : κ)
  | sweep (work : Nat)

inductive MapAnswer (ν : Type) where
  | stored
  | found (value : Option ν)
  | deleted (was : Bool)
  | swept
  | failed
  deriving DecidableEq, Repr

variable {κ ν σ : Type} [DecidableEq κ]

/-- The call puts or deletes the key. -/
def MapCall.writes (key : κ) : MapCall κ ν → Bool
  | .put other _ _ => other = key
  | .delete other => other = key
  | .get _ | .sweep _ => false

/-! ## The map -/

abbrev DatedMap (κ ν : Type) := κ → Option (ν × Nat)

namespace DatedMap

def empty : DatedMap κ ν := fun _ => none

/-- What is visible under the key at `now`. -/
def shows (m : DatedMap κ ν) (now : Nat) (key : κ) : Option ν :=
  match m key with
  | some (value, expiry) => if passed expiry now then none else some value
  | none => none

def next (m : DatedMap κ ν) : MapCall κ ν → DatedMap κ ν
  | .put key value expiry => Function.update m key (some (value, expiry))
  | .get _ => m
  | .delete key => Function.update m key none
  | .sweep _ => m

/-- The answers the map gives. -/
def Answers (m : DatedMap κ ν) (now : Nat) : MapCall κ ν → MapAnswer ν → Prop
  | .put _ _ _, answer => answer = .stored
  | .get key, answer => answer = .found (m.shows now key)
  | .delete key, answer => ∃ was, answer = .deleted was ∧ (m key = none → was = false) ∧
      ((m.shows now key).isSome → was = true)
  | .sweep _, answer => answer = .swept

/-- The answers of a whole run, each call with its clock reading. -/
def Explains : DatedMap κ ν → List (Nat × MapCall κ ν) → List (MapAnswer ν) → Prop
  | _, [], [] => True
  | m, (now, call) :: calls, answer :: answers =>
      m.Answers now call answer ∧ (m.next call).Explains calls answers
  | _, _, _ => False

/-- The map after a run. -/
def after (m : DatedMap κ ν) (calls : List (Nat × MapCall κ ν)) : DatedMap κ ν :=
  calls.foldl (fun m call => m.next call.2) m

/-- A get at the end of a run is answered from the map the run leaves. -/
theorem Explains.last_get {now : Nat} {key : κ} : ∀ {calls : List (Nat × MapCall κ ν)}
    {m : DatedMap κ ν} {answers : List (MapAnswer ν)},
    m.Explains (calls ++ [(now, .get key)]) answers →
      answers.getLast? = some (.found ((m.after calls).shows now key))
  | [], m, [answer], explained => by
      have found : answer = .found (m.shows now key) := explained.1
      rw [found]
      rfl
  | [], m, _ :: _ :: _, explained => explained.2.elim
  | (_, call) :: calls, m, answer :: answers, explained => by
      have rest := Explains.last_get explained.2
      cases answers with
      | nil => exact absurd rest (by simp)
      | cons next answers => exact rest

/-- Calls that neither put nor delete a key leave what the map has under it. -/
theorem after_untouched {key : κ} : ∀ {calls : List (Nat × MapCall κ ν)} {m : DatedMap κ ν},
    (∀ call ∈ calls, call.2.writes key = false) → m.after calls key = m key
  | [], _, _ => rfl
  | (_, call) :: calls, m, others => by
      have rest : (m.next call).after calls key = (m.next call) key :=
        after_untouched (fun c mem => others c (List.mem_cons_of_mem _ mem))
      have here := others _ List.mem_cons_self
      refine rest.trans ?_
      cases call with
      | put other value expiry =>
          exact Function.update_of_ne (by simpa [MapCall.writes, eq_comm] using here) ..
      | get _ => rfl
      | delete other => exact Function.update_of_ne (by simpa [MapCall.writes, eq_comm] using here) ..
      | sweep _ => rfl

end DatedMap

/-! ## What one call of a store may do -/

/-- No key is stored twice. -/
def Once (entries : List (Dated κ ν)) : Prop := (entries.map Dated.key).Nodup

def Serves (now : Nat) :
    MapCall κ ν → MapAnswer ν → List (Dated κ ν) → List (Dated κ ν) → Prop
  | .put key value expiry, answer, before, after =>
      answer = .stored ∧ after.Perm (⟨key, value, expiry⟩ :: dropKey Dated.key key before)
  | .get key, answer, before, after =>
      (∃ d ∈ before, d.key = key ∧ passed d.expiry now = false ∧ answer = .found (some d.value) ∧
        after.Perm before) ∨
      (answer = .found none ∧ (∀ d ∈ before, d.key = key → passed d.expiry now = true) ∧
        after.Perm (dropKey Dated.key key before))
  | .delete key, answer, before, after =>
      answer = .deleted (decide (key ∈ before.map Dated.key)) ∧
        after.Perm (dropKey Dated.key key before)
  | .sweep _, answer, before, after =>
      answer = .swept ∧ ∃ gone, before.Perm (gone ++ after) ∧
        ∀ d ∈ gone, passed d.expiry now = true

variable {now later : Nat} {call : MapCall κ ν} {answer : MapAnswer ν}
  {before after entries : List (Dated κ ν)} {m : DatedMap κ ν}

omit [DecidableEq κ] in
theorem Once.perm (once : Once before) (same : after.Perm before) : Once after :=
  (same.map Dated.key).nodup_iff.mpr once

/-- Without the one entry of a key the others are left. -/
theorem Once.dropKey_perm {d : Dated κ ν} {rest : List (Dated κ ν)} (once : Once before)
    (split : before.Perm (d :: rest)) : (dropKey Dated.key d.key before).Perm rest := by
  have distinct : (d.key :: rest.map Dated.key).Nodup := once.perm split.symm
  have absent : ∀ x ∈ rest, x.key ≠ d.key := fun x mem same =>
    (List.nodup_cons.mp distinct).1 (same ▸ List.mem_map_of_mem mem)
  have dropped : dropKey Dated.key d.key (d :: rest) = rest := by
    rw [dropKey, List.filter_cons_of_neg (by simp)]
    exact dropKey_of_absent Dated.key absent
  exact dropped ▸ split.filter _

theorem Serves.once (serves : Serves now call answer before after) (once : Once before) :
    Once after := by
  have dropped : ∀ key, Once (dropKey Dated.key key before) := fun _ => nodup_dropKey _ once
  cases call with
  | put key value expiry =>
      refine Once.perm ?_ serves.2
      refine List.nodup_cons.mpr ⟨fun mem => ?_, dropped key⟩
      obtain ⟨d, kept, named⟩ := List.mem_map.mp mem
      exact ((mem_dropKey _).mp kept).2 named
  | get key =>
      rcases serves with ⟨_, _, _, _, _, same⟩ | ⟨_, _, same⟩
      · exact once.perm same
      · exact (dropped key).perm same
  | delete key => exact (dropped key).perm serves.2
  | sweep work =>
      obtain ⟨-, gone, split, -⟩ := serves
      have all : Once (gone ++ after) := once.perm split.symm
      rw [Once, List.map_append] at all
      exact (List.nodup_append.mp all).2.1

/-- The store holds entries of the map only, and every entry that has not passed. -/
structure Mirrors (now : Nat) (entries : List (Dated κ ν)) (m : DatedMap κ ν) : Prop where
  held : ∀ d ∈ entries, m d.key = some (d.value, d.expiry)
  kept : ∀ {key : κ} {value : ν} {expiry : Nat}, m key = some (value, expiry) →
    passed expiry now = false → ⟨key, value, expiry⟩ ∈ entries

omit [DecidableEq κ] in
theorem Mirrors.at_later (mirrors : Mirrors now entries m) (le : now ≤ later) :
    Mirrors later entries m :=
  ⟨mirrors.held, fun stored alive => mirrors.kept stored (by
    cases past : passed _ now with
    | false => rfl
    | true => rw [passed_mono le past] at alive; cases alive)⟩

theorem Serves.answers (serves : Serves now call answer before after)
    (mirrors : Mirrors now before m) : m.Answers now call answer := by
  cases call with
  | put key value expiry => exact serves.1
  | sweep work => exact serves.1
  | get key =>
      rcases serves with ⟨d, mem, rfl, alive, rfl, -⟩ | ⟨rfl, past, -⟩
      · simp [DatedMap.Answers, DatedMap.shows, mirrors.held d mem, alive]
      · cases stored : m key with
        | none => simp [DatedMap.Answers, DatedMap.shows, stored]
        | some pair =>
            obtain ⟨value, expiry⟩ := pair
            have gone : passed expiry now = true := by
              by_contra alive
              exact alive (past _ (mirrors.kept stored (by simpa using alive)) rfl)
            simp [DatedMap.Answers, DatedMap.shows, stored, gone]
  | delete key =>
      refine ⟨_, serves.1, fun none_ => ?_, fun visible => ?_⟩
      · refine decide_eq_false fun mem => ?_
        obtain ⟨d, held, rfl⟩ := List.mem_map.mp mem
        rw [mirrors.held d held] at none_
        cases none_
      · obtain ⟨value, shown⟩ := Option.isSome_iff_exists.mp visible
        unfold DatedMap.shows at shown
        split at shown
        · rename_i value expiry stored
          split at shown
          · cases shown
          · rename_i alive
            exact decide_eq_true (List.mem_map.mpr ⟨_, mirrors.kept stored (by simpa using alive), rfl⟩)
        · cases shown

theorem Mirrors.drop (mirrors : Mirrors now before m) (key : κ)
    (same : after.Perm (dropKey Dated.key key before)) :
    Mirrors now after (Function.update m key none) := by
  refine ⟨fun d mem => ?_, fun {key'} {_} {_} stored alive => ?_⟩
  · obtain ⟨held, away⟩ := (mem_dropKey _).mp (same.mem_iff.mp mem)
    rw [Function.update_of_ne away]
    exact mirrors.held d held
  · by_cases other : key' = key
    · subst other
      rw [Function.update_self] at stored
      cases stored
    · rw [Function.update_of_ne other] at stored
      exact same.mem_iff.mpr ((mem_dropKey _).mpr ⟨mirrors.kept stored alive, other⟩)

theorem Serves.mirrors (serves : Serves now call answer before after)
    (mirrors : Mirrors now before m) : Mirrors now after (m.next call) := by
  cases call with
  | put key value expiry =>
      have dropped := mirrors.drop key (.refl _)
      refine ⟨fun d mem => ?_, fun {key'} {_} {_} stored alive => serves.2.mem_iff.mpr ?_⟩
      · rcases List.mem_cons.mp (serves.2.mem_iff.mp mem) with rfl | kept
        · exact Function.update_self ..
        · have away := ((mem_dropKey _).mp kept).2
          have held := dropped.held d kept
          rw [Function.update_of_ne away] at held
          exact (Function.update_of_ne away ..).trans held
      · by_cases other : key' = key
        · subst other
          simp only [DatedMap.next, Function.update_self, Option.some.injEq, Prod.mk.injEq] at stored
          rw [stored.1, stored.2]
          exact List.mem_cons_self
        · simp only [DatedMap.next, Function.update_of_ne other] at stored
          exact List.mem_cons_of_mem _ (dropped.kept (by rwa [Function.update_of_ne other]) alive)
  | get key =>
      rcases serves with ⟨_, _, _, _, _, same⟩ | ⟨-, past, same⟩
      · exact ⟨fun d mem => mirrors.held d (same.mem_iff.mp mem),
          fun stored alive => same.mem_iff.mpr (mirrors.kept stored alive)⟩
      · -- what the store forgets has passed, so the map shows it to nobody
        refine ⟨fun d mem => mirrors.held d ((mem_dropKey _).mp (same.mem_iff.mp mem)).1,
          fun {key'} {_} {_} stored alive => same.mem_iff.mpr ?_⟩
        have held := mirrors.kept stored alive
        refine (mem_dropKey _).mpr ⟨held, fun here => ?_⟩
        have gone := past _ held here
        simp only [alive] at gone
        cases gone
  | delete key => exact mirrors.drop key serves.2
  | sweep work =>
      obtain ⟨-, gone, split, past⟩ := serves
      refine ⟨fun d mem => mirrors.held d (split.mem_iff.mpr (List.mem_append_right _ mem)),
        fun stored alive => ?_⟩
      rcases List.mem_append.mp (split.mem_iff.mp (mirrors.kept stored alive)) with swept | left
      · have gone := past _ swept
        simp only [alive] at gone
        cases gone
      · exact left

/-! ## Whole runs -/

/-- Runs the calls in order and collects the answers. -/
def play (run : Nat → MapCall κ ν → σ → MapAnswer ν × σ) :
    List (Nat × MapCall κ ν) → σ → List (MapAnswer ν) × σ
  | [], s => ([], s)
  | (now, call) :: calls, s =>
      let later := play run calls (run now call s).2
      ((run now call s).1 :: later.1, later.2)

/-- Every call of the run starts in a state that has room for it. -/
def Fits (run : Nat → MapCall κ ν → σ → MapAnswer ν × σ) (fits : MapCall κ ν → σ → Prop) :
    List (Nat × MapCall κ ν) → σ → Prop
  | [], _ => True
  | (now, call) :: calls, s => fits call s ∧ Fits run fits calls (run now call s).2

/-- **Refinement rule.** A store whose calls serve its contents answers as the map does. -/
theorem play_explained {run : Nat → MapCall κ ν → σ → MapAnswer ν × σ}
    {fits : MapCall κ ν → σ → Prop} {inv : σ → Prop} {contents : σ → List (Dated κ ν)}
    (serves : ∀ (now : Nat) {call s}, inv s → fits call s → inv (run now call s).2 ∧
      Serves now call (run now call s).1 (contents s) (contents (run now call s).2)) :
    ∀ (calls : List (Nat × MapCall κ ν)) {now : Nat} {s : σ} {m : DatedMap κ ν}, inv s →
      Mirrors now (contents s) m → (now :: calls.map Prod.fst).Pairwise (· ≤ ·) →
      Fits run fits calls s →
      m.Explains calls (play run calls s).1 ∧ inv (play run calls s).2
  | [], _, _, _, ok, _, _, _ => ⟨trivial, ok⟩
  | (later, call) :: calls, now, s, m, ok, mirrors, clock, room => by
      obtain ⟨ahead, rest⟩ := List.pairwise_cons.mp clock
      have here : Mirrors later (contents s) m := mirrors.at_later (ahead later List.mem_cons_self)
      obtain ⟨okAfter, step⟩ := serves later ok room.1
      obtain ⟨explained, end_⟩ :=
        play_explained serves calls okAfter (step.mirrors here) rest room.2
      exact ⟨⟨step.answers here, explained⟩, end_⟩

end KuttiDB.Theory
