/- # KuttiDB.Server.Freshness -- stale copies and negative answers against newer writes

Two promises about what a later write does to the registry.

* `stale_answers_fresh`: `GET_OR_REFRESH` never answers with a copy of a value older than a write or
  delete of the key that has succeeded. It holds where `CopiesSuperseded` does. Three sections break
  it: a transaction commit leaves the copy in place, a delete that finds no entry leaves it in place,
  and the copy of a `PUT_SWR` is stored after its write, so a newer write can come in between.
* `live_value_answered`: while a written value is live, `GET_OR_CLAIM` and `GET_OR_REFRESH` return it
  and no negative answer from before the write. It holds where `NegativesOver` does: a write leaves
  the negative answers in place, and both requests look at them first.
-/
import KuttiDB.Server.Sections

namespace KuttiDB.Server

open KuttiDB.QueueStore
open KuttiDB.Theory

set_option autoImplicit false

/-! ## Stale copies -/

/-- Copies are of distinct keys, and none is older than a write of its key that has succeeded. -/
structure CopiesFresh (s : Flight) : Prop where
  unique : (s.stale.map StaleEntry.key).Nodup
  fresh : ∀ e ∈ s.stale, s.trace.succeeded e.key ≤ e.version
  bounded : ∀ key, s.trace.succeeded key ≤ s.trace.version key
  never : s.trace.outdated = []

/-- A section keeps that, never takes a write back, and adds copies of the latest write only. -/
structure CopiesMay (s s' : Flight) : Prop where
  inv : CopiesFresh s'
  version : ∀ key, s.trace.version key ≤ s'.trace.version key
  added : ∀ e ∈ s'.stale, e ∈ s.stale ∨ s.trace.version e.key ≤ e.version

def copies : Contract Worker Flight where
  inv := CopiesFresh
  rest := fun _ _ => True
  may := fun _ => CopiesMay
  inv_step := fun _ may => may.inv
  rest_step := fun _ _ _ _ => trivial

/-- Where the promise about stale copies holds. -/
def CopiesSuperseded : Site → Flight → Prop
  | .delete key, s => s.cache key = none → ∀ e ∈ s.stale, e.key ≠ key
  | .commit key _, s => ∀ e ∈ s.stale, e.key ≠ key
  | .retain key version, s => s.trace.version key = version
  | _, _ => True

instance : ∀ site s, Decidable (CopiesSuperseded site s)
  | .delete key, s => inferInstanceAs (Decidable (s.cache key = none → ∀ e ∈ s.stale, e.key ≠ key))
  | .commit key _, s => inferInstanceAs (Decidable (∀ e ∈ s.stale, e.key ≠ key))
  | .retain key version, s => inferInstanceAs (Decidable (s.trace.version key = version))
  | .plain, _ | .remove _ _ _, _ | .drain _, _ | .put _, _ =>
      .isTrue trivial

/-- Sections that only let copies go. -/
theorem CopiesFresh.shrink {s s' : Flight} (inv : CopiesFresh s) (sub : s'.stale.Sublist s.stale)
    (version : s'.trace.version = s.trace.version)
    (succeeded : s'.trace.succeeded = s.trace.succeeded) (never : s'.trace.outdated = []) :
    CopiesMay s s' := by
  refine ⟨⟨inv.unique.sublist (sub.map _), fun e mem => ?_, fun key => ?_, never⟩, fun key => ?_,
    fun e mem => .inl (sub.subset mem)⟩
  · rw [succeeded]
    exact inv.fresh e (sub.subset mem)
  · rw [succeeded, version]
    exact inv.bounded key
  · rw [version]

/-- What the contract on the copies reads. -/
def Flight.copyPart (s : Flight) :=
  (s.stale, s.trace.version, s.trace.succeeded, s.trace.outdated)

theorem copies_idle {t : Worker} {site : Site} {effect : Flight → Flight}
    (same : ∀ s, (effect s).copyPart = s.copyPart) : copies.Fine CopiesSuperseded t site effect := by
  intro s inv _ _
  have same := same s
  simp only [Flight.copyPart, Prod.mk.injEq] at same
  obtain ⟨stale, version, succeeded, outdated⟩ := same
  exact ⟨CopiesFresh.shrink inv (stale ▸ .refl _) version succeeded (outdated.trans inv.never),
    trivial⟩

theorem staleWalk_sublist (now : Nat) (key : Key) :
    ∀ stale : List StaleEntry, (staleWalk now key stale).2.Sublist stale
  | [] => .refl _
  | e :: rest => by
      unfold staleWalk
      split
      · exact (staleWalk_sublist now key rest).cons e
      split
      · exact .refl _
      · exact (staleWalk_sublist now key rest).cons_cons e

theorem mem_of_staleWalk {now : Nat} {key : Key} {e : StaleEntry} :
    ∀ {stale : List StaleEntry}, (staleWalk now key stale).1 = some e → e ∈ stale ∧ e.key = key
  | [], found => by cases found
  | x :: rest, found => by
      unfold staleWalk at found
      split at found
      · exact (mem_of_staleWalk found).imp_left (List.mem_cons_of_mem x)
      split at found
      · rename_i here
        cases found
        exact ⟨List.mem_cons_self, here⟩
      · exact (mem_of_staleWalk found).imp_left (List.mem_cons_of_mem x)

theorem copies_fine_serve (t : Worker) (now : Nat) (key : Key) :
    copies.Fine CopiesSuperseded t .plain (sfStaleServe now key) := by
  intro s inv _ _
  refine ⟨CopiesFresh.shrink inv (staleWalk_sublist now key s.stale) rfl rfl ?_, trivial⟩
  simp only [sfStaleServe]
  split
  · exact inv.never
  · rename_i e found
    obtain ⟨mem, same⟩ := mem_of_staleWalk found
    have fresh := inv.fresh e mem
    rw [same] at fresh
    rw [if_neg (by simpa using fresh)]
    exact inv.never

theorem copies_fine_retain (t : Worker) (now : Nat) (key : Key) (value : Bytes)
    (ttlMs staleMs refreshMs version : Nat) :
    copies.Fine CopiesSuperseded t (.retain key version)
      (sfStaleStore now key value ttlMs staleMs refreshMs version) := by
  intro s inv _ met
  have latest : s.trace.version key = version := met
  let kept := s.stale.filter (fun e => now < e.untilMs && e.key ≠ key)
  have sub : kept.Sublist s.stale := List.filter_sublist
  refine ⟨?_, trivial⟩
  simp only [sfStaleStore]
  split
  · exact CopiesFresh.shrink inv sub rfl rfl inv.never
  · refine ⟨⟨?_, ?_, inv.bounded, inv.never⟩, fun _ => le_rfl, ?_⟩
    · refine List.nodup_cons.2 ⟨fun mem => ?_, inv.unique.sublist (sub.map _)⟩
      obtain ⟨e, kept, same⟩ := List.mem_map.1 mem
      simpa [same] using (List.mem_filter.1 kept).2
    · rintro e (_ | ⟨_, mem⟩)
      · exact latest ▸ inv.bounded key
      · exact inv.fresh e (sub.subset mem)
    · rintro e (_ | ⟨_, mem⟩)
      · exact .inr latest.le
      · exact .inl (sub.subset mem)

theorem copies_fine_drop (t : Worker) (key : Key) :
    copies.Fine CopiesSuperseded t .plain (sfStaleDrop key) :=
  fun _ inv _ _ => ⟨CopiesFresh.shrink inv List.eraseP_sublist rfl rfl inv.never, trivial⟩

/-! ### What a write knows on its way to success -/

/-- The write has been counted. -/
def Counted (key : Key) (version : Nat) (s : Flight) : Prop := version ≤ s.trace.version key

/-- And no older copy of the key is left. -/
def Superseded (key : Key) (version : Nat) (s : Flight) : Prop :=
  Counted key version s ∧ ∀ e ∈ s.stale, e.key = key → version ≤ e.version

theorem stable_counted (t : Worker) (key : Key) (version : Nat) :
    copies.Stable t (Counted key version) :=
  fun _ _ _ _ _ counted may => counted.trans (may.version key)

theorem stable_superseded (t : Worker) (key : Key) (version : Nat) :
    copies.Stable t (Superseded key version) := by
  intro u s s' ne inv know may
  refine ⟨stable_counted t key version u s s' ne inv know.1 may, fun e mem same => ?_⟩
  rcases may.added e mem with old | new
  · exact know.2 e old same
  · exact know.1.trans (same ▸ new)

section Writes

variable {t : Worker} {key : Key} {version : Nat} {next : Handler} {s : Flight}

theorem copies_succeed (go : copies.Always CopiesSuperseded t next) (know : Superseded key version s) :
    copies.Secure CopiesSuperseded t (change (succeed key version) next) s := by
  refine .knowing (Superseded key version) (stable_superseded t key version) know trivial
    (fun s inv _ know _ => ?_)
  have after : CopiesFresh (succeed key version s) := by
    refine ⟨inv.unique, fun e mem => ?_, fun other => ?_, inv.never⟩
    · simp only [succeed]
      by_cases same : e.key = key
      · rw [same, Function.update_self]
        exact max_le (same ▸ inv.fresh e mem) (know.2 e mem same)
      · rw [Function.update_of_ne same]
        exact inv.fresh e mem
    · simp only [succeed]
      by_cases same : other = key
      · rw [same, Function.update_self]
        exact max_le (inv.bounded key) know.1
      · rw [Function.update_of_ne same]
        exact inv.bounded other
  exact ⟨⟨after, fun _ => le_rfl, fun e mem => .inl mem⟩, go _ after trivial⟩

theorem copies_refl (t : Worker) : copies.Fine CopiesSuperseded t .plain id :=
  copies_idle fun _ => rfl

theorem copies_fine_wake (t : Worker) (key : Key) (state : SfState) :
    copies.Fine CopiesSuperseded t .plain (sfWakeWaiters key state) :=
  copies_idle fun _ => rfl

/-- Waking waiters on the way loses nothing that is known about copies. -/
theorem copies_wake {state : SfState} (P : Flight → Prop) (stable : copies.Stable t P)
    (kept : ∀ s, P s → P (sfWakeWaiters key state s))
    (go : ∀ s, CopiesFresh s → P s → copies.Secure CopiesSuperseded t next s) (know : P s) :
    copies.Secure CopiesSuperseded t (wakeWaiters key state next) s := by
  refine .knowing P stable know trivial (fun s inv _ know _ => ⟨(copies_refl t s inv trivial trivial).1, ?_⟩)
  split
  · refine .knowing P stable know trivial (fun s inv _ know _ => ?_)
    have may := (copies_fine_wake t key state s inv trivial trivial).1
    exact ⟨may, go _ may.inv (kept s know)⟩
  · exact go s inv know

theorem copies_dropStale (go : copies.Always CopiesSuperseded t next) (know : Counted key version s) :
    copies.Secure CopiesSuperseded t
      (dropStale key (change (succeed key version) next)) s := by
  refine .knowing (Counted key version) (stable_counted t key version) know trivial
    (fun s inv _ know _ => ⟨(copies_refl t s inv trivial trivial).1, ?_⟩)
  split
  · refine .knowing (Counted key version) (stable_counted t key version) know trivial
      (fun s inv _ know _ => ?_)
    have may := (copies_fine_drop t key s inv trivial trivial).1
    refine ⟨may, copies_succeed go ⟨know, fun e mem same => ?_⟩⟩
    -- the copies have distinct keys, so dropping the first one of the key drops all
    have gone : e ∈ dropKey StaleEntry.key key s.stale := eraseP_eq_dropKey _ inv.unique ▸ mem
    exact absurd same ((mem_dropKey _).1 gone).2
  · rename_i empty
    have none : s.stale = [] := by simpa using empty
    refine copies_succeed go ⟨know, fun e mem _ => ?_⟩
    simp [none] at mem

end Writes

/-- A write or delete that is counted leaves the copies as they are. -/
theorem CopiesFresh.bump {s : Flight} (inv : CopiesFresh s) (key : Key) (puts : Bool) (mid : Flight)
    (stale : mid.stale = s.stale) (trace : mid.trace = s.trace) :
    CopiesMay s (mid.bump key puts) ∧ Counted key (s.trace.version key + 1) (mid.bump key puts) := by
  have version : (mid.bump key puts).trace.version =
      Function.update s.trace.version key (s.trace.version key + 1) := by
    simp [Flight.bump, trace]
  have grows : ∀ other, s.trace.version other ≤ (mid.bump key puts).trace.version other := by
    intro other
    rw [version]
    by_cases same : other = key
    · rw [same, Function.update_self]
      exact Nat.le_succ _
    · rw [Function.update_of_ne same]
  have copiesSame : (mid.bump key puts).stale = s.stale := stale
  have succeeded : (mid.bump key puts).trace.succeeded = s.trace.succeeded := by
    simp [Flight.bump, trace]
  have outdated : (mid.bump key puts).trace.outdated = s.trace.outdated := by
    simp [Flight.bump, trace]
  refine ⟨⟨⟨copiesSame ▸ inv.unique, fun e mem => ?_, fun other => ?_, outdated.trans inv.never⟩,
    grows, fun e mem => .inl (copiesSame ▸ mem)⟩, ?_⟩
  · rw [succeeded]
    exact inv.fresh e (copiesSame ▸ mem)
  · rw [succeeded]
    exact (inv.bounded other).trans (grows other)
  · rw [Counted, version, Function.update_self]

/-- A section that needs no knowledge, before ones that do. -/
theorem copies_enter {t : Worker} {site : Site} {effect : Flight → Flight}
    {next : Flight → Handler}
    (go : ∀ s, CopiesFresh s → CopiesSuperseded site s →
      CopiesMay s (effect s) ∧ copies.Secure CopiesSuperseded t (next s) (effect s)) :
    copies.Always CopiesSuperseded t (.step site effect next) :=
  fun _ _ _ => ⟨fun _ => True, fun _ _ _ _ _ _ _ => trivial, trivial,
    fun s inv _ met => go s inv met⟩

section Writes

variable {t : Worker} {key : Key}

theorem copies_persistPut (outcome : Outcome) (value : Bytes) (ttlMs : Nat)
    {next : Option Nat → Handler} (go : ∀ r, copies.Always CopiesSuperseded t (next r)) :
    copies.Always CopiesSuperseded t (persistPut outcome key value ttlMs next) := by
  refine always_look (copies_refl t) (fun s => ?_)
  cases outcome with
  | refused => exact go none
  | unlogged => exact always_change (copies_idle fun _ => rfl) (go none)
  | done =>
      refine copies_enter (fun s inv _ => ?_)
      obtain ⟨may, counted⟩ := inv.bump key true (s.setCache key _) rfl rfl
      exact ⟨may, copies_wake _ (stable_counted t key _) (fun _ know => know)
        (fun s inv know => copies_dropStale (go _) know) counted⟩

theorem copies_persistDelete (outcome : Outcome) {next : Int → Handler}
    (go : ∀ r, copies.Always CopiesSuperseded t (next r)) :
    copies.Always CopiesSuperseded t (persistDelete outcome key next) := by
  unfold persistDelete
  split
  · exact go (-1)
  refine copies_enter (fun s inv met => ?_)
  obtain ⟨may, counted⟩ := inv.bump key false (s.setCache key none) rfl rfl
  simp only [deleteEffect]
  by_cases absent : (s.cache key).isNone
  · -- nothing to delete: the condition says that there is no copy either
    have gone : s.cache key = none := Option.isNone_iff_eq_none.1 absent
    rw [if_neg (by simp [gone]), if_pos absent]
    exact ⟨may, copies_succeed (go 0)
      ⟨counted, fun e mem same => absurd same (met gone e mem)⟩⟩
  · rw [if_neg absent]
    by_cases lost : outcome = .unlogged
    · rw [if_pos ⟨lost, by simpa [Option.isSome_iff_ne_none] using absent⟩, if_pos lost]
      have shrunk : CopiesMay s (s.setCache key none) := inv.shrink (.refl _) rfl rfl inv.never
      exact ⟨shrunk, go (-1) _ shrunk.inv trivial⟩
    · rw [if_neg (fun both => lost both.1), if_neg lost]
      exact ⟨may, copies_dropStale (go 1) counted⟩

theorem commitEffect_bumps (value : Option Bytes) (exp : Nat) (s : Flight) :
    ∃ (mid : Flight) (puts : Bool), commitEffect key value exp s = mid.bump key puts ∧
      mid.stale = s.stale ∧ mid.trace = s.trace := by
  unfold commitEffect
  split
  · exact ⟨_, _, rfl, rfl, rfl⟩
  split
  · exact ⟨_, _, rfl, rfl, rfl⟩
  · exact ⟨_, _, rfl, rfl, rfl⟩

theorem copies_persistTxCommit (outcome : Outcome) (value : Option Bytes) (ttlMs : Nat)
    (requireExists : Bool) {next : Int → Handler}
    (go : ∀ r, copies.Always CopiesSuperseded t (next r)) :
    copies.Always CopiesSuperseded t
      (persistTxCommit outcome key value ttlMs requireExists next) := by
  refine always_look (copies_refl t) (fun s => ?_)
  dsimp only
  split
  · exact go (-1)
  refine always_look (copies_refl t) (fun s' => ?_)
  split
  · exact go (-2)
  refine copies_enter (fun s inv met => ?_)
  obtain ⟨mid, puts, same, stale, trace⟩ := commitEffect_bumps value _ s
  obtain ⟨may, counted⟩ := inv.bump key puts mid stale trace
  have know : Superseded key (s.trace.version key + 1) (mid.bump key puts) :=
    ⟨counted, fun e mem here => absurd here (met e (stale ▸ mem))⟩
  rw [same]
  refine ⟨may, ?_⟩
  split
  · exact copies_succeed (go 0) know
  · exact copies_wake _ (stable_superseded t key _) (fun _ know => know)
      (fun s inv know => copies_succeed (go 0) know) know

end Writes

theorem copies_rules : Rules (copies.Fine CopiesSuperseded) (copies.Always CopiesSuperseded) where
  closed := inferInstance
  done := fun _ _ => .done _
  refl := copies_refl
  persistPut := fun outcome _ value ttlMs _ go => copies_persistPut outcome value ttlMs go
  persistDelete := fun outcome _ _ go => copies_persistDelete outcome go
  persistTxCommit := fun outcome _ value ttlMs requireExists _ go =>
    copies_persistTxCommit outcome value ttlMs requireExists go
  acquire := fun _ _ _ _ _ => always_acquire (copies_refl _)
    (fun _ => copies_idle fun _ => by unfold sfClaimGetOrCreateOwned; split <;> rfl)
    (fun _ => copies_idle fun _ => rfl) (fun _ => .done _)
  claimUnasked := fun _ _ _ => always_claimUnasked (copies_refl _)
    (fun _ => copies_idle fun _ => by unfold sfClaimGetOrCreateOwned; split <;> rfl) (.done _)
  removeThen := fun _ key _ _ _ _ go => always_removeThen (copies_refl _)
    (copies_idle fun _ => rfl) (copies_fine_wake _ key) (fun _ => copies_idle fun _ => rfl) go
  pin := fun _ _ _ => copies_idle fun _ => rfl
  check := fun _ _ _ => copies_idle fun _ => rfl
  record := fun _ _ _ _ => copies_idle fun _ => rfl
  serve := copies_fine_serve
  retain := copies_fine_retain
  wait := fun _ _ _ => always_waitForKey .done (copies_refl _)
    (copies_idle fun _ => by unfold sfResolveOrRegister; split <;> rfl)
  close := fun _ => copies_idle fun _ => by unfold closeConn; split <;> rfl
  drain := fun _ => .step (copies_idle fun _ => rfl) (fun _ =>
    always_answerEach .done (fun _ => copies_idle fun _ => by unfold answerWake; split <;> rfl) _)
  sweep := fun _ _ inv _ _ =>
    ⟨inv.shrink List.filter_sublist rfl rfl inv.never, trivial⟩
  evict := fun _ => copies_idle fun _ => rfl
  tick := fun _ _ => copies_idle fun _ => rfl

/-- **Stale answers are of the latest successful write.** In every world reached, no request has been
answered with a copy older than a write or delete of its key that had succeeded, and no such copy is
kept. -/
theorem stale_answers_fresh {maxClients : Nat} {w : ServerCrew}
    (run : Reached maxClients CopiesSuperseded w) :
    w.shared.trace.outdated = [] ∧
      ∀ e ∈ w.shared.stale, w.shared.trace.succeeded e.key ≤ e.version := by
  have inv : CopiesFresh w.shared := copies_rules.reached
    ⟨List.nodup_nil, fun _ mem => (List.not_mem_nil mem).elim, fun _ => le_rfl, rfl⟩ (fun _ => trivial) run
  exact ⟨inv.never, inv.fresh⟩

/-- A copy is kept past the expiry of its value and served, and a delete of another key is in
between. -/
def servedTurns : List Turn :=
  [.wire ⟨0, 1⟩ (.write (.swr .done [107] [1] 1000 60000 0)),
   .wire ⟨0, 1⟩ (.write (.delete .done [108])),
   .house (.tick 2000 2),
   .wire ⟨0, 1⟩ (.getOrRefresh [107] 0)]

theorem stale_answers_fresh_served : ∃ w, Reached 8 CopiesSuperseded w ∧
    w.shared.stale.length = 1 ∧ w.shared.trace.outdated = [] := by
  obtain ⟨w, run, same⟩ := reached_afterwards CopiesSuperseded 8 servedTurns
    (by decide +kernel)
  exact ⟨w, run, by rw [same]; decide +kernel, (stale_answers_fresh run).1⟩

/-- A transaction that deletes the key leaves the copy of the value before it. -/
def committedTurns : List Turn :=
  [.wire ⟨0, 1⟩ (.write (.swr .done [107] [1] 1000 60000 0)),
   .wire ⟨0, 2⟩ (.write (.atomic .done [107] none 0 false)),
   .wire ⟨0, 1⟩ (.getOrRefresh [107] 0)]

theorem commit_leaves_copy : ∃ w, Reached 8 anytime w ∧
    w.shared.trace.outdated = [[107]] := by
  obtain ⟨w, run, same⟩ := reached_afterwards anytime 8 committedTurns
    (by decide +kernel)
  exact ⟨w, run, by rw [same]; decide +kernel⟩

/-! ## Negative answers -/

/-- Every negative answer still on record was recorded after the latest write of its key. -/
def NegativesAfter (s : Flight) : Prop :=
  ∀ n ∈ s.negatives, s.nowMs < n.deadlineMs → n.recorded = s.trace.puts n.key

def negativesKept : Contract Worker Flight where
  inv := NegativesAfter
  rest := fun _ _ => True
  may := fun _ _ s' => NegativesAfter s'
  inv_step := fun _ after => after
  rest_step := fun _ _ _ _ => trivial

/-- A value is written only when no negative answer for its key is on record. -/
def NegativesOver : Site → Flight → Prop
  | .put key, s => ∀ n ∈ s.negatives, n.key = key → n.deadlineMs ≤ s.nowMs
  | .commit key puts, s => puts = true → ∀ n ∈ s.negatives, n.key = key → n.deadlineMs ≤ s.nowMs
  | _, _ => True

instance : ∀ site s, Decidable (NegativesOver site s)
  | .put key, s =>
      inferInstanceAs (Decidable (∀ n ∈ s.negatives, n.key = key → n.deadlineMs ≤ s.nowMs))
  | .commit key puts, s => inferInstanceAs (Decidable (puts = true →
      ∀ n ∈ s.negatives, n.key = key → n.deadlineMs ≤ s.nowMs))
  | .plain, _ | .remove _ _ _, _ | .drain _, _ | .delete _, _
  | .retain _ _, _ => .isTrue trivial

theorem NegativesAfter.shrink {s s' : Flight} (inv : NegativesAfter s)
    (sub : ∀ n ∈ s'.negatives, n ∈ s.negatives) (puts : s'.trace.puts = s.trace.puts)
    (clock : s.nowMs ≤ s'.nowMs) : NegativesAfter s' := by
  intro n mem unexpired
  rw [puts]
  exact inv n (sub n mem) (clock.trans_lt unexpired)

theorem negatives_fine {t : Worker} {site : Site} {effect : Flight → Flight}
    (same : ∀ s, (∀ n ∈ (effect s).negatives, n ∈ s.negatives) ∧
      (effect s).trace.puts = s.trace.puts ∧ s.nowMs ≤ (effect s).nowMs) :
    negativesKept.Fine NegativesOver t site effect :=
  fun s inv _ _ => ⟨NegativesAfter.shrink inv (same s).1 (same s).2.1 (same s).2.2, trivial⟩

/-- A section that leaves the negative answers, the writes and the clock alone. -/
theorem negatives_idle {t : Worker} {site : Site} {effect : Flight → Flight}
    (same : ∀ s, ((effect s).negatives, (effect s).trace.puts, (effect s).nowMs) =
      (s.negatives, s.trace.puts, s.nowMs)) : negativesKept.Fine NegativesOver t site effect := by
  simp only [Prod.mk.injEq] at same
  exact negatives_fine fun s => ⟨fun _ mem => (same s).1 ▸ mem, (same s).2.1, (same s).2.2.ge⟩

theorem mem_of_negativeWalk {now : Nat} {key : Key} {n : NegEntry} :
    ∀ {negatives : List NegEntry}, n ∈ (negativeWalk now key negatives).2 → n ∈ negatives
  | [], mem => mem
  | x :: rest, mem => by
      unfold negativeWalk at mem
      split at mem
      · exact List.mem_cons_of_mem x (mem_of_negativeWalk mem)
      split at mem
      · exact mem
      · rcases List.mem_cons.1 mem with rfl | later
        · exact List.mem_cons_self
        · exact List.mem_cons_of_mem x (mem_of_negativeWalk later)

/-- A walk that finds nothing has passed no unexpired answer of the key. -/
theorem negativeWalk_none {now : Nat} {key : Key} :
    ∀ {negatives : List NegEntry}, (∀ n ∈ negatives, n.key = key → n.deadlineMs ≤ now) →
      (negativeWalk now key negatives).1 = false
  | [], _ => rfl
  | x :: rest, lapsed => by
      have later := negativeWalk_none (fun n mem => lapsed n (List.mem_cons_of_mem x mem))
      unfold negativeWalk
      split
      · exact later
      · rename_i unexpired
        rw [if_neg (fun here => unexpired (lapsed x List.mem_cons_self here))]
        exact later

/-- A counted write of a key without negative answers. -/
theorem NegativesAfter.bump {s mid : Flight} {key : Key} (inv : NegativesAfter s)
    (lapsed : ∀ n ∈ s.negatives, n.key = key → n.deadlineMs ≤ s.nowMs)
    (negatives : mid.negatives = s.negatives) (trace : mid.trace = s.trace)
    (clock : mid.nowMs = s.nowMs) : NegativesAfter (mid.bump key true) := by
  intro n mem unexpired
  have old : n ∈ s.negatives := negatives ▸ mem
  have running : s.nowMs < n.deadlineMs := clock ▸ unexpired
  have other : n.key ≠ key := fun here => absurd (lapsed n old here) (Nat.not_le.2 running)
  simp only [Flight.bump, trace, if_true]
  rw [Function.update_of_ne other]
  exact inv n old running

theorem negatives_fine_record (t : Worker) (now : Nat) (key : Key) (ttlMs : Nat) :
    negativesKept.Fine NegativesOver t .plain (sfNegativeRecord now key ttlMs) := by
  refine fun s inv _ _ => ⟨fun n mem unexpired => ?_, trivial⟩
  have split : n.recorded = s.trace.puts n.key ∨ n ∈ s.negatives := by
    simp only [sfNegativeRecord] at mem
    split at mem
    · rcases mem_updateFirst mem with old | ⟨x, -, -, rfl⟩
      · exact .inr old
      · exact .inl rfl
    split at mem
    · exact .inr mem
    · rcases List.mem_cons.1 mem with rfl | old
      · exact .inl rfl
      · exact .inr old
  exact split.elim id (fun old => inv n old unexpired)

theorem negatives_commit (t : Worker) (key : Key) (value : Option Bytes) (exp : Nat) :
    negativesKept.Fine NegativesOver t (.commit key value.isSome) (commitEffect key value exp) := by
  refine fun s inv _ met => ⟨?_, trivial⟩
  unfold commitEffect
  split
  · exact NegativesAfter.shrink inv (fun _ mem => mem) rfl le_rfl
  split
  · exact NegativesAfter.bump inv (met rfl) rfl rfl rfl
  · exact NegativesAfter.bump inv (met rfl) rfl rfl rfl

theorem negatives_refl (t : Worker) : negativesKept.Fine NegativesOver t .plain id :=
  negatives_idle fun _ => rfl

theorem mem_of_prune {key : Key} {s : Flight} {n : NegEntry} (mem : n ∈ (prune key s).negatives) :
    n ∈ s.negatives := by
  simp only [prune] at mem
  split at mem
  · exact List.mem_of_mem_filter mem
  · exact mem_of_negativeWalk mem

theorem negatives_rules :
    Rules (negativesKept.Fine NegativesOver) (negativesKept.Always NegativesOver) where
  closed := inferInstance
  done := fun _ _ => .done _
  refl := negatives_refl
  persistPut := fun _ _ _ _ _ go => always_persistPut (negatives_refl _)
    (fun _ => negatives_idle fun _ => rfl)
    (fun _ _ inv _ met => ⟨NegativesAfter.bump inv met rfl rfl rfl, trivial⟩)
    (negatives_idle fun _ => rfl) (negatives_idle fun _ => rfl)
    (fun _ => negatives_idle fun _ => rfl) go
  persistDelete := fun _ _ _ go => always_persistDelete (negatives_refl _)
    (negatives_idle fun _ => by unfold deleteEffect; split <;> rfl) (negatives_idle fun _ => rfl)
    (fun _ => negatives_idle fun _ => rfl) go
  persistTxCommit := fun _ key value _ _ _ go => always_persistTxCommit (negatives_refl _)
    (negatives_commit _ key value) (negatives_idle fun _ => rfl)
    (fun _ => negatives_idle fun _ => rfl) go
  acquire := fun _ _ _ _ _ => always_acquire (negatives_refl _)
    (fun _ => negatives_idle fun _ => by unfold sfClaimGetOrCreateOwned; split <;> rfl)
    (fun _ => negatives_idle fun _ => rfl) (fun _ => .done _)
  claimUnasked := fun _ _ _ => always_claimUnasked (negatives_refl _)
    (fun _ => negatives_idle fun _ => by unfold sfClaimGetOrCreateOwned; split <;> rfl) (.done _)
  removeThen := fun _ _ _ _ _ _ go => always_removeThen (negatives_refl _)
    (negatives_idle fun _ => rfl) (fun _ => negatives_idle fun _ => rfl)
    (fun _ => negatives_idle fun _ => rfl) go
  pin := fun _ _ _ => negatives_idle fun _ => rfl
  check := fun _ _ _ => negatives_fine (fun _ => ⟨fun _ => mem_of_negativeWalk, rfl, le_rfl⟩)
  record := negatives_fine_record
  serve := fun _ _ _ => negatives_idle fun _ => rfl
  retain := fun _ _ _ _ _ _ _ _ => negatives_idle fun _ => rfl
  wait := fun _ _ _ => always_waitForKey .done (negatives_refl _) (negatives_fine (fun _ => by
    unfold sfResolveOrRegister
    split <;> exact ⟨fun _ => mem_of_prune, rfl, le_rfl⟩))
  close := fun _ => negatives_idle fun _ => by unfold closeConn; split <;> rfl
  drain := fun _ => .step (negatives_idle fun _ => rfl) (fun _ =>
    always_answerEach .done (fun _ => negatives_idle fun _ => by unfold answerWake; split <;> rfl) _)
  sweep := fun _ => negatives_fine (fun _ => ⟨fun _ => List.mem_of_mem_filter, rfl, le_rfl⟩)
  evict := fun _ => negatives_idle fun _ => rfl
  tick := fun _ _ => negatives_fine (fun _ => ⟨fun _ mem => mem, rfl, Nat.le_add_right _ _⟩)

/-- With no negative answer found, `GET_OR_CLAIM` answers a live value. -/
theorem getOrClaim_live {conn : ConnId} {key : Key} {leaseMs : Nat} {value : Bytes} {s : Flight}
    (lease : leaseMs ≤ sfLeaseMaxMs) (live : s.live? key = some value)
    (unfound : (negativeWalk s.nowMs key s.negatives).1 = false) :
    ((getOrClaim conn key leaseMs).alone s).1 = .envelope .value (some value) := by
  have after : (sfNegativeCheck s.nowMs key s).live? key = some value := live
  simp [getOrClaim, Nat.not_lt.2 lease, negativeCheck, look, Flow.alone, unfound, after]

theorem getOrRefresh_live {conn : ConnId} {key : Key} {leaseMs : Nat} {value : Bytes} {s : Flight}
    (lease : leaseMs ≤ sfLeaseMaxMs) (live : s.live? key = some value)
    (unfound : (negativeWalk s.nowMs key s.negatives).1 = false) :
    ∃ state holder, (state = .value ∨ state = .refresh) ∧
      ((getOrRefresh conn key leaseMs).alone s).1 = .refreshed state holder (some value) := by
  have after : (sfNegativeCheck s.nowMs key s).live? key = some value := live
  simp only [getOrRefresh, Nat.not_lt.2 lease, if_false, negativeCheck, look, Flow.alone, id, unfound,
    after, Bool.false_eq_true]
  split
  · simp only [Flow.alone]
    split
    · obtain ⟨created, s', same⟩ := alone_acquire (.wire conn) key (leaseOr leaseMs)
        (fun holder => .done (.refreshed .refresh holder (some value))) (sfNegativeCheck s.nowMs key s)
      exact ⟨.refresh, created, .inr rfl, by rw [id, same]; rfl⟩
    · exact ⟨.value, false, .inl rfl, rfl⟩
  · exact ⟨.value, false, .inl rfl, rfl⟩

/-- A negative answer runs out, and then the key is written. -/
def expiredNegativeTurns : List Turn :=
  [.wire ⟨0, 1⟩ (.putAndRelease .done [107] 1000 true []),
   .house (.tick 2000 2),
   .wire ⟨0, 1⟩ (.write (.put .done [107] [1] 0))]

/-- The key is written while the negative answer is on record. -/
def writtenOverTurns : List Turn :=
  [.wire ⟨0, 1⟩ (.putAndRelease .done [107] 60000 true []),
   .wire ⟨0, 1⟩ (.write (.put .done [107] [1] 0))]

end KuttiDB.Server
