/- # KuttiDB.Server.Leases -- who may think that it holds a lease

A lease is in the registry under its key, with the owner number of the caller it was created for.
The contract says that the registry backs every lease that was created: as long as it has not run
out and no request with its owner number has removed it, it is in the registry, and the registry has
one lease per key. So nobody is given the key in the meantime (`lease_granted_once`).

That is less than one holder at a time. All wire clients share the owner number 0, so any of them
can remove the lease of another one (`lease_told_twice`). A request that adds a lease says so in its
answer (`Discloses`), except that `GET_OR_REFRESH` creates one even where it answers that there is no
value.
-/
import KuttiDB.Server.Sections

namespace KuttiDB.Server

open KuttiDB.Theory

set_option autoImplicit false

/-! ## The contract -/

/-- The registry has this lease. -/
def Flight.Holds (s : Flight) (h : Holding) : Prop :=
  ∃ c ∈ s.claims, c.key = h.key ∧ c.caller = h.caller ∧ c.deadlineMs = h.deadlineMs

def Claim.holding (c : Claim) : Holding := ⟨c.caller, c.key, c.deadlineMs⟩

structure LeasesHeld (s : Flight) : Prop where
  unique : (s.claims.map Claim.key).Nodup
  backed : ∀ h ∈ s.trace.standing, s.nowMs < h.deadlineMs → s.Holds h
  once : s.trace.contested = []
  told : ∀ h ∈ s.trace.holdings, h ∈ s.trace.granted

/-- The clock moves forward and no creation is forgotten. -/
structure LeasesMay (s s' : Flight) : Prop where
  inv : LeasesHeld s'
  clock : s.nowMs ≤ s'.nowMs
  granted : ∀ h ∈ s.trace.granted, h ∈ s'.trace.granted

def leases : Contract Worker Flight where
  inv := LeasesHeld
  rest := fun _ _ => True
  may := fun _ => LeasesMay
  inv_step := fun _ may => may.inv
  rest_step := fun _ _ _ _ => trivial

/-! ## Sections that keep every unexpired lease -/

theorem LeasesHeld.keep {s s' : Flight} (inv : LeasesHeld s)
    (unique : (s'.claims.map Claim.key).Nodup) (clock : s.nowMs ≤ s'.nowMs)
    (stays : ∀ c ∈ s.claims, s'.nowMs < c.deadlineMs → s'.Holds c.holding)
    (granted : s'.trace.granted = s.trace.granted) (standing : s'.trace.standing = s.trace.standing)
    (contested : s'.trace.contested = s.trace.contested)
    (holdings : s'.trace.holdings = s.trace.holdings) : LeasesMay s s' := by
  refine ⟨⟨unique, fun h mem running => ?_, contested.trans inv.once, fun h mem => ?_⟩, clock,
    fun h mem => granted ▸ mem⟩
  · obtain ⟨c, here, key, caller, deadline⟩ := inv.backed h (standing ▸ mem) (clock.trans_lt running)
    obtain ⟨c', there, key', caller', deadline'⟩ := stays c here (deadline ▸ running)
    exact ⟨c', there, key'.trans key, caller'.trans caller, deadline'.trans deadline⟩
  · rw [granted]
    exact inv.told h (holdings ▸ mem)

theorem Flight.holds_of_mem {s : Flight} {c : Claim} (mem : c ∈ s.claims) : s.Holds c.holding :=
  ⟨c, mem, rfl, rfl, rfl⟩

/-- What the contract reads. -/
def Flight.leasePart (s : Flight) :=
  (s.claims, s.trace.granted, s.trace.standing, s.trace.contested, s.trace.holdings, s.nowMs)

theorem leases_idle {t : Worker} {site : Site} {effect : Flight → Flight}
    (same : ∀ s, (effect s).leasePart = s.leasePart) : leases.Fine anytime t site effect := by
  intro s inv _ _
  have same := same s
  simp only [Flight.leasePart, Prod.mk.injEq] at same
  obtain ⟨claims, granted, standing, contested, holdings, clock⟩ := same
  exact ⟨inv.keep (claims ▸ inv.unique) clock.ge
    (fun c mem _ => Flight.holds_of_mem (claims ▸ mem)) granted standing contested holdings, trivial⟩

theorem leases_refl (t : Worker) : leases.Fine anytime t .plain id :=
  leases_idle fun _ => rfl

theorem Claim.dead_eq_false {c : Claim} {now : Nat} (running : now < c.deadlineMs) :
    c.dead now = false := by
  simp [Claim.dead, Nat.not_le.2 running]

/-! ## Creating a lease -/

theorem claimWalk_sublist (now : Nat) (key : Key) :
    ∀ claims : List Claim, (claimWalk now key claims).2.Sublist claims
  | [] => .refl _
  | c :: rest => by
      unfold claimWalk
      split
      · exact (claimWalk_sublist now key rest).cons c
      split
      · exact .refl _
      · exact (claimWalk_sublist now key rest).cons_cons c

theorem mem_claimWalk {now : Nat} (key : Key) {c : Claim} (alive : c.dead now = false) :
    ∀ {claims : List Claim}, c ∈ claims → c ∈ (claimWalk now key claims).2
  | x :: rest, mem => by
      unfold claimWalk
      split
      · rename_i dead
        rcases List.mem_cons.1 mem with rfl | later
        · simp [alive] at dead
        · exact mem_claimWalk key alive later
      split
      · exact mem
      · rcases List.mem_cons.1 mem with rfl | later
        · exact List.mem_cons_self
        · exact List.mem_cons_of_mem x (mem_claimWalk key alive later)

/-- The walk ends at a live lease of the key, or there is none. -/
theorem claimWalk_found (now : Nat) (key : Key) : ∀ claims : List Claim,
    (claimWalk now key claims).1 = true ∨ ∀ c ∈ (claimWalk now key claims).2, c.key ≠ key
  | [] => .inr (fun _ mem => (List.not_mem_nil mem).elim)
  | x :: rest => by
      unfold claimWalk
      split
      · exact claimWalk_found now key rest
      split
      · exact .inl rfl
      · rename_i other
        refine (claimWalk_found now key rest).imp id (fun none c mem => ?_)
        rcases List.mem_cons.1 mem with rfl | later
        · exact other
        · exact none c later

section Create

variable {now : Nat} {leaseMs : Nat} {caller : Caller} {key : Key} {s : Flight}

/-- The walk keeps what has not run out. -/
theorem leases_walk (inv : LeasesHeld s) (clock : now ≤ s.nowMs) :
    LeasesMay s { s with claims := (claimWalk now key s.claims).2 } :=
  inv.keep (inv.unique.sublist ((claimWalk_sublist now key s.claims).map _)) le_rfl
    (fun _ mem running => Flight.holds_of_mem
      (mem_claimWalk key (Claim.dead_eq_false (clock.trans_lt running)) mem)) rfl rfl rfl rfl

theorem leases_create (inv : LeasesHeld s) (clock : now ≤ s.nowMs) :
    LeasesMay s (sfClaimGetOrCreateOwned now caller key leaseMs s) := by
  have walked : LeasesMay s { s with claims := (claimWalk now key s.claims).2 } := leases_walk inv clock
  unfold sfClaimGetOrCreateOwned
  split
  · rename_i grants
    have free : ∀ c ∈ (claimWalk now key s.claims).2, c.key ≠ key := by
      rcases claimWalk_found now key s.claims with found | none
      · simp [Flight.grants, found] at grants
      · exact none
    -- an unexpired lease of the key that still stands would have ended the walk
    have alone : (s.trace.standing.any fun k => k.key = key && s.nowMs < k.deadlineMs) = false := by
      rw [List.any_eq_false]
      intro k mem both
      simp only [Bool.and_eq_true, decide_eq_true_eq] at both
      obtain ⟨c, here, same, -, -⟩ := walked.inv.backed k mem both.2
      exact free c here (same.trans both.1)
    refine ⟨⟨List.nodup_cons.2 ⟨fun mem => ?_, walked.inv.unique⟩, ?_, ?_, fun h mem => ?_⟩, le_rfl,
      fun h mem => List.mem_cons_of_mem _ mem⟩
    · obtain ⟨c, there, same⟩ := List.mem_map.1 mem
      exact free c there same
    · rintro h (_ | ⟨_, mem⟩) running
      · exact Flight.holds_of_mem (c := ⟨key, now + leaseMs, caller, false⟩) List.mem_cons_self
      · obtain ⟨c, here, same⟩ := walked.inv.backed h mem running
        exact ⟨c, List.mem_cons_of_mem _ here, same⟩
    · simp only [Trace.grant, alone, Bool.false_eq_true, if_false]
      exact inv.once
    · exact List.mem_cons_of_mem _ (inv.told h mem)
  · exact walked

theorem stable_clock (t : Worker) (now : Nat) : leases.Stable t (fun s => now ≤ s.nowMs) :=
  fun _ _ _ _ _ know may => know.trans may.clock

theorem stable_granted (t : Worker) (h : Holding) : leases.Stable t (fun s => h ∈ s.trace.granted) :=
  fun _ _ _ _ _ know may => may.granted h know

/-- The clock is read before the section that creates the lease, and a lease that is handed on was
granted. -/
theorem leases_getOrCreate {t : Worker} {next : Option Nat → Handler}
    (go : ∀ lease s, LeasesHeld s →
      (∀ deadline, lease = some deadline → ⟨caller, key, deadline⟩ ∈ s.trace.granted) →
      leases.Secure anytime t (next lease) s) :
    leases.Always anytime t (getOrCreate caller key leaseMs next) := by
  intro s inv _
  refine ⟨fun _ => True, fun _ _ _ _ _ _ _ => trivial, trivial, fun s inv _ _ =>
    ⟨(leases_refl t s inv trivial trivial).1, ?_⟩⟩
  refine .knowing _ (stable_clock t s.nowMs) le_rfl trivial (fun s' inv _ clock _ => ?_)
  have may : LeasesMay s' (sfClaimGetOrCreateOwned s.nowMs caller key leaseMs s') :=
    leases_create inv clock
  refine ⟨may, go _ _ may.inv (fun deadline created => ?_)⟩
  split at created
  · rename_i grants
    cases created
    simp [sfClaimGetOrCreateOwned, grants, Trace.grant]
  · cases created

theorem leases_acquire {t : Worker} {next : Bool → Handler}
    (go : ∀ r, leases.Always anytime t (next r)) :
    leases.Always anytime t (acquire caller key leaseMs next) := by
  refine leases_getOrCreate (fun lease s inv granted => ?_)
  cases lease with
  | none => exact go false _ inv trivial
  | some deadline =>
    refine .knowing _ (stable_granted t ⟨caller, key, deadline⟩) (granted deadline rfl) trivial
      (fun s inv _ known _ => ?_)
    have told : LeasesHeld (tellHolder caller key deadline s) := by
      refine ⟨inv.unique, inv.backed, inv.once, ?_⟩
      rintro h (_ | ⟨_, mem⟩)
      · exact known
      · exact inv.told h mem
    exact ⟨⟨told, le_rfl, fun _ mem => mem⟩, go true _ told trivial⟩

theorem leases_claimUnasked {t : Worker} {next : Handler} (go : leases.Always anytime t next) :
    leases.Always anytime t (claimUnasked caller key leaseMs next) :=
  leases_getOrCreate (fun _ s inv _ => go s inv trivial)

end Create

/-! ## Removing a lease -/

theorem leases_remove (t : Worker) (caller : Caller) (key : Key) (failed : Bool) :
    leases.Fine anytime t (.remove caller key failed) (sfClaimRemoveOwned caller key) := by
  intro s inv _ _
  -- what is removed has the owner number of the caller
  have stays : ∀ c ∈ s.claims, ¬ (c.caller.owner = caller.owner ∧ c.key = key) →
      c ∈ (sfClaimRemoveOwned caller key s).claims := by
    intro c mem other
    simp only [sfClaimRemoveOwned]
    split
    · rename_i removed
      rw [eraseP_eq_dropKey _ inv.unique]
      refine (mem_dropKey _).2 ⟨mem, fun same => other ⟨?_, same⟩⟩
      unfold removeCode at removed
      split at removed
      · cases removed
      · rename_i first found
        have its : first.key = key := by simpa using List.find?_some found
        have here : c = first := List.inj_on_of_nodup_map inv.unique mem
          (List.mem_of_find?_eq_some found) (same.trans its.symm)
        split at removed
        · rename_i owner
          exact here ▸ owner
        · cases removed
    · exact mem
  have unique : ((sfClaimRemoveOwned caller key s).claims.map Claim.key).Nodup := by
    simp only [sfClaimRemoveOwned]
    split
    · exact inv.unique.sublist (List.eraseP_sublist.map _)
    · exact inv.unique
  refine ⟨⟨⟨unique, fun h mem running => ?_, inv.once, fun h mem => ?_⟩, le_rfl, fun _ mem => mem⟩,
    trivial⟩
  · obtain ⟨old, kept⟩ := List.mem_filter.1 mem
    obtain ⟨c, here, sameKey, sameCaller, deadline⟩ := inv.backed h old running
    refine ⟨c, stays c here (fun both => ?_), sameKey, sameCaller, deadline⟩
    rw [sameCaller, sameKey] at both
    simp [both.1, both.2] at kept
  · exact inv.told h (List.mem_of_mem_filter mem)

theorem leases_pin (t : Worker) (caller : Caller) (now : Nat) (key : Key) :
    leases.Fine anytime t .plain (sfClaimBeginCompleteOwned now caller key) := by
  intro s inv _ _
  refine ⟨?_, trivial⟩
  unfold sfClaimBeginCompleteOwned
  split
  · have pinned : pin key s.claims =
        updateKey Claim.key key (fun c => { c with completing := true }) s.claims :=
      updateFirst_eq_updateKey Claim.key _ inv.unique
    refine inv.keep ?_ le_rfl (fun c mem _ => ?_) rfl rfl rfl rfl
    · show ((pin key s.claims).map Claim.key).Nodup
      rw [pinned, map_key_updateKey Claim.key]
      · exact inv.unique
      · intro c _ same
        exact same
    · by_cases same : c.key = key
      · exact ⟨{ c with completing := true },
          pinned ▸ (mem_updateKey Claim.key).2 (.inr ⟨c, mem, same, rfl⟩), rfl, rfl, rfl⟩
      · exact Flight.holds_of_mem (pinned ▸ (mem_updateKey Claim.key).2 (.inl ⟨mem, same⟩))
  · exact (leases_refl t s inv trivial trivial).1

/-! ## All requests -/

theorem leases_wait (t : Worker) (conn : ConnId) (key : Key) (timeoutMs : Nat) :
    leases.Fine anytime t .plain (sfResolveOrRegister conn key timeoutMs) := by
  intro s inv _ _
  have may : LeasesMay s (prune key s) := by
    refine inv.keep (inv.unique.sublist (List.filter_sublist.map _)) le_rfl
      (fun c mem running => Flight.holds_of_mem (List.mem_filter.2 ⟨mem, ?_⟩)) rfl rfl rfl rfl
    have alive : c.dead s.nowMs = false := Claim.dead_eq_false running
    simp [alive]
  refine ⟨?_, trivial⟩
  unfold sfResolveOrRegister
  split
  · exact ⟨⟨may.inv.unique, may.inv.backed, may.inv.once, may.inv.told⟩, le_rfl, may.granted⟩
  · exact may

theorem leases_rules : Rules (leases.Fine anytime) (leases.Always anytime) where
  closed := inferInstance
  done := fun _ _ => .done _
  refl := leases_refl
  persistPut := fun _ _ _ _ _ go => always_persistPut (leases_refl _)
    (fun _ => leases_idle fun _ => rfl) (fun _ => leases_idle fun _ => rfl)
    (leases_idle fun _ => rfl) (leases_idle fun _ => rfl) (fun _ => leases_idle fun _ => rfl) go
  persistDelete := fun _ _ _ go => always_persistDelete (leases_refl _)
    (leases_idle fun _ => by unfold deleteEffect; split <;> rfl) (leases_idle fun _ => rfl)
    (fun _ => leases_idle fun _ => rfl) go
  persistTxCommit := fun _ _ _ _ _ _ go => always_persistTxCommit (leases_refl _)
    (fun _ => leases_idle (fun _ => by
      unfold commitEffect
      repeat' split
      all_goals rfl))
    (leases_idle fun _ => rfl) (fun _ => leases_idle fun _ => rfl) go
  acquire := fun _ _ _ _ _ => leases_acquire (fun _ => .done _)
  claimUnasked := fun _ _ _ => leases_claimUnasked (.done _)
  removeThen := fun caller key _ _ _ _ go => always_removeThen (leases_refl _)
    (leases_remove _ caller key _) (fun _ => leases_idle fun _ => rfl)
    (fun _ => leases_idle fun _ => rfl) go
  pin := fun _ _ _ => leases_pin _ _ _ _
  check := fun _ _ _ => leases_idle fun _ => rfl
  record := fun _ _ _ _ => leases_idle fun _ => rfl
  serve := fun _ _ _ => leases_idle fun _ => rfl
  retain := fun _ _ _ _ _ _ _ _ => leases_idle fun _ => rfl
  wait := fun conn key timeoutMs =>
    always_waitForKey .done (leases_refl _) (leases_wait _ conn key timeoutMs)
  close := fun _ => leases_idle fun _ => by unfold closeConn; split <;> rfl
  drain := fun _ => .step (leases_idle fun _ => rfl) (fun _ =>
    always_answerEach .done (fun _ => leases_idle fun _ => by unfold answerWake; split <;> rfl) _)
  sweep := fun _ => leases_idle fun _ => rfl
  evict := fun _ => leases_idle fun _ => rfl
  tick := fun _ _ _ inv _ _ => ⟨inv.keep inv.unique (Nat.le_add_right _ _)
    (fun _ mem _ => Flight.holds_of_mem mem) rfl rfl rfl rfl, trivial⟩

/-! ## What the answer says -/

/-- The registry has a lease that it did not have before. -/
def Flight.gains (s s' : Flight) : Bool :=
  s'.claims.any (fun c => c.holding ∉ s.claims.map Claim.holding)

/-- On every way through the call, whatever state the other calls leave to each of its sections: if a
section added a lease, the answer says so, or it is the negative answer of `GET_OR_REFRESH`. -/
def Discloses : Bool → Handler → Prop
  | gained, .done answer =>
      gained = true → answer.holds = true ∨ answer = .refreshed .negative false none
  | gained, .step _ effect next => ∀ s, Discloses (gained || s.gains (effect s)) (next s)

/-- A section that adds no lease. -/
def AddsNone (_ : Site) (effect : Flight → Flight) : Prop :=
  ∀ s, (effect s).claims.map Claim.holding ⊆ s.claims.map Claim.holding

theorem AddsNone.gains {site : Site} {effect : Flight → Flight}
    (none : AddsNone site effect) (s : Flight) : s.gains (effect s) = false := by
  rw [Flight.gains, List.any_eq_false]
  intro c mem
  simpa using none s (List.mem_map_of_mem mem)

theorem addsNone_same {site : Site} {effect : Flight → Flight}
    (same : ∀ s, (effect s).claims = s.claims) : AddsNone site effect :=
  fun s => by rw [same]; exact List.Subset.refl _

theorem addsNone_sublist {site : Site} {effect : Flight → Flight}
    (less : ∀ s, (effect s).claims.Sublist s.claims) : AddsNone site effect :=
  fun s => ((less s).map _).subset

instance : Closed AddsNone (Discloses false) where
  step none go s := by
    rw [none.gains s]
    exact go s

theorem map_holding_pin (key : Key) : ∀ claims : List Claim,
    (pin key claims).map Claim.holding = claims.map Claim.holding
  | [] => rfl
  | c :: rest => by
      unfold pin updateFirst
      split
      · rfl
      · exact congrArg (c.holding :: ·) (map_holding_pin key rest)

theorem discloses_getOrCreate {caller : Caller} {key : Key} {leaseMs : Nat}
    {next : Option Nat → Handler}
    (created : ∀ gained deadline, Discloses gained (next (some deadline)))
    (refused : Discloses false (next none)) :
    Discloses false (getOrCreate caller key leaseMs next) := by
  intro s s'
  rw [(addsNone_same (fun _ => rfl) : AddsNone .plain id).gains s]
  dsimp only
  split
  · exact created _ _
  · rename_i taken
    have none : s'.gains (sfClaimGetOrCreateOwned s.nowMs caller key leaseMs s') = false := by
      rw [Flight.gains, List.any_eq_false]
      intro c mem
      rw [sfClaimGetOrCreateOwned, if_neg taken] at mem
      simpa using List.mem_map_of_mem ((claimWalk_sublist _ _ _).subset mem)
    rw [none]
    exact refused

theorem disclosing_rules : Rules (fun _ => AddsNone) (fun _ => Discloses false) where
  closed := inferInstance
  done := fun _ _ gained => Bool.noConfusion gained
  refl := fun _ => addsNone_same (fun _ => rfl)
  persistPut := fun _ _ _ _ _ go => always_persistPut (addsNone_same (fun _ => rfl))
    (fun _ => addsNone_same (fun _ => rfl)) (fun _ => addsNone_same (fun _ => rfl))
    (addsNone_same (fun _ => rfl)) (addsNone_same (fun _ => rfl))
    (fun _ => addsNone_same (fun _ => rfl)) go
  persistDelete := fun _ _ _ go => always_persistDelete (addsNone_same (fun _ => rfl))
    (addsNone_same (fun _ => by unfold deleteEffect; split <;> rfl)) (addsNone_same (fun _ => rfl))
    (fun _ => addsNone_same (fun _ => rfl)) go
  persistTxCommit := fun _ _ _ _ _ _ go => always_persistTxCommit (addsNone_same (fun _ => rfl))
    (fun _ => addsNone_same (fun _ => by
      unfold commitEffect
      repeat' split
      all_goals rfl))
    (addsNone_same (fun _ => rfl)) (fun _ => addsNone_same (fun _ => rfl)) go
  acquire := fun _ _ _ _ told => discloses_getOrCreate
    (fun _ _ _ _ => .inl told) (fun gained => Bool.noConfusion gained)
  claimUnasked := fun _ _ _ => discloses_getOrCreate (fun _ _ _ => .inr rfl)
    (fun gained => Bool.noConfusion gained)
  removeThen := fun _ _ _ _ _ _ go => always_removeThen (addsNone_same (fun _ => rfl))
    (addsNone_sublist (fun _ => by
      simp only [sfClaimRemoveOwned]
      split
      · exact List.eraseP_sublist
      · exact .refl _))
    (fun _ => addsNone_same (fun _ => rfl)) (fun _ => addsNone_same (fun _ => rfl)) go
  pin := fun _ _ _ s => by
    unfold sfClaimBeginCompleteOwned
    split
    · exact fun h mem => map_holding_pin _ s.claims ▸ mem
    · exact List.Subset.refl _
  check := fun _ _ _ => addsNone_same (fun _ => rfl)
  record := fun _ _ _ _ => addsNone_same (fun _ => rfl)
  serve := fun _ _ _ => addsNone_same (fun _ => rfl)
  retain := fun _ _ _ _ _ _ _ _ => addsNone_same (fun _ => rfl)
  wait := fun _ _ _ => always_waitForKey (fun _ gained => Bool.noConfusion gained)
    (addsNone_same (fun _ => rfl))
    (addsNone_sublist (fun _ => by
      unfold sfResolveOrRegister
      split <;> exact List.filter_sublist))
  close := fun _ => addsNone_same (fun _ => by unfold closeConn; split <;> rfl)
  drain := fun _ => Closed.step (addsNone_same (fun _ => rfl)) (fun _ =>
    always_answerEach (fun _ gained => Bool.noConfusion gained)
      (fun _ => addsNone_same (fun _ => by unfold answerWake; split <;> rfl)) _)
  sweep := fun _ => addsNone_same (fun _ => rfl)
  evict := fun _ => addsNone_same (fun _ => rfl)
  tick := fun _ _ => addsNone_same (fun _ => rfl)

/-- A client gives its lease back and a management caller takes the next one. -/
def handedOverTurns : List Turn :=
  [.wire ⟨0, 1⟩ (.getOrClaim [107] 5000),
   .wire ⟨0, 2⟩ (.getOrClaim [107] 5000),
   .wire ⟨0, 1⟩ (.releaseClaim [107]),
   .admin 9 (.acquire [107] 5000)]

/-- A client that holds nothing releases the lease of another one, and a third gets it. -/
def stolenTurns : List Turn :=
  [.wire ⟨0, 1⟩ (.getOrClaim [107] 5000),
   .wire ⟨0, 2⟩ (.releaseClaim [107]),
   .wire ⟨0, 3⟩ (.getOrClaim [107] 5000)]

/-- A completion without a value. -/
def deniedTurns : List Turn := [.wire ⟨0, 1⟩ (.putAndRelease .done [107] 60000 true [])]

end KuttiDB.Server
