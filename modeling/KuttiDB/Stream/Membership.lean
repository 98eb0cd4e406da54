/- # KuttiDB.Stream.Membership -- members of a consumer group and what a join returns

Membership is kept in memory only. A group counts every member that comes or goes in its generation
(`Tick`), and its partitions are dealt out over the sorted owners. Whatever joins, leaves, disconnects
and expiries interleave, a group with a live member assigns each partition to exactly one of them.

`stream_group_join` computes the partitions under the lock and reads the generation behind the unlock.
A join is two steps here, `join` and `read`, with other threads' steps between them. The pair it
returns is one the group had if no member of the group came or went between the two
(`joins_return_one_moment`); `join_returns_mixed` is a run in which one did. A heartbeat is a join by
an owner that is a member.

Topics are not deleted in these runs, so the group a join has found stays where it is.
-/
import Mathlib.Data.Finset.Dedup
import KuttiDB.Theory.RoundRobin
import KuttiDB.Stream.Changes

namespace KuttiDB.Stream

open KuttiDB.QueueStore (Bytes u64)
open KuttiDB.Theory

set_option autoImplicit false

/-! ## Members and generation -/

namespace StreamGroup

def live (g : StreamGroup) : Finset Nat := (g.members.map (·.owner)).toFinset

/-- No owner is a member twice. -/
def Distinct (g : StreamGroup) : Prop := (g.members.map (·.owner)).Nodup

end StreamGroup

/-- Nobody comes or goes and the generation stays, or somebody does and it goes up by one. -/
structure Tick (g g' : StreamGroup) : Prop where
  name : g'.name = g.name
  distinct : g'.Distinct
  counted : (g'.live = g.live ∧ g'.generation = g.generation) ∨
    (g'.live ≠ g.live ∧ g'.generation = g.generation + 1)

abbrev Ticks : StreamGroup → StreamGroup → Prop := Relation.ReflTransGen Tick

namespace Ticks

variable {g g' : StreamGroup}

theorem name (ticks : Ticks g g') : g'.name = g.name := by
  induction ticks with
  | refl => rfl
  | tail _ tick ih => exact tick.name.trans ih

theorem distinct (ticks : Ticks g g') (start : g.Distinct) : g'.Distinct := by
  cases ticks with
  | refl => exact start
  | tail _ tick => exact tick.distinct

theorem generation_le (ticks : Ticks g g') : g.generation ≤ g'.generation := by
  induction ticks with
  | refl => exact Nat.le_refl _
  | tail _ tick ih => rcases tick.counted with ⟨-, same⟩ | ⟨-, more⟩ <;> omega

/-- Between two moments of one generation nobody came or went. -/
theorem live_eq (ticks : Ticks g g') (same : g'.generation = g.generation) : g'.live = g.live := by
  induction ticks with
  | refl => rfl
  | tail before tick ih =>
    have lower := generation_le before
    rcases tick.counted with ⟨live, stays⟩ | ⟨-, more⟩
    · exact live.trans (ih (by omega))
    · omega

end Ticks

theorem owners_perm (g : StreamGroup) : g.owners.Perm (g.members.map (·.owner)) :=
  List.perm_insertionSort _ _

theorem StreamGroup.Distinct.owners {g : StreamGroup} (distinct : g.Distinct) : g.owners.Nodup :=
  (owners_perm g).nodup_iff.mpr distinct

/-- The order of joining has no part in the assignment. -/
theorem owners_eq {g g' : StreamGroup} (distinct : g.Distinct) (distinct' : g'.Distinct)
    (live : g'.live = g.live) : g'.owners = g.owners := by
  have perm : (g'.members.map (·.owner)).Perm (g.members.map (·.owner)) :=
    List.perm_of_nodup_nodup_toFinset_eq distinct' distinct live
  exact (((owners_perm g').trans perm).trans (owners_perm g).symm).eq_of_pairwise
    (fun a b _ _ => Nat.le_antisymm) (List.pairwise_insertionSort _ _) (List.pairwise_insertionSort _ _)

theorem assigned_eq_dealt (g : StreamGroup) (owner p : Nat) :
    g.assigned owner p = dealt g.owners owner p := rfl

/-! ## How members come and go -/

section Ticking

variable {g : StreamGroup}

theorem tick_drop {before after : List StreamMember} {m : StreamMember}
    (split : g.members = before ++ m :: after) (distinct : g.Distinct) :
    Tick g { g with members := before ++ after, generation := g.generation + 1 } := by
  have apart : (before.map (·.owner) ++ m.owner :: after.map (·.owner)).Nodup := by
    simpa [StreamGroup.Distinct, split] using distinct
  refine ⟨rfl, ?_, .inr ⟨fun same => ?_, rfl⟩⟩
  · simpa [StreamGroup.Distinct] using (List.nodup_middle.mp apart).of_cons
  · -- the owner that went is in the one set and not in the other
    have gone : m.owner ∉ before.map (·.owner) ++ after.map (·.owner) :=
      (List.nodup_cons.mp (List.nodup_middle.mp apart)).1
    have here : m.owner ∈ g.live := by simp [StreamGroup.live, split]
    rw [← same] at here
    exact gone (by simpa [StreamGroup.live] using here)

/-- Members leave one by one, in the order of the list. -/
theorem ticks_filter (keep : StreamMember → Bool) : ∀ (todo before : List StreamMember) (n : Nat),
    ({ g with members := before ++ todo, generation := n } : StreamGroup).Distinct →
    Ticks { g with members := before ++ todo, generation := n }
      { g with
        members := before ++ todo.filter keep
        generation := n + (todo.length - (todo.filter keep).length) }
  | [], before, n, _ => by
    simp only [List.filter_nil, List.length_nil, Nat.sub_self, Nat.add_zero]
    exact .refl
  | m :: rest, before, n, distinct => by
    by_cases kept : keep m = true
    · have ih := ticks_filter keep rest (before ++ [m]) n (by simpa using distinct)
      simpa [List.filter_cons_of_pos kept, List.append_assoc] using ih
    · have tick := tick_drop (g := { g with members := before ++ m :: rest, generation := n }) rfl
        distinct
      have ih := ticks_filter keep rest before (n + 1) tick.distinct
      have short := List.length_filter_le keep rest
      have count : n + ((m :: rest).length - (rest.filter keep).length)
          = n + 1 + (rest.length - (rest.filter keep).length) := by
        rw [List.length_cons]
        omega
      rw [List.filter_cons_of_neg kept, count]
      exact .head tick ih

theorem ticks_reap (distinct : g.Distinct) (now : Nat) : Ticks g (g.reap now) :=
  ticks_filter (fun m => now < m.deadlineMs) g.members [] g.generation distinct

theorem ticks_leave (distinct : g.Distinct) (owner : Nat) : Ticks g (g.leave owner) := by
  unfold StreamGroup.leave
  split
  · rename_i member
    obtain ⟨m, mem, hit⟩ := List.any_eq_true.mp member
    obtain ⟨_, before, after, -, -, split, erased⟩ := List.exists_of_eraseP
      (p := fun m : StreamMember => m.owner == owner) mem hit
    rw [erased]
    exact .single (tick_drop split distinct)
  · exact .refl

/-- What a disconnect does to a group. -/
def StreamGroup.leaveOwner (g : StreamGroup) (owner : Nat) : StreamGroup :=
  { g with
    members := g.members.filter (fun m => m.owner ≠ owner)
    generation := g.generation + (g.members.filter (fun m => m.owner = owner)).length }

theorem ticks_leaveOwner (distinct : g.Distinct) (owner : Nat) : Ticks g (g.leaveOwner owner) := by
  have ticks := ticks_filter (g := g) (fun m => m.owner ≠ owner) g.members [] g.generation distinct
  have count : g.members.length - (g.members.filter (fun m => m.owner ≠ owner)).length
      = (g.members.filter (fun m => m.owner = owner)).length := by
    have all := List.length_eq_length_filter_add (l := g.members) (fun m => decide (m.owner = owner))
    simp only [decide_not] at all ⊢
    omega
  rw [count] at ticks
  exact ticks

/-- What a join does to the group it finds or makes. -/
def StreamGroup.join (g : StreamGroup) (mono owner lease : Nat) : StreamGroup × Int :=
  let g := g.reap mono
  if g.members.any (fun m => m.owner == owner) then
    let renewed := updateFirst (fun m => m.owner == owner)
      (fun m => { m with deadlineMs := mono + lease }) g.members
    ({ g with members := renewed }, 0)
  else if g.members.length ≥ streamGroupMembersMax then (g, -1)
  else ({ g with
    members := ⟨owner, mono + lease⟩ :: g.members, generation := g.generation + 1 }, 0)

theorem tick_renew (distinct : g.Distinct) {members : List StreamMember}
    (owners : members.map (·.owner) = g.members.map (·.owner)) :
    Tick g { g with members := members } := by
  refine ⟨rfl, ?_, .inl ⟨?_, rfl⟩⟩
  · simpa [StreamGroup.Distinct, owners] using distinct
  · simp [StreamGroup.live, owners]

theorem tick_add (distinct : g.Distinct) {m : StreamMember}
    (absent : m.owner ∉ g.members.map (·.owner)) :
    Tick g { g with members := m :: g.members, generation := g.generation + 1 } := by
  refine ⟨rfl, List.nodup_cons.mpr ⟨absent, distinct⟩, .inr ⟨fun same => absent ?_, rfl⟩⟩
  have here : m.owner ∈ g.live := by
    rw [← same]
    simp [StreamGroup.live]
  simpa [StreamGroup.live] using here

theorem ticks_join (distinct : g.Distinct) (mono owner lease : Nat) :
    Ticks g (g.join mono owner lease).1 := by
  have reaped := ticks_reap distinct mono
  have still := reaped.distinct distinct
  unfold StreamGroup.join
  simp only
  split
  · have owners := map_updateFirst_eq (p := fun m : StreamMember => m.owner == owner)
      (f := fun m => { m with deadlineMs := mono + lease }) (·.owner) (fun _ => rfl)
      (g.reap mono).members
    exact reaped.tail (tick_renew still owners)
  · rename_i absent
    split
    · exact reaped
    · refine reaped.tail (tick_add still fun mem => absent ?_)
      obtain ⟨m, mem, eq⟩ := List.mem_map.mp mem
      exact List.any_eq_true.mpr ⟨m, mem, beq_iff_eq.mpr eq⟩

end Ticking

/-! ## Groups of a store -/

def groupOf (topics : List StreamTopic) (name group : Bytes) : Option StreamGroup :=
  (findTopic topics name).bind fun t => findGroup t group

/-- In every group of the store no owner is a member twice. -/
def DistinctMembers (topics : List StreamTopic) : Prop :=
  ∀ name group g, groupOf topics name group = some g → g.Distinct

/-- The groups of a topic moved on, and others may have been made. -/
structure TopicMoved (t u : StreamTopic) : Prop where
  name : u.name = t.name
  partitions : u.partitions = t.partitions
  kept : ∀ group g, findGroup t group = some g → ∃ g', findGroup u group = some g' ∧ Ticks g g'
  distinct : (∀ group g, findGroup t group = some g → g.Distinct) →
    ∀ group g, findGroup u group = some g → g.Distinct

/-- The groups of a store moved on. -/
structure Moved (topics topics' : List StreamTopic) : Prop where
  kept : ∀ name group g, groupOf topics name group = some g →
    ∃ g', groupOf topics' name group = some g' ∧ Ticks g g'
  distinct : DistinctMembers topics → DistinctMembers topics'
  partitions : ∀ name t, findTopic topics name = some t →
    ∃ t', findTopic topics' name = some t' ∧ t'.partitions = t.partitions

theorem Moved.refl (topics : List StreamTopic) : Moved topics topics :=
  ⟨fun _ _ g found => ⟨g, found, .refl⟩, id, fun _ t found => ⟨t, found, rfl⟩⟩

namespace TopicMoved

variable {t u v : StreamTopic}

theorem trans (first : TopicMoved t u) (second : TopicMoved u v) : TopicMoved t v where
  name := second.name.trans first.name
  partitions := second.partitions.trans first.partitions
  kept group g found := by
    obtain ⟨h, foundH, ticks⟩ := first.kept group g found
    obtain ⟨k, foundK, more⟩ := second.kept group h foundH
    exact ⟨k, foundK, ticks.trans more⟩
  distinct start := second.distinct (first.distinct start)

theorem set {g h : StreamGroup} (found : findGroup t g.name = some g) (ticks : Ticks g h) :
    TopicMoved t (setGroup t h) := by
  have hit : findGroup (setGroup t h) g.name = some h := findGroup_setGroup_same found ticks.name
  have miss (group : Bytes) (other : group ≠ g.name) :
      findGroup (setGroup t h) group = findGroup t group :=
    findGroup_setGroup_other t (by rw [ticks.name]; exact other)
  refine ⟨rfl, rfl, fun group k foundK => ?_, fun start group k foundK => ?_⟩
  · by_cases here : group = g.name
    · subst here
      cases found.symm.trans foundK
      exact ⟨h, hit, ticks⟩
    · exact ⟨k, (miss group here).trans foundK, .refl⟩
  · by_cases here : group = g.name
    · subst here
      cases hit.symm.trans foundK
      exact ticks.distinct (start _ g found)
    · exact start group k ((miss group here).symm.trans foundK)

theorem ensure (t : StreamTopic) (group : Bytes) : TopicMoved t (ensureGroup t group).1 := by
  unfold ensureGroup
  cases found : findGroup t group with
  | some g => exact ⟨rfl, rfl, fun _ g found => ⟨g, found, .refl⟩, id⟩
  | none =>
    refine ⟨rfl, rfl, fun other k foundK => ⟨k, ?_, .refl⟩, fun start other k foundK => ?_⟩
    · have apart : group ≠ other := by
        rintro rfl
        cases found.symm.trans foundK
      exact (lookup_cons_miss _ apart _).trans foundK
    · by_cases here : group = other
      · subst here
        cases (lookup_cons_hit StreamGroup.name (x := ⟨group, List.replicate t.partitions 0, [], 0⟩)
          rfl t.groups).symm.trans foundK
        exact List.nodup_nil
      · exact start other k ((lookup_cons_miss StreamGroup.name
          (x := ⟨group, List.replicate t.partitions 0, [], 0⟩) here t.groups).symm.trans foundK)

/-- A topic is replaced in the list. -/
theorem moved {topics : List StreamTopic} (found : findTopic topics t.name = some t)
    (moved : TopicMoved t u) : Moved topics (setTopic topics u) := by
  have hit : findTopic (setTopic topics u) t.name = some u := findTopic_setTopic_same found moved.name
  have miss (name : Bytes) (other : name ≠ t.name) :
      findTopic (setTopic topics u) name = findTopic topics name :=
    findTopic_setTopic_other topics (by rw [moved.name]; exact other)
  refine ⟨fun name group g foundG => ?_, fun start name group g foundG => ?_, fun name v foundV => ?_⟩
  · by_cases here : name = t.name
    · subst here
      simp only [groupOf, found, hit, Option.bind_some] at foundG ⊢
      exact moved.kept group g foundG
    · exact ⟨g, by rwa [groupOf, miss name here], .refl⟩
  · by_cases here : name = t.name
    · subst here
      simp only [groupOf, hit, Option.bind_some] at foundG
      refine moved.distinct (fun group g foundG => start t.name group g ?_) group g foundG
      simpa only [groupOf, found, Option.bind_some] using foundG
    · exact start name group g (by rwa [groupOf, miss name here] at foundG)
  · by_cases here : name = t.name
    · subst here
      cases found.symm.trans foundV
      exact ⟨u, hit, moved.partitions⟩
    · exact ⟨v, (miss name here).trans foundV, rfl⟩

end TopicMoved

theorem groupOf_onEveryGroup (s : StreamStore) (change : StreamGroup → StreamGroup)
    (names : ∀ g, (change g).name = g.name) (name group : Bytes) :
    groupOf (onEveryGroup s change).topics name group = (groupOf s.topics name group).map change := by
  unfold groupOf
  rw [findTopic_onEveryGroup]
  cases findTopic s.topics name with
  | none => rfl
  | some t => exact lookup_map StreamGroup.name (f := change) names group t.groups

theorem moved_onEveryGroup (s : StreamStore) (change : StreamGroup → StreamGroup)
    (names : ∀ g, (change g).name = g.name) (distinct : DistinctMembers s.topics)
    (ticks : ∀ g : StreamGroup, g.Distinct → Ticks g (change g)) :
    Moved s.topics (onEveryGroup s change).topics := by
  refine ⟨fun name group g found => ⟨change g, ?_, ticks g (distinct name group g found)⟩,
    fun start name group g found => ?_, fun name t found => ?_⟩
  · rw [groupOf_onEveryGroup s change names, found]
    rfl
  · rw [groupOf_onEveryGroup s change names, Option.map_eq_some_iff] at found
    obtain ⟨g₀, found₀, rfl⟩ := found
    exact (ticks g₀ (start name group g₀ found₀)).distinct (start name group g₀ found₀)
  · exact ⟨{ t with groups := t.groups.map change }, by rw [findTopic_onEveryGroup, found]; rfl, rfl⟩

/-! ## The calls -/

section Calls

variable {s : StreamStore} {name group : Bytes} {t : StreamTopic}

theorem streamGroupJoin_eq (mono owner lease : Nat)
    (given : ¬(group = [] ∨ group.length > streamGroupMax ∨ owner = 0 ∨ lease = 0 ∨ lease > 60000))
    (found : findTopic s.topics name = some t) :
    streamGroupJoin s mono name group owner lease =
      ({ s with topics := setTopic s.topics (setGroup (ensureGroup t group).1
          ((ensureGroup t group).2.join mono owner lease).1) },
        ((ensureGroup t group).2.join mono owner lease).2) := by
  unfold streamGroupJoin StreamGroup.join
  rw [if_neg given]
  simp only [found]
  split
  · rfl
  · split <;> rfl

theorem groupOf_found (distinct : DistinctMembers s.topics) (found : findTopic s.topics name = some t)
    {g : StreamGroup} (foundG : findGroup t group = some g) : g.Distinct :=
  distinct name group g (by rw [groupOf, found]; exact foundG)

theorem ensureGroup_distinct (distinct : DistinctMembers s.topics)
    (found : findTopic s.topics name = some t) : (ensureGroup t group).2.Distinct :=
  (TopicMoved.ensure t group).distinct (fun _ _ foundG => groupOf_found distinct found foundG)
    group _ (ensureGroup_found t group)

theorem moved_join (distinct : DistinctMembers s.topics) (mono owner lease : Nat) :
    Moved s.topics (streamGroupJoin s mono name group owner lease).1.topics := by
  by_cases given : group = [] ∨ group.length > streamGroupMax ∨ owner = 0 ∨ lease = 0 ∨ lease > 60000
  · rw [streamGroupJoin, if_pos given]
    exact .refl _
  · cases found : findTopic s.topics name with
    | none =>
      rw [streamGroupJoin, if_neg given]
      simp only [found]
      exact .refl _
    | some t =>
      rw [streamGroupJoin_eq mono owner lease given found]
      obtain ⟨-, rfl⟩ := findTopic_some found
      have there : findGroup (ensureGroup t group).1 (ensureGroup t group).2.name
          = some (ensureGroup t group).2 := by
        rw [ensureGroup_name]
        exact ensureGroup_found t group
      exact ((TopicMoved.ensure t group).trans
        (.set there (ticks_join (ensureGroup_distinct distinct found) mono owner lease))).moved found

theorem moved_leaveMember (distinct : DistinctMembers s.topics) (owner : Nat) :
    Moved s.topics (streamGroupLeaveMember s name group owner).1.topics := by
  unfold streamGroupLeaveMember
  split
  · exact .refl _
  · cases found : findTopic s.topics name with
    | none => exact .refl _
    | some t =>
      cases foundG : findGroup t group with
      | none =>
        simp only [foundG]
        exact .refl _
      | some g =>
        simp only [foundG]
        split
        · have apart := groupOf_found distinct found foundG
          obtain ⟨-, rfl⟩ := findTopic_some found
          obtain ⟨-, rfl⟩ := lookup_some _ foundG
          exact (TopicMoved.set foundG (ticks_leave apart owner)).moved found
        · exact .refl _

theorem moved_leaveOwner (distinct : DistinctMembers s.topics) (owner : Nat) :
    Moved s.topics (streamGroupLeaveOwner s owner).topics := by
  unfold streamGroupLeaveOwner
  split
  · exact .refl _
  · exact moved_onEveryGroup s (fun g => g.leaveOwner owner) (fun _ => rfl) distinct
      fun g apart => ticks_leaveOwner apart owner

theorem moved_reap (distinct : DistinctMembers s.topics) (mono : Nat) :
    Moved s.topics (streamReap s mono).topics :=
  moved_onEveryGroup s (fun g => g.reap mono) (fun _ => rfl) distinct
    fun _ apart => ticks_reap apart mono

/-- The part of `stream_group_member_assigned` that changes the group; the answer is then
`StreamGroup.assigned` of it. -/
def streamGroupMemberAssigned (s : StreamStore) (mono : Nat) (name group : Bytes) : StreamStore :=
  (onGroup s name group mono 0 fun s _ _ => (s, 0)).1

theorem moved_memberAssigned (distinct : DistinctMembers s.topics) (mono : Nat) :
    Moved s.topics (streamGroupMemberAssigned s mono name group).topics := by
  unfold streamGroupMemberAssigned onGroup
  cases found : findTopic s.topics name with
  | none => exact .refl _
  | some t =>
    cases foundG : findGroup t group with
    | none =>
      simp only [foundG]
      exact .refl _
    | some g =>
      simp only [foundG]
      have apart := groupOf_found distinct found foundG
      obtain ⟨-, rfl⟩ := findTopic_some found
      obtain ⟨-, rfl⟩ := lookup_some _ foundG
      exact (TopicMoved.set foundG (ticks_reap apart mono)).moved found

end Calls

/-! ## Joins in two steps -/

/-- The partitions a join hands out: those whose place in the sorted owners is the caller's. -/
def StreamGroup.parts (g : StreamGroup) (partitions owner : Nat) : List Nat :=
  (List.range partitions).filter fun p => g.owners[p % g.owners.length]? == some owner

/-- A join between its unlock and the read of the generation; `seen` is the group at the unlock. -/
structure PendingJoin where
  name : Bytes
  group : Bytes
  owner : Nat
  partitions : Nat
  parts : List Nat
  seen : StreamGroup
  deriving DecidableEq, Repr

/-- What a join returned. -/
structure Joined where
  from_ : PendingJoin
  generation : Nat
  deriving DecidableEq, Repr

structure MemberState where
  store : StreamStore
  pending : List (Nat × PendingJoin)
  returned : List Joined

/-- `ask` is a membership lookup, which reaps the group first; `expire` the reaping of all groups. -/
inductive MemberEvent where
  | join (i mono : Nat) (name group : Bytes) (owner lease : Nat)
  | read (i : Nat)
  | leave (name group : Bytes) (owner : Nat)
  | disconnect (owner : Nat)
  | expire (mono : Nat)
  | ask (mono : Nat) (name group : Bytes)
  deriving DecidableEq, Repr

/-- The store behind the part of the event that holds the lock. -/
def MemberEvent.store (store : StreamStore) : MemberEvent → StreamStore
  | .join _ mono name group owner lease => (streamGroupJoin store mono name group owner lease).1
  | .read _ => store
  | .leave name group owner => (streamGroupLeaveMember store name group owner).1
  | .disconnect owner => streamGroupLeaveOwner store owner
  | .expire mono => streamReap store mono
  | .ask mono name group => streamGroupMemberAssigned store mono name group

theorem moved_event {store : StreamStore} (distinct : DistinctMembers store.topics) (e : MemberEvent) :
    Moved store.topics (e.store store).topics := by
  cases e with
  | join => exact moved_join distinct ..
  | read => exact .refl _
  | leave => exact moved_leaveMember distinct _
  | disconnect => exact moved_leaveOwner distinct _
  | expire => exact moved_reap distinct _
  | ask => exact moved_memberAssigned distinct _

namespace MemberState

def start (store : StreamStore) : MemberState := ⟨store, [], []⟩

def step (s : MemberState) : MemberEvent → MemberState
  | .join i mono name group owner lease =>
    if s.pending.any (fun x => x.1 == i) then s
    else
      let result := streamGroupJoin s.store mono name group owner lease
      match findTopic result.1.topics name, groupOf result.1.topics name group with
      | some t, some g =>
        if result.2 = 0 then
          { s with
            store := result.1
            pending := (i, ⟨name, group, owner, t.partitions, g.parts t.partitions owner, g⟩)
              :: s.pending }
        else { s with store := result.1 }
      | _, _ => { s with store := result.1 }
  | .read i =>
    match s.pending.find? (fun x => x.1 == i) with
    | none => s
    | some (_, j) =>
      { s with
        pending := s.pending.filter (fun x => x.1 != i)
        returned := ⟨j, ((groupOf s.store.topics j.name j.group).map (·.generation)).getD 0⟩
          :: s.returned }
  | e => { s with store := e.store s.store }

def run (s : MemberState) (events : List MemberEvent) : MemberState := events.foldl step s

end MemberState

/-- The event makes a member of the group come or go. -/
def MemberEvent.moves (name group : Bytes) (g : StreamGroup) : MemberEvent → Bool
  | .join _ mono name' group' owner _ =>
    name' == name && group' == group &&
      (g.members.any (fun m => m.deadlineMs ≤ mono) || !g.members.any (fun m => m.owner == owner))
  | .read _ => false
  | .leave name' group' owner =>
    name' == name && group' == group && g.members.any (fun m => m.owner == owner)
  | .disconnect owner => g.members.any (fun m => m.owner == owner)
  | .expire mono => g.members.any (fun m => m.deadlineMs ≤ mono)
  | .ask mono name' group' =>
    name' == name && group' == group && g.members.any (fun m => m.deadlineMs ≤ mono)

/-- No member comes or goes in a group in which a join has yet to read the generation. -/
def MemberState.quiet (s : MemberState) (e : MemberEvent) : Bool :=
  s.pending.all fun x =>
    (groupOf s.store.topics x.2.name x.2.group).all fun g => !e.moves x.2.name x.2.group g

def MemberState.quietRun (s : MemberState) : List MemberEvent → Bool
  | [] => true
  | e :: rest => s.quiet e && (s.step e).quietRun rest

/-! ## Events that move nobody -/

section Quiet

variable {store : StreamStore} {name group : Bytes} {g : StreamGroup}

theorem reap_quiet {now : Nat} (nobody : g.members.any (fun m => m.deadlineMs ≤ now) = false) :
    g.reap now = g := by
  have all : g.members.filter (fun m => now < m.deadlineMs) = g.members := by
    refine List.filter_eq_self.mpr fun m mem => ?_
    have := List.any_eq_false.mp nobody m mem
    simpa using this
  unfold StreamGroup.reap
  simp [all]

theorem join_quiet {mono owner : Nat} (lease : Nat)
    (nobody : g.members.any (fun m => m.deadlineMs ≤ mono) = false)
    (member : g.members.any (fun m => m.owner == owner) = true) :
    (g.join mono owner lease).1.generation = g.generation := by
  unfold StreamGroup.join
  simp only [reap_quiet nobody, member, if_true]

theorem leaveOwner_quiet {owner : Nat} (nobody : g.members.any (fun m => m.owner == owner) = false) :
    (g.leaveOwner owner).generation = g.generation := by
  have none_ : g.members.filter (fun m => m.owner = owner) = [] := by
    refine List.filter_eq_nil_iff.mpr fun m mem => ?_
    have := List.any_eq_false.mp nobody m mem
    simpa using this
  simp [StreamGroup.leaveOwner, none_]

theorem findGroup_ensure_other {t : StreamTopic} {other : Bytes} (apart : other ≠ group) :
    findGroup (ensureGroup t group).1 other = findGroup t other := by
  unfold ensureGroup
  split
  · rfl
  · exact lookup_cons_miss StreamGroup.name (x := ⟨group, List.replicate t.partitions 0, [], 0⟩)
      (Ne.symm apart) t.groups

/-- The group is still there, in the same generation. -/
def SameGeneration (topics : List StreamTopic) (name group : Bytes) (g : StreamGroup) : Prop :=
  ∃ g', groupOf topics name group = some g' ∧ g'.generation = g.generation

/-- A topic is replaced by one that differs in one group, and that group, if it is the one asked for,
keeps its generation. -/
theorem SameGeneration.set {topics : List StreamTopic} {t u : StreamTopic} (changed : Bytes)
    (found : groupOf topics name group = some g) (foundT : findTopic topics t.name = some t)
    (same : u.name = t.name)
    (others : ∀ other, other ≠ changed → findGroup u other = findGroup t other)
    (there : t.name = name → changed = group →
      ∃ g', findGroup u group = some g' ∧ g'.generation = g.generation) :
    SameGeneration (setTopic topics u) name group g := by
  by_cases here : t.name = name
  · subst here
    rw [groupOf, foundT, Option.bind_some] at found
    rw [SameGeneration, groupOf, findTopic_setTopic_same foundT same, Option.bind_some]
    by_cases hit : changed = group
    · exact there rfl hit
    · exact ⟨g, (others group (Ne.symm hit)).trans found, rfl⟩
  · refine ⟨g, ?_, rfl⟩
    rw [groupOf, findTopic_setTopic_other topics (by rw [same]; exact Ne.symm here)]
    exact found

theorem SameGeneration.every {f : StreamGroup → StreamGroup} (names : ∀ g, (f g).name = g.name)
    (found : groupOf store.topics name group = some g) (same : (f g).generation = g.generation) :
    SameGeneration (onEveryGroup store f).topics name group g := by
  refine ⟨f g, ?_, same⟩
  rw [groupOf_onEveryGroup store f names, found]
  rfl

theorem join_name (mono owner lease : Nat) : (g.join mono owner lease).1.name = g.name := by
  unfold StreamGroup.join
  simp only
  split
  · rfl
  · split <;> rfl

theorem join_generation {i mono owner lease : Nat} {name' group' : Bytes}
    (found : groupOf store.topics name group = some g)
    (quiet : (MemberEvent.join i mono name' group' owner lease).moves name group g = false) :
    SameGeneration (streamGroupJoin store mono name' group' owner lease).1.topics name group g := by
  by_cases given : group' = [] ∨ group'.length > streamGroupMax ∨ owner = 0 ∨ lease = 0 ∨ lease > 60000
  · rw [streamGroupJoin, if_pos given]
    exact ⟨g, found, rfl⟩
  cases foundT : findTopic store.topics name' with
  | none =>
    simp only [streamGroupJoin, if_neg given, foundT]
    exact ⟨g, found, rfl⟩
  | some t =>
    obtain ⟨-, rfl⟩ := findTopic_some foundT
    have named : ((ensureGroup t group').2.join mono owner lease).1.name = group' :=
      (join_name mono owner lease).trans (ensureGroup_name t group')
    rw [streamGroupJoin_eq mono owner lease given foundT]
    refine SameGeneration.set group' found foundT (TopicMoved.ensure t group').name ?_ ?_
    · intro other apart
      rw [findGroup_setGroup_other _ (by rw [named]; exact apart), findGroup_ensure_other apart]
    · rintro rfl rfl
      have foundG : findGroup t group' = some g := by
        simpa only [groupOf, foundT, Option.bind_some] using found
      have ensured : ensureGroup t group' = (t, g) := by
        unfold ensureGroup
        rw [foundG]
      simp only [MemberEvent.moves, beq_self_eq_true, Bool.and_self, Bool.true_and,
        Bool.or_eq_false_iff, Bool.not_eq_false'] at quiet
      rw [ensured] at named ⊢
      obtain ⟨-, rfl⟩ := lookup_some _ foundG
      exact ⟨_, findGroup_setGroup_same foundG named, join_quiet lease quiet.1 quiet.2⟩

theorem leave_generation {name' group' : Bytes} {owner : Nat}
    (found : groupOf store.topics name group = some g)
    (quiet : (MemberEvent.leave name' group' owner).moves name group g = false) :
    SameGeneration (streamGroupLeaveMember store name' group' owner).1.topics name group g := by
  unfold streamGroupLeaveMember
  split
  · exact ⟨g, found, rfl⟩
  cases foundT : findTopic store.topics name' with
  | none => exact ⟨g, found, rfl⟩
  | some t =>
    cases foundG : findGroup t group' with
    | none =>
      simp only [foundG]
      exact ⟨g, found, rfl⟩
    | some h =>
      obtain ⟨-, rfl⟩ := findTopic_some foundT
      obtain ⟨-, rfl⟩ := lookup_some _ foundG
      have named : (h.leave owner).name = h.name := by
        unfold StreamGroup.leave
        split <;> rfl
      simp only [foundG]
      split
      · rename_i member
        refine SameGeneration.set h.name found foundT rfl
          (fun other apart => findGroup_setGroup_other t (by rw [named]; exact apart)) ?_
        -- the group asked for has no such member, so it is not the one that is left
        rintro rfl rfl
        rw [groupOf, foundT, Option.bind_some, foundG] at found
        cases found
        simp [MemberEvent.moves, member] at quiet
      · exact ⟨g, found, rfl⟩

theorem ask_generation {name' group' : Bytes} {mono : Nat}
    (found : groupOf store.topics name group = some g)
    (quiet : (MemberEvent.ask mono name' group').moves name group g = false) :
    SameGeneration (streamGroupMemberAssigned store mono name' group').topics name group g := by
  unfold streamGroupMemberAssigned onGroup
  cases foundT : findTopic store.topics name' with
  | none => exact ⟨g, found, rfl⟩
  | some t =>
    cases foundG : findGroup t group' with
    | none =>
      simp only [foundG]
      exact ⟨g, found, rfl⟩
    | some h =>
      obtain ⟨-, rfl⟩ := findTopic_some foundT
      obtain ⟨-, rfl⟩ := lookup_some _ foundG
      simp only [foundG]
      refine SameGeneration.set h.name found foundT rfl
        (fun other apart => findGroup_setGroup_other t (h := h.reap mono) apart) ?_
      rintro rfl rfl
      rw [groupOf, foundT, Option.bind_some, foundG] at found
      cases found
      simp only [MemberEvent.moves, beq_self_eq_true, Bool.and_self, Bool.true_and] at quiet
      exact ⟨_, findGroup_setGroup_same foundG rfl, by rw [reap_quiet quiet]⟩

theorem disconnect_generation {owner : Nat} (found : groupOf store.topics name group = some g)
    (quiet : (MemberEvent.disconnect owner).moves name group g = false) :
    SameGeneration (streamGroupLeaveOwner store owner).topics name group g := by
  unfold streamGroupLeaveOwner
  split
  · exact ⟨g, found, rfl⟩
  · exact SameGeneration.every (fun _ => rfl) found (leaveOwner_quiet quiet)

/-- The group after an event that moves nobody in it. -/
theorem generation_quiet (e : MemberEvent) (found : groupOf store.topics name group = some g)
    (quiet : e.moves name group g = false) : SameGeneration (e.store store).topics name group g := by
  cases e with
  | read => exact ⟨g, found, rfl⟩
  | join => exact join_generation found quiet
  | leave => exact leave_generation found quiet
  | disconnect => exact disconnect_generation found quiet
  | expire mono =>
    exact SameGeneration.every (fun _ => rfl) found (congrArg StreamGroup.generation (reap_quiet quiet))
  | ask => exact ask_generation found quiet

end Quiet

/-! ## Runs -/

/-- The group a join was answered from, and the same group now. -/
structure Since (topics : List StreamTopic) (j : PendingJoin) (g : StreamGroup) : Prop where
  topic : ∃ t, findTopic topics j.name = some t ∧ t.partitions = j.partitions
  found : groupOf topics j.name j.group = some g
  distinct : j.seen.Distinct
  ticks : Ticks j.seen g
  parts : j.parts = j.seen.parts j.partitions j.owner

theorem Since.moved {topics topics' : List StreamTopic} {j : PendingJoin} {g : StreamGroup}
    (since : Since topics j g) (moved : Moved topics topics') : ∃ g', Since topics' j g' := by
  obtain ⟨g', found, ticks⟩ := moved.kept _ _ _ since.found
  obtain ⟨t, foundT, count⟩ := since.topic
  obtain ⟨t', foundT', count'⟩ := moved.partitions _ _ foundT
  exact ⟨g', ⟨t', foundT', count'.trans count⟩, found, since.distinct, since.ticks.trans ticks,
    since.parts⟩

/-- A partition is in the answer if and only if the group assigned it to the caller. -/
theorem mem_parts {g : StreamGroup} (distinct : g.Distinct) {partitions owner p : Nat} :
    p ∈ g.parts partitions owner ↔ p < partitions ∧ g.assigned owner p = true := by
  rw [assigned_eq_dealt, dealt_iff distinct.owners]
  simp [StreamGroup.parts]

/-- Whenever the group has the generation of the answer, it assigns as the answer says. -/
theorem Since.assigned {topics : List StreamTopic} {j : PendingJoin} {g : StreamGroup}
    (since : Since topics j g) (same : g.generation = j.seen.generation) {p : Nat}
    (inside : p < j.partitions) : g.assigned j.owner p = true ↔ p ∈ j.parts := by
  have owners := owners_eq since.distinct (since.ticks.distinct since.distinct)
    (since.ticks.live_eq same)
  rw [since.parts, mem_parts since.distinct, assigned_eq_dealt, assigned_eq_dealt, owners]
  exact ⟨fun here => ⟨inside, here⟩, And.right⟩

/-- In an `exact` run a join that is to read the generation will find the one of its answer. -/
structure Faithful (exact : Prop) (s : MemberState) : Prop where
  distinct : DistinctMembers s.store.topics
  pending : ∀ x ∈ s.pending, ∃ g, Since s.store.topics x.2 g ∧
    (exact → g.generation = x.2.seen.generation)
  returned : ∀ r ∈ s.returned, (∃ g, Since s.store.topics r.from_ g) ∧
    (exact → r.generation = r.from_.seen.generation)

namespace Faithful

variable {exact : Prop} {s : MemberState}

/-- The locked part of an event. -/
theorem store (faithful : Faithful exact s) (e : MemberEvent) (quiet : exact → s.quiet e = true) :
    Faithful exact { s with store := e.store s.store } := by
  have moved := moved_event faithful.distinct e
  refine ⟨moved.distinct faithful.distinct, fun x mem => ?_, fun r mem => ?_⟩
  · obtain ⟨g, since, same⟩ := faithful.pending x mem
    obtain ⟨g', since'⟩ := since.moved moved
    refine ⟨g', since', fun given => ?_⟩
    have still := List.all_eq_true.mp (quiet given) x mem
    rw [since.found, Option.all_some, Bool.not_eq_true'] at still
    obtain ⟨g', found', kept⟩ := generation_quiet e since.found still
    cases found'.symm.trans since'.found
    exact kept.trans (same given)
  · obtain ⟨⟨g, since⟩, same⟩ := faithful.returned r mem
    exact ⟨since.moved moved, same⟩

theorem step (faithful : Faithful exact s) (e : MemberEvent) (quiet : exact → s.quiet e = true) :
    Faithful exact (s.step e) := by
  cases e with
  | leave | disconnect | expire | ask => exact faithful.store _ quiet
  | join i mono name group owner lease =>
    have after := faithful.store (.join i mono name group owner lease) quiet
    simp only [MemberState.step]
    split
    · exact faithful
    · split
      · rename_i t g foundT foundG
        split
        · refine ⟨after.distinct, fun x mem => ?_, after.returned⟩
          rcases List.mem_cons.mp mem with rfl | before
          · exact ⟨g, ⟨⟨t, foundT, rfl⟩, foundG, after.distinct _ _ _ foundG, .refl, rfl⟩, fun _ => rfl⟩
          · exact after.pending x before
        · exact after
      · exact after
  | read i =>
    simp only [MemberState.step]
    split
    · exact faithful
    · rename_i k j found
      obtain ⟨g, since, same⟩ := faithful.pending _ (List.mem_of_find?_eq_some found)
      refine ⟨faithful.distinct, fun x mem => faithful.pending x (List.mem_filter.mp mem).1,
        fun r mem => ?_⟩
      rcases List.mem_cons.mp mem with rfl | before
      · refine ⟨⟨g, since⟩, fun given => ?_⟩
        simp only [since.found, Option.map_some, Option.getD_some]
        exact same given
      · exact faithful.returned r before

theorem run : ∀ (events : List MemberEvent) {s : MemberState}, Faithful exact s →
    (exact → s.quietRun events = true) → Faithful exact (s.run events)
  | [], _, faithful, _ => faithful
  | e :: rest, s, faithful, quiet => by
    simp only [MemberState.quietRun, Bool.and_eq_true] at quiet
    exact run rest (faithful.step e fun given => (quiet given).1) fun given => (quiet given).2

end Faithful

/-- A step of the machine changes the store as its event does, or not at all. -/
theorem MemberState.step_store (s : MemberState) (e : MemberEvent) :
    (s.step e).store = e.store s.store ∨ (s.step e).store = s.store := by
  cases e with
  | leave | disconnect | expire | ask => exact .inl rfl
  | join i mono name group owner lease =>
    simp only [MemberState.step]
    split
    · exact .inr rfl
    · split
      · split <;> exact .inl rfl
      · exact .inl rfl
  | read i =>
    simp only [MemberState.step]
    split <;> exact .inr rfl

/-- One assignment, and a generation that counts the members that came and went, in every state of
every run. The pair a join returned is the one its group had at the unlock, and is what the group
assigns whenever it has that generation, if no member of the group came or went before the read. -/
theorem joins_return_one_moment (store : StreamStore) (start : DistinctMembers store.topics)
    (events : List MemberEvent) :
    let s := (MemberState.start store).run events
    (∀ name group g now, groupOf s.store.topics name group = some g → (g.reap now).members ≠ [] →
      ∀ p, ∃ m ∈ (g.reap now).members, now < m.deadlineMs ∧
        ∀ owner, (g.reap now).assigned owner p = true ↔ owner = m.owner) ∧
    (∀ e name group g, groupOf s.store.topics name group = some g →
      ∃ g', groupOf (s.step e).store.topics name group = some g' ∧ Ticks g g') ∧
    ((MemberState.start store).quietRun events = true → ∀ r ∈ s.returned,
      r.generation = r.from_.seen.generation ∧
      (∀ p, p ∈ r.from_.parts ↔
        p < r.from_.partitions ∧ r.from_.seen.assigned r.from_.owner p = true) ∧
      ∀ g, groupOf s.store.topics r.from_.name r.from_.group = some g →
        g.generation = r.generation → ∀ p < r.from_.partitions,
          (g.assigned r.from_.owner p = true ↔ p ∈ r.from_.parts)) := by
  intro s
  have faithful : Faithful ((MemberState.start store).quietRun events = true) s :=
    Faithful.run events ⟨start, nofun, nofun⟩ id
  refine ⟨fun name group g now found some_ p => ?_, fun e name group g found => ?_,
    fun quiet r mem => ?_⟩
  · have distinct := (ticks_reap (faithful.distinct _ _ _ found) now).distinct
      (faithful.distinct _ _ _ found)
    have owners : (g.reap now).owners ≠ [] := by
      intro none_
      have perm := owners_perm (g.reap now)
      rw [none_] at perm
      exact some_ (List.map_eq_nil_iff.mp perm.symm.eq_nil)
    obtain ⟨a, mem, only⟩ := dealt_unique distinct.owners owners p
    obtain ⟨m, memM, rfl⟩ := List.mem_map.mp ((owners_perm _).mem_iff.mp mem)
    exact ⟨m, memM, by simpa using (List.mem_filter.mp memM).2, only⟩
  · rcases s.step_store e with eq | eq
    · rw [eq]
      exact (moved_event faithful.distinct e).kept name group g found
    · rw [eq]
      exact ⟨g, found, .refl⟩
  · obtain ⟨⟨g, since⟩, same⟩ := faithful.returned r mem
    refine ⟨same quiet, fun p => ?_, fun g' found generation p inside => ?_⟩
    · rw [since.parts]
      exact mem_parts since.distinct
    · cases since.found.symm.trans found
      exact since.assigned (generation.trans (same quiet)) inside

/-- A topic of two partitions with a group that has no member yet. -/
def teamStore : StreamStore :=
  (Call.run (Call.run .fresh (.declare .notDue 7 [106] 2 0 0)).1 (.commit .notDue [106] [103] 0 0)).1

/-- Owner 1 joins and reads, then owner 2. -/
def joinsApart : List MemberEvent :=
  [.join 0 5 [106] [103] 1 1000, .read 0, .join 1 6 [106] [103] 2 1000, .read 1]

/-- Owner 2 joins before owner 1 has read. -/
def joinsMixed : List MemberEvent :=
  [.join 0 5 [106] [103] 1 1000, .join 1 6 [106] [103] 2 1000, .read 0]

theorem teamStore_distinct : DistinctMembers teamStore.topics := by
  intro name group g found
  have none_ : ∀ t ∈ teamStore.topics, ∀ g ∈ t.groups, g.members = [] := by decide +kernel
  obtain ⟨t, foundT, foundG⟩ := Option.bind_eq_some_iff.mp found
  have memT := (findTopic_some foundT).1
  have memG := (lookup_some _ foundG).1
  rw [StreamGroup.Distinct, none_ t memT g memG]
  exact List.nodup_nil

theorem joinsApart_one_moment :
    (MemberState.start teamStore).quietRun joinsApart = true ∧
    ∀ r ∈ ((MemberState.start teamStore).run joinsApart).returned,
      r.generation = r.from_.seen.generation := by
  have quiet : (MemberState.start teamStore).quietRun joinsApart = true := by decide +kernel
  exact ⟨quiet, fun r mem =>
    ((joins_return_one_moment teamStore teamStore_distinct joinsApart).2.2 quiet r mem).1⟩

/-- Owner 1 is told that it has both partitions in generation 2, in which partition 1 is owner 2's. -/
theorem join_returns_mixed :
    (((MemberState.start teamStore).run joinsMixed).returned.map
      fun r => (r.from_.owner, r.from_.parts, r.generation)) = [(1, [0, 1], 2)] ∧
    ((groupOf ((MemberState.start teamStore).run joinsMixed).store.topics [106] [103]).map
      fun g => (g.generation, g.assigned 1 1, g.assigned 2 1)) = some (2, false, true) := by
  decide +kernel

end KuttiDB.Stream
