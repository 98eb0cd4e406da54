/- # KuttiDB.Cache.Removal -- who may take an entry out of the local cache

Threads call put, get, delete and the sweep on one local cache, one critical section of a shard lock
at a time, while the clock goes on. A get looks its key up in one section and, when the entry has
expired, removes it in another; the second section takes whatever entry the key has by then.

`World.gone` is not in the source: it is the log of the dated entries that stood in the cache before a
section and not after it, found by comparing the contents. `World.awaited` lists the gets that stand
between their two sections. `removals_rightful` is about the runs in which no put of a fresh value
falls between the two sections of a get of its key; `fresh_value_removed` is a run in which one does.
-/
import KuttiDB.Cache.LocalInvariant
import KuttiDB.Theory.Workers

namespace KuttiDB.Cache

open KuttiDB.QueueStore
open KuttiDB.Theory

set_option autoImplicit false

/-! ## Threads, the clock and the log -/

inductive Hand where
  | thread (id : Nat)
  | clock
  deriving DecidableEq, Repr

/-- The sections of the calls. -/
inductive Site where
  | readClock
  | readTtlEntries
  | lookup (key : Bytes)
  | expire (key : Bytes)
  | put (key : Bytes) (exp : Nat)
  | delete (key : Bytes)
  | ticket
  | sweep
  | tick
  deriving DecidableEq, Repr

structure Gone where
  entry : Dated Bytes Bytes
  site : Site
  clock : Nat
  /-- Whether the key is still stored. -/
  keyLeft : Bool
  deriving DecidableEq, Repr

structure World where
  cache : Local
  clock : Nat
  awaited : List (Hand × Bytes)
  gone : List Gone

namespace World

def start (cache : Local) (clock : Nat) : World := ⟨cache, clock, [], []⟩

/-- What stood in the cache before and does not after. -/
def vanished (site : Site) (clock : Nat) (before after : Local) : List Gone :=
  (before.contents.filter (fun d => !decide (d ∈ after.contents))).map
    (fun d => ⟨d, site, clock, decide (d.key ∈ after.contents.map Dated.key)⟩)

/-- Runs a section on the cache and logs what it takes away. -/
def act (site : Site) (f : Local → Local) (w : World) : World :=
  { w with cache := f w.cache, gone := w.gone ++ vanished site w.clock w.cache (f w.cache) }

def await (t : Hand) (now : Nat) (key : Bytes) (w : World) : World :=
  if w.cache.lookupCopy now key = .expired then { w with awaited := (t, key) :: w.awaited } else w

def unawait (t : Hand) (key : Bytes) (w : World) : World :=
  { w with awaited := w.awaited.erase (t, key) }

def tick (w : World) : World := { w with clock := w.clock + 1 }

end World

abbrev Call := Flow World Site (MapAnswer Bytes)

def putCall (key value : Bytes) (exp : Nat) : Call :=
  .step (.put key exp) (World.act (.put key exp) (Local.putAbs key value exp)) fun _ => .done .stored

def deleteCall (key : Bytes) : Call :=
  .step (.delete key) (World.act (.delete key) (fun c => (c.delete key).2)) fun w =>
    .done (.deleted (w.cache.delete key).1)

/-- `get_common`: the clock is read first, by the caller or by the get itself. -/
def getCall (t : Hand) (key : Bytes) : Call :=
  .step .readClock id fun w =>
    .step (.lookup key) (World.await t w.clock key) fun w' =>
      match w'.cache.lookupCopy w.clock key with
      | .miss => .done (.found none)
      | .hit value => .done (.found (some value))
      | .expired => .step (.expire key)
          (fun w => (w.act (.expire key) (Local.expire key)).unawait t key) fun _ =>
            .done (.found none)

def sweepTurns (now : Nat) : Nat → Call
  | 0 => .done .swept
  | work + 1 =>
      .step .ticket (fun w => { w with cache := w.cache.takeTicket }) fun w =>
        .step .sweep (World.act .sweep (Local.sweepBucket now w.cache.sweepCursor)) fun _ =>
          sweepTurns now work

def sweepCall (work : Nat) : Call :=
  .step .readTtlEntries id fun w =>
    if w.cache.ttlEntries = 0 then .done .swept
    else .step .readClock id fun w => sweepTurns w.clock work

def tickCall : Call := .step .tick World.tick fun _ => .done .swept

def cacheCalls : Hand → Set Call
  | .thread id => fun p => (∃ key value exp, p = putCall key value exp) ∨
      (∃ key, p = getCall (.thread id) key) ∨ (∃ key, p = deleteCall key) ∨
      ∃ work, p = sweepCall work
  | .clock => fun p => p = tickCall

/-- An entry goes when it has expired, by a delete of its key, or for the value of a put of its key. -/
def Gone.Rightful (g : Gone) : Prop :=
  passed g.entry.expiry g.clock = true ∨ g.site = .delete g.entry.key ∨
    (∃ exp, g.site = .put g.entry.key exp) ∧ g.keyLeft = true

/-- No put of a fresh value of a key while a get of the key stands between its sections. -/
def undisturbed : Site → World → Prop
  | .put key exp, w => (∃ pair ∈ w.awaited, pair.2 = key) → passed exp w.clock = true
  | _, _ => True

instance decidableUndisturbed : ∀ site w, Decidable (undisturbed site w)
  | .put key exp, w => inferInstanceAs
      (Decidable ((∃ pair ∈ w.awaited, pair.2 = key) → passed exp w.clock = true))
  | .readClock, _ | .readTtlEntries, _ | .lookup _, _ | .expire _, _ | .delete _, _ | .ticket, _
  | .sweep, _ | .tick, _ => .isTrue trivial

/-! ## What one section takes away -/

theorem mem_vanished {site : Site} {clock : Nat} {before after : Local} {g : Gone}
    (mem : g ∈ World.vanished site clock before after) :
    g.site = site ∧ g.clock = clock ∧ g.entry ∈ before.contents ∧ g.entry ∉ after.contents ∧
      g.keyLeft = decide (g.entry.key ∈ after.contents.map Dated.key) := by
  obtain ⟨d, inside, rfl⟩ := List.mem_map.mp mem
  obtain ⟨held, out⟩ := List.mem_filter.mp inside
  exact ⟨rfl, rfl, held, by simpa using out, rfl⟩

/-- An entry missing from the contents without a key has that key. -/
theorem key_of_dropped {c c' : Local} {key : Bytes} {d : Dated Bytes Bytes}
    (same : c'.contents.Perm (dropKey Dated.key key c.contents)) (held : d ∈ c.contents)
    (out : d ∉ c'.contents) : d.key = key := by
  by_contra other
  exact out (same.mem_iff.mpr ((mem_dropKey Dated.key).mpr ⟨held, other⟩))

theorem put_rightful {c : Local} {clock exp : Nat} {key value : Bytes} (ok : c.Ok) :
    ∀ g ∈ World.vanished (.put key exp) clock c (c.putAbs key value exp), g.Rightful := by
  intro g mem
  obtain ⟨site, -, held, out, left⟩ := mem_vanished mem
  have stored : (c.putAbs key value exp).contents.Perm _ := Local.contents_putAbs ok
  have named : g.entry.key = key := by
    by_contra other
    exact out (stored.mem_iff.mpr
      (List.mem_cons_of_mem _ ((mem_dropKey Dated.key).mpr ⟨held, other⟩)))
  have present : g.entry.key ∈ (c.putAbs key value exp).contents.map Dated.key :=
    List.mem_map.mpr ⟨_, stored.mem_iff.mpr List.mem_cons_self, named.symm⟩
  exact Or.inr (Or.inr ⟨⟨exp, named ▸ site⟩, by simp [left, present]⟩)

theorem delete_rightful {c : Local} {clock : Nat} {key : Bytes} (ok : c.Ok) :
    ∀ g ∈ World.vanished (.delete key) clock c (c.delete key).2, g.Rightful := by
  intro g mem
  obtain ⟨site, -, held, out, -⟩ := mem_vanished mem
  have served : Serves 0 (.delete key) _ c.contents (c.delete key).2.contents :=
    (Local.run_serves 0 (.delete key) ok).2
  have named := key_of_dropped served.2 held out
  exact Or.inr (Or.inl (named ▸ site))

theorem expire_ok {c : Local} (ok : c.Ok) (key : Bytes) : (c.expire key).Ok ∧
    (c.expire key).contents.Perm (dropKey Dated.key key c.contents) := by
  unfold Local.expire
  cases found : c.find key with
  | none => exact ⟨ok, by rw [dropKey_of_absent Dated.key (Local.absent_of_find ok found)]⟩
  | some e => exact ⟨ok.unlink found, .of_eq (Local.contents_unlink ok key)⟩

/-! ## The contract -/

/-- What a section of one hand can mean to the others. -/
structure Goes (t : Hand) (w w' : World) : Prop where
  clock : w.clock ≤ w'.clock
  awaits : ∀ pair ∈ w.awaited, pair.1 ≠ t → pair ∈ w'.awaited
  comes : ∀ d ∈ w'.cache.contents, d ∈ w.cache.contents ∨
    ((∃ pair ∈ w.awaited, pair.2 = d.key) → passed d.expiry w.clock = true)

def World.Clean (w : World) : Prop := w.cache.Ok ∧ ∀ g ∈ w.gone, g.Rightful

def removalContract : Contract Hand World where
  inv := World.Clean
  rest _ _ := True
  may t w w' := w'.Clean ∧ Goes t w w'
  inv_step _ step := step.1
  rest_step _ _ _ _ := trivial

section

variable {t : Hand} {w : World}

theorem Goes.refl (t : Hand) (w : World) : Goes t w w :=
  ⟨Nat.le_refl _, fun _ mem _ => mem, fun _ mem => Or.inl mem⟩

/-- A section that takes away rightfully. -/
theorem act_may {site : Site} {f : Local → Local} (clean : w.Clean) (ok : (f w.cache).Ok)
    (rightful : ∀ g ∈ World.vanished site w.clock w.cache (f w.cache), g.Rightful)
    (comes : ∀ d ∈ (f w.cache).contents, d ∈ w.cache.contents ∨
      ((∃ pair ∈ w.awaited, pair.2 = d.key) → passed d.expiry w.clock = true)) :
    removalContract.may t w (w.act site f) :=
  ⟨⟨ok, fun g mem => (List.mem_append.mp mem).elim (clean.2 g) (rightful g)⟩,
    Nat.le_refl _, fun _ mem _ => mem, comes⟩

theorem putCall_always (key value : Bytes) (exp : Nat) :
    removalContract.Always undisturbed t (putCall key value exp) := by
  refine Contract.Always.step (fun w clean _ met => ⟨?_, trivial⟩) fun _ => .done _
  refine act_may clean clean.1.putAbs (put_rightful clean.1) fun d mem => ?_
  rcases List.mem_cons.mp ((Local.contents_putAbs clean.1).mem_iff.mp mem) with rfl | old
  · exact Or.inr met
  · exact Or.inl ((mem_dropKey Dated.key).mp old).1

theorem deleteCall_always (key : Bytes) :
    removalContract.Always undisturbed t (deleteCall key) := by
  refine Contract.Always.step (fun w clean _ _ => ⟨?_, trivial⟩) fun _ => .done _
  obtain ⟨ok, served⟩ : (w.cache.delete key).2.Ok ∧
      Serves 0 (.delete key) _ w.cache.contents (w.cache.delete key).2.contents :=
    Local.run_serves 0 (.delete key) clean.1
  refine act_may clean ok (delete_rightful clean.1) fun d mem => Or.inl ?_
  exact ((mem_dropKey Dated.key).mp (served.2.mem_iff.mp mem)).1

/-- A clock reading stays behind the clock. -/
theorem stable_reading (now : Nat) : removalContract.Stable t (fun w => now ≤ w.clock) :=
  fun _ _ _ _ _ le step => Nat.le_trans le step.2.clock

/-- What a get knows between its sections: whatever the key has by then has expired. -/
structure Awaiting (t : Hand) (key : Bytes) (w : World) : Prop where
  listed : (t, key) ∈ w.awaited
  expired : ∀ d ∈ w.cache.contents, d.key = key → passed d.expiry w.clock = true

theorem stable_awaiting (key : Bytes) : removalContract.Stable t (Awaiting t key) := by
  intro u w w' other _ awaiting step
  refine ⟨step.2.awaits _ awaiting.listed other, fun d mem named => ?_⟩
  refine passed_mono step.2.clock ?_
  rcases step.2.comes d mem with old | fresh
  · exact awaiting.expired d old named
  · exact fresh ⟨(t, key), awaiting.listed, named.symm⟩

theorem expire_secure {key : Bytes} {next : World → Call} (awaiting : Awaiting t key w)
    (rest : ∀ w w', removalContract.Secure undisturbed t (next w) w') :
    removalContract.Secure undisturbed t (.step (.expire key)
      (fun w => (w.act (.expire key) (Local.expire key)).unawait t key) next) w := by
  refine ⟨Awaiting t key, stable_awaiting key, awaiting, fun w clean awaiting _ => ⟨?_, rest _ _⟩⟩
  obtain ⟨ok, dropped⟩ := expire_ok clean.1 key
  have taken : removalContract.may t w (w.act (.expire key) (Local.expire key)) := by
    refine act_may clean ok (fun g mem => Or.inl ?_) fun d mem => Or.inl ?_
    · obtain ⟨-, clock, held, out, -⟩ := mem_vanished mem
      rw [clock]
      exact awaiting.expired _ held (key_of_dropped dropped held out)
    · exact ((mem_dropKey Dated.key).mp (dropped.mem_iff.mp mem)).1
  refine ⟨taken.1, taken.2.clock, fun pair mem other => ?_, taken.2.comes⟩
  exact (List.mem_erase_of_ne (fun same => other (congrArg Prod.fst same))).mpr
    (taken.2.awaits pair mem other)

theorem getCall_always (key : Bytes) : removalContract.Always undisturbed t (getCall t key) := by
  intro w _ _
  refine ⟨fun _ => True, fun _ _ _ _ _ _ _ => trivial, trivial, fun w clean _ _ =>
    ⟨⟨clean, .refl t w⟩, ?_⟩⟩
  refine ⟨_, stable_reading w.clock, Nat.le_refl _, fun w' clean le _ => ?_⟩
  -- the entry found at the reading has expired by now, and it is the only one of its key
  dsimp only
  cases looked : w'.cache.lookupCopy w.clock key with
  | miss =>
      rw [World.await, looked, if_neg (by decide)]
      exact ⟨⟨clean, .refl t w'⟩, trivial⟩
  | hit value =>
      rw [World.await, looked, if_neg (by simp)]
      exact ⟨⟨clean, .refl t w'⟩, trivial⟩
  | expired =>
      rw [World.await, looked, if_pos rfl]
      refine ⟨⟨clean, Nat.le_refl _, fun _ mem _ => List.mem_cons_of_mem _ mem,
        fun _ mem => Or.inl mem⟩, expire_secure (w := { w' with awaited := _ }) ⟨List.mem_cons_self, fun d mem named => ?_⟩
          fun _ _ => trivial⟩
      unfold Local.lookupCopy at looked
      split at looked
      · cases looked
      · rename_i e found
        split at looked
        · rename_i past
          obtain ⟨held, same⟩ := Local.mem_contents_of_find clean.1 found
          have only : d = e.dated :=
            List.inj_on_of_nodup_map clean.1.once_contents mem held (named.trans same.symm)
          rw [only]
          exact passed_mono le past
        · cases looked

theorem sweepTurns_secure (now : Nat) : ∀ (work : Nat) {w : World}, now ≤ w.clock →
    removalContract.Secure undisturbed t (sweepTurns now work) w
  | 0, _, _ => trivial
  | work + 1, w, le => by
      refine ⟨_, stable_reading now, le, fun w clean le _ => ⟨⟨⟨?_, clean.2⟩, Nat.le_refl _,
        fun _ mem _ => mem, fun _ mem => Or.inl mem⟩, ?_⟩⟩
      · exact ⟨clean.1.length, clean.1.shards, clean.1.placed, clean.1.hashed, clean.1.once⟩
      refine ⟨_, stable_reading now, le, fun w' clean le _ => ⟨?_, sweepTurns_secure now work le⟩⟩
      obtain ⟨ok, gone, split, past⟩ := Local.sweepBucket_ok now w.cache.sweepCursor clean.1
      refine act_may clean ok (fun g mem => Or.inl ?_) fun d mem => Or.inl ?_
      · obtain ⟨-, clock, held, out, -⟩ := mem_vanished mem
        rw [clock]
        exact passed_mono le (past _ ((List.mem_append.mp (split.mem_iff.mp held)).resolve_right out))
      · exact split.mem_iff.mpr (List.mem_append_right _ mem)

theorem sweepCall_always (work : Nat) : removalContract.Always undisturbed t (sweepCall work) := by
  intro w _ _
  refine ⟨fun _ => True, fun _ _ _ _ _ _ _ => trivial, trivial, fun w clean _ _ =>
    ⟨⟨clean, .refl t w⟩, ?_⟩⟩
  dsimp only
  split
  · exact trivial
  · exact ⟨fun _ => True, fun _ _ _ _ _ _ _ => trivial, trivial, fun w clean _ _ =>
      ⟨⟨clean, .refl t w⟩, sweepTurns_secure w.clock work (Nat.le_refl _)⟩⟩

theorem tickCall_always : removalContract.Always undisturbed t tickCall := by
  refine Contract.Always.step (fun w clean _ _ => ⟨⟨clean, ?_⟩, trivial⟩) fun _ => .done _
  exact ⟨Nat.le_succ _, fun _ mem _ => mem, fun _ mem => Or.inl mem⟩

end

theorem cacheCalls_always (t : Hand) : ∀ p ∈ cacheCalls t, removalContract.Always undisturbed t p := by
  cases t with
  | clock => rintro p rfl; exact tickCall_always
  | thread id =>
      rintro p (⟨key, value, exp, rfl⟩ | ⟨key, rfl⟩ | ⟨key, rfl⟩ | ⟨work, rfl⟩)
      · exact putCall_always key value exp
      · exact getCall_always key
      · exact deleteCall_always key
      · exact sweepCall_always work

/-- **Rightful removal.** In every run in which no put of a fresh value falls between the two sections
of a get of its key, an entry leaves the cache only when it has expired, by a delete of its key, or for
the value of a put that leaves the key stored. -/
theorem removals_rightful {nshards initialBuckets clock : Nat} {w : Crew Hand World Site (MapAnswer Bytes)}
    (run : Crew.Runs cacheCalls undisturbed
      (Crew.idle (.start (.create nshards initialBuckets) clock) .swept) w) :
    ∀ g ∈ w.shared.gone, g.Rightful := by
  have sound := Contract.sound_runs (C := removalContract) cacheCalls_always
    ⟨Local.create_ok nshards initialBuckets, fun _ mem => (List.not_mem_nil mem).elim⟩
    (fun _ => trivial) run
  exact sound.inv.2

/-! ## Two runs -/

/-- A value with its expiry second, put at second 0 and read at second 2. -/
def expiringTurns : List (Hand × Call) :=
  [(.thread 0, putCall [107] [1] 2), (.clock, tickCall), (.clock, tickCall),
    (.thread 1, getCall (.thread 1) [107])]

theorem expiringTurns_allowed : ∀ turn ∈ expiringTurns, turn.2 ∈ cacheCalls turn.1 := by
  simp only [expiringTurns, List.forall_mem_cons]
  exact ⟨Or.inl ⟨_, _, _, rfl⟩, rfl, rfl, Or.inr (Or.inl ⟨_, rfl⟩),
    fun _ mem => (List.not_mem_nil mem).elim⟩

/-- The lazily expired entry of a run of single calls went rightfully. -/
theorem removals_rightful_expired :
    ∃ w, Crew.Runs cacheCalls undisturbed (Crew.idle (.start (.create 2 16) 0) .swept) w ∧
      w.shared.gone = [⟨⟨[107], [1], 2⟩, .expire [107], 2, false⟩] ∧
      ∀ g ∈ w.shared.gone, g.Rightful := by
  have reached : ∃ w, Crew.Runs cacheCalls undisturbed _ w ∧ w.shared = _ :=
    Crew.runs_history expiringTurns (Crew.idle (.start (.create 2 16) 0) .swept)
      (fun _ => ⟨_, rfl⟩) expiringTurns_allowed (by decide +kernel)
  obtain ⟨w, run, shared⟩ := reached
  exact ⟨w, run, by rw [shared]; decide +kernel, removals_rightful run⟩

/-- A get finds the old value expired, another thread stores a new one, the get goes on. -/
def racingMoves : List (Crew.Move Hand World Site (MapAnswer Bytes)) :=
  [.start (.thread 0) (putCall [107] [1] 1), .go (.thread 0), .start .clock tickCall, .go .clock,
    .start (.thread 1) (getCall (.thread 1) [107]), .go (.thread 1), .go (.thread 1),
    .start (.thread 0) (putCall [107] [2] 0), .go (.thread 0), .go (.thread 1)]

theorem racingMoves_allowed : ∀ t p, Crew.Move.start t p ∈ racingMoves → p ∈ cacheCalls t := by
  intro t p mem
  simp only [racingMoves, List.mem_cons, Crew.Move.start.injEq, reduceCtorEq, List.not_mem_nil,
    or_false, false_or] at mem
  rcases mem with ⟨rfl, rfl⟩ | ⟨rfl, rfl⟩ | ⟨rfl, rfl⟩ | ⟨rfl, rfl⟩
  · exact Or.inl ⟨_, _, _, rfl⟩
  · rfl
  · exact Or.inr (Or.inl ⟨_, rfl⟩)
  · exact Or.inl ⟨_, _, _, rfl⟩

/-- The value stored for good is taken out by the get that saw the expired one. -/
theorem fresh_value_removed :
    ∃ w, Crew.Runs cacheCalls (fun _ _ => True) (Crew.idle (.start (.create 2 16) 0) .swept) w ∧
      ⟨⟨[107], [2], 0⟩, .expire [107], 1, false⟩ ∈ w.shared.gone ∧
      passed 0 1 = false ∧ w.shared.cache.contents = [] :=
  ⟨_, Crew.runs_schedule (fun _ _ => trivial) racingMoves _ racingMoves_allowed,
    by decide +kernel, by decide, by decide +kernel⟩

end KuttiDB.Cache
