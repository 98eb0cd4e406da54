/- # KuttiDB.Server.WireFlights -- the single-flight requests of the wire protocol

`Wire` has the single-flight requests as the bytes they answer, over engines that answer anything, and
`SingleFlight` has them as sections on the shared state. `flightEngine` is the engine of `Wire` that
performs each operation on that state as `SingleFlight` has it. Over this engine a request that no
other worker interrupts answers the bytes of the answer it has there, whatever the connection asked
before. (The requests that give a lease back answer a status whatever they find.)
-/
import KuttiDB.Server.SingleFlight
import KuttiDB.Server.Wire

namespace KuttiDB.Server

open KuttiDB.QueueStore
open KuttiDB.Theory
open KuttiDB.Wire (Call Engine Got Resolved Asks)

set_option autoImplicit false

/-! ## The shared state as an engine -/

def found : Option Bytes → Got
  | some value => .hit value
  | none => .missed

def Resolution.resolved : Resolution → Resolved
  | .negative => .negative
  | .free => .settled
  | .refused => .refused
  | .registered => .deferred

/-- What an operation of connection `conn` returns. Those of other families are left to `other`. -/
def performed (other : Engine) (conn : ConnId) (s : Flight) (calls : List Call) : (c : Call) → c.Result
  | .get key now =>
    found (((s.cache key).filter (Cached.live (if now = 0 then s.nowSec else now))).map Cached.value)
  | .negativeCheck key => (negativeWalk s.nowMs key s.negatives).1
  | .claimGetOrCreate key _ => (if s.grants s.nowMs key then 1 else 0 : Int)
  | .waitRegistered => s.dead conn || s.registered conn
  | .resolveOrRegister key _ => (resolution key s).resolved
  | .anyStale => decide (0 < s.stale.length)
  | .staleServe key => (staleWalk s.nowMs key s.stale).1.map StaleEntry.value
  | .refreshDue key => refreshDue s.nowMs key s
  | c => other calls c

def afterCall (conn : ConnId) (s : Flight) : Call → Flight
  | .negativeCheck key => sfNegativeCheck s.nowMs key s
  | .negativeRecord key ttlMs => sfNegativeRecord s.nowMs key ttlMs s
  | .claimGetOrCreate key leaseMs => sfClaimGetOrCreateOwned s.nowMs (.wire conn) key leaseMs s
  | .claimRemove key => sfClaimRemoveOwned (.wire conn) key s
  | .resolveOrRegister key timeoutMs => sfResolveOrRegister conn key timeoutMs s
  | .staleServe key => sfStaleServe s.nowMs key s
  | _ => s

def afterCalls (conn : ConnId) (s : Flight) (calls : List Call) : Flight :=
  calls.foldl (afterCall conn) s

def flightEngine (other : Engine) (conn : ConnId) (s : Flight) : Engine :=
  fun calls c => performed other conn (afterCalls conn s calls) calls c

/-! ## Answers as bytes -/

def SfState.code : SfState → UInt8
  | .value => Wire.stateValue
  | .claimed => Wire.stateClaimed
  | .wait => Wire.stateWait
  | .negative => Wire.stateNegative
  | .released => Wire.stateReleased
  | .timeout => 0x05
  | .lost => 0x06
  | .stale => Wire.stateStale
  | .refresh => Wire.stateRefresh

/-- A deferred wait is answered later, and results of the management API do not go over the wire. -/
def Answer.bytes : Answer → Bytes
  | .status code => UInt8.ofNat code :: leBytes 4 0
  | .envelope state value =>
    0x00 :: leBytes 4 (1 + (value.getD []).length) ++ [state.code] ++ value.getD []
  | .refreshed state holder value =>
    0x00 :: leBytes 4 (2 + (value.getD []).length) ++ [state.code, if holder then 1 else 0] ++
      value.getD []
  | .deferred | .returned _ => []

theorem claimed_code {created : Prop} [Decidable created] {granted : Bool}
    (same : created ↔ granted = true) :
    (if created then Wire.stateClaimed else Wire.stateWait) =
      SfState.code (if granted then .claimed else .wait) := by
  rw [if_congr same rfl rfl]
  cases granted <;> rfl

/-! ## Operations -/

section Requests

variable {other : Engine} {conn : ConnId} {s t : Flight} {calls : List Call} {key arg : Bytes}

theorem asked (now : afterCalls conn s calls = t) (c : Call) :
    flightEngine other conn s calls c = performed other conn t calls c := by
  rw [flightEngine, now]

theorem next (now : afterCalls conn s calls = t) (c : Call) :
    afterCalls conn s (calls ++ [c]) = afterCall conn t c := by
  rw [afterCalls, List.foldl_append]
  exact congrArg (afterCall conn · c) now

theorem created_iff (now : afterCalls conn s calls = t) (leaseMs : Nat) :
    flightEngine other conn s calls (.claimGetOrCreate key leaseMs) = 1 ↔
      t.grants t.nowMs key = true := by
  rw [asked now]
  show (if _ then (1 : Int) else 0) = 1 ↔ _
  split <;> simp [*]

theorem acquire_alone (caller : Caller) (leaseMs : Nat) (next : Bool → Answer) :
    ((acquire caller key leaseMs fun created => .done (next created)).alone t).1 =
      next (t.grants t.nowMs key) := by
  simp only [acquire, getOrCreate, look, Flow.alone, id]
  by_cases granted : t.grants t.nowMs key = true
  · rw [if_pos granted, granted]
    rfl
  · rw [if_neg granted, (Bool.not_eq_true _).mp granted]
    rfl

theorem asked_get (now : afterCalls conn s calls = t) :
    flightEngine other conn s calls (.get key 0) = found (t.live? key) :=
  asked now (.get key 0)

/-- Both sides look for a negative answer first. -/
theorem negative_first {α : Type} (bytes : α → Bytes) {refused passed : Asks α} {refuse pass : Handler}
    (now : afterCalls conn s calls = t)
    (yes : bytes (refused (calls ++ [.negativeCheck key])).1 =
      (refuse.alone (sfNegativeCheck t.nowMs key t)).1.bytes)
    (no : ∀ u, afterCalls conn s (calls ++ [.negativeCheck key]) = u →
      bytes (passed (calls ++ [.negativeCheck key])).1 = (pass.alone u).1.bytes) :
    bytes (((flightEngine other conn s).ask (.negativeCheck key) >>= fun negative : Bool =>
      if negative then refused else passed) calls).1 =
      ((negativeCheck key fun negative => if negative then refuse else pass).alone t).1.bytes := by
  have walked : flightEngine other conn s calls (.negativeCheck key) =
      (negativeWalk t.nowMs key t.negatives).1 := asked now _
  simp only [negativeCheck, look, Flow.alone, id]
  rw [Wire.ask_bind]
  by_cases negative : (negativeWalk t.nowMs key t.negatives).1 = true
  · rw [if_pos (walked.trans negative), if_pos negative, yes]
  · rw [if_neg (walked ▸ negative), if_neg negative, no _ (next now _)]
    rfl

/-! ## Requests -/

theorem getOrClaim_bytes (four : arg.length = 4) :
    (Wire.getOrClaim (flightEngine other conn s) key arg calls).1.bytes =
      ((getOrClaim conn key (leNat arg)).alone (afterCalls conn s calls)).1.bytes := by
  unfold Wire.getOrClaim Server.getOrClaim
  by_cases long : sfLeaseMaxMs < leNat arg
  · rw [if_pos (.inr long), if_pos long]
    rfl
  rw [if_neg (by rintro (short | above); exacts [short four, long above]), if_neg long]
  refine negative_first Wire.Piece.bytes rfl rfl fun u checked => ?_
  rw [Wire.ask_bind, asked_get checked]
  simp only [look, Flow.alone, id]
  cases u.live? key with
  | some value => rfl
  | none =>
    rw [acquire_alone]
    exact congrArg (fun code => (Wire.envelope code).bytes)
      (claimed_code (created_iff (next checked (.get key 0)) _))

theorem waitForKey_bytes (four : arg.length = 4) :
    (Wire.waitForKey (flightEngine other conn s) key arg calls).1.flatMap Wire.Piece.bytes =
      ((waitForKey conn key (leNat arg)).alone (afterCalls conn s calls)).1.bytes := by
  unfold Wire.waitForKey Server.waitForKey
  generalize now : afterCalls conn s calls = t
  rw [if_neg (not_not.mpr four), Wire.ask_bind, asked now]
  simp only [look, Flow.alone, id]
  by_cases registered : t.dead conn ∨ t.registered conn
  · rw [if_pos (by simpa [performed] using registered), if_pos registered]
    rfl
  rw [if_neg (by simpa [performed] using registered), if_neg registered]
  by_cases long : leNat arg = 0 ∨ sfWaitMaxMs < leNat arg
  · rw [if_pos (by exact long), if_pos long]
    rfl
  have later := next now .waitRegistered
  have resolved : flightEngine other conn s (calls ++ [.waitRegistered])
      (.resolveOrRegister key (leNat arg)) = (resolution key t).resolved := asked later _
  rw [if_neg (by exact long), if_neg long, Wire.ask_bind, resolved]
  simp only [Flow.alone]
  cases resolution key t with
  | negative | refused | registered => rfl
  | free =>
    simp only [Flow.alone, id, Resolution.resolved]
    rw [Wire.ask_bind, asked_get (next later _)]
    simp only [afterCall]
    cases (sfResolveOrRegister conn key (leNat arg) t).live? key with
    | some value => exact List.append_nil _
    | none => rfl

/-- A value that is there, and whether it is to be loaded again. -/
def hitAnswer (key value : Bytes) (s : Flight) : Answer :=
  if 0 < s.stale.length ∧ refreshDue s.nowMs key s then
    .refreshed .refresh (s.grants s.nowMs key) (some value)
  else .refreshed .value false (some value)

theorem refreshHit_bytes (now : afterCalls conn s calls = t) (leaseMs : Nat) (value : Bytes) :
    (Wire.refreshHit (flightEngine other conn s) key leaseMs value calls).1.bytes =
      (hitAnswer key value t).bytes := by
  unfold Wire.refreshHit
  rw [Wire.ask_bind, asked now]
  by_cases some_ : 0 < t.stale.length
  · have later := next now .anyStale
    rw [if_pos (by exact decide_eq_true some_), Wire.ask_bind, asked later]
    dsimp only
    by_cases due : refreshDue t.nowMs key t = true
    · rw [if_pos (by exact due), hitAnswer, if_pos ⟨some_, due⟩, Wire.ask_bind]
      exact congrArg (fun holder => (Wire.Reply.refreshed true holder value).bytes)
        (Bool.eq_iff_iff.mpr (decide_eq_true_iff.trans (created_iff (next later (.refreshDue key)) leaseMs)))
    · rw [if_neg (by exact due), hitAnswer, if_neg fun both => due both.2]
      rfl
  · rw [if_neg (by simpa [performed] using some_), hitAnswer, if_neg fun both => some_ both.1]
    rfl

/-- Without a value: the retained copy if there is one, and the lease. -/
def missAnswer (key : Bytes) (s : Flight) : Answer :=
  match if 0 < s.stale.length then (staleWalk s.nowMs key s.stale).1 else none with
  | some e => .refreshed .stale (s.grants s.nowMs key) (some e.value)
  | none => .refreshed (if s.grants s.nowMs key then .claimed else .wait) false none

theorem refreshMiss_bytes (now : afterCalls conn s calls = t) (leaseMs : Nat) :
    (Wire.refreshMiss (flightEngine other conn s) key leaseMs false calls).1.bytes =
      (missAnswer key t).bytes := by
  unfold Wire.refreshMiss
  rw [if_neg Bool.false_ne_true, Wire.ask_bind, asked now]
  dsimp only
  have later := next now .anyStale
  by_cases some_ : 0 < t.stale.length
  · have walked : flightEngine other conn s (calls ++ [.anyStale]) (.staleServe key) =
      (staleWalk t.nowMs key t.stale).1.map StaleEntry.value := asked later _
    rw [if_pos (by exact decide_eq_true some_), Wire.ask_bind, walked, missAnswer, if_pos some_,
      Wire.ask_bind]
    have created : flightEngine other conn s _ (.claimGetOrCreate key leaseMs) = 1 ↔
        t.grants t.nowMs key = true := created_iff (next later (.staleServe key)) leaseMs
    cases (staleWalk t.nowMs key t.stale).1 with
    | some e =>
      exact congrArg (fun holder => (Wire.Piece.headed 0 [Wire.stateStale, holder] e.value).bytes)
        (if_congr created rfl rfl)
    | none =>
      exact congrArg (fun code => (Wire.Piece.whole (0 :: leBytes 4 2 ++ [code, 0])).bytes)
        (claimed_code created)
  · rw [if_neg (by simpa [performed] using some_), missAnswer, if_neg some_]
    exact congrArg (fun code => (Wire.Piece.whole (0 :: leBytes 4 2 ++ [code, 0])).bytes)
      (claimed_code (created_iff later leaseMs))

theorem getOrRefresh_bytes (four : arg.length = 4) :
    (Wire.getOrRefresh (flightEngine other conn s) key arg calls).1.bytes =
      ((getOrRefresh conn key (leNat arg)).alone (afterCalls conn s calls)).1.bytes := by
  unfold Wire.getOrRefresh Server.getOrRefresh
  by_cases long : sfLeaseMaxMs < leNat arg
  · rw [if_pos (.inr long), if_pos long]
    rfl
  rw [if_neg (by rintro (short | above); exacts [short four, long above]), if_neg long]
  refine negative_first Wire.Reply.bytes rfl rfl fun u checked => ?_
  rw [Wire.ask_bind, asked_get checked]
  have got : afterCalls conn s (calls ++ [.negativeCheck key] ++ [.get key 0]) = u := next checked _
  simp only [look, Flow.alone, id]
  cases u.live? key with
  | some value =>
    refine (refreshHit_bytes got _ value).trans (congrArg Answer.bytes ?_)
    unfold hitAnswer
    by_cases some_ : 0 < u.stale.length
    · by_cases due : refreshDue u.nowMs key u = true
      · simp only [some_, due, and_self, if_true, Flow.alone, id, acquire_alone]
      · simp only [some_, due, and_false, if_true, if_false, Flow.alone, id, Bool.false_eq_true]
    · simp only [some_, false_and, if_false, Flow.alone]
  | none =>
    refine (refreshMiss_bytes got _).trans (congrArg Answer.bytes ?_)
    unfold missAnswer
    by_cases some_ : 0 < u.stale.length
    · simp only [some_, if_true, Flow.alone, id]
      cases (staleWalk u.nowMs key u.stale).1 <;>
      · simp only [acquire_alone]
        rfl
    · simp only [some_, if_false, Flow.alone, id, acquire_alone]

end Requests

end KuttiDB.Server
