/- # KuttiDB.Server.SingleFlight -- leases, waiters, negative answers and stale copies

The single-flight registry of the server beside the cache it protects: leases (`Claim`), deferred
waits (`Waiter`) and the wake nodes that answer them, negative answers and the stale copies of
`PUT_SWR`. Every request is a `Flow` of atomic sections: one per critical section of `g_sf_mu` or of
a cache shard, one per lock-free read. A worker is an event loop, the owner token of a management
claim, or the maintenance thread.

What is left out: the ordering lock of the cache log (the flows interleave at least as much without
it), allocation failures, and the framing of requests. The outcome of a log append is an argument of
the request. The lists of the source are prepended to, so the head of a list is the newest node; the
wake lists of all loops are one list, of which a loop sees its own nodes.

`Trace` is not in the source. It records what the statements about runs speak of: which write a
stale copy came from, who was told that it holds a lease, and where each registered wait has gone.
-/
import KuttiDB.Cache.Local
import KuttiDB.Theory.Keyed
import KuttiDB.Theory.Workers

namespace KuttiDB.Server

open KuttiDB.QueueStore
open KuttiDB.Theory

set_option autoImplicit false

/-! ## The registry -/

abbrev Key := Bytes

/-- A connection and the event loop it lives on. -/
structure ConnId where
  loop : Nat
  id : Nat
  deriving DecidableEq, Repr

/-- Who asks for a lease. All wire clients share the owner number 0. -/
inductive Caller where
  | wire (conn : ConnId)
  | admin (owner : Nat)
  deriving DecidableEq, Repr

def Caller.owner : Caller → Nat
  | .wire _ => 0
  | .admin owner => owner

inductive Worker where
  | loop (l : Nat)
  | admin (owner : Nat)
  | house
  deriving DecidableEq, Repr

def Caller.worker : Caller → Worker
  | .wire conn => .loop conn.loop
  | .admin owner => .admin owner

inductive SfState where
  | value | claimed | wait | negative | released | timeout | lost | stale | refresh
  deriving DecidableEq, Repr

def sfLeaseMaxMs : Nat := 60000
def sfWaitMaxMs : Nat := 60000
def sfNegativeMax : Nat := 4096
def sfWaitersPerKeyMax : Nat := 256
def sfStaleMax : Nat := 4096
def sfStaleBytesMax : Nat := 32 * 2 ^ 20
def sfStaleWindowMaxMs : Nat := 7 * 24 * 3600 * 1000

/-- A lease. The source keeps `caller.owner`; the caller itself is what it was created for. -/
structure Claim where
  key : Key
  deadlineMs : Nat
  caller : Caller
  completing : Bool
  deriving DecidableEq, Repr

/-- A deferred wait. `ticket` numbers the registrations. -/
structure Waiter where
  key : Key
  conn : ConnId
  deadlineMs : Nat
  ticket : Nat
  deriving DecidableEq, Repr

structure WaiterWake where
  conn : ConnId
  key : Option Key
  state : SfState
  ticket : Nat
  deriving DecidableEq, Repr

/-- A negative answer. `recorded` counts the writes of the key it came after. -/
structure NegEntry where
  key : Key
  deadlineMs : Nat
  recorded : Nat
  deriving DecidableEq, Repr

/-- A stale copy. `version` is the write of the key it copies. -/
structure StaleEntry where
  key : Key
  value : Bytes
  untilMs : Nat
  writtenMs : Nat
  refreshMs : Nat
  version : Nat
  deriving DecidableEq, Repr

def StaleEntry.size (e : StaleEntry) : Nat := 64 + e.key.length + e.value.length

structure Cached where
  value : Bytes
  exp : Nat
  deriving DecidableEq, Repr

/-- The lease of a key, as it was given to a caller. -/
structure Holding where
  caller : Caller
  key : Key
  deadlineMs : Nat
  deriving DecidableEq, Repr

structure Trace where
  /-- the writes and deletes of a key that took effect and were not lost by the log -/
  version : Key → Nat := fun _ => 0
  /-- the last of them that has returned success -/
  succeeded : Key → Nat := fun _ => 0
  /-- keys answered with a copy older than a write that had succeeded -/
  outdated : List Key := []
  /-- the successful writes of a value, by key -/
  puts : Key → Nat := fun _ => 0
  /-- all leases that were ever created -/
  granted : List Holding := []
  /-- those that no request with their owner number has removed -/
  standing : List Holding := []
  /-- keys for which a lease was created while an unexpired one stood -/
  contested : List Key := []
  /-- leases told and not given back by the caller they were told to -/
  holdings : List Holding := []
  /-- keys whose lease was told to a caller while another one held it -/
  doubled : List Key := []
  tickets : Nat := 0
  /-- nodes a loop has taken off its wake list and not answered yet -/
  inHand : List WaiterWake := []
  answered : List Nat := []
  dropped : List Nat := []
  /-- waits still registered after the request that removed their lease had finished -/
  left : List Nat := []

structure Flight where
  nowMs : Nat
  nowSec : Nat
  maxClients : Nat
  cache : Key → Option Cached := fun _ => none
  claims : List Claim := []
  waiters : List Waiter := []
  wakes : List WaiterWake := []
  negatives : List NegEntry := []
  stale : List StaleEntry := []
  registered : ConnId → Bool := fun _ => false
  dead : ConnId → Bool := fun _ => false
  trace : Trace := {}

/-! ## Leases -/

/-- An expired lease that no completion has pinned. -/
def Claim.dead (now : Nat) (c : Claim) : Bool := c.deadlineMs ≤ now && !c.completing

/-- The walk of `sf_claim_get_or_create_owned`: expired leases on the way are dropped, a live one of
the key ends it. -/
def claimWalk (now : Nat) (key : Key) : List Claim → Bool × List Claim
  | [] => (false, [])
  | c :: rest =>
      if c.dead now then claimWalk now key rest
      else if c.key = key then (true, c :: rest)
      else ((claimWalk now key rest).1, c :: (claimWalk now key rest).2)

def Flight.grants (now : Nat) (key : Key) (s : Flight) : Bool := !(claimWalk now key s.claims).1

/-- The trace of a new lease. -/
def Trace.grant (trace : Trace) (nowMs : Nat) (h : Holding) : Trace :=
  let another := trace.standing.any fun k => k.key = h.key && nowMs < k.deadlineMs
  { trace with
    granted := h :: trace.granted
    standing := h :: trace.standing
    contested := if another then h.key :: trace.contested else trace.contested }

def sfClaimGetOrCreateOwned (now : Nat) (caller : Caller) (key : Key) (leaseMs : Nat)
    (s : Flight) : Flight :=
  let walked := (claimWalk now key s.claims).2
  if s.grants now key then
    { s with
      claims := ⟨key, now + leaseMs, caller, false⟩ :: walked
      trace := s.trace.grant s.nowMs ⟨caller, key, now + leaseMs⟩ }
  else { s with claims := walked }

inductive RemoveCode where
  | removed | absent | foreign
  deriving DecidableEq, Repr

def removeCode (key : Key) (owner : Nat) (claims : List Claim) : RemoveCode :=
  match claims.find? (fun c => c.key = key) with
  | none => .absent
  | some c => if c.caller.owner = owner then .removed else .foreign

/-- Removes the first lease of the key if the owner numbers agree; nothing is said about its expiry. -/
def sfClaimRemoveOwned (caller : Caller) (key : Key) (s : Flight) : Flight :=
  { s with
    claims := if removeCode key caller.owner s.claims = .removed
      then s.claims.eraseP (fun c => c.key = key) else s.claims
    trace := { s.trace with
      standing := s.trace.standing.filter
        (fun h => !(h.caller.owner = caller.owner && h.key = key))
      holdings := s.trace.holdings.filter (fun h => !(h.caller = caller && h.key = key)) } }

/-- Only the first lease of the key is looked at. -/
def pinnable (now : Nat) (key : Key) (owner : Nat) (claims : List Claim) : Bool :=
  match claims.find? (fun c => c.key = key) with
  | none => false
  | some c => c.caller.owner = owner && now < c.deadlineMs && !c.completing

def pin (key : Key) (claims : List Claim) : List Claim :=
  updateFirst (fun c => c.key = key) (fun c => { c with completing := true }) claims

def sfClaimBeginCompleteOwned (now : Nat) (caller : Caller) (key : Key) (s : Flight) : Flight :=
  { s with claims :=
      if pinnable now key caller.owner s.claims then pin key s.claims else s.claims }

/-! ## Waiters -/

/-- Moves the chosen waiters to the wake lists of their loops. -/
def Flight.rouse (s : Flight) (chosen : Waiter → Bool) (node : Waiter → WaiterWake) : Flight :=
  { s with
    waiters := s.waiters.filter (fun w => !chosen w)
    wakes := (s.waiters.filter chosen).map node ++ s.wakes }

def sfWakeWaiters (key : Key) (state : SfState) (s : Flight) : Flight :=
  s.rouse (fun w => w.key = key) (fun w => ⟨w.conn, some key, state, w.ticket⟩)

def sfSweep (now : Nat) (s : Flight) : Flight :=
  { s.rouse (fun w => w.deadlineMs ≤ now) (fun w => ⟨w.conn, none, .timeout, w.ticket⟩) with
    negatives := s.negatives.filter (fun n => now < n.deadlineMs)
    stale := s.stale.filter (fun e => now < e.untilMs) }

/-- `sf_waiter_detach` and the end of `close_conn`: one waiter and all wake nodes of the connection
go. Both run on the connection's own loop, the only one that reads its flags. -/
def closeConn (conn : ConnId) (s : Flight) : Flight :=
  if s.registered conn then
    { s with
      waiters := s.waiters.eraseP (fun w => w.conn = conn)
      wakes := s.wakes.filter (fun n => n.conn ≠ conn)
      registered := Function.update s.registered conn false
      dead := Function.update s.dead conn true
      trace := { s.trace with dropped :=
        (s.waiters.filter (fun w => w.conn = conn)).map Waiter.ticket ++
          (s.wakes.filter (fun n => n.conn = conn)).map WaiterWake.ticket ++ s.trace.dropped } }
  else { s with dead := Function.update s.dead conn true }

def takeWakes (l : Nat) (s : Flight) : Flight :=
  { s with
    wakes := s.wakes.filter (fun n => n.conn.loop ≠ l)
    trace := { s.trace with
      inHand := s.wakes.filter (fun n => n.conn.loop = l) ++ s.trace.inHand } }

/-- One turn of the loop in `sf_drain_wakes`. The flag `wait_registered` is left as it is. -/
def answerWake (n : WaiterWake) (s : Flight) : Flight :=
  { s with trace :=
      if s.dead n.conn then
        { s.trace with inHand := s.trace.inHand.erase n, dropped := n.ticket :: s.trace.dropped }
      else
        { s.trace with inHand := s.trace.inHand.erase n, answered := n.ticket :: s.trace.answered } }

/-! ## Negative answers and stale copies -/

/-- Expired entries on the way are dropped, a match ends the walk. -/
def negativeWalk (now : Nat) (key : Key) : List NegEntry → Bool × List NegEntry
  | [] => (false, [])
  | n :: rest =>
      if n.deadlineMs ≤ now then negativeWalk now key rest
      else if n.key = key then (true, n :: rest)
      else ((negativeWalk now key rest).1, n :: (negativeWalk now key rest).2)

def sfNegativeCheck (now : Nat) (key : Key) (s : Flight) : Flight :=
  { s with negatives := (negativeWalk now key s.negatives).2 }

def sfNegativeRecord (now : Nat) (key : Key) (ttlMs : Nat) (s : Flight) : Flight :=
  let e : NegEntry := ⟨key, now + (if ttlMs = 0 then 60000 else ttlMs), s.trace.puts key⟩
  { s with negatives :=
      if s.negatives.any (fun n => n.key = key) then
        updateFirst (fun n => n.key = key) (fun _ => e) s.negatives
      else if sfNegativeMax ≤ s.negatives.length then s.negatives
      else e :: s.negatives }

def staleBytes (stale : List StaleEntry) : Nat := (stale.map StaleEntry.size).sum

def sfStaleStore (now : Nat) (key : Key) (value : Bytes) (ttlMs staleMs refreshMs version : Nat)
    (s : Flight) : Flight :=
  let kept := s.stale.filter (fun e => now < e.untilMs && e.key ≠ key)
  let e : StaleEntry := ⟨key, value, now + ttlMs + staleMs, now, refreshMs, version⟩
  { s with stale :=
      if sfStaleMax ≤ kept.length ∨ sfStaleBytesMax < staleBytes kept + e.size then kept
      else e :: kept }

def staleWalk (now : Nat) (key : Key) : List StaleEntry → Option StaleEntry × List StaleEntry
  | [] => (none, [])
  | e :: rest =>
      if e.untilMs ≤ now then staleWalk now key rest
      else if e.key = key then (some e, e :: rest)
      else ((staleWalk now key rest).1, e :: (staleWalk now key rest).2)

def sfStaleServe (now : Nat) (key : Key) (s : Flight) : Flight :=
  let old := match (staleWalk now key s.stale).1 with
    | none => false
    | some e => e.version < s.trace.succeeded key
  { s with
    stale := (staleWalk now key s.stale).2
    trace := { s.trace with outdated := if old then key :: s.trace.outdated else s.trace.outdated } }

def sfStaleDrop (key : Key) (s : Flight) : Flight :=
  { s with stale := s.stale.eraseP (fun e => e.key = key) }

def refreshDue (now : Nat) (key : Key) (s : Flight) : Bool :=
  match s.stale.find? (fun e => e.key = key) with
  | none => false
  | some e => e.refreshMs ≠ 0 && e.writtenMs + e.refreshMs ≤ now

/-! ## The cache -/

def Cached.live (now : Nat) (c : Cached) : Bool := c.exp = 0 || now < c.exp

def Flight.live? (s : Flight) (key : Key) : Option Bytes :=
  ((s.cache key).filter (Cached.live s.nowSec)).map Cached.value

def Flight.setCache (s : Flight) (key : Key) (entry : Option Cached) : Flight :=
  { s with cache := Function.update s.cache key entry }

/-- A write or delete that will return success takes effect. -/
def Flight.bump (s : Flight) (key : Key) (puts : Bool) : Flight :=
  { s with trace := { s.trace with
      version := Function.update s.trace.version key (s.trace.version key + 1)
      puts := if puts then Function.update s.trace.puts key (s.trace.puts key + 1)
        else s.trace.puts } }

def succeed (key : Key) (version : Nat) (s : Flight) : Flight :=
  { s with trace := { s.trace with
      succeeded := Function.update s.trace.succeeded key
        (max (s.trace.succeeded key) version) } }

/-- How the log takes a write: nothing happens, the value is in the cache and the append fails, or
all goes well. -/
inductive Outcome where
  | refused | unlogged | done
  deriving DecidableEq, Repr

/-! ## Requests -/

/-- The sections that conditions on runs speak about. -/
inductive Site where
  | plain
  /-- `sf_claim_remove`; `failed` after a completion whose write failed -/
  | remove (caller : Caller) (key : Key) (failed : Bool)
  | drain (l : Nat)
  /-- `kuttidb_put_abs` of a write that succeeds -/
  | put (key : Key)
  | delete (key : Key)
  | commit (key : Key) (puts : Bool)
  | retain (key : Key) (version : Nat)

inductive Answer where
  | status (code : Nat)
  | envelope (state : SfState) (value : Option Bytes)
  | refreshed (state : SfState) (holder : Bool) (value : Option Bytes)
  | deferred
  | returned (code : Int)
  deriving DecidableEq, Repr

/-- The answer says that the caller has the lease now. -/
def Answer.holds : Answer → Bool
  | .envelope state _ => state = .claimed
  | .refreshed state holder _ => holder || state = .claimed
  | .returned code => code = 1
  | _ => false

abbrev Handler := Flow Flight Site Answer

def look (next : Flight → Handler) : Handler := .step .plain id next

def change (effect : Flight → Flight) (next : Handler) : Handler :=
  .step .plain effect (fun _ => next)

/-- The lock-free test of `g_sf_waiters`, then `sf_wake_waiters`. -/
def wakeWaiters (key : Key) (state : SfState) (next : Handler) : Handler :=
  look fun s => if 0 < s.waiters.length then change (sfWakeWaiters key state) next else next

/-- The lock-free test of `g_sf_stale`, then `sf_stale_drop`. -/
def dropStale (key : Key) (next : Handler) : Handler :=
  look fun s => if 0 < s.stale.length then change (sfStaleDrop key) next else next

/-- `persist_put`; `next` gets the number of a successful write. -/
def persistPut (outcome : Outcome) (key : Key) (value : Bytes) (ttlMs : Nat)
    (next : Option Nat → Handler) : Handler :=
  look fun s =>
    let entry : Cached := ⟨value, Cache.expiryFromTtl s.nowSec ttlMs⟩
    match outcome with
    | .refused => next none
    | .unlogged => change (fun s => s.setCache key (some entry)) (next none)
    | .done =>
        .step (.put key) (fun s => (s.setCache key (some entry)).bump key true) fun s =>
          let version := s.trace.version key + 1
          wakeWaiters key .value (dropStale key (change (succeed key version) (next (some version))))

/-- Only the delete of an entry is logged, so only that one can be lost. -/
def deleteEffect (outcome : Outcome) (key : Key) (s : Flight) : Flight :=
  if outcome = .unlogged ∧ (s.cache key).isSome then s.setCache key none
  else (s.setCache key none).bump key false

/-- `persist_delete`. A key that is not in the cache is neither logged nor dropped from the stale
copies. -/
def persistDelete (outcome : Outcome) (key : Key) (next : Int → Handler) : Handler :=
  if outcome = .refused then next (-1)
  else
    .step (.delete key) (deleteEffect outcome key) fun s =>
      let version := s.trace.version key + 1
      if (s.cache key).isNone then change (succeed key version) (next 0)
      else if outcome = .unlogged then next (-1)
      else dropStale key (change (succeed key version) (next 1))

/-- A value whose time ran out before the commit is not put into the cache. -/
def commitEffect (key : Key) (value : Option Bytes) (exp : Nat) (s : Flight) : Flight :=
  match value with
  | none => (s.setCache key none).bump key false
  | some value =>
      if exp ≠ 0 ∧ exp ≤ s.nowSec then s.bump key true
      else (s.setCache key (some ⟨value, exp⟩)).bump key true

/-- `persist_tx_commit`; `value` is none for a delete. The stale copies are not touched. -/
def persistTxCommit (outcome : Outcome) (key : Key) (value : Option Bytes) (ttlMs : Nat)
    (requireExists : Bool) (next : Int → Handler) : Handler :=
  look fun s =>
    let exp := Cache.expiryFromTtl s.nowSec ttlMs
    if outcome ≠ .done then next (-1)
    else
      look fun s =>
        if requireExists && (s.live? key).isNone then next (-2)
        else
          .step (.commit key value.isSome) (commitEffect key value exp) fun s =>
            let version := s.trace.version key + 1
            if value.isSome ∧ exp ≠ 0 ∧ exp ≤ s.nowSec then
              change (succeed key version) (next 0)
            else wakeWaiters key .value (change (succeed key version) (next 0))

/-- Creates a lease if none is live; `next` gets its deadline. -/
def getOrCreate (caller : Caller) (key : Key) (leaseMs : Nat) (next : Option Nat → Handler) :
    Handler :=
  look fun s =>
    let now := s.nowMs
    .step .plain (sfClaimGetOrCreateOwned now caller key leaseMs) fun s =>
      next (if s.grants now key then some (now + leaseMs) else none)

def tellHolder (caller : Caller) (key : Key) (deadlineMs : Nat) (s : Flight) : Flight :=
  let another := s.trace.holdings.any fun h =>
    h.key = key && h.caller ≠ caller && s.nowMs < h.deadlineMs
  { s with trace := { s.trace with
      holdings := ⟨caller, key, deadlineMs⟩ :: s.trace.holdings
      doubled := if another then key :: s.trace.doubled else s.trace.doubled } }

/-- A lease that the answer of the request gives out. -/
def acquire (caller : Caller) (key : Key) (leaseMs : Nat) (next : Bool → Handler) : Handler :=
  getOrCreate caller key leaseMs fun
    | none => next false
    | some deadline =>
        change (tellHolder caller key deadline) (next true)

/-- A lease that the answer of the request says nothing about. -/
def claimUnasked (caller : Caller) (key : Key) (leaseMs : Nat) (next : Handler) : Handler :=
  getOrCreate caller key leaseMs (fun _ => next)

def settle (owed : List Nat) (s : Flight) : Flight :=
  let left := owed.filter (fun k => k ∈ s.waiters.map Waiter.ticket)
  { s with trace := { s.trace with left := left ++ s.trace.left } }

/-- Removes the lease of the key and, where `wakes` says so, wakes its waiters; `failed` marks a
completion whose write failed. At the end the waits that lost their lease are looked up once more. -/
def removeThen (caller : Caller) (key : Key) (failed : Bool)
    (wakes : RemoveCode → Option SfState) (next : RemoveCode → Handler) : Handler :=
  .step (.remove caller key failed) (sfClaimRemoveOwned caller key) fun s =>
    let code := removeCode key caller.owner s.claims
    let owed := if code = .removed
      then (s.waiters.filter (fun w => w.key = key)).map Waiter.ticket else []
    match wakes code with
    | none => change (settle owed) (next code)
    | some state => wakeWaiters key state (change (settle owed) (next code))

def negativeCheck (key : Key) (next : Bool → Handler) : Handler :=
  look fun s =>
    let now := s.nowMs
    .step .plain (sfNegativeCheck now key) fun s => next (negativeWalk now key s.negatives).1

def negativeRecord (key : Key) (ttlMs : Nat) (next : Handler) : Handler :=
  look fun s => change (sfNegativeRecord s.nowMs key ttlMs) next

def leaseOr (leaseMs : Nat) : Nat := if leaseMs = 0 then sfLeaseMaxMs else leaseMs

def getOrClaim (conn : ConnId) (key : Key) (leaseMs : Nat) : Handler :=
  if sfLeaseMaxMs < leaseMs then .done (.status 2)
  else
    negativeCheck key fun negative =>
      if negative then .done (.envelope .negative none)
      else
        look fun s =>
          match s.live? key with
          | some value => .done (.envelope .value (some value))
          | none =>
              acquire (.wire conn) key (leaseOr leaseMs) fun created =>
                .done (.envelope (if created then .claimed else .wait) none)

inductive Resolution where
  | negative | free | refused | registered
  deriving DecidableEq, Repr

def Flight.holdsLease (s : Flight) (key : Key) : Bool :=
  s.claims.any (fun c => !c.dead s.nowMs && c.key = key)

/-- What `sf_resolve_or_register` does under the lock. -/
def resolution (key : Key) (s : Flight) : Resolution :=
  if !s.holdsLease key then
    if (negativeWalk s.nowMs key s.negatives).1 then .negative else .free
  else if s.maxClients ≤ s.waiters.length then .refused
  else if sfWaitersPerKeyMax ≤ (s.waiters.filter (fun w => w.key = key)).length then .refused
  else .registered

def register (conn : ConnId) (key : Key) (timeoutMs : Nat) (s : Flight) : Flight :=
  { s with
    waiters := ⟨key, conn, s.nowMs + timeoutMs, s.trace.tickets⟩ :: s.waiters
    registered := Function.update s.registered conn true
    trace := { s.trace with tickets := s.trace.tickets + 1 } }

/-- What the walks of `sf_resolve_or_register` drop on their way. -/
def prune (key : Key) (s : Flight) : Flight :=
  { s with
    claims := s.claims.filter (fun c => !c.dead s.nowMs)
    negatives :=
      if s.holdsLease key then s.negatives.filter (fun n => s.nowMs < n.deadlineMs)
      else (negativeWalk s.nowMs key s.negatives).2 }

def sfResolveOrRegister (conn : ConnId) (key : Key) (timeoutMs : Nat) (s : Flight) : Flight :=
  if resolution key s = .registered then register conn key timeoutMs (prune key s)
  else prune key s

def waitForKey (conn : ConnId) (key : Key) (timeoutMs : Nat) : Handler :=
  look fun s =>
    if s.dead conn ∨ s.registered conn then .done (.status 2)
    else if timeoutMs = 0 ∨ sfWaitMaxMs < timeoutMs then .done (.status 2)
    else
      .step .plain (sfResolveOrRegister conn key timeoutMs) fun s =>
        match resolution key s with
        | .negative => .done (.envelope .negative none)
        | .refused => .done (.status 2)
        | .registered => .done .deferred
        | .free =>
            look fun s =>
              match s.live? key with
              | some value => .done (.envelope .value (some value))
              | none => .done (.envelope .released none)

def putAndRelease (conn : ConnId) (outcome : Outcome) (key : Key) (ttlMs : Nat) (negative : Bool)
    (value : Bytes) : Handler :=
  if negative then
    negativeRecord key ttlMs (removeThen (.wire conn) key false (fun _ => some .negative)
      (fun _ => .done (.status 0)))
  else
    persistPut outcome key value ttlMs fun
      | none => .done (.status 2)
      | some _ =>
          removeThen (.wire conn) key false (fun _ => some .value) (fun _ => .done (.status 0))

def releaseClaim (conn : ConnId) (key : Key) : Handler :=
  removeThen (.wire conn) key false (fun _ => some .released) (fun _ => .done (.status 0))

/-- A fresh hit is answered with the value, a miss with the stale copy if there is one and with the
lease machinery otherwise. After a negative answer the lease is created all the same. -/
def getOrRefresh (conn : ConnId) (key : Key) (leaseMs : Nat) : Handler :=
  let miss : Handler := acquire (.wire conn) key (leaseOr leaseMs) fun created =>
    .done (.refreshed (if created then .claimed else .wait) false none)
  if sfLeaseMaxMs < leaseMs then .done (.status 2)
  else
    negativeCheck key fun negative =>
      if negative then
        claimUnasked (.wire conn) key (leaseOr leaseMs) (.done (.refreshed .negative false none))
      else
        look fun s =>
          match s.live? key with
          | some value =>
              look fun s =>
                if 0 < s.stale.length then
                  look fun s =>
                    if refreshDue s.nowMs key s then
                      acquire (.wire conn) key (leaseOr leaseMs) fun holder =>
                        .done (.refreshed .refresh holder (some value))
                    else .done (.refreshed .value false (some value))
                else .done (.refreshed .value false (some value))
          | none =>
              look fun s =>
                if 0 < s.stale.length then
                  look fun s =>
                    let now := s.nowMs
                    .step .plain (sfStaleServe now key) fun s =>
                      match (staleWalk now key s.stale).1 with
                      | some e =>
                          acquire (.wire conn) key (leaseOr leaseMs) fun holder =>
                            .done (.refreshed .stale holder (some e.value))
                      | none => miss
                else miss

def putSwr (outcome : Outcome) (key : Key) (value : Bytes) (ttlMs staleMs refreshMs : Nat) :
    Handler :=
  if ttlMs = 0 ∨ staleMs = 0 ∨ sfStaleWindowMaxMs < staleMs ∨ sfStaleWindowMaxMs < refreshMs then
    .done (.status 2)
  else
    persistPut outcome key value ttlMs fun
      | none => .done (.status 2)
      | some version =>
          look fun s =>
            .step (.retain key version)
              (sfStaleStore s.nowMs key value ttlMs staleMs refreshMs version)
              (fun _ => .done (.status 0))

def adminKeyspaceClaimAcquire (owner : Nat) (key : Key) (leaseMs : Nat) : Handler :=
  if key = [] ∨ owner = 0 ∨ leaseMs = 0 ∨ sfLeaseMaxMs < leaseMs then .done (.returned (-1))
  else acquire (.admin owner) key leaseMs fun created => .done (.returned (if created then 1 else 0))

def RemoveCode.code : RemoveCode → Int
  | .removed => 1
  | .absent => 0
  | .foreign => -2

def adminKeyspaceClaimRelease (owner : Nat) (key : Key) : Handler :=
  removeThen (.admin owner) key false (fun code => if code = .removed then some .released else none)
    (fun code => .done (.returned code.code))

def adminKeyspaceClaimComplete (owner : Nat) (outcome : Outcome) (key : Key) (value : Bytes)
    (ttlMs : Nat) (negative : Bool) : Handler :=
  let finish (failed : Bool) : Handler :=
    removeThen (.admin owner) key failed
      (fun code => if failed ∨ code ≠ .removed then none
        else some (if negative then .negative else .value))
      (fun code => .done (.returned (if failed ∨ code ≠ .removed then -1 else 1)))
  look fun s =>
    let now := s.nowMs
    .step .plain (sfClaimBeginCompleteOwned now (.admin owner) key) fun s =>
      if !pinnable now key owner s.claims then .done (.returned 0)
      else if negative then negativeRecord key ttlMs (finish false)
      else persistPut outcome key value ttlMs (fun written => finish written.isNone)

/-! ## Who calls what -/

/-- The writes that any client and the management API can make. -/
inductive WriteRequest where
  | put (outcome : Outcome) (key : Key) (value : Bytes) (ttlMs : Nat)
  | delete (outcome : Outcome) (key : Key)
  | atomic (outcome : Outcome) (key : Key) (value : Option Bytes) (ttlMs : Nat)
      (requireExists : Bool)
  | swr (outcome : Outcome) (key : Key) (value : Bytes) (ttlMs staleMs refreshMs : Nat)

def WriteRequest.handler : WriteRequest → Handler
  | .put outcome key value ttlMs =>
      persistPut outcome key value ttlMs fun written =>
        .done (.status (if written.isSome then 0 else 2))
  | .delete outcome key => persistDelete outcome key fun found => .done (.returned found)
  | .atomic outcome key value ttlMs requireExists =>
      persistTxCommit outcome key value ttlMs requireExists fun code => .done (.returned code)
  | .swr outcome key value ttlMs staleMs refreshMs =>
      putSwr outcome key value ttlMs staleMs refreshMs

inductive WireRequest where
  | write (request : WriteRequest)
  | getOrClaim (key : Key) (leaseMs : Nat)
  | waitForKey (key : Key) (timeoutMs : Nat)
  | putAndRelease (outcome : Outcome) (key : Key) (ttlMs : Nat) (negative : Bool) (value : Bytes)
  | releaseClaim (key : Key)
  | getOrRefresh (key : Key) (leaseMs : Nat)
  | close

def WireRequest.handler (conn : ConnId) : WireRequest → Handler
  | .write request => request.handler
  | .getOrClaim key leaseMs => Server.getOrClaim conn key leaseMs
  | .waitForKey key timeoutMs => Server.waitForKey conn key timeoutMs
  | .putAndRelease outcome key ttlMs negative value =>
      Server.putAndRelease conn outcome key ttlMs negative value
  | .releaseClaim key => Server.releaseClaim conn key
  | .getOrRefresh key leaseMs => Server.getOrRefresh conn key leaseMs
  | .close => change (closeConn conn) (.done (.status 0))

inductive AdminClaimRequest where
  | acquire (key : Key) (leaseMs : Nat)
  | release (key : Key)
  | complete (outcome : Outcome) (key : Key) (value : Bytes) (ttlMs : Nat) (negative : Bool)

def AdminClaimRequest.handler (owner : Nat) : AdminClaimRequest → Handler
  | .acquire key leaseMs => adminKeyspaceClaimAcquire owner key leaseMs
  | .release key => adminKeyspaceClaimRelease owner key
  | .complete outcome key value ttlMs negative =>
      adminKeyspaceClaimComplete owner outcome key value ttlMs negative

def answerEach : List WaiterWake → Handler
  | [] => .done (.status 0)
  | n :: rest => change (answerWake n) (answerEach rest)

def sfDrainWakes (l : Nat) : Handler :=
  .step (.drain l) (takeWakes l) fun s => answerEach (s.wakes.filter (fun n => n.conn.loop = l))

/-- The maintenance thread and what happens without a request: the clocks, and entries that leave
the cache by eviction, by a sweep or on a read. -/
inductive HouseTurn where
  | sweep
  | evict (key : Key)
  | tick (ms sec : Nat)
  | write (request : WriteRequest)

def HouseTurn.handler : HouseTurn → Handler
  | .sweep =>
      look fun s =>
        if s.waiters = [] ∧ s.negatives = [] ∧ s.stale = [] then .done (.status 0)
        else change (sfSweep s.nowMs) (.done (.status 0))
  | .evict key => change (fun s => s.setCache key none) (.done (.status 0))
  | .tick ms sec =>
      change (fun s => { s with nowMs := s.nowMs + ms, nowSec := s.nowSec + sec })
        (.done (.status 0))
  | .write request => request.handler

/-- The calls of each worker: a loop serves its connections and drains its wakes, the requests about
one management claim follow each other. -/
def calls : Worker → Set Handler
  | .loop l => {p | (∃ conn : ConnId, conn.loop = l ∧ ∃ r : WireRequest, p = r.handler conn) ∨
      p = sfDrainWakes l}
  | .admin owner => {p | ∃ r : AdminClaimRequest, p = r.handler owner}
  | .house => {p | ∃ h : HouseTurn, p = h.handler}

/-- A server that has just started. -/
def Flight.start (maxClients : Nat) : Flight := { nowMs := 0, nowSec := 0, maxClients }

/-- Any section may be entered at any time. -/
def anytime : Site → Flight → Prop := fun _ _ => True

instance (site : Site) (s : Flight) : Decidable (anytime site s) := .isTrue trivial

abbrev ServerCrew := Crew Worker Flight Site Answer

/-- The worlds that interleavings of requests reach, every section entered where `meets` allows. -/
def Reached (maxClients : Nat) (meets : Site → Flight → Prop) (w : ServerCrew) : Prop :=
  Crew.Runs calls meets (Crew.idle (Flight.start maxClients) (.status 0)) w

end KuttiDB.Server
