/- # KuttiDB.Server.Sections -- from the sections of the registry to its requests

A property of the requests of the single-flight registry is proved of the subroutines they are made of.
`Rules` lists them; `Rules.always` concludes that every call of every worker has the property. Most
are that a contract is kept; `Closed` is what the lemmas before need of a property to build the rule
of a subroutine from its sections.
-/
import KuttiDB.Server.SingleFlight

namespace KuttiDB.Server

open KuttiDB.QueueStore
open KuttiDB.Theory

set_option autoImplicit false

/-- A call has the property if its first section is fine and whatever follows it has the property. -/
class Closed (fine : outParam (Site → (Flight → Flight) → Prop)) (P : Handler → Prop) : Prop where
  step : ∀ {site : Site} {effect : Flight → Flight} {next : Flight → Handler}, fine site effect →
    (∀ s, P (next s)) → P (.step site effect next)

instance (C : Contract Worker Flight) (meets : Site → Flight → Prop) (t : Worker) :
    Closed (C.Fine meets t) (C.Always meets t) :=
  ⟨.step⟩

section Subroutines

variable {fine : Site → (Flight → Flight) → Prop} {P : Handler → Prop} [Closed fine P]

theorem always_look {next : Flight → Handler} (refl : fine .plain id)
    (go : ∀ s, P (next s)) : P (look next) :=
  Closed.step refl go

theorem always_change {effect : Flight → Flight} {next : Handler}
    (ok : fine .plain effect) (go : P next) :
    P (change effect next) :=
  Closed.step ok (fun _ => go)

theorem always_wakeWaiters {key : Key} {state : SfState} {next : Handler}
    (refl : fine .plain id) (wake : fine .plain (sfWakeWaiters key state))
    (go : P next) : P (wakeWaiters key state next) := by
  refine always_look refl (fun s => ?_)
  split
  · exact always_change wake go
  · exact go

theorem always_dropStale {key : Key} {next : Handler} (refl : fine .plain id)
    (drop : fine .plain (sfStaleDrop key)) (go : P next) :
    P (dropStale key next) := by
  refine always_look refl (fun s => ?_)
  split
  · exact always_change drop go
  · exact go

theorem always_persistPut {outcome : Outcome} {key : Key} {value : Bytes} {ttlMs : Nat}
    {next : Option Nat → Handler} (refl : fine .plain id)
    (unlogged : ∀ entry, fine .plain (fun s => s.setCache key (some entry)))
    (put : ∀ entry, fine (.put key)
      (fun s => (s.setCache key (some entry)).bump key true))
    (wake : fine .plain (sfWakeWaiters key .value))
    (drop : fine .plain (sfStaleDrop key))
    (success : ∀ version, fine .plain (succeed key version))
    (go : ∀ written, P (next written)) :
    P (persistPut outcome key value ttlMs next) := by
  refine always_look refl (fun s => ?_)
  cases outcome with
  | refused => exact go none
  | unlogged => exact always_change (unlogged _) (go none)
  | done =>
      exact Closed.step (put _) (fun s => always_wakeWaiters refl wake
        (always_dropStale refl drop (always_change (success _) (go _))))

theorem always_persistDelete {outcome : Outcome} {key : Key} {next : Int → Handler}
    (refl : fine .plain id)
    (erase : fine (.delete key) (deleteEffect outcome key))
    (drop : fine .plain (sfStaleDrop key))
    (success : ∀ version, fine .plain (succeed key version))
    (go : ∀ found, P (next found)) :
    P (persistDelete outcome key next) := by
  unfold persistDelete
  split
  · exact go (-1)
  refine Closed.step erase (fun s => ?_)
  dsimp only
  split
  · exact always_change (success _) (go 0)
  split
  · exact go (-1)
  · exact always_dropStale refl drop (always_change (success _) (go 1))

theorem always_persistTxCommit {outcome : Outcome} {key : Key} {value : Option Bytes}
    {ttlMs : Nat} {requireExists : Bool} {next : Int → Handler} (refl : fine .plain id)
    (commit : ∀ exp, fine (.commit key value.isSome) (commitEffect key value exp))
    (wake : fine .plain (sfWakeWaiters key .value))
    (success : ∀ version, fine .plain (succeed key version))
    (go : ∀ code, P (next code)) :
    P (persistTxCommit outcome key value ttlMs requireExists next) := by
  refine always_look refl (fun s => ?_)
  dsimp only
  split
  · exact go (-1)
  refine always_look refl (fun s' => ?_)
  split
  · exact go (-2)
  refine Closed.step (commit _) (fun s'' => ?_)
  split
  · exact always_change (success _) (go 0)
  · exact always_wakeWaiters refl wake (always_change (success _) (go 0))

theorem always_acquire {caller : Caller} {key : Key} {leaseMs : Nat} {next : Bool → Handler}
    (refl : fine .plain id)
    (create : ∀ now, fine .plain (sfClaimGetOrCreateOwned now caller key leaseMs))
    (tell : ∀ deadline, fine .plain (tellHolder caller key deadline))
    (go : ∀ created, P (next created)) :
    P (acquire caller key leaseMs next) := by
  refine always_look refl (fun s => Closed.step (create _) (fun s' => ?_))
  dsimp only
  split
  · exact go false
  · exact Closed.step (tell _) (fun _ => go true)

theorem always_claimUnasked {caller : Caller} {key : Key} {leaseMs : Nat} {next : Handler}
    (refl : fine .plain id)
    (create : ∀ now, fine .plain (sfClaimGetOrCreateOwned now caller key leaseMs))
    (go : P next) : P (claimUnasked caller key leaseMs next) :=
  always_look refl (fun _ => Closed.step (create _) (fun _ => go))

theorem always_removeThen {caller : Caller} {key : Key} {failed : Bool}
    {wakes : RemoveCode → Option SfState} {next : RemoveCode → Handler}
    (refl : fine .plain id)
    (remove : fine (.remove caller key failed) (sfClaimRemoveOwned caller key))
    (wake : ∀ state, fine .plain (sfWakeWaiters key state))
    (settled : ∀ owed, fine .plain (settle owed))
    (go : ∀ code, P (next code)) :
    P (removeThen caller key failed wakes next) := by
  refine Closed.step remove (fun s => ?_)
  dsimp only
  split
  · exact always_change (settled _) (go _)
  · exact always_wakeWaiters refl (wake _) (always_change (settled _) (go _))

theorem always_negativeCheck {key : Key} {next : Bool → Handler} (refl : fine .plain id)
    (check : ∀ now, fine .plain (sfNegativeCheck now key))
    (go : ∀ negative, P (next negative)) :
    P (negativeCheck key next) :=
  always_look refl (fun _ => Closed.step (check _) (fun _ => go _))

theorem always_negativeRecord {key : Key} {ttlMs : Nat} {next : Handler}
    (refl : fine .plain id)
    (record : ∀ now, fine .plain (sfNegativeRecord now key ttlMs))
    (go : P next) : P (negativeRecord key ttlMs next) :=
  always_look refl (fun _ => always_change (record _) go)

theorem always_waitForKey {conn : ConnId} {key : Key} {timeoutMs : Nat}
    (done : ∀ answer, P (.done answer)) (refl : fine .plain id)
    (resolve : fine .plain (sfResolveOrRegister conn key timeoutMs)) :
    P (waitForKey conn key timeoutMs) := by
  refine always_look refl (fun s => ?_)
  split
  · exact done _
  split
  · exact done _
  refine Closed.step resolve (fun s' => ?_)
  split
  · exact done _
  · exact done _
  · exact done _
  · refine always_look refl (fun s'' => ?_)
    split <;> exact done _

theorem always_answerEach (done : ∀ answer, P (.done answer))
    (answer : ∀ n, fine .plain (answerWake n)) :
    ∀ nodes : List WaiterWake, P (answerEach nodes)
  | [] => done _
  | n :: rest => always_change (answer n) (always_answerEach done answer rest)

end Subroutines

/-- Run alone, a request for a lease goes on with what it got. -/
theorem alone_acquire (caller : Caller) (key : Key) (leaseMs : Nat) (next : Bool → Handler)
    (s : Flight) : ∃ created s', (acquire caller key leaseMs next).alone s = (next created).alone s' := by
  simp only [acquire, getOrCreate, look, Flow.alone, id]
  split
  · exact ⟨false, _, rfl⟩
  · exact ⟨true, _, rfl⟩

/-! ## All calls -/

/-- What a property has to provide for. A lease that an answer gives out is told of in the answer. -/
structure Rules (fine : Worker → Site → (Flight → Flight) → Prop) (P : Worker → Handler → Prop) :
    Prop where
  closed : ∀ t, Closed (fine t) (P t)
  done : ∀ t answer, P t (.done answer)
  refl : ∀ t, fine t .plain id
  persistPut : ∀ {t : Worker} (outcome : Outcome) (key : Key) (value : Bytes) (ttlMs : Nat)
    {next : Option Nat → Handler}, (∀ r, P t (next r)) →
    P t (persistPut outcome key value ttlMs next)
  persistDelete : ∀ {t : Worker} (outcome : Outcome) (key : Key) {next : Int → Handler},
    (∀ r, P t (next r)) → P t (persistDelete outcome key next)
  persistTxCommit : ∀ {t : Worker} (outcome : Outcome) (key : Key) (value : Option Bytes)
    (ttlMs : Nat) (requireExists : Bool) {next : Int → Handler},
    (∀ r, P t (next r)) →
    P t (persistTxCommit outcome key value ttlMs requireExists next)
  acquire : ∀ (caller : Caller) (key : Key) (leaseMs : Nat) {answer : Bool → Answer},
    (answer true).holds = true →
    P caller.worker (acquire caller key leaseMs (fun created => .done (answer created)))
  claimUnasked : ∀ (caller : Caller) (key : Key) (leaseMs : Nat),
    P caller.worker (claimUnasked caller key leaseMs (.done (.refreshed .negative false none)))
  removeThen : ∀ (caller : Caller) (key : Key) {failed : Bool}
    {wakes : RemoveCode → Option SfState} {next : RemoveCode → Handler},
    (wakes .removed = none → failed = true) → (∀ r, P caller.worker (next r)) →
    P caller.worker (removeThen caller key failed wakes next)
  pin : ∀ (caller : Caller) (now : Nat) (key : Key),
    fine caller.worker .plain (sfClaimBeginCompleteOwned now caller key)
  check : ∀ (t : Worker) (now : Nat) (key : Key), fine t .plain (sfNegativeCheck now key)
  record : ∀ (t : Worker) (now : Nat) (key : Key) (ttlMs : Nat),
    fine t .plain (sfNegativeRecord now key ttlMs)
  serve : ∀ (t : Worker) (now : Nat) (key : Key), fine t .plain (sfStaleServe now key)
  retain : ∀ (t : Worker) (now : Nat) (key : Key) (value : Bytes)
    (ttlMs staleMs refreshMs version : Nat), fine t (.retain key version)
      (sfStaleStore now key value ttlMs staleMs refreshMs version)
  wait : ∀ (conn : ConnId) (key : Key) (timeoutMs : Nat),
    P (.loop conn.loop) (waitForKey conn key timeoutMs)
  close : ∀ conn : ConnId, fine (.loop conn.loop) .plain (closeConn conn)
  drain : ∀ l, P (.loop l) (sfDrainWakes l)
  sweep : ∀ now, fine .house .plain (sfSweep now)
  evict : ∀ key, fine .house .plain (fun s => s.setCache key none)
  tick : ∀ ms sec, fine .house .plain
    (fun s => { s with nowMs := s.nowMs + ms, nowSec := s.nowSec + sec })

namespace Rules

variable {fine : Worker → Site → (Flight → Flight) → Prop} {P : Worker → Handler → Prop}
  (rules : Rules fine P)
include rules

theorem write {t : Worker} (request : WriteRequest) : P t request.handler := by
  have closed := rules.closed
  cases request with
  | put outcome key value ttlMs =>
      rw [WriteRequest.handler]
      refine rules.persistPut outcome key value ttlMs (fun written => ?_)
      exact rules.done _ _
  | delete outcome key =>
      rw [WriteRequest.handler]
      refine rules.persistDelete outcome key (fun found => ?_)
      exact rules.done _ _
  | atomic outcome key value ttlMs requireExists =>
      rw [WriteRequest.handler]
      refine rules.persistTxCommit outcome key value ttlMs requireExists (fun code => ?_)
      exact rules.done _ _
  | swr outcome key value ttlMs staleMs refreshMs =>
      simp only [WriteRequest.handler, putSwr]
      split
      · exact rules.done _ _
      · refine rules.persistPut outcome key value ttlMs (fun written => ?_)
        cases written with
        | none => exact rules.done _ _
        | some version =>
            exact always_look (rules.refl t)
              (fun s => Closed.step (rules.retain t _ _ _ _ _ _ _) (fun _ => rules.done _ _))

theorem getOrClaim (conn : ConnId) (key : Key) (leaseMs : Nat) :
    P (.loop conn.loop) (getOrClaim conn key leaseMs) := by
  have closed := rules.closed
  unfold Server.getOrClaim
  split
  · exact rules.done _ _
  refine always_negativeCheck (rules.refl _) (fun now => rules.check _ now key) (fun negative => ?_)
  split
  · exact rules.done _ _
  refine always_look (rules.refl _) (fun s => ?_)
  split
  · exact rules.done _ _
  · exact rules.acquire (.wire conn) key _ rfl

theorem getOrRefresh (conn : ConnId) (key : Key) (leaseMs : Nat) :
    P (.loop conn.loop) (getOrRefresh conn key leaseMs) := by
  have closed := rules.closed
  have gain : ∀ answer : Bool → Answer, (answer true).holds = true → P (.loop conn.loop)
      (Server.acquire (.wire conn) key (leaseOr leaseMs) (fun created => .done (answer created))) :=
    fun _ told => rules.acquire (.wire conn) key _ told
  unfold Server.getOrRefresh
  split
  · exact rules.done _ _
  refine always_negativeCheck (rules.refl _) (fun now => rules.check _ now key) (fun negative => ?_)
  split
  · exact rules.claimUnasked (.wire conn) key _
  refine always_look (rules.refl _) (fun s => ?_)
  split
  · refine always_look (rules.refl _) (fun s => ?_)
    split
    · refine always_look (rules.refl _) (fun s => ?_)
      split
      · exact gain _ rfl
      · exact rules.done _ _
    · exact rules.done _ _
  · refine always_look (rules.refl _) (fun s => ?_)
    split
    · refine always_look (rules.refl _) (fun s => Closed.step (rules.serve _ _ key) (fun s' => ?_))
      split
      · exact gain _ rfl
      · exact gain _ rfl
    · exact gain _ rfl

theorem putAndRelease (conn : ConnId) (outcome : Outcome) (key : Key) (ttlMs : Nat)
    (negative : Bool) (value : Bytes) :
    P (.loop conn.loop) (putAndRelease conn outcome key ttlMs negative value) := by
  have closed := rules.closed
  unfold Server.putAndRelease
  split
  · exact always_negativeRecord (rules.refl _) (fun now => rules.record _ now key ttlMs)
      (rules.removeThen (.wire conn) key (by simp) (fun _ => rules.done _ _))
  · refine rules.persistPut outcome key value ttlMs (fun written => ?_)
    cases written with
    | none => exact rules.done _ _
    | some version => exact rules.removeThen (.wire conn) key (by simp) (fun _ => rules.done _ _)

theorem complete (owner : Nat) (outcome : Outcome) (key : Key) (value : Bytes) (ttlMs : Nat)
    (negative : Bool) : P (.admin owner)
      (adminKeyspaceClaimComplete owner outcome key value ttlMs negative) := by
  have closed := rules.closed
  have finish : ∀ failed : Bool, P (.admin owner)
      (Server.removeThen (.admin owner) key failed
        (fun code => if failed ∨ code ≠ .removed then none
          else some (if negative then .negative else .value))
        (fun code => .done (.returned (if failed ∨ code ≠ .removed then -1 else 1)))) := by
    intro failed
    refine rules.removeThen (.admin owner) key (fun silent => ?_) (fun _ => rules.done _ _)
    cases failed with
    | true => rfl
    | false => simp at silent
  refine always_look (rules.refl _) (fun s => Closed.step (rules.pin (.admin owner) _ key) (fun s' => ?_))
  dsimp only
  split
  · exact rules.done _ _
  by_cases asked : negative = true
  · rw [if_pos asked]
    exact always_negativeRecord (rules.refl _) (fun now => rules.record _ now key ttlMs)
      (finish false)
  · rw [if_neg asked]
    exact rules.persistPut outcome key value ttlMs (fun written => finish written.isNone)

/-- Every call of every worker keeps the contract. -/
theorem always : ∀ t, ∀ p ∈ calls t, P t p := by
  have closed := rules.closed
  intro t p call
  cases t with
  | loop l =>
      rcases call with ⟨conn, rfl, request, rfl⟩ | rfl
      · cases request with
        | write request => exact rules.write request
        | getOrClaim key leaseMs => exact rules.getOrClaim conn key leaseMs
        | waitForKey key timeoutMs => exact rules.wait conn key timeoutMs
        | putAndRelease outcome key ttlMs negative value =>
            exact rules.putAndRelease conn outcome key ttlMs negative value
        | releaseClaim key =>
            rw [WireRequest.handler, releaseClaim]
            refine rules.removeThen (.wire conn) key (fun silent => ?_) (fun _ => rules.done _ _)
            cases silent
        | getOrRefresh key leaseMs => exact rules.getOrRefresh conn key leaseMs
        | close => exact always_change (rules.close conn) (rules.done _ _)
      · exact rules.drain l
  | admin owner =>
      obtain ⟨request, rfl⟩ := call
      cases request with
      | acquire key leaseMs =>
          simp only [AdminClaimRequest.handler, adminKeyspaceClaimAcquire]
          split
          · exact rules.done _ _
          · exact rules.acquire (.admin owner) key leaseMs rfl
      | release key =>
          rw [AdminClaimRequest.handler, adminKeyspaceClaimRelease]
          refine rules.removeThen (.admin owner) key (fun silent => ?_) (fun _ => rules.done _ _)
          simp at silent
      | complete outcome key value ttlMs negative =>
          exact rules.complete owner outcome key value ttlMs negative
  | house =>
      obtain ⟨turn, rfl⟩ := call
      cases turn with
      | sweep =>
          refine always_look (rules.refl _) (fun s => ?_)
          split
          · exact rules.done _ _
          · exact always_change (rules.sweep _) (rules.done _ _)
      | evict key => exact always_change (rules.evict key) (rules.done _ _)
      | tick ms sec => exact always_change (rules.tick ms sec) (rules.done _ _)
      | write request => exact rules.write request

omit rules in
/-- The contract rule for the server: what holds at the start and is kept holds in every world. -/
theorem reached {C : Contract Worker Flight} {meets : Site → Flight → Prop}
    (rules : Rules (C.Fine meets) (C.Always meets)) {maxClients : Nat} {w : ServerCrew}
    (inv : C.inv (Flight.start maxClients))
    (rest : ∀ t, C.rest t (Flight.start maxClients)) (run : Reached maxClients meets w) :
    C.inv w.shared :=
  (Contract.sound_runs rules.always inv rest run).inv

end Rules

/-! ## Histories -/

inductive Turn where
  | wire (conn : ConnId) (request : WireRequest)
  | drain (l : Nat)
  | admin (owner : Nat) (request : AdminClaimRequest)
  | house (turn : HouseTurn)

def Turn.entry : Turn → Worker × Handler
  | .wire conn request => (.loop conn.loop, request.handler conn)
  | .drain l => (.loop l, sfDrainWakes l)
  | .admin owner request => (.admin owner, request.handler owner)
  | .house turn => (.house, turn.handler)

theorem Turn.allowed (turn : Turn) : turn.entry.2 ∈ calls turn.entry.1 := by
  cases turn with
  | wire conn request => exact .inl ⟨conn, rfl, request, rfl⟩
  | drain l => exact .inr rfl
  | admin owner request => exact ⟨request, rfl⟩
  | house turn => exact ⟨turn, rfl⟩

/-- The state after these requests, one after the other, on a server that has just started. -/
def afterwards (maxClients : Nat) (turns : List Turn) : Flight :=
  Crew.history (turns.map Turn.entry) (Flight.start maxClients)

theorem reached_afterwards (meets : Site → Flight → Prop) (maxClients : Nat) (turns : List Turn)
    (met : Crew.Meets meets (turns.map Turn.entry) (Flight.start maxClients)) :
    ∃ w, Reached maxClients meets w ∧ w.shared = afterwards maxClients turns := by
  refine Crew.runs_history (turns.map Turn.entry)
    (Crew.idle (Flight.start maxClients) (.status 0)) (fun _ => ⟨_, rfl⟩) (fun entry mem => ?_) met
  obtain ⟨turn, -, rfl⟩ := List.mem_map.1 mem
  exact turn.allowed

end KuttiDB.Server
