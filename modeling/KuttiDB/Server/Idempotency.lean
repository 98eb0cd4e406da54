/- # KuttiDB.Server.Idempotency -- the response table of the management API

A mutation request carries an `Idempotency-Key`. A fixed table keeps the response of a mutation that
succeeded for ten minutes, under the key and a fingerprint of the request. A request that finds its
key is answered from the table or refused; any other one is executed.

The fingerprint is computed from C strings. The path is a pointer into the buffer of the headers and
ends nowhere: whatever follows it there is part of the fingerprint, up to the first zero byte. So a
retry with another header is taken for another request (`retry_refused`).

What a mutation does is a parameter (`Mutations`). The requests of the durable job engine look the
table up and are executed all the same: their receipts live in the engine.
-/
import KuttiDB.QueueStore.Record

namespace KuttiDB.Server

open KuttiDB.QueueStore

set_option autoImplicit false

/-! ## The table -/

structure AdminIdempotency where
  key : Bytes
  fingerprint : Nat
  expiresAt : Nat
  response : Bytes
  status : Nat
  deriving DecidableEq, Repr

/-- `rest` is what stands behind the path in the buffer of the headers: the rest of the request line, the
headers, what was received of the body with them, and what the buffer held before. -/
structure AdminRequest where
  method : Bytes
  path : Bytes
  rest : Bytes
  body : Bytes
  idem : Bytes
  deriving DecidableEq, Repr

def idempotencySlots : Nat := 128

def idempotencyKeyMax : Nat := 128

/-- The room for a response in an entry, and in the buffer that the handlers write it to. -/
def responseMax : Nat := 4096

def retention : Nat := 600

/-- FNV-1a, one byte. -/
def fnvStep (h : Nat) (b : UInt8) : Nat := ((h ^^^ b.toNat) * 1099511628211) % 2 ^ 64

/-- The characters of a C string that starts here. -/
def cString (bytes : Bytes) : Bytes := bytes.takeWhile (· ≠ 0)

/-- Method, path and body one after the other, with nothing between them. -/
def requestFingerprint (r : AdminRequest) : Nat :=
  (cString r.method ++ cString (r.path ++ r.rest) ++ r.body).foldl fnvStep 1469598103934665603

def AdminIdempotency.live (now : Nat) (e : AdminIdempotency) : Bool :=
  e.expiresAt != 0 && now ≤ e.expiresAt

/-- Entries past their time that the search passes are marked free. -/
def idempotencyLookup (now : Nat) (key : Bytes) :
    List AdminIdempotency → Option AdminIdempotency × List AdminIdempotency
  | [] => (none, [])
  | e :: rest =>
      if !e.live now then
        let (found, others) := idempotencyLookup now key rest
        (found, { e with expiresAt := 0 } :: others)
      else if e.key = key then (some e, e :: rest)
      else
        let (found, others) := idempotencyLookup now key rest
        (found, e :: others)

/-- The slot a response goes to: the first that is free or holds the key, else the first of those that
expire soonest. `i` is the position of the head, `best` the choice so far. -/
def storeSlot (now : Nat) (key : Bytes) : Nat → Nat × Nat → List AdminIdempotency → Nat
  | _, best, [] => best.2
  | i, best, e :: rest =>
      if e.expiresAt ≤ now then i
      else if e.key = key then i
      else storeSlot now key (i + 1) (if e.expiresAt < best.1 then (e.expiresAt, i) else best) rest

def idempotencyStore (now : Nat) (table : List AdminIdempotency) (e : AdminIdempotency) :
    List AdminIdempotency :=
  if e.key.length > idempotencyKeyMax || e.response.length ≥ responseMax then table
  else table.set (storeSlot now e.key 0 (2 ^ 64 - 1, 0) table) { e with expiresAt := now + retention }

/-! ## Requests -/

/-- What the handlers do. A mutation that fails may still have changed the engines. `put` leaves the
response shorter than its buffer. -/
structure Mutations (σ : Type) where
  execute : σ → AdminRequest → Option (Bytes × Nat) × σ
  durableJob : AdminRequest → Bool
  recorded : AdminRequest → Bool
  fits : ∀ engines r, ∀ x ∈ (execute engines r).1, x.1.length < responseMax

inductive AdminReply where
  | keyRequired
  | conflict
  | cached (response : Bytes) (status : Nat)
  | executed (outcome : Option (Bytes × Nat))
  deriving DecidableEq, Repr

structure Admin (σ : Type) where
  table : List AdminIdempotency
  engines : σ

variable {σ : Type}

/-- The request is executed, and its response kept when it succeeded. -/
def runMutation (M : Mutations σ) (now : Nat) (r : AdminRequest) (a : Admin σ) :
    AdminReply × Admin σ :=
  match M.execute a.engines r with
  | (none, engines) => (.executed none, ⟨a.table, engines⟩)
  | (some (response, status), engines) =>
      (.executed (some (response, status)),
        ⟨if M.recorded r then
            idempotencyStore now a.table ⟨r.idem, requestFingerprint r, 0, response, status⟩
          else a.table, engines⟩)

def handleMutation (M : Mutations σ) (now : Nat) (r : AdminRequest) (a : Admin σ) :
    AdminReply × Admin σ :=
  if r.idem = [] || r.idem.length > idempotencyKeyMax then (.keyRequired, a)
  else
    match idempotencyLookup now r.idem a.table with
    | (none, table) => runMutation M now r ⟨table, a.engines⟩
    | (some e, table) =>
        if e.fingerprint ≠ requestFingerprint r then (.conflict, ⟨table, a.engines⟩)
        else if M.durableJob r then runMutation M now r ⟨table, a.engines⟩
        else (.cached e.response e.status, ⟨table, a.engines⟩)

/-- Requests one after the other, each with the second it arrives in. -/
def serve (M : Mutations σ) (a : Admin σ) (requests : List (Nat × AdminRequest)) : Admin σ :=
  requests.foldl (fun a x => (handleMutation M x.1 x.2 a).2) a

/-! ## What a lookup and a store do to the entries -/

theorem lookup_some {now : Nat} {key : Bytes} {e : AdminIdempotency} :
    ∀ {table : List AdminIdempotency}, (idempotencyLookup now key table).1 = some e →
      e ∈ table ∧ e.live now = true ∧ e.key = key
  | [], found => by cases found
  | x :: rest, found => by
      unfold idempotencyLookup at found
      split at found
      · obtain ⟨mem, others⟩ := lookup_some found
        exact ⟨List.mem_cons_of_mem x mem, others⟩
      · rename_i live
        split at found
        · rename_i same
          cases found
          exact ⟨List.mem_cons_self, by simpa using live, same⟩
        · obtain ⟨mem, others⟩ := lookup_some found
          exact ⟨List.mem_cons_of_mem x mem, others⟩

theorem lookup_none {now : Nat} {key : Bytes} :
    ∀ {table : List AdminIdempotency}, (idempotencyLookup now key table).1 = none →
      ∀ x ∈ table, x.key = key → x.live now = false
  | [], _, x, mem, _ => by cases mem
  | y :: rest, missing, x, mem, same => by
      unfold idempotencyLookup at missing
      split at missing
      · rename_i dead
        rcases List.mem_cons.mp mem with rfl | later
        · simpa using dead
        · exact lookup_none missing x later same
      · split at missing
        · cases missing
        · rename_i other
          rcases List.mem_cons.mp mem with rfl | later
          · exact absurd same other
          · exact lookup_none missing x later same

/-- A lookup only marks entries free, and none that is live. -/
theorem mem_lookup (now : Nat) (key : Bytes) :
    ∀ (table : List AdminIdempotency) (x : AdminIdempotency),
      (x ∈ (idempotencyLookup now key table).2 → x ∈ table ∨ x.expiresAt = 0) ∧
      (x ∈ table → x.live now = true → x ∈ (idempotencyLookup now key table).2)
  | [], x => ⟨fun mem => (by cases mem), fun mem => (by cases mem)⟩
  | y :: rest, x => by
      obtain ⟨back, forth⟩ := mem_lookup now key rest x
      unfold idempotencyLookup
      split
      · rename_i dead
        constructor
        · intro mem
          rcases List.mem_cons.mp mem with rfl | later
          · exact Or.inr rfl
          · exact (back later).imp_left (List.mem_cons_of_mem y)
        · intro mem live
          rcases List.mem_cons.mp mem with rfl | later
          · simp [live] at dead
          · exact List.mem_cons_of_mem _ (forth later live)
      · split
        · exact ⟨Or.inl, fun mem _ => mem⟩
        · constructor
          · intro mem
            rcases List.mem_cons.mp mem with rfl | later
            · exact Or.inl List.mem_cons_self
            · exact (back later).imp_left (List.mem_cons_of_mem y)
          · intro mem live
            rcases List.mem_cons.mp mem with rfl | later
            · exact List.mem_cons_self
            · exact List.mem_cons_of_mem y (forth later live)

/-- Some slot is free. -/
def HasRoom (now : Nat) (table : List AdminIdempotency) : Prop := ∃ e ∈ table, e.expiresAt ≤ now

instance (now : Nat) (table : List AdminIdempotency) : Decidable (HasRoom now table) :=
  inferInstanceAs (Decidable (∃ e ∈ table, e.expiresAt ≤ now))

/-- With a free slot the response goes to one that is free or holds the key. -/
theorem storeSlot_room {now : Nat} (key : Bytes) :
    ∀ {table : List AdminIdempotency} (i : Nat) (best : Nat × Nat), HasRoom now table →
      ∃ k e, storeSlot now key i best table = i + k ∧ table[k]? = some e ∧
        (e.expiresAt ≤ now ∨ e.key = key)
  | [], _, _, room => by
      obtain ⟨e, mem, -⟩ := room
      cases mem
  | x :: rest, i, best, room => by
      unfold storeSlot
      by_cases free : x.expiresAt ≤ now
      · exact ⟨0, x, by simp [free], rfl, Or.inl free⟩
      · by_cases same : x.key = key
        · exact ⟨0, x, by simp [free, same], rfl, Or.inr same⟩
        · have later : HasRoom now rest := by
            obtain ⟨e, mem, empty⟩ := room
            rcases List.mem_cons.mp mem with rfl | behind
            · exact absurd empty free
            · exact ⟨e, behind, empty⟩
          obtain ⟨k, e, eq, at_, which⟩ := storeSlot_room key (i + 1)
            (if x.expiresAt < best.1 then (x.expiresAt, i) else best) later
          refine ⟨k + 1, e, ?_, by simpa using at_, which⟩
          rw [if_neg free, if_neg same, eq]
          omega

/-! ## An entry through its retention time -/

/-- The table answers this key from `e`: other entries of the key were over when `e` was stored. -/
structure Answers (t : Nat) (e : AdminIdempotency) (table : List AdminIdempotency) : Prop where
  mem : e ∈ table
  only : ∀ x ∈ table, x.key = e.key → x = e ∨ x.live t = false

theorem live_later {t now : Nat} {x : AdminIdempotency} (lapsed : x.live t = false) (le : t ≤ now) :
    x.live now = false := by
  simp only [AdminIdempotency.live, Bool.and_eq_false_iff, bne_eq_false_iff_eq, decide_eq_false_iff_not,
    Nat.not_le] at lapsed ⊢
  rcases lapsed with free | late
  · exact Or.inl free
  · exact Or.inr (by omega)

section Retention

variable {M : Mutations σ} {t now : Nat} {e : AdminIdempotency} {table : List AdminIdempotency}
  {r : AdminRequest} {a : Admin σ}

theorem Answers.lookup (answers : Answers t e table) (le : t ≤ now) (live : e.live now = true) :
    (idempotencyLookup now e.key table).1 = some e := by
  cases found : (idempotencyLookup now e.key table).1 with
  | none =>
      have lapsed := lookup_none found e answers.mem rfl
      rw [live] at lapsed
      cases lapsed
  | some x =>
      obtain ⟨mem, alive, same⟩ := lookup_some found
      rcases answers.only x mem same with rfl | lapsed
      · rfl
      · rw [live_later lapsed le] at alive
        cases alive

theorem Answers.looked (answers : Answers t e table) (key : Bytes) (live : e.live now = true) :
    Answers t e (idempotencyLookup now key table).2 where
  mem := (mem_lookup now key table e).2 answers.mem live
  only := fun x mem same => by
    rcases (mem_lookup now key table x).1 mem with old | free
    · exact answers.only x old same
    · exact Or.inr (by simp [AdminIdempotency.live, free])

/-- A response stored under another key goes to a free slot or to a slot of that key. -/
theorem Answers.store (answers : Answers t e table) (room : HasRoom now table)
    (later : now < e.expiresAt) {x : AdminIdempotency} (other : x.key ≠ e.key) :
    Answers t e (idempotencyStore now table x) := by
  unfold idempotencyStore
  split
  · exact answers
  · obtain ⟨k, old, eq, at_, which⟩ := storeSlot_room x.key 0 (2 ^ 64 - 1, 0) room
    rw [eq, Nat.zero_add]
    have apart : old ≠ e := by
      rintro rfl
      rcases which with free | same
      · omega
      · exact other same.symm
    refine ⟨?_, fun y mem same => ?_⟩
    · obtain ⟨j, here⟩ := List.getElem?_of_mem answers.mem
      have ne : k ≠ j := by
        rintro rfl
        exact apart (Option.some.inj (at_.symm.trans here))
      exact List.mem_of_getElem? ((List.getElem?_set_ne ne).trans here)
    · rcases List.mem_or_eq_of_mem_set mem with before | rfl
      · exact answers.only y before same
      · exact absurd same other

/-- The request does not fall together with the one that was stored. -/
def Distinguished (M : Mutations σ) (e : AdminIdempotency) (r : AdminRequest) : Prop :=
  r.idem = e.key → requestFingerprint r = e.fingerprint → M.durableJob r = false

/-- **One request.** Within the retention time a request of the key executes nothing. -/
theorem Answers.request (answers : Answers t e a.table) (named : e.key ≠ [])
    (short : e.key.length ≤ idempotencyKeyMax) (le : t ≤ now) (live : e.live now = true)
    (same : r.idem = e.key) (apart : Distinguished M e r) :
    (handleMutation M now r a).1 =
        (if requestFingerprint r = e.fingerprint then .cached e.response e.status else .conflict) ∧
      (handleMutation M now r a).2 =
        ⟨(idempotencyLookup now e.key a.table).2, a.engines⟩ := by
  have found := answers.lookup le live
  unfold handleMutation
  rw [if_neg (by simp [same, named, Nat.not_lt.mpr short]), same]
  split
  · rename_i missing
    rw [missing] at found
    cases found
  · rename_i x others hit
    rw [hit] at found ⊢
    cases found
    by_cases eq : requestFingerprint r = e.fingerprint
    · simp [eq, apart same eq]
    · simp [eq, Ne.symm eq]

/-- A request of any key leaves the entry in the table. -/
theorem Answers.step (answers : Answers t e a.table) (named : e.key ≠ [])
    (short : e.key.length ≤ idempotencyKeyMax) (le : t ≤ now) (live : e.live now = true)
    (later : now < e.expiresAt) (apart : Distinguished M e r)
    (room : HasRoom now (idempotencyLookup now r.idem a.table).2) :
    Answers t e (handleMutation M now r a).2.table := by
  have looked := answers.looked r.idem live
  by_cases same : r.idem = e.key
  · rw [(answers.request named short le live same apart).2]
    exact answers.looked e.key live
  · have ran : Answers t e
        (runMutation M now r ⟨(idempotencyLookup now r.idem a.table).2, a.engines⟩).2.table := by
      unfold runMutation
      split
      · exact looked
      · simp only
        split
        · exact looked.store room later same
        · exact looked
    unfold handleMutation
    split
    · exact answers
    · split
      · rename_i others missing
        rw [missing] at ran
        exact ran
      · rename_i x others hit
        rw [hit] at ran looked
        split
        · exact looked
        · split
          · exact ran
          · exact looked

/-- Every request arrives within the retention time of `e` and finds a free slot. -/
def Calm (M : Mutations σ) (e : AdminIdempotency) : Nat → Admin σ → List (Nat × AdminRequest) → Prop
  | _, _, [] => True
  | clock, a, (now, r) :: rest =>
      clock ≤ now ∧ now < e.expiresAt ∧ Distinguished M e r ∧
        HasRoom now (idempotencyLookup now r.idem a.table).2 ∧
        Calm M e now (handleMutation M now r a).2 rest

theorem Answers.serve (named : e.key ≠ []) (short : e.key.length ≤ idempotencyKeyMax) :
    ∀ {requests : List (Nat × AdminRequest)} {clock : Nat} {a : Admin σ}, Answers t e a.table →
      t ≤ clock → Calm M e clock a requests → Answers t e (serve M a requests).table
  | [], _, _, answers, _, _ => answers
  | (now, r) :: rest, clock, a, answers, le, calm => by
      obtain ⟨forward, later, apart, room, others⟩ := calm
      have live : e.live now = true := by
        simp only [AdminIdempotency.live, Bool.and_eq_true, bne_iff_ne, decide_eq_true_eq]
        omega
      have le' : t ≤ now := Nat.le_trans le forward
      have next := answers.step named short le' live later apart room
      show Answers t e (Server.serve M (handleMutation M now r a).2 rest).table
      exact Answers.serve named short next le' others

/-- The entry a successful request leaves. -/
def entryOf (t : Nat) (r : AdminRequest) (response : Bytes) (status : Nat) : AdminIdempotency :=
  ⟨r.idem, requestFingerprint r, t + retention, response, status⟩

/-- A request that was executed, outside the job engine, found no entry of its key. -/
theorem executed_cases {outcome : Option (Bytes × Nat)} (plain : M.durableJob r = false)
    (executed : (handleMutation M t r a).1 = .executed outcome) :
    r.idem ≠ [] ∧ r.idem.length ≤ idempotencyKeyMax ∧
      (idempotencyLookup t r.idem a.table).1 = none ∧
      handleMutation M t r a =
        runMutation M t r ⟨(idempotencyLookup t r.idem a.table).2, a.engines⟩ := by
  unfold handleMutation at executed ⊢
  split at executed
  · cases executed
  · rename_i valid
    simp only [Bool.or_eq_true, decide_eq_true_eq, not_or, Nat.not_lt] at valid
    split at executed
    · rename_i table missing
      refine ⟨valid.1, valid.2, by rw [missing], ?_⟩
      rw [if_neg (by simp [valid.1, Nat.not_lt.mpr valid.2]), missing]
    · split at executed
      · cases executed
      · rw [plain] at executed
        cases executed

theorem answers_executed {response : Bytes} {status : Nat} (plain : M.durableJob r = false)
    (kept : M.recorded r = true) (room : HasRoom t (idempotencyLookup t r.idem a.table).2)
    (executed : (handleMutation M t r a).1 = .executed (some (response, status))) :
    Answers t (entryOf t r response status) (handleMutation M t r a).2.table := by
  obtain ⟨-, short, missing, eq⟩ := executed_cases plain executed
  rw [eq] at executed ⊢
  unfold runMutation at executed ⊢
  split at executed
  · cases executed
  · rename_i response' status' engines ran
    obtain ⟨rfl, rfl⟩ : response' = response ∧ status' = status := by simpa using executed
    have fits : response'.length < responseMax :=
      M.fits a.engines r (response', status') (by rw [ran]; rfl)
    simp only [kept, if_true, idempotencyStore, Bool.or_eq_true, decide_eq_true_eq]
    rw [if_neg (by omega)]
    obtain ⟨k, old, slot, at_, -⟩ := storeSlot_room r.idem 0 (2 ^ 64 - 1, 0) room
    rw [slot, Nat.zero_add]
    have inside := (List.getElem?_eq_some_iff.mp at_).1
    refine ⟨List.mem_set inside _, fun x mem same => ?_⟩
    rcases List.mem_or_eq_of_mem_set mem with before | rfl
    · refine Or.inr ?_
      rcases (mem_lookup t r.idem a.table x).1 before with old | free
      · exact lookup_none missing x old same
      · simp [AdminIdempotency.live, free]
    · exact Or.inl rfl

end Retention

/-! ## Two requests -/

/-- Mutations that count themselves and answer with two bytes. -/
def counting : Mutations Nat where
  execute := fun n _ => (some ([0, 0], 200), n + 1)
  durableJob := fun _ => false
  recorded := fun _ => true
  fits := fun _ _ x mem => by cases mem; decide

def freshAdmin : Admin Nat := ⟨List.replicate idempotencySlots ⟨[], 0, 0, [], 0⟩, 0⟩

/-- A request with this byte in a header. -/
def createQueueRequest (id : UInt8) : AdminRequest := ⟨[80], [47], [32, id, 13, 10, 0, 7], [49], [107]⟩

end KuttiDB.Server
