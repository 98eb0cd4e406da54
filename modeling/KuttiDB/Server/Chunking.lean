/- # KuttiDB.Server.Chunking -- what a connection does depends on its bytes, not on their arrival

`reader` is the connection without its buffers: the rounds of `conn_process`, with the replies put
end to end. Each round decides on its header and then on its whole frame, so it is a steady reader
and reads a stream the same way in any pieces. The connection with its buffers does the same rounds
(`loop_reads`), and its output is the same bytes as long as every reply is laid down whole.

Two replies may not be: that of `SF_GET_OR_REFRESH` when the value makes the output buffer move, and
that of `QUEUE_PUBLISH_BATCH` when it ends one byte behind the buffer. How full the buffer is depends
on how many requests arrived together. `Link.clear` excludes both, round by round.
-/
import KuttiDB.Server.Wire
import KuttiDB.Theory.Resumable

namespace KuttiDB.Wire

open KuttiDB.QueueStore (Bytes)
open KuttiDB.Theory

set_option autoImplicit false

/-! ## The connection without buffers -/

structure Dialogue where
  conn : Conn
  calls : List Call := []
  answered : Bytes := []
  eof : Bool := false

def Dialogue.next (d : Dialogue) (effect : Effect) (calls : List Call) : Dialogue :=
  { conn := effect.conn
    calls := calls
    answered := d.answered ++ effect.replies.flatMap Reply.bytes
    eof := effect.eof }

def reader (set : Settings) (engine : Engine) : Reader Dialogue UInt8 where
  step d base := (d.conn.step set engine d.calls base).map fun out =>
    (d.next out.1 out.2, out.1.used)
  closed d := d.eof

def Dialogue.rank (d : Dialogue) : Nat := d.conn.stage.toNat

/-- What a request needs is at least its header. -/
def Gate.Headed (g : Gate) : Prop := ∀ need, g = .body need → 7 ≤ need

theorem headed_refuse (status : Option UInt8) : (Gate.refuse status).Headed := nofun

theorem headed_body {need : Nat} (enough : 7 ≤ need) : (Gate.body need).Headed := by
  intro _ same
  cases same
  exact enough

theorem headed_ite {p : Prop} [Decidable p] {g g' : Gate} (yes : g.Headed) (no : g'.Headed) :
    (if p then g else g').Headed := by
  split
  · exact yes
  · exact no

theorem headed_framed (h : Header) (refused : Bool) : (framed h refused).Headed :=
  headed_ite (headed_refuse _) (headed_body (by omega))

theorem requestGate_headed (set : Settings) (authenticated : Bool) (h : Header) :
    (requestGate set authenticated h).Headed := by
  unfold requestGate
  repeat' first
    | exact headed_framed _ _
    | exact headed_refuse _
    | exact headed_body (by omega)
    | apply headed_ite

theorem gate_need {set : Settings} {c : Conn} {head : Bytes} {need : Nat}
    (body : c.gate set head = .body need) : c.headerBytes ≤ need := by
  unfold Conn.gate at body
  cases op : c.batchOp with
  | none =>
      rw [op] at body
      simpa [Conn.headerBytes, op] using requestGate_headed _ _ _ _ body
  | puts withTtl =>
      rw [op] at body
      dsimp only at body
      repeat' split at body
      all_goals cases body
      all_goals exact Nat.le_refl _
  | gets =>
      rw [op] at body
      dsimp only at body
      repeat' split at body
      all_goals cases body
      all_goals exact Nat.le_refl _

section Steps

variable {set : Settings} {engine : Engine} {c : Conn} {calls calls' : List Call} {base : Bytes}
  {effect : Effect}

/-- The two ways a round can go on: the header alone closes the connection, or the whole frame is
there and is handled. -/
theorem step_cases (step : c.step set engine calls base = some (effect, calls')) :
    c.headerBytes ≤ base.length ∧
      ((∃ status, c.gate set (base.take c.headerBytes) = .refuse status ∧ calls' = calls ∧
          effect = { conn := c, replies := status.toList.map fun s => .piece (respStatus s),
                     eof := true, used := 0 }) ∨
        ∃ need, c.gate set (base.take c.headerBytes) = .body need ∧ need ≤ base.length ∧
          c.handle engine set (base.take need) calls = (effect, calls')) := by
  unfold Conn.step at step
  split at step
  · cases step
  · rename_i long
    refine ⟨by omega, ?_⟩
    cases gate : c.gate set (base.take c.headerBytes) with
    | refuse status =>
        rw [gate] at step
        cases step
        exact Or.inl ⟨status, rfl, rfl, rfl⟩
    | body need =>
        rw [gate] at step
        dsimp only at step
        split at step
        · cases step
        · rename_i enough
          exact Or.inr ⟨need, rfl, by omega, Option.some.inj step⟩

/-- Later bytes change nothing about a round that can go on. -/
theorem step_settled {out : Effect × List Call} (more : Bytes)
    (step : c.step set engine calls base = some out) :
    c.step set engine calls (base ++ more) = some out := by
  obtain ⟨effect, calls'⟩ := out
  obtain ⟨head, shape⟩ := step_cases step
  have sameHead : (base ++ more).take c.headerBytes = base.take c.headerBytes :=
    List.take_append_of_le_length head
  unfold Conn.step
  rw [if_neg (by simp only [List.length_append]; omega), sameHead]
  rcases shape with ⟨status, gate, rfl, rfl⟩ | ⟨need, gate, enough, handled⟩
  · rw [gate]
  · rw [gate]
    dsimp only
    rw [if_neg (by simp only [List.length_append]; omega),
      List.take_append_of_le_length enough, handled]

/-! ## What handling a frame consumes -/

/-- A property of what a handler returns, whatever the engines answer it. -/
def Ensures {α : Type} (P : α → Prop) (program : Asks α) : Prop := ∀ calls, P (program calls).1

theorem ensures_pure {α : Type} {P : α → Prop} {a : α} (holds : P a) :
    Ensures P (pure a : Asks α) :=
  fun _ => holds

theorem ensures_bind {α β : Type} {P : β → Prop} {program : Asks α} {rest : α → Asks β}
    (later : ∀ a, Ensures P (rest a)) : Ensures P (program >>= rest) :=
  fun _ => later _ _

theorem ensures_ite {α : Type} {P : α → Prop} {p : Prop} [Decidable p] {yes no : Asks α}
    (ifYes : Ensures P yes) (ifNo : Ensures P no) : Ensures P (if p then yes else no) := by
  split
  · exact ifYes
  · exact ifNo

/-- The whole frame is consumed, or the header that starts a batch. -/
theorem handleRequest_used (set : Settings) (engine : Engine) (c : Conn) (frame : Bytes) :
    Ensures (fun e => e.used = frame.length ∨ e.used = 7) (handleRequest engine set c frame) := by
  unfold handleRequest
  refine ensures_ite (ensures_pure (Or.inl rfl)) (ensures_ite ?_ (ensures_ite ?_
    (ensures_ite ?_ ?_)))
  · exact ensures_ite (ensures_bind fun _ => ensures_pure (Or.inr rfl))
      (ensures_bind fun _ => ensures_pure (Or.inr rfl))
  all_goals exact ensures_bind fun _ => ensures_pure (Or.inl rfl)

/-- Part of a batch is consumed whole; the item ends when that part was its body. -/
theorem handlePut_takes (engine : Engine) (withTtl : Bool) (c : Conn) (frame : Bytes) :
    Ensures (fun e => e.used = frame.length ∧ e.conn.stage = !c.stage)
      (handlePut engine withTtl c frame) := by
  unfold handlePut
  cases c.stage with
  | false => exact ensures_pure ⟨rfl, rfl⟩
  | true =>
      exact ensures_bind fun _ => ensures_ite (ensures_pure ⟨rfl, rfl⟩)
        (ensures_bind fun _ => ensures_pure ⟨rfl, rfl⟩)

theorem handleGet_takes (set : Settings) (engine : Engine) (c : Conn) (frame : Bytes) :
    Ensures (fun e => e.used = 0 ∧ e.eof = true ∨ e.used = frame.length ∧ e.conn.stage = !c.stage)
      (handleGet engine set c frame) := by
  unfold handleGet
  cases c.stage with
  | false => exact ensures_pure (Or.inr ⟨rfl, rfl⟩)
  | true =>
      exact ensures_bind fun _ => ensures_ite (ensures_pure (Or.inl ⟨rfl, rfl⟩))
        (ensures_pure (Or.inr ⟨rfl, rfl⟩))

/-- No more than the frame is consumed, and the connection is closed, or something is consumed, or
the current item ends. -/
theorem handle_takes (set : Settings) (engine : Engine) {c : Conn} {frame : Bytes}
    (head : c.headerBytes ≤ frame.length) :
    Ensures (fun e => e.used ≤ frame.length ∧
        (e.eof = true ∨ 0 < e.used ∨ e.conn.stage.toNat < c.stage.toNat))
      (c.handle engine set frame) := by
  intro calls
  unfold Conn.handle
  cases op : c.batchOp with
  | none =>
      have seven : 7 ≤ frame.length := by simpa [Conn.headerBytes, op] using head
      dsimp only
      rcases handleRequest_used set engine c frame calls with whole | header
      · exact ⟨by omega, Or.inr (Or.inl (by omega))⟩
      · exact ⟨by omega, Or.inr (Or.inl (by omega))⟩
  | puts withTtl =>
      dsimp only
      obtain ⟨whole, flipped⟩ := handlePut_takes engine withTtl c frame calls
      refine ⟨by omega, ?_⟩
      cases stage : c.stage with
      | true => exact Or.inr (Or.inr (by simp [flipped, stage]))
      | false =>
          simp only [Conn.headerBytes, op, stage, Bool.false_eq_true, if_false] at head
          exact Or.inr (Or.inl (by split at head <;> omega))
  | gets =>
      dsimp only
      rcases handleGet_takes set engine c frame calls with ⟨nothing, shut⟩ | ⟨whole, flipped⟩
      · exact ⟨by omega, Or.inl shut⟩
      · refine ⟨by omega, ?_⟩
        cases stage : c.stage with
        | true => exact Or.inr (Or.inr (by simp [flipped, stage]))
        | false =>
            simp only [Conn.headerBytes, op, stage, Bool.false_eq_true, if_false] at head
            exact Or.inr (Or.inl (by omega))

theorem step_takes (step : c.step set engine calls base = some (effect, calls')) :
    effect.used ≤ base.length ∧
      (effect.eof = true ∨ 0 < effect.used ∨ effect.conn.stage.toNat < c.stage.toNat) := by
  obtain ⟨head, ⟨status, -, rfl, rfl⟩ | ⟨need, gate, enough, handled⟩⟩ := step_cases step
  · exact ⟨Nat.zero_le _, Or.inl rfl⟩
  · have size : (base.take need).length = need := List.length_take_of_le enough
    have whole : c.headerBytes ≤ (base.take need).length := by
      rw [size]
      exact gate_need gate
    have takes := handle_takes set engine whole calls
    rw [handled, size] at takes
    exact ⟨Nat.le_trans takes.1 enough, takes.2⟩

end Steps

/-- The rounds of a connection can be cut anywhere. -/
theorem reader_steady (set : Settings) (engine : Engine) :
    (reader set engine).Steady Dialogue.rank where
  bounded := by
    intro d d' base used step
    obtain ⟨⟨effect, calls⟩, round, same⟩ := Option.map_eq_some_iff.mp step
    cases same
    exact (step_takes round).1
  settled := by
    intro d base out more step
    obtain ⟨⟨effect, calls⟩, round, same⟩ := Option.map_eq_some_iff.mp step
    exact Option.map_eq_some_iff.mpr ⟨_, step_settled more round, same⟩
  rank_le := fun d => Bool.toNat_le d.conn.stage
  advances := by
    intro d d' base used step
    obtain ⟨⟨effect, calls⟩, round, same⟩ := Option.map_eq_some_iff.mp step
    cases same
    exact (step_takes round).2

/-! ## Rounds whose replies are laid down whole -/

/-- A hit of `SF_GET_OR_REFRESH` does not move the buffer when the value is appended. -/
def Link.clearRefresh (s : Server) (l : Link) (key arg : Bytes) : Bool :=
  if arg.length ≠ 4 ∨ leaseMaxMs < leNat arg then true
  else
    let negative : Bool := s.engine l.calls (.negativeCheck key)
    if negative then true
    else match (s.engine (l.calls ++ [.negativeCheck key]) (.get key 0) : Got) with
    | .hit value => (l.out.skip s.alloc 7).stays s.alloc value.length
    | _ => true

/-- The reply of an accepted `QUEUE_PUBLISH_BATCH` ends within the buffer. -/
def Link.clearPublish (s : Server) (l : Link) (queue arg : Bytes) : Bool :=
  let count := batchCount arg
  if count < 1 ∨ protoBatchMax < count then true
  else
    match splitMessages count (arg.drop 4) with
    | none => true
    | some messages =>
        match (s.engine l.calls (.publishBatch queue messages) : Option (Nat → Nat)) with
        | none => true
        | some _ =>
            l.out.len + (9 + 8 * count) ≤ (l.out.reserve s.alloc (8 + 8 * count)).cap

/-- Before a round: the next request, if it is one of the two, finds room for its reply. -/
def Link.clear (s : Server) (l : Link) : Bool :=
  if l.conn.batchOp ≠ .none ∨ l.conn.authenticated = false then true
  else
    match l.conn.gate s.set (l.unread.take l.conn.headerBytes) with
    | .refuse _ => true
    | .body need =>
        let frame := l.unread.take need
        let h := Header.ofBytes frame
        let key := (frame.drop 7).take h.klen
        let value := frame.drop (7 + h.klen)
        if h.op = 0x54 then l.clearRefresh s key value
        else if h.op = 0x2d then l.clearPublish s key value
        else true

def Fits (a : Allocator) (v : KuttiVec) : Reply → Prop
  | .piece _ => True
  | .published ids =>
      v.len + (9 + 8 * ids.length) ≤ (v.reserve a (8 + 8 * ids.length)).cap
  | .refreshed _ _ value => (v.skip a 7).stays a value.length = true

theorem lay_appends {a : Allocator} {v : KuttiVec} (filled : v.Filled) {reply : Reply}
    (fits : Fits a v reply) : Appends v (v.lay a reply) reply.bytes := by
  cases reply with
  | piece p => exact layPiece_appends filled p
  | published ids => exact published_appends filled ids fits
  | refreshed due holder value => exact refreshed_appends filled due holder value fits

/-- Replies of a round: pieces, or one that fits. -/
def Laid (a : Allocator) (v : KuttiVec) (replies : List Reply) : Prop :=
  (∃ pieces : List Piece, replies = pieces.map .piece) ∨ ∃ reply, replies = [reply] ∧ Fits a v reply

theorem laid_one {a : Allocator} {v : KuttiVec} {reply : Reply} (fits : Fits a v reply) :
    Laid a v [reply] :=
  Or.inr ⟨reply, rfl, fits⟩

theorem laid_appends {a : Allocator} {v : KuttiVec} (filled : v.Filled) {replies : List Reply}
    (laid : Laid a v replies) :
    Appends v (replies.foldl (KuttiVec.lay a) v) (replies.flatMap Reply.bytes) := by
  rcases laid with ⟨pieces, rfl⟩ | ⟨reply, rfl, fits⟩
  · induction pieces generalizing v with
    | nil => exact ⟨filled, (List.append_nil _).symm⟩
    | cons p rest ih =>
        have first := layPiece_appends (a := a) filled p
        have later := ih first.filled
        refine ⟨later.filled, ?_⟩
        change (List.foldl (KuttiVec.lay a) (v.layPiece a p) (rest.map .piece)).contents =
          v.contents ++ (p.bytes ++ (rest.map Reply.piece).flatMap Reply.bytes)
        rw [later.contents, first.contents, List.append_assoc]
  · have one := lay_appends filled fits
    simpa using one

section Replies

variable {s : Server} {l : Link}

theorem refreshHit_value (key : Bytes) (lease : Nat) (value : Bytes) :
    Ensures (fun reply => ∃ due holder, reply = .refreshed due holder value)
      (refreshHit s.engine key lease value) := by
  unfold refreshHit
  refine ensures_bind fun held => ensures_ite ?_ ?_
  all_goals
    exact ensures_bind fun _ => ensures_ite (ensures_bind fun _ => ensures_pure ⟨_, _, rfl⟩)
      (ensures_pure ⟨_, _, rfl⟩)

theorem getOrRefresh_fits {key arg : Bytes} (clear : l.clearRefresh s key arg = true) :
    Fits s.alloc l.out (getOrRefresh s.engine key arg l.calls).1 := by
  unfold Link.clearRefresh at clear
  unfold getOrRefresh
  by_cases refused : arg.length ≠ 4 ∨ leaseMaxMs < leNat arg
  · rw [if_pos refused]
    trivial
  · rw [if_neg refused] at clear ⊢
    rw [ask_bind]
    dsimp only at clear
    by_cases negative : s.engine l.calls (.negativeCheck key) = true
    · rw [if_pos negative]
      trivial
    · rw [if_neg negative] at clear ⊢
      rw [ask_bind]
      cases got : s.engine (l.calls ++ [.negativeCheck key]) (.get key 0) with
      | hit value =>
          rw [got] at clear
          obtain ⟨due, holder, reply⟩ := refreshHit_value key
            (if leNat arg = 0 then leaseMaxMs else leNat arg) value
            (l.calls ++ [.negativeCheck key] ++ [.get key 0])
          dsimp only
          rw [reply]
          exact clear
      | missed => trivial
      | failed => trivial

theorem queuePublishBatch_fits {queue arg : Bytes} (clear : l.clearPublish s queue arg = true) :
    Fits s.alloc l.out (queuePublishBatch s.engine queue arg l.calls).1 := by
  unfold Link.clearPublish at clear
  unfold queuePublishBatch
  dsimp only at clear ⊢
  by_cases outside : batchCount arg < 1 ∨ protoBatchMax < batchCount arg
  · rw [if_pos outside]
    trivial
  · rw [if_neg outside] at clear ⊢
    cases split : splitMessages (batchCount arg) (arg.drop 4) with
    | none => trivial
    | some messages =>
        rw [split] at clear
        dsimp only at clear ⊢
        rw [ask_bind]
        cases answer : s.engine l.calls (.publishBatch queue messages) with
        | none => trivial
        | some ids =>
            rw [answer] at clear
            change _ ≤ _
            simpa using clear

theorem laid_pieces (a : Allocator) (v : KuttiVec) (pieces : List Piece) :
    Laid a v (pieces.map .piece) :=
  Or.inl ⟨pieces, rfl⟩

theorem handleRequest_laid {frame : Bytes} (authenticated : l.conn.authenticated = true)
    (refresh : (Header.ofBytes frame).op = 0x54 → l.clearRefresh s
      ((frame.drop 7).take (Header.ofBytes frame).klen)
      (frame.drop (7 + (Header.ofBytes frame).klen)) = true)
    (publish : (Header.ofBytes frame).op = 0x2d → l.clearPublish s
      ((frame.drop 7).take (Header.ofBytes frame).klen)
      (frame.drop (7 + (Header.ofBytes frame).klen)) = true) :
    Laid s.alloc l.out (handleRequest s.engine s.set l.conn frame l.calls).1.replies := by
  unfold handleRequest
  dsimp only
  rw [if_neg (by simp [authenticated])]
  split
  · -- the start of a batch
    unfold startBatch
    split <;> exact laid_pieces _ _ _
  · split
    · rename_i op
      exact laid_one (getOrRefresh_fits (refresh op))
    · split
      · rename_i op
        exact laid_one (queuePublishBatch_fits (publish op))
      · exact laid_pieces _ _ _

theorem auth_laid {frame : Bytes} (unknown : l.conn.authenticated = false) :
    Laid s.alloc l.out (handleRequest s.engine s.set l.conn frame l.calls).1.replies := by
  unfold handleRequest
  dsimp only
  rw [if_pos (by simp [unknown])]
  exact laid_one trivial

theorem handlePut_laid (engine : Engine) (withTtl : Bool) (c : Conn) (frame : Bytes)
    (a : Allocator) (v : KuttiVec) :
    Ensures (fun e => Laid a v e.replies) (handlePut engine withTtl c frame) := by
  unfold handlePut
  refine ensures_ite (ensures_pure (laid_pieces a v [])) (ensures_bind fun _ => ensures_ite
    (ensures_pure (laid_pieces a v [])) (ensures_bind fun _ => ensures_pure (laid_one trivial)))

theorem handleGet_laid (set : Settings) (engine : Engine) (c : Conn) (frame : Bytes)
    (a : Allocator) (v : KuttiVec) :
    Ensures (fun e => Laid a v e.replies) (handleGet engine set c frame) := by
  unfold handleGet
  exact ensures_ite (ensures_pure (laid_pieces a v [])) (ensures_bind fun _ => ensures_ite
    (ensures_pure (laid_one trivial)) (ensures_pure (laid_one trivial)))

/-- In a clear round every reply is laid down whole. -/
theorem clear_laid {effect : Effect} {calls : List Call} (clear : l.clear s = true)
    (step : l.conn.step s.set s.engine l.calls l.unread = some (effect, calls)) :
    Laid s.alloc l.out effect.replies := by
  obtain ⟨-, ⟨status, -, -, rfl⟩ | ⟨need, gate, -, handled⟩⟩ := step_cases step
  · have pieces := laid_pieces s.alloc l.out (status.toList.map respStatus)
    rwa [List.map_map] at pieces
  · rw [show effect = (l.conn.handle s.engine s.set (l.unread.take need) l.calls).1 by
      rw [handled]]
    unfold Conn.handle
    cases op : l.conn.batchOp with
    | puts withTtl => exact handlePut_laid _ _ _ _ _ _ _
    | gets => exact handleGet_laid _ _ _ _ _ _ _
    | none =>
        cases authenticated : l.conn.authenticated with
        | false => exact auth_laid authenticated
        | true =>
            unfold Link.clear at clear
            rw [if_neg (by simp [op, authenticated]), gate] at clear
            dsimp only at clear
            refine handleRequest_laid authenticated (fun refresh => ?_) (fun publish => ?_)
            · rwa [if_pos refresh] at clear
            · rwa [if_neg (by omega), if_pos publish] at clear

end Replies

/-! ## The connection with its buffers does the same rounds -/

/-- The connection and the dialogue have done the same, and the output holds what was answered and
not sent. -/
structure Mirrors (l : Link) (d : Dialogue) : Prop where
  conn : l.conn = d.conn
  calls : l.calls = d.calls
  eof : l.eof = d.eof
  filled : l.out.Filled
  answered : l.sent ++ l.out.contents = d.answered

theorem shrinkIdle_len (v : KuttiVec) (keep : Nat) : (v.shrinkIdle keep).len = v.len := by
  unfold KuttiVec.shrinkIdle
  split <;> rfl

theorem shrinkIdle_filled {v : KuttiVec} {keep : Nat} (filled : v.Filled)
    (small : keep ≤ 4 * 2 ^ 20) : (v.shrinkIdle keep).Filled := by
  have size := filled.size
  unfold KuttiVec.shrinkIdle
  split
  · exact filled
  · rename_i idle
    exact ⟨List.length_take_of_le (by omega), by dsimp only; omega⟩

theorem Mirrors.flushOut {l : Link} {d : Dialogue} (same : Mirrors l d) :
    Mirrors l.flushOut d := by
  have emptied : KuttiVec.Filled { l.out with len := 0 } := ⟨same.filled.size, Nat.zero_le _⟩
  refine ⟨same.conn, same.calls, same.eof, ?_, ?_⟩
  · exact shrinkIdle_filled emptied (by decide)
  · rw [← same.answered]
    simp only [Link.flushOut, KuttiVec.contents, shrinkIdle_len, List.take_zero, List.append_nil]

theorem Mirrors.flushFull {l : Link} {d : Dialogue} (same : Mirrors l d) :
    Mirrors l.flushFull d := by
  unfold Link.flushFull
  split
  · exact same.flushOut
  · exact same

theorem Mirrors.apply {s : Server} {l : Link} {d : Dialogue} {effect : Effect} {calls : List Call}
    (same : Mirrors l d) (clear : l.clear s = true)
    (step : l.conn.step s.set s.engine l.calls l.unread = some (effect, calls)) :
    Mirrors (l.apply s.alloc effect calls) (d.next effect calls) := by
  have appends := laid_appends same.filled (clear_laid clear step)
  refine ⟨rfl, rfl, rfl, appends.filled, ?_⟩
  change l.sent ++ (effect.replies.foldl (KuttiVec.lay s.alloc) l.out).contents =
    d.answered ++ effect.replies.flatMap Reply.bytes
  rw [appends.contents, ← List.append_assoc, same.answered]

/-- Every round the loop makes is clear. -/
def Link.clearLoop (s : Server) : Nat → Link → Bool
  | 0, _ => true
  | fuel + 1, l =>
      let l := l.flushFull
      match l.conn.step s.set s.engine l.calls l.unread with
      | none => true
      | some (effect, calls) =>
          l.clear s &&
            let next := l.apply s.alloc effect calls
            next.eof || next.clearLoop s fuel

/-- What the loop changes and how far it reads. -/
structure Looped (s : Server) (l after : Link) (d : Dialogue) : Prop where
  run : ∃ d' n, Reads (reader s.set s.engine) d l.unread d' n ∧ Mirrors after d' ∧
    after.inPos = l.inPos + n
  input : after.input = l.input
  compacted : after.compacted = l.compacted

@[simp] theorem flushFull_unread (l : Link) : l.flushFull.unread = l.unread := by
  unfold Link.flushFull
  split <;> rfl

@[simp] theorem flushFull_inPos (l : Link) : l.flushFull.inPos = l.inPos := by
  unfold Link.flushFull
  split <;> rfl

@[simp] theorem flushFull_input (l : Link) : l.flushFull.input = l.input := by
  unfold Link.flushFull
  split <;> rfl

@[simp] theorem flushFull_compacted (l : Link) : l.flushFull.compacted = l.compacted := by
  unfold Link.flushFull
  split <;> rfl

theorem loop_reads {s : Server} (fuel : Nat) {l : Link} {d : Dialogue} (same : Mirrors l d)
    (live : l.eof = false) (enough : 2 * l.unread.length + d.rank < fuel)
    (clear : l.clearLoop s fuel = true) : Looped s l (l.loop s fuel) d := by
  have steady := reader_steady s.set s.engine
  induction fuel generalizing l d with
  | zero => omega
  | succ fuel ih =>
      have flushed := same.flushFull
      have openReader : (reader s.set s.engine).closed d = false := by
        rw [← live]
        exact same.eof.symm
      unfold Link.loop
      unfold Link.clearLoop at clear
      dsimp only at clear ⊢
      cases step : l.flushFull.conn.step s.set s.engine l.flushFull.calls l.flushFull.unread with
      | none =>
          have still : (reader s.set s.engine).step d l.unread = none := by
            rw [flushed.conn, flushed.calls, flushFull_unread] at step
            simp only [reader, step, Option.map_none]
          exact ⟨⟨d, 0, .rest (Or.inr still), flushed, by simp⟩, by simp, by simp⟩
      | some out =>
          obtain ⟨effect, calls⟩ := out
          rw [step] at clear
          simp only [Bool.and_eq_true, Bool.or_eq_true] at clear
          obtain ⟨round, later⟩ := clear
          have after := flushed.apply round step
          have stepped : (reader s.set s.engine).step d l.unread =
              some (d.next effect calls, effect.used) := by
            rw [flushed.conn, flushed.calls, flushFull_unread] at step
            simp only [reader, step, Option.map_some]
          have rest : (l.flushFull.apply s.alloc effect calls).unread =
              l.unread.drop effect.used := by
            change l.flushFull.input.drop (l.flushFull.inPos + effect.used) = _
            rw [flushFull_input, flushFull_inPos, ← List.drop_drop]
            rfl
          dsimp only
          by_cases shut : (l.flushFull.apply s.alloc effect calls).eof = true
          · rw [if_pos shut]
            have closed : (reader s.set s.engine).closed (d.next effect calls) = true :=
              after.eof.symm.trans shut
            refine ⟨⟨d.next effect calls, effect.used + 0,
              .next openReader stepped (.rest (Or.inl closed)), after, ?_⟩, ?_, ?_⟩
            · simp [Link.apply]
            · simp [Link.apply]
            · simp [Link.apply]
          · rw [if_neg shut]
            have liveNext : (l.flushFull.apply s.alloc effect calls).eof = false := by
              simpa using shut
            have lower := steady.lowers stepped (after.eof.symm.trans liveNext)
            obtain ⟨⟨d', n, reads, mirrors, pos⟩, input, compacted⟩ :=
              ih after liveNext (by rw [rest]; omega) (later.resolve_left (by simp [liveNext]))
            rw [rest] at reads
            refine ⟨⟨d', effect.used + n, .next openReader stepped reads, mirrors, ?_⟩, ?_, ?_⟩
            · rw [pos]
              simp [Link.apply, Nat.add_assoc]
            · rw [input]
              simp [Link.apply]
            · rw [compacted]
              simp [Link.apply]

/-- After a flush of full output less than the limit is pending. -/
theorem flushFull_short (l : Link) : l.flushFull.out.len < outFlushLimit := by
  unfold Link.flushFull
  split
  · simp only [Link.flushOut, shrinkIdle_len]
    decide
  · omega

theorem compact_spec (l : Link) : l.compact.inPos = 0 ∧ l.compact.input = l.input.drop l.inPos ∧
    l.compact.compacted = l.compacted + l.inPos := by
  unfold Link.compact
  split
  · rename_i done
    exact ⟨rfl, by simp [done], rfl⟩
  · split
    · exact ⟨rfl, rfl, rfl⟩
    · rename_i nothing
      have zero : l.inPos = 0 := by omega
      simp [zero]

theorem Mirrors.compact {l : Link} {d : Dialogue} (same : Mirrors l d) : Mirrors l.compact d := by
  unfold Link.compact
  split
  · exact ⟨same.conn, same.calls, same.eof, same.filled, same.answered⟩
  · split
    · exact ⟨same.conn, same.calls, same.eof, same.filled, same.answered⟩
    · exact same

def Link.clearProcess (s : Server) (l : Link) : Bool := l.clearLoop s (2 * l.unread.length + 2)

theorem connProcess_reads {s : Server} {l : Link} {d : Dialogue} (same : Mirrors l d)
    (front : l.inPos = 0) (live : l.eof = false) (clear : l.clearProcess s = true) :
    ∃ d' n, Reads (reader s.set s.engine) d l.input d' n ∧ Mirrors (l.connProcess s) d' ∧
      (l.connProcess s).inPos = 0 ∧ (l.connProcess s).compacted = l.compacted + n ∧
      (l.connProcess s).input = l.input.drop n := by
  have unread : l.unread = l.input := by simp [Link.unread, front]
  have rankLe := (reader_steady s.set s.engine).rank_le d
  obtain ⟨⟨d', n, reads, mirrors, pos⟩, input, compacted⟩ :=
    loop_reads _ same live (by omega) clear
  rw [unread] at reads
  rw [front, Nat.zero_add] at pos
  obtain ⟨compactPos, compactInput, compactCount⟩ :=
    compact_spec (l.loop s (2 * l.unread.length + 2))
  have short := flushFull_short (l.loop s (2 * l.unread.length + 2)).compact
  have done : l.connProcess s = (l.loop s (2 * l.unread.length + 2)).compact.flushFull := by
    unfold Link.connProcess
    dsimp only
    rw [if_neg (by omega)]
  rw [done]
  refine ⟨d', n, reads, mirrors.compact.flushFull, ?_, ?_, ?_⟩
  · rw [flushFull_inPos, compactPos]
  · rw [flushFull_compacted, compactCount, compacted, pos]
  · rw [flushFull_input, compactInput, input, pos]

/-- Between calls everything unconsumed stands at the front of the input, and the connection has
read `stream`. -/
structure Tracks (s : Server) (start : Dialogue) (stream : Bytes) (l : Link) : Prop where
  front : l.inPos = 0
  follows : ∃ d, Mirrors l d ∧
    Follows (reader s.set s.engine) start stream ⟨d, l.compacted, l.input⟩

section Calls

variable {s : Server} {start : Dialogue} {stream : Bytes} {l : Link}

/-- A call of `conn_process` after more bytes have come in. -/
theorem Tracks.connProcess (tracks : Tracks s start stream l) (live : l.eof = false)
    (chunk : Bytes) (clear : (l.hold chunk).clearProcess s = true) :
    Tracks s start (stream ++ chunk) ((l.hold chunk).connProcess s) := by
  obtain ⟨front, d, same, follows⟩ := tracks
  have held : Mirrors (l.hold chunk) d :=
    ⟨same.conn, same.calls, same.eof, same.filled, same.answered⟩
  obtain ⟨d', n, reads, mirrors, pos, compacted, input⟩ :=
    connProcess_reads held front live clear
  refine ⟨pos, d', mirrors, ?_⟩
  rw [compacted, input]
  exact follows.feed (reader_steady s.set s.engine) (same.eof.symm.trans live) reads

/-- A closed connection has read whatever else is sent to it. -/
theorem Tracks.closed (tracks : Tracks s start stream l) (shut : l.eof = true) (more : Bytes) :
    Tracks s start (stream ++ more) l := by
  obtain ⟨front, d, same, follows⟩ := tracks
  exact ⟨front, d, same,
    follows.closed (reader_steady s.set s.engine) more (same.eof.symm.trans shut)⟩

def Link.clearReceive (s : Server) (l : Link) (chunk : Bytes) : Bool :=
  l.eof || (l.hold chunk).clearProcess s

theorem Tracks.receive (tracks : Tracks s start stream l) (chunk : Bytes)
    (clear : l.clearReceive s chunk = true) :
    Tracks s start (stream ++ chunk) (l.receive s chunk) := by
  unfold Link.receive
  unfold Link.clearReceive at clear
  by_cases eof : l.eof = true
  · rw [if_pos eof]
    exact tracks.closed eof chunk
  · rw [if_neg eof]
    have live : l.eof = false := by simpa using eof
    rw [live, Bool.false_or] at clear
    exact tracks.connProcess live chunk clear

def Link.clearReceives (s : Server) : Link → List Bytes → Bool
  | _, [] => true
  | l, chunk :: rest => l.clearReceive s chunk && clearReceives s (l.receive s chunk) rest

theorem Tracks.receives (chunks : List Bytes) (tracks : Tracks s start stream l)
    (clear : l.clearReceives s chunks = true) :
    Tracks s start (stream ++ chunks.flatten) (chunks.foldl (Link.receive s) l) := by
  induction chunks generalizing stream l with
  | nil => simpa using tracks
  | cons chunk rest ih =>
      unfold Link.clearReceives at clear
      rw [Bool.and_eq_true] at clear
      have later := ih (tracks.receive chunk clear.1) clear.2
      rwa [List.append_assoc] at later

theorem Tracks.flushOut (tracks : Tracks s start stream l) : Tracks s start stream l.flushOut := by
  obtain ⟨front, d, same, follows⟩ := tracks
  exact ⟨front, d, same.flushOut, follows⟩

def Link.clearReadable (s : Server) (l : Link) (chunks : List Bytes) : Bool :=
  let last := chunks.foldl (Link.receive s) l
  l.clearReceives s chunks && (last.input = [] || last.eof || last.clearProcess s)

theorem Tracks.onReadable (tracks : Tracks s start stream l) (chunks : List Bytes)
    (clear : l.clearReadable s chunks = true) :
    Tracks s start (stream ++ chunks.flatten) (l.onReadable s chunks) := by
  unfold Link.clearReadable at clear
  simp only [Bool.and_eq_true, Bool.or_eq_true, decide_eq_true_eq] at clear
  have received := tracks.receives chunks clear.1
  unfold Link.onReadable
  dsimp only
  refine Tracks.flushOut ?_
  split
  · rename_i more
    -- a call with nothing new is a call with an empty chunk
    have nothing : (chunks.foldl (Link.receive s) l).hold [] =
        chunks.foldl (Link.receive s) l := by
      unfold Link.hold
      rw [List.append_nil]
    have process : (chunks.foldl (Link.receive s) l).clearProcess s = true := by
      rcases clear.2 with (empty | shut) | process
      · exact absurd empty more.1
      · exact absurd shut (by simp [more.2])
      · exact process
    have again := received.connProcess more.2 [] (by rw [nothing]; exact process)
    rwa [nothing, List.append_nil] at again
  · exact received

def Link.clearServe (s : Server) : Link → List (List Bytes) → Bool
  | _, [] => true
  | l, chunks :: rest =>
      l.eof || l.clearReadable s chunks && clearServe s (l.onReadable s chunks) rest

theorem Tracks.serve (events : List (List Bytes)) (tracks : Tracks s start stream l)
    (clear : l.clearServe s events = true) :
    Tracks s start (stream ++ events.flatten.flatten) (l.serve s events) := by
  induction events generalizing stream l with
  | nil =>
      rw [List.flatten_nil, List.flatten_nil, List.append_nil]
      exact tracks
  | cons chunks rest ih =>
      unfold Link.clearServe at clear
      change Tracks s start (stream ++ (chunks ++ rest.flatten).flatten)
        (Link.serve s (if l.eof then l else l.onReadable s chunks) rest)
      rw [List.flatten_append, ← List.append_assoc]
      cases eof : l.eof with
      | true =>
          rw [if_pos rfl]
          refine ih (tracks.closed eof _) ?_
          cases rest with
          | nil => rfl
          | cons next rest => simp [Link.clearServe, eof]
      | false =>
          rw [eof, Bool.false_or, Bool.and_eq_true] at clear
          rw [if_neg (by decide)]
          exact ih (tracks.onReadable chunks clear.1) clear.2

end Calls

/-! ## What can be seen of a connection -/

/-- The operations performed, every byte appended to the output, whether the connection is closed,
and how many bytes of the stream were consumed. -/
structure Observed where
  calls : List Call
  answered : Bytes
  closed : Bool
  position : Nat
  deriving DecidableEq

def Link.observed (l : Link) : Observed :=
  ⟨l.calls, l.sent ++ l.out.contents, l.eof, l.compacted + l.inPos⟩

/-- The same of the connection without buffers, given the whole stream at once. -/
def atOnce (set : Settings) (engine : Engine) (authenticated : Bool) (stream : Bytes) : Observed :=
  let out := (reader set engine).read { conn := { authenticated := authenticated } } stream
  ⟨out.1.calls, out.1.answered, out.1.eof, out.2⟩

/-- A connection as it is accepted. -/
def accepted (authenticated : Bool) : Link := { conn := { authenticated := authenticated } }

theorem accepted_tracks (s : Server) (authenticated : Bool) :
    Tracks s { conn := { authenticated := authenticated } } [] (accepted authenticated) := by
  refine ⟨rfl, { conn := { authenticated := authenticated } }, ⟨rfl, rfl, rfl, ⟨rfl, Nat.le_refl _⟩, rfl⟩,
    ⟨.rest (Or.inr ?_), fun _ => rfl⟩⟩
  rfl

theorem serve_observed (s : Server) (authenticated : Bool) (events : List (List Bytes))
    (clear : (accepted authenticated).clearServe s events = true) :
    ((accepted authenticated).serve s events).observed =
      atOnce s.set s.engine authenticated events.flatten.flatten := by
  obtain ⟨front, d, same, follows⟩ := (accepted_tracks s authenticated).serve events clear
  have reads := (reader_steady s.set s.engine).read_reads
    { conn := { authenticated := authenticated } } events.flatten.flatten
  obtain ⟨state, position⟩ := follows.reads.unique reads
  dsimp only at state position
  unfold Link.observed atOnce
  dsimp only
  rw [← state, ← position, front, same.calls, same.answered, same.eof]
  rfl

/-- Two connections that receive one stream, cut into any chunks and events and with any allocator,
perform the same operations, append the same bytes and are closed, if at all, at the same place. -/
theorem splits_agree (set : Settings) (engine : Engine) (authenticated : Bool)
    (first second : Allocator) (cut other : List (List Bytes))
    (same : cut.flatten.flatten = other.flatten.flatten)
    (clear : (accepted authenticated).clearServe ⟨set, engine, first⟩ cut = true)
    (clearOther : (accepted authenticated).clearServe ⟨set, engine, second⟩ other = true) :
    ((accepted authenticated).serve ⟨set, engine, first⟩ cut).observed =
      ((accepted authenticated).serve ⟨set, engine, second⟩ other).observed := by
  rw [serve_observed _ _ _ clear, serve_observed _ _ _ clearOther, same]

/-- An engine that has `value` for every key and takes every write. -/
def holding (value : Bytes) : Engine
  | _, .put .. => (0 : Int)
  | _, .batchCommit => (0 : Int)
  | _, .get .. => Got.hit value
  | _, .delete _ => (1 : Int)
  | _, .time => (1 : Nat)
  | _, .negativeCheck _ => false
  | _, .negativeRecord .. => ()
  | _, .claimGetOrCreate .. => (1 : Int)
  | _, .claimRemove _ => ()
  | _, .anyWaiters => false
  | _, .wakeWaiters .. => ()
  | _, .waitRegistered => false
  | _, .resolveOrRegister .. => Resolved.deferred
  | _, .anyStale => false
  | _, .staleStore .. => ()
  | _, .staleServe _ => none
  | _, .refreshDue _ => false
  | _, .persistenceFailed => false
  | _, .jobsWritable => true
  | _, .serverInfo => none
  | _, .stats => []
  | _, .publishBatch .. => some id
  | _, .request .. => []

/-- The default limits. -/
def defaults : Settings := ⟨64 * 2 ^ 20, 64 * 2 ^ 20, []⟩

/-- A `realloc` that always moves the block and leaves zeros in what it adds. -/
def moving : Allocator := ⟨fun _ => true, fun _ _ => 0⟩

def getFrame : Bytes := [0x02, 1, 0, 0, 0, 0, 0, 0x6b]
def refreshFrame : Bytes := [0x54, 1, 0, 4, 0, 0, 0, 0x6b, 0, 0, 0, 0]

/-- A batch of one item, two reads and a published batch of one message. -/
def mixedFrames : Bytes :=
  [0x11, 0, 0, 1, 0, 0, 0] ++ [1, 0, 2, 0, 0, 0] ++ [0x6b, 7, 8] ++ getFrame ++ refreshFrame ++
    [0x2d, 1, 0, 9, 0, 0, 0, 0x71] ++ [1, 0, 0, 0, 1, 0, 0, 0, 5]

/-- The same bytes in three chunks of two events, cut inside a batch item and inside a header. -/
def mixedCut : List (List Bytes) :=
  [[mixedFrames.take 9], [(mixedFrames.drop 9).take 17, mixedFrames.drop 26]]

theorem splits_agree_mixed :
    ((accepted true).serve ⟨defaults, holding [1, 2, 3], moving⟩ [[mixedFrames]]).observed =
      ((accepted true).serve ⟨defaults, holding [1, 2, 3], moving⟩ mixedCut).observed :=
  splits_agree defaults (holding [1, 2, 3]) true moving moving [[mixedFrames]] mixedCut
    (by decide +kernel) (by decide +kernel) (by decide +kernel)

/-- A value of 2050 bytes, read with `GET` and then with `SF_GET_OR_REFRESH`. Received in one chunk,
the second reply makes the buffer move and its length field stays as the memory was; received in two
chunks, with the output drained between them, it is right. -/
theorem length_lost :
    let s : Server := ⟨defaults, holding (List.replicate 2050 0x61), moving⟩
    let together := ((accepted true).serve s [[getFrame ++ refreshFrame]]).observed
    let apart := ((accepted true).serve s [[getFrame], [refreshFrame]]).observed
    (together.answered.drop 2055).take 7 = [0, 0, 0, 0, 0, 0, 0] ∧
      (apart.answered.drop 2055).take 7 = [0, 4, 8, 0, 0, 0, 0] ∧ together ≠ apart := by
  have lost : ((((accepted true).serve ⟨defaults, holding (List.replicate 2050 0x61), moving⟩
      [[getFrame ++ refreshFrame]]).observed.answered.drop 2055).take 7) =
        [0, 0, 0, 0, 0, 0, 0] := by
    decide +kernel
  have right : ((((accepted true).serve ⟨defaults, holding (List.replicate 2050 0x61), moving⟩
      [[getFrame], [refreshFrame]]).observed.answered.drop 2055).take 7) =
        [0, 4, 8, 0, 0, 0, 0] := by
    decide +kernel
  refine ⟨lost, right, fun same => ?_⟩
  rw [same, right] at lost
  exact absurd lost (by decide)

end KuttiDB.Wire
