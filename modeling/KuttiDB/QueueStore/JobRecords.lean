/- # KuttiDB.QueueStore.JobRecords -- reading the records of the job engine

`apply_job_record` takes the body of a record apart at offsets that depend on the lengths in it. Each
layout checks a length before it reads behind it, but for one: the completion record reads the
expected version and the length of the value behind the state key, and only then compares the sum of
all lengths with the size of the body. A record with a matching checksum whose key is longer than the
body makes it read up to 65535 bytes behind the end (`completion_reads_behind`).

`replayJob` is the way a record takes in `replay_log`, which looks at its length and at the format in
its first byte before. What is left out: the hooks are set and read all that they are given, and what
they and the queues make of a record.
-/
import KuttiDB.QueueStore.Fields
import KuttiDB.Theory.Parse

namespace KuttiDB.QueueStore

open KuttiDB.Theory

set_option autoImplicit false

inductive JobOp where
  | jobMeta
  | queueMeta
  | jobState
  | jobReceipt
  | jobCompletion
  deriving DecidableEq, Repr

/-- Offset and length of a run of bytes. -/
abbrev Span := Nat × Nat

/-- What is handed on. -/
inductive JobRecord where
  | jobMeta (storeId : Span) (nextId nextIncarnation versionHwm commitHwm : Nat)
  | queueMeta (incarnation : Nat)
  | jobState (kind : Nat) (opId : Span) (expectedVersion : Nat) (key value : Span)
      (completedAt expiresAt : Nat)
  | jobReceipt (kind : Nat) (opId digest inQueue outQueue : Span)
      (inMessage outMessage completedAt expiresAt : Nat)
  | jobCompletion (opId : Span) (inIncarnation stateVersion expectedVersion : Nat) (key value : Span)
      (output : Option (Span × Nat × Nat × Span)) (completedAt expiresAt : Nat)
  deriving DecidableEq, Repr

def kindCompletion : Nat := 1
def kindStatePut : Nat := 2
def kindStateDelete : Nat := 3
def queueNameMax : Nat := 255

def parseMeta (len : Nat) : Parse (Option JobRecord) :=
  if len ≠ 1 + 16 + 8 * 4 then .done none
  else .read 17 8 fun nextId => .read 25 8 fun nextIncarnation => .read 33 8 fun versionHwm =>
    .read 41 8 fun commitHwm => .span 1 16 <|
      .done (some (.jobMeta (1, 16) nextId nextIncarnation versionHwm commitHwm))

/-- `job_parse_state` -/
def parseState (len : Nat) : Parse (Option JobRecord) :=
  if len < 48 then .done none
  else .read 1 1 fun kind =>
    if kind ≠ kindStatePut ∧ kind ≠ kindStateDelete then .done none
    else .read 18 8 fun expected => .read 26 2 fun klen =>
      if 28 + klen + 4 > len then .done none
      else .read (28 + klen) 4 fun vlen =>
        if 32 + klen + vlen + 16 ≠ len then .done none
        else if kind = kindStateDelete ∧ vlen ≠ 0 then .done none
        else .read (32 + klen + vlen) 8 fun completed => .read (40 + klen + vlen) 8 fun expires =>
          .span 2 16 <| .span 28 klen <| .span (32 + klen) vlen <|
            .done (some (.jobState kind (2, 16) expected (28, klen) (32 + klen, vlen) completed
              expires))

def parseReceipt (len : Nat) : Parse (Option JobRecord) :=
  if len < 87 then .done none
  else .read 1 1 fun kind =>
    if kind ≠ kindCompletion ∧ kind ≠ kindStatePut ∧ kind ≠ kindStateDelete then .done none
    else .read 51 2 fun oql =>
      if 53 + oql + 8 + 2 > len then .done none
      else .read (61 + oql) 2 fun iql =>
        if 87 + oql + iql ≠ len then .done none
        else .read (63 + oql + iql) 8 fun inMessage => .read (53 + oql) 8 fun outMessage =>
          .read (71 + oql + iql) 8 fun completed => .read (79 + oql + iql) 8 fun expires =>
          .span 2 16 <| .span 18 32 <| .span (63 + oql) iql <| .span 53 oql <|
            .done (some (.jobReceipt kind (2, 16) (18, 32) (63 + oql, iql) (53, oql) inMessage
              outMessage completed expires))

/-- The two bytes of the key length are indexed by a 32-bit sum. -/
def parseCompletion (len : Nat) : Parse (Option JobRecord) :=
  if len < 78 then .done none
  else .read 17 8 fun inIncarnation => .read 25 1 fun present => .read 26 2 fun oql =>
    if oql > queueNameMax then .done none
    else if present = 0 ∧ oql ≠ 0 then .done none
    else if 28 + oql + 8 + 8 + 4 > len then .done none
    else .read (28 + oql) 8 fun outIncarnation => .read (36 + oql) 8 fun outMessage =>
      .read (44 + oql) 4 fun ovl =>
      if 48 + oql + ovl + 8 + 2 > len then .done none
      else .read (48 + oql + ovl) 8 fun stateVersion => .check (decide (57 + oql + ovl < 2 ^ 32)) <|
        .read (56 + oql + ovl) 2 fun kl =>
        .read (58 + oql + ovl + kl) 8 fun expected => .read (66 + oql + ovl + kl) 4 fun vl =>
        if 70 + oql + ovl + kl + vl + 16 ≠ len then .done none
        else .read (70 + oql + ovl + kl + vl) 8 fun completed =>
          .read (78 + oql + ovl + kl + vl) 8 fun expires =>
          .span 1 16 <| .span (58 + oql + ovl) kl <| .span (70 + oql + ovl + kl) vl <|
          .span 28 oql <| .span (48 + oql) ovl <|
            .done (some (.jobCompletion (1, 16) inIncarnation stateVersion expected
              (58 + oql + ovl, kl) (70 + oql + ovl + kl, vl)
              (if present = 0 then none
                else some ((28, oql), outIncarnation, outMessage, (48 + oql, ovl))) completed expires))

def parseJob (op : JobOp) (id len : Nat) : Parse (Option JobRecord) :=
  match op with
  | .jobMeta => parseMeta len
  | .queueMeta => .done (if len ≠ 0 ∨ id = 0 then none else some (.queueMeta id))
  | .jobState => parseState len
  | .jobReceipt => parseReceipt len
  | .jobCompletion => parseCompletion len

def jobRecordFmt : Nat := 1

/-- `QUEUE_MESSAGE_MAX` -/
def queueMessageMax : Nat := 64 * 2 ^ 20

/-- The checks of `replay_log` on a job record with a matching checksum, and `apply_job_record`. -/
def replayJob (op : JobOp) (id len : Nat) : Parse (Option JobRecord) :=
  if len > queueMessageMax then .done none
  else if op = .queueMeta then parseJob op id len
  else if len = 0 then .done none
  else .read 0 1 fun fmt => if fmt ≠ jobRecordFmt then .done none else parseJob op id len

/-- A completion that is refused by none of the checks before the state key, and whose state key and
the twelve bytes behind it do not end inside the body. -/
def KeyOverruns (b : Bytes) : Prop :=
  let oql := numberAt b 26 2
  let ovl := numberAt b (44 + oql) 4
  b.length ≤ queueMessageMax ∧ numberAt b 0 1 = jobRecordFmt ∧ 78 ≤ b.length ∧ oql ≤ queueNameMax ∧ (numberAt b 25 1 = 0 → oql = 0) ∧ 48 + oql ≤ b.length ∧
    58 + oql + ovl ≤ b.length ∧ b.length < 70 + oql + ovl + numberAt b (56 + oql + ovl) 2

instance (b : Bytes) : Decidable (KeyOverruns b) := by unfold KeyOverruns; infer_instance

theorem completion_inside {b : Bytes} (short : b.length ≤ queueMessageMax)
    (format : numberAt b 0 1 = jobRecordFmt) :
    (parseCompletion b.length).Inside (numberAt b) b.length ↔ ¬ KeyOverruns b := by
  have limit : queueMessageMax < 2 ^ 32 := by decide
  unfold parseCompletion KeyOverruns
  simp only [Parse.inside_ite, Parse.inside_read, Parse.inside_check, Parse.inside_span,
    Parse.inside_done, implies_true, true_and, and_true, format, short]
  generalize numberAt b 26 2 = oql
  generalize numberAt b (44 + oql) 4 = ovl
  generalize numberAt b (56 + oql + ovl) 2 = kl
  generalize numberAt b (66 + oql + ovl + kl) 4 = vl
  generalize numberAt b 25 1 = present
  omega

theorem parse_inside {op : JobOp} (other : op ≠ .jobCompletion) (id : Nat) (b : Bytes) :
    (parseJob op id b.length).Inside (numberAt b) b.length := by
  cases op with
  | jobCompletion => exact absurd rfl other
  | queueMeta => simp [parseJob]
  | jobMeta =>
    simp only [parseJob, parseMeta, Parse.inside_ite, Parse.inside_read, Parse.inside_span,
      Parse.inside_done]
    simp
    omega
  | jobState =>
    simp only [parseJob, parseState, Parse.inside_ite, Parse.inside_read, Parse.inside_span,
      Parse.inside_done]
    simp
    omega
  | jobReceipt =>
    simp only [parseJob, parseReceipt, Parse.inside_ite, Parse.inside_read, Parse.inside_span,
      Parse.inside_done]
    simp
    omega

/-- Every body that claims to be a job record is read within, but for a completion whose key overruns
it. -/
theorem job_reads_inside (op : JobOp) (id : Nat) (b : Bytes) :
    (replayJob op id b.length).Inside (numberAt b) b.length ↔
      ¬ (op = .jobCompletion ∧ KeyOverruns b) := by
  unfold replayJob
  simp only [Parse.inside_ite, Parse.inside_read, Parse.inside_done, implies_true, true_and]
  by_cases completion : op = .jobCompletion
  · subst completion
    simp only [reduceCtorEq, not_false_eq_true, forall_const, true_and, false_implies]
    constructor
    · intro inside overruns
      have short := overruns.1
      have format := overruns.2.1
      have some_ := overruns.2.2.1
      have parsed := (inside (by omega) (by omega)).2 (by rw [format]; exact fun no => no rfl)
      exact (completion_inside short format).mp parsed overruns
    · intro fits short some_
      refine ⟨by omega, fun format => ?_⟩
      exact (completion_inside (by omega) (not_not.mp format)).mpr fits
  · refine iff_of_true (fun _ => ?_) fun both => completion both.1
    exact ⟨fun _ => parse_inside completion id b,
      fun _ some_ => ⟨by omega, fun _ => parse_inside completion id b⟩⟩

/-- A state record with a key of one byte and no value is read and handed on. -/
example : let b : Bytes := [1, 2] ++ List.replicate 24 0 ++ [1, 0, 0x6b] ++ List.replicate 20 0
    (replayJob .jobState 1 b.length).run (numberAt b) =
      some (.jobState 2 (2, 16) 0 (28, 1) (33, 0) 0 0) := by
  decide +kernel

/-- A completion of format 1, with zeros but for a state key length of 65535: its expected version is
read 65515 bytes behind the end. -/
theorem completion_reads_behind :
    let b : Bytes := [1] ++ List.replicate 55 0 ++ [0xff, 0xff] ++ List.replicate 20 0
    KeyOverruns b ∧ ¬ (replayJob .jobCompletion 1 b.length).Inside (numberAt b) b.length := by
  have overruns : KeyOverruns ([1] ++ List.replicate 55 0 ++ [0xff, 0xff] ++ List.replicate 20 0) := by
    decide +kernel
  refine ⟨overruns, fun inside => ?_⟩
  have short := overruns.1
  unfold replayJob at inside
  simp only [Parse.inside_ite, Parse.inside_read, Parse.inside_done, implies_true, true_and] at inside
  have parsed := ((inside (by omega)).2 (by decide) (by decide)).2 (by decide +kernel)
  exact (completion_inside short overruns.2.1).mp parsed overruns

end KuttiDB.QueueStore
