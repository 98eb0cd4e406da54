/- # KuttiDB.Log.Damage -- what the checksums notice, and where replay stops for it

The register of the checksum is linear, and a step leaves its top clear only if the byte that was
looked up is zero (`step_shift`). So a change of at most four adjacent bytes, which is as much as the
register holds, is noticed by every routine (`burst_detected`).

`damage_ends_replay` is what follows for the log of the cache: a record damaged in that way ends the
replay, which has then applied the records before it and reports the offset at which they end.
-/
import KuttiDB.Log.CacheLog

namespace KuttiDB.Log

open KuttiDB.QueueStore (Bytes field numberAt field_at field_append leBytes_numberAt)
open KuttiDB.Theory

set_option autoImplicit false

/-! ## One step -/

/-- The entries of the table have different top bytes. -/
theorem top_byte : ∀ i < 256, bitStep^[8] (BitVec.ofNat 32 i) >>> 24 = 0#32 → i = 0 := by
  decide +kernel

theorem mask_toNat (e : BitVec 32) : (e &&& 0xff#32).toNat = e.toNat % 256 := by
  rw [BitVec.toNat_and]
  exact Nat.and_two_pow_sub_one_eq_mod e.toNat 8

theorem step_shift {e : BitVec 32} {s : Nat} (few : s ≤ 24) (low : step e >>> s = 0#32) :
    e &&& 0xff#32 = 0#32 ∧ e >>> (8 + s) = 0#32 := by
  have zeros : bitStep^[8] 0#32 = 0#32 := (bitStep_linear.iterate 8).zero
  have top : bitStep^[8] (e &&& 0xff#32) >>> 24 = 0#32 := by
    have high : step e >>> 24 = 0#32 := by
      rw [show 24 = s + (24 - s) by omega, BitVec.shiftRight_add, low, BitVec.zero_ushiftRight]
    have gone : e >>> 8 >>> 24 = 0#32 := by
      rw [← BitVec.shiftRight_add, BitVec.ushiftRight_eq_zero (by decide)]
    rwa [step, BitVec.ushiftRight_xor_distrib, gone, BitVec.xor_zero] at high
  have byte : e &&& 0xff#32 = 0#32 := by
    have entry := top_byte (e &&& 0xff#32).toNat (by rw [mask_toNat]; omega)
    rw [BitVec.ofNat_toNat, BitVec.setWidth_eq] at entry
    exact BitVec.eq_of_toNat_eq (entry top)
  refine ⟨byte, ?_⟩
  rwa [step, byte, zeros, BitVec.zero_xor, ← BitVec.shiftRight_add] at low

/-- A step forgets nothing. -/
theorem step_inj {x y : BitVec 32} (same : step x = step y) : x = y := by
  have none_ : step (x ^^^ y) >>> 0 = 0#32 := by
    rw [step_linear, same, BitVec.xor_self, BitVec.zero_ushiftRight]
  obtain ⟨byte, rest⟩ := step_shift (by decide) none_
  refine BitVec.xor_eq_zero_iff.mp (BitVec.eq_of_toNat_eq ?_)
  have low := congrArg BitVec.toNat byte
  have high := congrArg BitVec.toNat rest
  rw [mask_toNat] at low
  rw [BitVec.toNat_ushiftRight, Nat.shiftRight_eq_div_pow] at high
  simp only [BitVec.toNat_ofNat] at low high ⊢
  omega

/-! ## A run of bytes -/

def feed (x : BitVec 32) (p : Bytes) : BitVec 32 := p.foldl (fun crc b => step (crc ^^^ byteWord b)) x

theorem feed_append (x : BitVec 32) (p q : Bytes) : feed x (p ++ q) = feed (feed x p) q :=
  List.foldl_append ..

theorem feed_inj {x y : BitVec 32} : ∀ {p : Bytes}, feed x p = feed y p → x = y
  | [], same => same
  | _ :: _, same => (BitVec.xor_left_inj _).mp (step_inj (feed_inj same))

/-- The bytes that come can make up only for as much of the register as they are long. -/
theorem feed_shift : ∀ {p q : Bytes} {x y : BitVec 32}, q.length = p.length → p.length ≤ 4 →
    feed x p = feed y q → (x ^^^ y) >>> (8 * p.length) = 0#32
  | [], [], x, y, _, _, same => by
      have equal : x = y := same
      rw [equal, BitVec.xor_self, BitVec.zero_ushiftRight]
  | a :: p, b :: q, x, y, size, few, same => by
      simp only [List.length_cons] at size few ⊢
      have rest := feed_shift (by omega) (by omega)
        (show feed (step (x ^^^ byteWord a)) p = feed (step (y ^^^ byteWord b)) q from same)
      rw [← step_linear] at rest
      have high := (step_shift (by omega) rest).2
      have split : (x ^^^ byteWord a) ^^^ (y ^^^ byteWord b) =
          (x ^^^ y) ^^^ (byteWord a ^^^ byteWord b) := by ac_rfl
      rw [split, BitVec.ushiftRight_xor_distrib, BitVec.shiftRight_add (byteWord a ^^^ _),
        BitVec.ushiftRight_xor_distrib (byteWord a), byteWord_shift, byteWord_shift, BitVec.xor_self,
        BitVec.zero_ushiftRight, BitVec.xor_zero] at high
      rwa [show 8 * (p.length + 1) = 8 + 8 * p.length by omega]

theorem feed_word : ∀ {p q : Bytes} {x : BitVec 32}, q.length = p.length → p.length ≤ 4 →
    feed x p = feed x q → p = q
  | [], [], _, _, _, _ => rfl
  | a :: p, b :: q, x, size, few, same => by
      simp only [List.length_cons, Nat.add_right_cancel_iff] at size few
      have whole : feed (step (x ^^^ byteWord a)) p = feed (step (x ^^^ byteWord b)) q := same
      have rest := feed_shift size (by omega) whole
      have split : (x ^^^ byteWord a) ^^^ (x ^^^ byteWord b) = byteWord a ^^^ byteWord b := by
        rw [BitVec.xor_comm x, BitVec.xor_assoc, ← BitVec.xor_assoc x, BitVec.xor_self,
          BitVec.zero_xor]
      rw [← step_linear, split] at rest
      have byte := (step_shift (by omega) rest).1
      have masked := mask_linear 0xff#32 (byteWord a) (byteWord b)
      simp only [byte, mask_byteWord] at masked
      rw [eq_comm, BitVec.xor_eq_zero_iff, byteWord_eq, byteWord_eq] at masked
      have number := congrArg BitVec.toNat masked
      rw [BitVec.toNat_ofNat, BitVec.toNat_ofNat, Nat.mod_eq_of_lt (by have := a.toNat_lt; omega),
        Nat.mod_eq_of_lt (by have := b.toNat_lt; omega)] at number
      obtain rfl : a = b := UInt8.toNat_inj.mp number
      rw [feed_word size (by omega) whole]

/-- Two strings that differ in at most four adjacent bytes. -/
def Burst (p q : Bytes) : Prop := ∃ lead hit other tail, p = lead ++ hit ++ tail ∧
  q = lead ++ other ++ tail ∧ other.length = hit.length ∧ hit.length ≤ 4 ∧ hit ≠ other

theorem Burst.feed_ne {p q : Bytes} (burst : Burst p q) (x : BitVec 32) : feed x p ≠ feed x q := by
  obtain ⟨lead, hit, other, tail, rfl, rfl, size, few, differ⟩ := burst
  intro same
  simp only [feed_append] at same
  exact differ (feed_word size few (feed_inj same))

/-! ## The routines -/

theorem foldl_feed {t : Table} (good : BytesGood t) (x : BitVec 32) (p : Bytes) :
    p.foldl (byteStep t) x = feed x p := by
  rw [feed, show byteStep t = _ from funext fun crc => funext fun b => byteStep_eq good crc b]

theorem crc32Two_feed (a b : Bytes) :
    crc32Two a b = feed 0xffffffff#32 (a ++ b) ^^^ 0xffffffff#32 := by
  simp only [crc32Two, foldl_feed byteInit_good, feed_append]

/-- **A change of at most four adjacent bytes changes the checksum**, in each of the routines and
however the bytes are divided among the spans. -/
theorem burst_detected (a b d a' b' d' : Bytes) (burst : Burst (a ++ b ++ d) (a' ++ b' ++ d')) :
    queueCrc32 a b d ≠ queueCrc32 a' b' d' ∧
      streamCrc32 (a ++ b ++ d) ≠ streamCrc32 (a' ++ b' ++ d') ∧
      crc32Chain a b d ≠ crc32Chain a' b' d' := by
  have differ := burst.feed_ne 0xffffffff#32
  refine ⟨fun same => differ ?_, fun same => differ ?_, fun same => differ ?_⟩
  · simpa only [queueCrc32, List.foldl_cons, List.foldl_nil, crcSpan_eq crcInit_good,
      foldl_feed crcInit_good.bytes, ← feed_append, BitVec.xor_left_inj] using same
  · rw [streamCrc32, streamCrc32, streamBitStep_eq, crcSpan_eq crcInit_good, crcSpan_eq crcInit_good,
      foldl_feed crcInit_good.bytes, foldl_feed crcInit_good.bytes, BitVec.not_inj] at same
    exact same
  · rw [crc32Chain_two, crc32Chain_two, crc32Two_feed, crc32Two_feed, BitVec.xor_left_inj] at same
    rwa [List.append_assoc, List.append_assoc]

theorem burst_detected_byte : queueCrc32 [1] [2] [3] ≠ queueCrc32 [1] [9, 3] [] :=
  (burst_detected [1] [2] [3] [1] [9, 3] []
    ⟨[1], [2], [9], [3], rfl, rfl, rfl, by decide, by decide⟩).1

/-! ## A damaged record -/

/-- What the checksum in the head of an accepted record is over: all the bytes behind the head. -/
theorem readRound_sum {maxVal size : Nat} {bytes : Bytes} {r : CacheRecord}
    (read : readRound maxVal bytes = .record r size) :
    size = headLen (numberAt bytes 0 1) + numberAt bytes 1 2 + numberAt bytes 3 4 ∧
      (crc32Two [] (field bytes 11 (size - 11))).toNat = numberAt bytes 7 4 := by
  unfold readRound at read
  split at read
  · cases read
  split at read
  · cases read
  simp only at read
  split at read
  · cases read
  rename_i headed
  split at read
  · cases read
  split at read
  · cases read
  split at read
  · cases read
  split at read
  · cases read
  rename_i sum
  split at read
  · cases read
  cases read
  refine ⟨rfl, ?_⟩
  rw [← not_not.mp sum, frameCrc]
  unfold headLen at headed ⊢
  by_cases ticking : timed (numberAt bytes 0 1) = true
  · simp only [if_pos ticking] at headed ⊢
    rw [leBytes_numberAt (by omega), crc32Chain_two, field_append, crc32Two_feed, crc32Two_feed,
      field_append, List.nil_append]
    congr 5
    omega
  · simp only [if_neg ticking]
    rw [crc32Two_feed, crc32Two_feed, field_append, List.nil_append]
    congr 5
    omega

theorem readRound_done {maxVal : Nat} {bytes : Bytes} (ended : readRound maxVal bytes = .done) :
    bytes.length = 0 := by
  unfold readRound at ended
  split at ended
  · assumption
  · grind

theorem numberAt_head {head p q : Bytes} {off len : Nat} (inside : off + len ≤ head.length) :
    numberAt (head ++ p) off len = numberAt (head ++ q) off len := by
  unfold numberAt field
  rw [List.drop_append_of_le_length (by omega), List.drop_append_of_le_length (by omega),
    List.take_append_of_le_length (by simp; omega), List.take_append_of_le_length (by simp; omega)]

theorem readRound_damaged {maxVal : Nat} {e : Logged} (fits : e.record.Fits maxVal)
    (limit : maxVal ≤ 2 ^ 30) {head body other : Bytes} (shape : e.bytes = head ++ body)
    (start : head.length = 11) (burst : Burst body other) (rest : Bytes) :
    readRound maxVal (head ++ (other ++ rest)) = .stop := by
  have sound := Logged.readRound_bytes fits limit rest
  rw [shape, List.append_assoc] at sound
  obtain ⟨size, sum⟩ := readRound_sum sound
  have same : other.length = body.length := by
    obtain ⟨lead, hit, hit', tail, rfl, rfl, width, -⟩ := burst
    simp [width]
  cases round : readRound maxVal (head ++ (other ++ rest)) with
  | done =>
      have none_ := readRound_done round
      rw [List.length_append] at none_
      omega
  | stop => rfl
  | record r taken =>
      obtain ⟨taken', sum'⟩ := readRound_sum round
      have kept : ∀ off len, off + len ≤ 11 →
          numberAt (head ++ (other ++ rest)) off len = numberAt (head ++ (body ++ rest)) off len :=
        fun off len inside => numberAt_head (start ▸ inside)
      rw [kept 0 1 (by decide), kept 1 2 (by decide), kept 3 4 (by decide), ← size] at taken'
      rw [kept 7 4 (by decide), ← sum, taken', List.length_append, start,
        Nat.add_sub_cancel_left, field_at head other rest rfl start same,
        field_at head body rest rfl start rfl, crc32Two_feed, crc32Two_feed] at sum'
      exact absurd ((BitVec.xor_left_inj _).mp (BitVec.eq_of_toNat_eq sum')).symm (burst.feed_ne _)

theorem replayRounds_stop {maxVal : Nat} (limit : maxVal ≤ 2 ^ 30) {bad : Bytes}
    (refused : readRound maxVal bad = .stop) : ∀ {before : List Logged} {fuel : Nat},
    (∀ e ∈ before, e.record.Fits maxVal) → (logBytes before).length < fuel →
    replayRounds maxVal fuel (logBytes before ++ bad) =
      ⟨before.map Logged.record, (logBytes before).length, false⟩
  | [], fuel + 1, _, _ => by simp [logBytes, replayRounds, refused]
  | e :: before, fuel + 1, fits, enough => by
      have cons : logBytes (e :: before) = e.bytes ++ logBytes before := rfl
      have some_ := e.bytes_pos
      rw [cons, List.length_append] at enough
      have rest := replayRounds_stop limit refused (fun x mem => fits x (List.mem_cons_of_mem _ mem))
        (show (logBytes before).length < fuel by omega)
      rw [replayRounds, cons, List.append_assoc,
        Logged.readRound_bytes (fits e List.mem_cons_self) limit]
      simp only [List.drop_left, rest, List.map_cons, List.length_append]

/-- **A damaged record ends the replay in front of it**: behind its head at most four adjacent bytes
were changed, and whatever the file has after it, exactly the records before it are applied. -/
theorem damage_ends_replay (maxVal : Nat) (limit : maxVal ≤ 2 ^ 30) (before : List Logged)
    (e : Logged) (fits : ∀ x ∈ before ++ [e], x.record.Fits maxVal) (head body other rest : Bytes)
    (shape : e.bytes = head ++ body) (start : head.length = 11) (burst : Burst body other) :
    replayWal maxVal (logBytes before ++ (head ++ (other ++ rest))) =
      ⟨before.map Logged.record, (logBytes before).length, false⟩ :=
  replayRounds_stop limit (readRound_damaged (fits e (by simp)) limit shape start burst rest)
    (fun x mem => fits x (List.mem_append_left _ mem)) (by rw [List.length_append]; omega)

theorem damage_ends_replay_two :
    replayWal 100 (logBytes [.server (.put [1] [2])] ++
      ((Logged.server (.put [3] [4])).bytes.take 11 ++ ([3, 5] ++ []))) =
      ⟨[.change (.put [1] [2])], (logBytes [.server (.put [1] [2])]).length, false⟩ :=
  damage_ends_replay 100 (by decide) [.server (.put [1] [2])] (.server (.put [3] [4]))
    (by simp [CacheRecord.Fits, Logged.record, CacheRecord.key, CacheRecord.value, Change.key,
      Change.value]) _ [3, 4] [3, 5] [] rfl rfl
    ⟨[3], [4], [5], [], rfl, rfl, rfl, by decide, by decide⟩

end KuttiDB.Log
