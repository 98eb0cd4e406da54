/- # KuttiDB.Log.Checksum -- the three CRC-32 routines of the logs

The cache log folds its bytes through one table, byte by byte. The queue and stream logs take eight
bytes a step through eight tables. Both are the same function. What a byte does to the register is
`step` of the register with the byte added in (`byteStep_eq`), and `step` is linear over exclusive or
because the bit step that fills the table is (`bitStep_linear`). Table `k` holds `k + 1` steps of each
byte (`crcInit_good`), so the eight lookups add up what the register and the eight bytes contribute
(`sliceStep_eq`).
-/
import Mathlib.Logic.Function.Iterate
import KuttiDB.QueueStore.Record

namespace KuttiDB.Log

open KuttiDB.QueueStore (Bytes)

set_option autoImplicit false

/-! ## Linear maps of a register -/

section Linear

variable {w : Nat}

def XorLinear (f : BitVec w → BitVec w) : Prop := ∀ x y, f (x ^^^ y) = f x ^^^ f y

theorem XorLinear.zero {f : BitVec w → BitVec w} (linear : XorLinear f) : f 0#w = 0#w := by
  have twice := linear 0#w 0#w
  rwa [BitVec.xor_self, BitVec.xor_self] at twice

theorem XorLinear.iterate {f : BitVec w → BitVec w} (linear : XorLinear f) :
    ∀ n : Nat, XorLinear f^[n]
  | 0 => fun _ _ => rfl
  | n + 1 => fun x y => by
      rw [Function.iterate_succ_apply, Function.iterate_succ_apply, Function.iterate_succ_apply,
        linear, linear.iterate n]

end Linear

/-! ## The routines -/

/-- The eight tables, as the filling loops find and leave them. -/
def Table : Type := Nat → Nat → BitVec 32

/-- Static storage starts out clear. -/
def Table.clear : Table := fun _ _ => 0#32

def Table.write (t : Table) (slice i : Nat) (value : BitVec 32) : Table :=
  fun s j => if s = slice ∧ j = i then value else t s j

/-- One bit of the reflected polynomial, as the queue and cache logs write it. -/
def bitStep (value : BitVec 32) : BitVec 32 :=
  if value &&& 1#32 ≠ 0#32 then 0xedb88320#32 ^^^ (value >>> 1) else value >>> 1

/-- The same bit, as the stream log writes it. -/
def streamBitStep (value : BitVec 32) : BitVec 32 :=
  if value &&& 1#32 ≠ 0#32 then (value >>> 1) ^^^ 0xedb88320#32 else value >>> 1

def fillByte (bit : BitVec 32 → BitVec 32) (t : Table) (i : Nat) : Table :=
  t.write 0 i ((List.range 8).foldl (fun value _ => bit value) (BitVec.ofNat 32 i))

def fillSlice (i : Nat) (t : Table) (slice : Nat) : Table :=
  t.write slice i (t 0 (t (slice - 1) i &&& 0xff#32).toNat ^^^ (t (slice - 1) i >>> 8))

/-- The byte table alone, which is all the cache log has. -/
def byteInit (bit : BitVec 32 → BitVec 32) : Table :=
  (List.range 256).foldl (fillByte bit) Table.clear

def crcInit (bit : BitVec 32 → BitVec 32) : Table :=
  (List.range 256).foldl (fun t i => (List.range' 1 7).foldl (fillSlice i) t) (byteInit bit)

def byteWord (b : UInt8) : BitVec 32 := b.toBitVec.setWidth 32

def byteStep (t : Table) (crc : BitVec 32) (b : UInt8) : BitVec 32 :=
  t 0 ((crc ^^^ byteWord b) &&& 0xff#32).toNat ^^^ (crc >>> 8)

def lowWord (p0 p1 p2 p3 : UInt8) : BitVec 32 :=
  byteWord p0 ||| (byteWord p1 <<< 8) ||| (byteWord p2 <<< 16) ||| (byteWord p3 <<< 24)

def sliceStep (t : Table) (crc : BitVec 32) (p0 p1 p2 p3 p4 p5 p6 p7 : UInt8) : BitVec 32 :=
  let low := lowWord p0 p1 p2 p3 ^^^ crc
  t 7 (low &&& 0xff#32).toNat ^^^ t 6 ((low >>> 8) &&& 0xff#32).toNat ^^^
    t 5 ((low >>> 16) &&& 0xff#32).toNat ^^^ t 4 ((low >>> 24) &&& 0xff#32).toNat ^^^
    t 3 p4.toNat ^^^ t 2 p5.toNat ^^^ t 1 p6.toNat ^^^ t 0 p7.toNat

/-- Eight bytes a step while there are eight, then one at a time. -/
def crcSpan (t : Table) : BitVec 32 → Bytes → BitVec 32
  | crc, p0 :: p1 :: p2 :: p3 :: p4 :: p5 :: p6 :: p7 :: rest =>
      crcSpan t (sliceStep t crc p0 p1 p2 p3 p4 p5 p6 p7) rest
  | crc, rest => rest.foldl (byteStep t) crc

def queueCrc32 (a b d : Bytes) : BitVec 32 :=
  let t := crcInit bitStep
  [a, b, d].foldl (crcSpan t) 0xffffffff#32 ^^^ 0xffffffff#32

def streamCrc32 (p : Bytes) : BitVec 32 := ~~~crcSpan (crcInit streamBitStep) (~~~0#32) p

def crc32Chain (a b d : Bytes) : BitVec 32 :=
  let t := byteInit bitStep
  d.foldl (byteStep t) (b.foldl (byteStep t) (a.foldl (byteStep t) 0xffffffff#32)) ^^^ 0xffffffff#32

/-! ## The register is linear -/

theorem streamBitStep_eq : streamBitStep = bitStep := by
  funext value
  rw [streamBitStep, bitStep, BitVec.xor_comm]

theorem low_bit (value : BitVec 32) : value &&& 1#32 ≠ 0#32 ↔ value.getLsbD 0 = true := by
  rw [ne_eq, ← Bool.not_eq_false, not_iff_not]
  constructor
  · intro zero
    have bit := congrArg (fun v => v.getLsbD 0) zero
    simpa using bit
  · intro clear
    refine BitVec.eq_of_getLsbD_eq fun i lt => ?_
    by_cases first : i = 0
    · rw [first, BitVec.getLsbD_and, clear, Bool.false_and, BitVec.getLsbD_zero]
    · simp [BitVec.getLsbD_one, first]

theorem bitStep_eq (value : BitVec 32) :
    bitStep value = (if value.getLsbD 0 then 0xedb88320#32 else 0#32) ^^^ (value >>> 1) := by
  unfold bitStep
  by_cases bit : value.getLsbD 0 = true
  · rw [if_pos ((low_bit value).mpr bit), if_pos bit]
  · rw [if_neg (fun odd => bit ((low_bit value).mp odd)), if_neg bit, BitVec.zero_xor]

theorem bitStep_linear : XorLinear bitStep := by
  intro x y
  simp only [bitStep_eq, BitVec.getLsbD_xor, BitVec.ushiftRight_xor_distrib]
  cases x.getLsbD 0 <;> cases y.getLsbD 0
  · simp
  · simp only [Bool.false_xor, if_true, Bool.false_eq_true, if_false, BitVec.zero_xor]
    ac_rfl
  · simp only [Bool.true_xor, Bool.not_false, if_true, Bool.false_eq_true, if_false, BitVec.zero_xor]
    ac_rfl
  · have cancel : ∀ p u v : BitVec 32, p ^^^ u ^^^ (p ^^^ v) = u ^^^ v := fun p u v => by
      rw [show p ^^^ u ^^^ (p ^^^ v) = (p ^^^ p) ^^^ (u ^^^ v) by ac_rfl, BitVec.xor_self,
        BitVec.zero_xor]
    simp [cancel]

/-- What the table does to a register: its low byte is looked up, the rest is shifted down. -/
def step (x : BitVec 32) : BitVec 32 := bitStep^[8] (x &&& 0xff#32) ^^^ (x >>> 8)

theorem mask_linear (m : BitVec 32) : XorLinear (fun x => x &&& m) := by
  intro x y
  refine BitVec.eq_of_getLsbD_eq fun i _ => ?_
  simp only [BitVec.getLsbD_and, BitVec.getLsbD_xor, Bool.and_xor_distrib_right]

theorem step_linear : XorLinear step := by
  intro x y
  have low : (x ^^^ y) &&& 0xff#32 = (x &&& 0xff#32) ^^^ (y &&& 0xff#32) := mask_linear _ x y
  simp only [step, low, BitVec.ushiftRight_xor_distrib, bitStep_linear.iterate 8 (x &&& 0xff#32)]
  ac_rfl

theorem mask_shift (x : BitVec 32) : (x &&& 0xff#32) >>> 8 = 0#32 := by
  refine BitVec.eq_of_toNat_eq ?_
  have small : x.toNat &&& 255 % 2 ^ 32 ≤ 255 := Nat.le_trans Nat.and_le_right (by decide)
  simp only [BitVec.toNat_ushiftRight, BitVec.toNat_and, BitVec.toNat_ofNat,
    Nat.shiftRight_eq_div_pow]
  omega

/-- A register is the byte it looks up and the rest. -/
theorem step_split (x : BitVec 32) : step x = step (x &&& 0xff#32) ^^^ (x >>> 8) := by
  rw [step, step, mask_shift, BitVec.xor_zero, BitVec.and_assoc, BitVec.and_self]

/-- Four steps consume the four bytes of the register. -/
theorem steps_split (x : BitVec 32) (n : Nat) :
    step^[n + 4] x = step^[n + 4] (x &&& 0xff#32) ^^^ step^[n + 3] ((x >>> 8) &&& 0xff#32) ^^^
      step^[n + 2] ((x >>> 16) &&& 0xff#32) ^^^ step^[n + 1] ((x >>> 24) &&& 0xff#32) := by
  have peel : ∀ (k : Nat) (y : BitVec 32),
      step^[k + 1] y = step^[k + 1] (y &&& 0xff#32) ^^^ step^[k] (y >>> 8) := fun k y => by
    rw [Function.iterate_succ_apply, Function.iterate_succ_apply, ← step_linear.iterate k,
      ← step_split]
  have empty : x >>> 24 >>> 8 = 0#32 := by
    rw [← BitVec.shiftRight_add]
    exact BitVec.ushiftRight_eq_zero (by decide)
  have two : x >>> 8 >>> 8 = x >>> 16 := by rw [← BitVec.shiftRight_add]
  have three : x >>> 16 >>> 8 = x >>> 24 := by rw [← BitVec.shiftRight_add]
  rw [peel (n + 3) x, peel (n + 2) (x >>> 8), two, peel (n + 1) (x >>> 16), three, peel n (x >>> 24),
    empty, (step_linear.iterate n).zero, BitVec.xor_zero]
  ac_rfl

/-! ## The bytes of a word -/

theorem mask_byte {i : Nat} (small : i < 256) : BitVec.ofNat 32 i &&& 0xff#32 = BitVec.ofNat 32 i := by
  refine BitVec.eq_of_toNat_eq ?_
  rw [BitVec.toNat_and, BitVec.toNat_ofNat, Nat.mod_eq_of_lt (by omega)]
  change i &&& (2 ^ 8 - 1) = i
  rw [Nat.and_two_pow_sub_one_eq_mod, Nat.mod_eq_of_lt small]

theorem byteWord_eq (b : UInt8) : byteWord b = BitVec.ofNat 32 b.toNat := by
  refine BitVec.eq_of_toNat_eq ?_
  simp [byteWord]

theorem mask_byteWord (b : UInt8) : byteWord b &&& 0xff#32 = byteWord b := by
  rw [byteWord_eq, mask_byte b.toNat_lt]

theorem byteWord_shift (b : UInt8) : byteWord b >>> 8 = 0#32 := by
  rw [← mask_byteWord, mask_shift]

theorem mask_bit : ∀ i < 32, (0xff#32).getLsbD i = decide (i < 8) := by decide

theorem byteWord_bit (b : UInt8) (i : Nat) : (byteWord b).getLsbD i = b.toBitVec.getLsbD i := by
  rw [byteWord, BitVec.getLsbD_setWidth]
  by_cases inside : i < 32
  · simp [inside]
  · simp [inside, BitVec.getLsbD_of_ge b.toBitVec i (by omega)]

section Word

variable (p0 p1 p2 p3 : UInt8)

theorem lowWord_bit (i : Nat) (lt : i < 32) : (lowWord p0 p1 p2 p3).getLsbD i =
    (p0.toBitVec.getLsbD i || decide (8 ≤ i) && p1.toBitVec.getLsbD (i - 8) ||
      decide (16 ≤ i) && p2.toBitVec.getLsbD (i - 16) ||
      decide (24 ≤ i) && p3.toBitVec.getLsbD (i - 24)) := by
  simp only [lowWord, BitVec.getLsbD_or, BitVec.getLsbD_shiftLeft, byteWord_bit, lt, decide_true,
    Bool.true_and]
  simp only [← Nat.not_lt, decide_not]

/-- The byte of the word at a shift, when only this byte has bits there. -/
theorem lowWord_at {shift : Nat} {p : UInt8}
    (only : ∀ i < 8, (lowWord p0 p1 p2 p3).getLsbD (shift + i) = p.toBitVec.getLsbD i) :
    (lowWord p0 p1 p2 p3 >>> shift) &&& 0xff#32 = byteWord p := by
  refine BitVec.eq_of_getLsbD_eq fun i lt => ?_
  rw [BitVec.getLsbD_and, BitVec.getLsbD_ushiftRight, mask_bit i lt, byteWord_bit]
  by_cases small : i < 8
  · rw [only i small]
    simp [small]
  · simp [small, BitVec.getLsbD_of_ge p.toBitVec i (by omega)]

theorem lowWord_bytes : lowWord p0 p1 p2 p3 &&& 0xff#32 = byteWord p0 ∧
    (lowWord p0 p1 p2 p3 >>> 8) &&& 0xff#32 = byteWord p1 ∧
    (lowWord p0 p1 p2 p3 >>> 16) &&& 0xff#32 = byteWord p2 ∧
    (lowWord p0 p1 p2 p3 >>> 24) &&& 0xff#32 = byteWord p3 := by
  have past : ∀ (p : UInt8) (i : Nat), 8 ≤ i → p.toBitVec.getLsbD i = false := fun p i le =>
    BitVec.getLsbD_of_ge p.toBitVec i le
  have first : (lowWord p0 p1 p2 p3 >>> 0) &&& 0xff#32 = byteWord p0 :=
    lowWord_at p0 p1 p2 p3 fun i lt => by
      rw [lowWord_bit _ _ _ _ _ (by omega), Nat.zero_add]
      simp [show ¬8 ≤ i by omega, show ¬16 ≤ i by omega, show ¬24 ≤ i by omega]
  refine ⟨by simpa using first, lowWord_at p0 p1 p2 p3 fun i lt => ?_,
    lowWord_at p0 p1 p2 p3 fun i lt => ?_, lowWord_at p0 p1 p2 p3 fun i lt => ?_⟩
  · rw [lowWord_bit _ _ _ _ _ (by omega), past p0 (8 + i) (by omega)]
    simp [show ¬16 ≤ 8 + i by omega, show ¬24 ≤ 8 + i by omega]
  · rw [lowWord_bit _ _ _ _ _ (by omega), past p0 (16 + i) (by omega),
      past p1 (16 + i - 8) (by omega)]
    simp [show ¬24 ≤ 16 + i by omega]
  · rw [lowWord_bit _ _ _ _ _ (by omega), past p0 (24 + i) (by omega),
      past p1 (24 + i - 8) (by omega), past p2 (24 + i - 16) (by omega)]
    simp

end Word

/-! ## The tables -/

theorem foldl_bit (value : BitVec 32) :
    ∀ n : Nat, (List.range n).foldl (fun value _ => bitStep value) value = bitStep^[n] value
  | 0 => rfl
  | n + 1 => by
      rw [List.range_succ, List.foldl_append, foldl_bit value n, Function.iterate_succ_apply']
      rfl

/-- The byte table holds one step of each byte. -/
def BytesGood (t : Table) : Prop := ∀ i < 256, t 0 i = step (BitVec.ofNat 32 i)

/-- Every table holds its number of steps. -/
def Good (t : Table) : Prop :=
  ∀ slice < 8, ∀ i < 256, t slice i = step^[slice + 1] (BitVec.ofNat 32 i)

@[simp] theorem write_same (t : Table) (slice i : Nat) (value : BitVec 32) :
    t.write slice i value slice i = value := by simp [Table.write]

theorem write_other {t : Table} {slice i s j : Nat} (value : BitVec 32) (other : s ≠ slice ∨ j ≠ i) :
    t.write slice i value s j = t s j := by
  unfold Table.write
  rw [if_neg (fun hit => other.elim (fun ne => ne hit.1) (fun ne => ne hit.2))]

theorem byteInit_good : BytesGood (byteInit bitStep) := by
  have upTo : ∀ n, ∀ i < n, i < 256 →
      (List.range n).foldl (fillByte bitStep) Table.clear 0 i = step (BitVec.ofNat 32 i) := by
    intro n
    induction n with
    | zero => exact fun i lt => absurd lt (Nat.not_lt_zero i)
    | succ n filled =>
        intro i lt small
        rw [List.range_succ, List.foldl_append, List.foldl_cons, List.foldl_nil, fillByte]
        by_cases last : i = n
        · rw [last, write_same, foldl_bit, step, mask_byte (last ▸ small)]
          have high : BitVec.ofNat 32 n >>> 8 = 0#32 := by
            rw [← mask_byte (last ▸ small), mask_shift]
          rw [high, BitVec.xor_zero]
        · rw [write_other _ (Or.inr last)]
          exact filled i (by omega) small
  exact fun i lt => upTo 256 i lt lt

/-- Looking the low byte of a register up and shifting the rest is one step. -/
theorem BytesGood.lookup {t : Table} (good : BytesGood t) (x : BitVec 32) :
    t 0 (x &&& 0xff#32).toNat ^^^ (x >>> 8) = step x := by
  have small : (x &&& 0xff#32).toNat < 256 := by
    rw [BitVec.toNat_and]
    exact Nat.lt_of_le_of_lt Nat.and_le_right (by decide)
  rw [good _ small, BitVec.ofNat_toNat, BitVec.setWidth_eq, ← step_split]

/-- The slices of one byte, filled upwards from the byte table. -/
theorem fillSlice_upTo {t : Table} (good : BytesGood t) {i : Nat} (small : i < 256) :
    ∀ n, n ≤ 7 → let filled := (List.range' 1 n).foldl (fillSlice i) t
      (∀ slice ≤ n, filled slice i = step^[slice + 1] (BitVec.ofNat 32 i)) ∧
        (∀ j, filled 0 j = t 0 j) ∧ ∀ slice j, j ≠ i → filled slice j = t slice j
  | 0, _ => ⟨fun slice le => by
      rw [Nat.le_zero.mp le]
      exact good i small, fun _ => rfl, fun _ _ _ => rfl⟩
  | n + 1, le => by
      obtain ⟨below, bytes, others⟩ := fillSlice_upTo good small n (by omega)
      have last : List.range' 1 (n + 1) = List.range' 1 n ++ [n + 1] := by
        rw [List.range'_concat, Nat.one_mul, Nat.add_comm 1 n]
      simp only [last, List.foldl_append, List.foldl_cons, List.foldl_nil]
      generalize (List.range' 1 n).foldl (fillSlice i) t = filled at below bytes others
      have good' : BytesGood filled := fun j lt => (bytes j).trans (good j lt)
      refine ⟨fun slice top => ?_, fun j => ?_, fun slice j other => ?_⟩
      · by_cases new : slice = n + 1
        · rw [new, fillSlice, write_same, Nat.add_sub_cancel, good'.lookup, below n (Nat.le_refl n),
            Function.iterate_succ_apply' step (n + 1)]
        · rw [fillSlice, write_other _ (Or.inl new)]
          exact below slice (by omega)
      · rw [fillSlice, write_other _ (Or.inl (by omega))]
        exact bytes j
      · rw [fillSlice, write_other _ (Or.inr other)]
        exact others slice j other

theorem crcInit_good : Good (crcInit bitStep) := by
  have upTo : ∀ n ≤ 256, ∀ filled : Table, filled = (List.range n).foldl
        (fun t i => (List.range' 1 7).foldl (fillSlice i) t) (byteInit bitStep) →
      BytesGood filled ∧
        ∀ slice < 8, ∀ i < n, filled slice i = step^[slice + 1] (BitVec.ofNat 32 i) := by
    intro n
    induction n with
    | zero =>
        rintro - filled rfl
        exact ⟨byteInit_good, fun _ _ i lt => absurd lt (Nat.not_lt_zero i)⟩
    | succ n before =>
        rintro le filled rfl
        obtain ⟨good, done⟩ := before (by omega) _ rfl
        simp only [List.range_succ, List.foldl_append, List.foldl_cons, List.foldl_nil]
        generalize (List.range n).foldl _ (byteInit bitStep) = t at good done
        obtain ⟨column, bytes, others⟩ := fillSlice_upTo good (show n < 256 by omega) 7 (Nat.le_refl 7)
        refine ⟨fun i lt => (bytes i).trans (good i lt), fun slice few i lt => ?_⟩
        by_cases last : i = n
        · rw [last]
          exact column slice (by omega)
        · rw [others slice i last]
          exact done slice few i (by omega)
  exact fun slice few i lt => (upTo 256 (Nat.le_refl 256) _ rfl).2 slice few i lt

/-! ## The steps agree -/

theorem byteStep_eq {t : Table} (good : BytesGood t) (crc : BitVec 32) (b : UInt8) :
    byteStep t crc b = step (crc ^^^ byteWord b) := by
  have high : crc >>> 8 = (crc ^^^ byteWord b) >>> 8 := by
    rw [BitVec.ushiftRight_xor_distrib, byteWord_shift, BitVec.xor_zero]
  rw [byteStep, high, good.lookup]

theorem Good.bytes {t : Table} (good : Good t) : BytesGood t := fun i lt => good 0 (by decide) i lt

theorem Good.masked {t : Table} (good : Good t) {slice : Nat} (few : slice < 8) (x : BitVec 32) :
    t slice (x &&& 0xff#32).toNat = step^[slice + 1] (x &&& 0xff#32) := by
  have small : (x &&& 0xff#32).toNat < 256 := by
    rw [BitVec.toNat_and]
    exact Nat.lt_of_le_of_lt Nat.and_le_right (by decide)
  rw [good slice few _ small, BitVec.ofNat_toNat, BitVec.setWidth_eq]

theorem Good.byte {t : Table} (good : Good t) {slice : Nat} (few : slice < 8) (b : UInt8) :
    t slice b.toNat = step^[slice + 1] (byteWord b) := by
  rw [good slice few b.toNat b.toNat_lt, byteWord_eq]

/-- Eight lookups are eight byte steps. -/
theorem sliceStep_eq {t : Table} (good : Good t) (crc : BitVec 32)
    (p0 p1 p2 p3 p4 p5 p6 p7 : UInt8) :
    sliceStep t crc p0 p1 p2 p3 p4 p5 p6 p7 =
      [p0, p1, p2, p3, p4, p5, p6, p7].foldl (byteStep t) crc := by
  obtain ⟨byte0, byte1, byte2, byte3⟩ := lowWord_bytes p0 p1 p2 p3
  -- the register and the first four bytes go in together and come apart by linearity
  have low := steps_split (lowWord p0 p1 p2 p3 ^^^ crc) 4
  have word := steps_split (lowWord p0 p1 p2 p3) 4
  rw [byte0, byte1, byte2, byte3] at word
  rw [step_linear.iterate 8, word] at low
  simp only [sliceStep, good.masked (show 7 < 8 by decide), good.masked (show 6 < 8 by decide),
    good.masked (show 5 < 8 by decide), good.masked (show 4 < 8 by decide),
    good.byte (show 3 < 8 by decide), good.byte (show 2 < 8 by decide),
    good.byte (show 1 < 8 by decide), good.byte (show 0 < 8 by decide)]
  rw [← low]
  simp only [List.foldl_cons, List.foldl_nil, byteStep_eq good.bytes, step_linear _ _,
    Function.iterate_succ_apply', Function.iterate_zero_apply, Nat.reduceAdd]
  ac_rfl

theorem crcSpan_eq {t : Table} (good : Good t) :
    ∀ (crc : BitVec 32) (p : Bytes), crcSpan t crc p = p.foldl (byteStep t) crc := by
  intro crc p
  fun_induction crcSpan t crc p with
  | case1 crc p0 p1 p2 p3 p4 p5 p6 p7 rest ih =>
      rw [ih, sliceStep_eq good, ← List.foldl_append]
      rfl
  | case2 crc p short => rfl

theorem byteStep_congr {t t' : Table} (good : BytesGood t) (good' : BytesGood t') :
    byteStep t = byteStep t' := by
  funext crc b
  rw [byteStep_eq good, byteStep_eq good']

/-- **The three routines compute one function of the concatenated bytes**, however these are divided
among the spans. -/
theorem crc32_agree (a b d : Bytes) :
    queueCrc32 a b d = crc32Chain (a ++ b ++ d) [] [] ∧
      streamCrc32 (a ++ b ++ d) = crc32Chain (a ++ b ++ d) [] [] ∧
      crc32Chain a b d = crc32Chain (a ++ b ++ d) [] [] := by
  have same : byteStep (crcInit bitStep) = byteStep (byteInit bitStep) :=
    byteStep_congr crcInit_good.bytes byteInit_good
  refine ⟨?_, ?_, ?_⟩
  · simp only [queueCrc32, crc32Chain, List.foldl_cons, List.foldl_nil, crcSpan_eq crcInit_good, same,
      List.foldl_append]
  · rw [streamCrc32, streamBitStep_eq, crcSpan_eq crcInit_good, same, ← BitVec.xor_allOnes]
    rfl
  · simp only [crc32Chain, List.foldl_append, List.foldl_nil]

end KuttiDB.Log
