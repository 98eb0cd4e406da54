/- # KuttiDB.Job.HashCorrect -- the digest of the job modules is SHA-256

`job_sha256_parts` hashes a list of byte spans through a buffer of one block. The block function is
the standard's (`shaCompress_value`), the buffer keeps what has been taken in (`shaUpdate_has`),
and the padding loop with the length written behind it completes the standard's padded message
(`padded_bits`), whatever the spans are.
-/
import KuttiDB.Theory.SecureHash
import KuttiDB.Job.Digest
import Mathlib.Tactic.IntervalCases

namespace KuttiDB.Job

open KuttiDB.QueueStore (Bytes)
open KuttiDB.Theory.SecureHash

set_option autoImplicit false

/-- A byte string as the bit string it stands for, leftmost bit of each byte first. -/
def bitString (bytes : Bytes) : Bits := bytes.flatMap fun b => bitsOf b.toBitVec

/-- The chaining words as the standard's hash value. -/
def ShaWords.value (v : ShaWords) : HashValue :=
  ⟨v.a.toBitVec, v.b.toBitVec, v.c.toBitVec, v.d.toBitVec, v.e.toBitVec, v.f.toBitVec, v.g.toBitVec,
    v.h.toBitVec⟩

/-! ## Bytes and bits -/

@[simp] theorem length_bitsOf {w : Nat} (x : BitVec w) : (bitsOf x).length = w := by simp [bitsOf]

@[simp] theorem bitString_nil : bitString [] = [] := rfl

@[simp] theorem bitString_cons (b : UInt8) (bytes : Bytes) :
    bitString (b :: bytes) = bitsOf b.toBitVec ++ bitString bytes := rfl

@[simp] theorem bitString_append (xs ys : Bytes) : bitString (xs ++ ys) = bitString xs ++ bitString ys :=
  List.flatMap_append

@[simp] theorem length_bitString (bytes : Bytes) : (bitString bytes).length = 8 * bytes.length := by
  induction bytes with
  | nil => rfl
  | cons b bytes ih =>
      simp only [bitString_cons, List.length_append, length_bitsOf, ih, List.length_cons]
      omega

theorem drop_bitString (n : Nat) (bytes : Bytes) :
    (bitString bytes).drop (8 * n) = bitString (bytes.drop n) := by
  induction n generalizing bytes with
  | zero => simp
  | succ n ih =>
      cases bytes with
      | nil => simp
      | cons b bytes =>
          rw [bitString_cons, Nat.mul_succ, Nat.add_comm, ← List.drop_drop, List.drop_left' (by simp),
            ih, List.drop_succ_cons]

theorem bitsOf_inj {w : Nat} {x y : BitVec w} (same : bitsOf x = bitsOf y) : x = y := by
  apply BitVec.eq_of_getMsbD_eq
  intro i small
  simpa [bitsOf, small] using congrArg (fun bits => bits[i]?) same

theorem bitString_inj {xs ys : Bytes} (same : bitString xs = bitString ys) : xs = ys := by
  induction xs generalizing ys with
  | nil =>
      have size := congrArg List.length same
      simp only [length_bitString, List.length_nil] at size
      exact (List.length_eq_zero_iff.mp (by omega)).symm
  | cons x xs ih =>
      cases ys with
      | nil =>
          have size := congrArg List.length same
          simp only [length_bitString, List.length_cons, List.length_nil] at size
          omega
      | cons y ys =>
          obtain ⟨head, tail⟩ := List.append_inj same (by simp)
          rw [UInt8.toBitVec_inj.mp (bitsOf_inj head), ih tail]

/-! ## Words of a block -/

theorem foldl_bitsOf (word : Word) (x : BitVec 8) :
    (bitsOf x).foldl BitVec.shiftConcat word = word <<< 8 ||| x.setWidth 32 := by
  simp only [bitsOf, List.range_succ, List.range_zero, List.nil_append, List.cons_append,
    List.map_cons, List.map_nil, List.foldl_cons, List.foldl_nil]
  ext i small
  simp only [BitVec.getElem_shiftConcat, BitVec.getElem_or, BitVec.getElem_shiftLeft,
    BitVec.getElem_setWidth]
  by_cases low : i < 8
  · interval_cases i <;> simp [BitVec.getMsbD]
  · rw [if_neg (by omega), if_neg (by omega), if_neg (by omega), if_neg (by omega), if_neg (by omega),
      if_neg (by omega), if_neg (by omega), if_neg (by omega)]
    simp [low, BitVec.getLsbD_of_ge x i (by omega), Nat.sub_sub]

theorem wordOf_bytes (b₀ b₁ b₂ b₃ : UInt8) :
    wordOf (bitString [b₀, b₁, b₂, b₃]) =
      ((b₀.toUInt32 <<< 24) ||| (b₁.toUInt32 <<< 16) ||| (b₂.toUInt32 <<< 8) |||
        b₃.toUInt32).toBitVec := by
  have shifts (w₀ w₁ w₂ w₃ : Word) : ((((0#32 <<< 8 ||| w₀) <<< 8 ||| w₁) <<< 8 ||| w₂) <<< 8 ||| w₃) =
      w₀ <<< 24 ||| w₁ <<< 16 ||| w₂ <<< 8 ||| w₃ := by
    simp [BitVec.shiftLeft_or_distrib, ← BitVec.shiftLeft_add]
  have code : ((b₀.toUInt32 <<< 24) ||| (b₁.toUInt32 <<< 16) ||| (b₂.toUInt32 <<< 8) |||
      b₃.toUInt32).toBitVec = b₀.toBitVec.setWidth 32 <<< 24 ||| b₁.toBitVec.setWidth 32 <<< 16 |||
        b₂.toBitVec.setWidth 32 <<< 8 ||| b₃.toBitVec.setWidth 32 := by
    simp only [UInt32.toBitVec_or, UInt32.toBitVec_shiftLeft, UInt8.toBitVec_toUInt32]
    simp
  rw [code, ← shifts]
  simp only [wordOf, bitString_cons, bitString_nil, List.append_nil, List.foldl_append, foldl_bitsOf]
  rfl

theorem shaWordAt_eq {block : Bytes} (full : block.length = 64) {t : Nat} (small : t < 16) :
    (shaWordAt block t).toBitVec = blockWord (bitString block) t := by
  obtain ⟨b₀, b₁, b₂, b₃, rest, cut⟩ :
      ∃ b₀ b₁ b₂ b₃ rest, block.drop (4 * t) = b₀ :: b₁ :: b₂ :: b₃ :: rest := by
    have size : 4 ≤ (block.drop (4 * t)).length := by
      rw [List.length_drop]
      omega
    match block.drop (4 * t), size with
    | b₀ :: b₁ :: b₂ :: b₃ :: rest, _ => exact ⟨b₀, b₁, b₂, b₃, rest, rfl⟩
  have bytes (j : Nat) : block.getD (t * 4 + j) 0 = (block.drop (4 * t)).getD j 0 := by
    simp [List.getD_eq_getElem?_getD, Nat.mul_comm]
  have first := bytes 0
  rw [Nat.add_zero] at first
  rw [blockWord, show 32 * t = 8 * (4 * t) by omega, drop_bitString, cut, shaWordAt, first, bytes 1,
    bytes 2, bytes 3, cut]
  rw [show (b₀ :: b₁ :: b₂ :: b₃ :: rest) = [b₀, b₁, b₂, b₃] ++ rest from rfl, bitString_append,
    List.take_left' (by simp), wordOf_bytes]
  rfl

/-! ## The block function -/

theorem smallSigma0_eq (x : UInt32) :
    (shaRor x 7 ^^^ shaRor x 18 ^^^ (x >>> 3)).toBitVec = smallSigma0 x.toBitVec := by
  simp [shaRor, smallSigma0, BitVec.rotateRight_def]

theorem smallSigma1_eq (x : UInt32) :
    (shaRor x 17 ^^^ shaRor x 19 ^^^ (x >>> 10)).toBitVec = smallSigma1 x.toBitVec := by
  simp [shaRor, smallSigma1, BitVec.rotateRight_def]

theorem bigSigma0_eq (x : UInt32) :
    (shaRor x 2 ^^^ shaRor x 13 ^^^ shaRor x 22).toBitVec = bigSigma0 x.toBitVec := by
  simp [shaRor, bigSigma0, BitVec.rotateRight_def]

theorem bigSigma1_eq (x : UInt32) :
    (shaRor x 6 ^^^ shaRor x 11 ^^^ shaRor x 25).toBitVec = bigSigma1 x.toBitVec := by
  simp [shaRor, bigSigma1, BitVec.rotateRight_def]

theorem ch_eq (x y z : UInt32) :
    ((x &&& y) ^^^ (~~~x &&& z)).toBitVec = ch x.toBitVec y.toBitVec z.toBitVec := rfl

theorem maj_eq (x y z : UInt32) :
    ((x &&& y) ^^^ (x &&& z) ^^^ (y &&& z)).toBitVec = maj x.toBitVec y.toBitVec z.toBitVec := rfl

/-- The table of the source holds the standard's constants. -/
theorem shaK_eq : ∀ t < 64, (shaK.getD t 0).toBitVec = roundConstant t := by decide +kernel

theorem shaInit_value : shaInit.words.value = initial := by decide +kernel

/-- The word that the schedule loop appends in turn `j`. -/
def scheduleWord (w : Array UInt32) (j : Nat) : UInt32 :=
  let x := w.getD (j + 16 - 15) 0
  let y := w.getD (j + 16 - 2) 0
  w.getD (j + 16 - 16) 0 + (shaRor x 7 ^^^ shaRor x 18 ^^^ (x >>> 3)) + w.getD (j + 16 - 7) 0 +
    (shaRor y 17 ^^^ shaRor y 19 ^^^ (y >>> 10))

/-- The schedule before turn `j` of its loop. -/
def shaScheduleTo (block : Bytes) (j : Nat) : Array UInt32 :=
  (List.range j).foldl (fun w j => w.push (scheduleWord w j))
    ((List.range 16).map (shaWordAt block)).toArray

theorem shaScheduleTo_last (block : Bytes) : shaScheduleTo block 48 = shaSchedule block := rfl

theorem shaScheduleTo_succ (block : Bytes) (j : Nat) :
    shaScheduleTo block (j + 1) =
      (shaScheduleTo block j).push (scheduleWord (shaScheduleTo block j) j) := by
  simp only [shaScheduleTo, List.range_succ, List.foldl_append, List.foldl_cons, List.foldl_nil]

theorem shaScheduleTo_eq {block : Bytes} (full : block.length = 64) (j : Nat) :
    (shaScheduleTo block j).size = 16 + j ∧
      ∀ t < 16 + j, ((shaScheduleTo block j).getD t 0).toBitVec = schedule (bitString block) t := by
  induction j with
  | zero =>
      refine ⟨by simp [shaScheduleTo], fun t small => ?_⟩
      rw [schedule, if_pos small, ← shaWordAt_eq full small]
      simp [shaScheduleTo, Array.getD_eq_getD_getElem?, small]
  | succ j ih =>
      obtain ⟨size, words⟩ := ih
      have next : (scheduleWord (shaScheduleTo block j) j).toBitVec =
          schedule (bitString block) (16 + j) := by
        rw [schedule, if_neg (by omega), scheduleWord]
        simp only [UInt32.toBitVec_add, smallSigma0_eq, smallSigma1_eq]
        rw [words _ (by omega), words _ (by omega), words _ (by omega), words _ (by omega),
          Nat.add_comm 16 j]
        -- the source adds the four terms in another order
        ac_rfl
      refine ⟨by rw [shaScheduleTo_succ, Array.size_push, size]; rfl, fun t small => ?_⟩
      rw [shaScheduleTo_succ]
      rcases Nat.lt_or_ge t (16 + j) with old | new
      · rw [← words t old]
        simp only [Array.getD_eq_getD_getElem?]
        rw [Array.getElem?_push_lt (by omega), Array.getElem?_eq_getElem (by omega)]
      · obtain rfl : t = 16 + j := by omega
        rw [← next, Array.getD_eq_getD_getElem?, ← size, Array.getElem?_push_size, Option.getD_some]

theorem shaSchedule_eq {block : Bytes} (full : block.length = 64) {t : Nat} (small : t < 64) :
    ((shaSchedule block).getD t 0).toBitVec = schedule (bitString block) t := by
  rw [← shaScheduleTo_last]
  exact (shaScheduleTo_eq full 48).2 t small

theorem shaRound_value {block : Bytes} (full : block.length = 64) (v : ShaWords) {t : Nat}
    (small : t < 64) :
    (shaRound (shaSchedule block) v t).value = round (bitString block) v.value t := by
  have word := shaSchedule_eq full small
  have constant := shaK_eq t small
  simp only [shaRound, Theory.SecureHash.round, ShaWords.value, UInt32.toBitVec_add, bigSigma0_eq, bigSigma1_eq, ch_eq,
    maj_eq, word, constant]

theorem shaRounds_value {block : Bytes} (full : block.length = 64) (v : ShaWords) {n : Nat}
    (most : n ≤ 64) :
    ((List.range n).foldl (shaRound (shaSchedule block)) v).value =
      (List.range n).foldl (round (bitString block)) v.value := by
  induction n with
  | zero => rfl
  | succ n ih =>
      simp only [List.range_succ, List.foldl_append, List.foldl_cons, List.foldl_nil]
      rw [shaRound_value full _ (by omega), ih (by omega)]

/-- **The block function is the standard's.** -/
theorem shaCompress_value {block : Bytes} (full : block.length = 64) (h : ShaWords) :
    (shaCompress h block).value = compress h.value (bitString block) := by
  have rounds := shaRounds_value full h (le_refl 64)
  rw [compress, ← rounds]
  simp only [shaCompress, ShaWords.value, UInt32.toBitVec_add, BitVec.add_comm]

/-! ## The buffer -/

/-- The hash state has taken in `data`. -/
def Sha256.Has (s : Sha256) (data : Bytes) : Prop :=
  Absorbed shaCompress 64 shaInit.words data s.words s.buf

theorem shaFill_has {s : Sha256} {data : Bytes} (has : s.Has data) (more : Bytes) :
    (shaFill s more).Has (data ++ more) := by
  fun_induction shaFill s more generalizing data with
  | case1 s => simpa using has
  | case2 s more nonempty take filled full =>
      rename_i ih
      have rest := ih ((has.buffer _).flush full)
      rwa [List.append_assoc, List.take_append_drop] at rest
  | case3 s more nonempty take filled partly =>
      rename_i ih
      have rest := ih (has.buffer _)
      rwa [List.append_assoc, List.take_append_drop] at rest

theorem shaUpdate_has {s : Sha256} {data : Bytes} (has : s.Has data) (more : Bytes) :
    (shaUpdate s more).Has (data ++ more) :=
  shaFill_has (s := { s with total := s.total + more.length }) has more

theorem Sha256.Has.length_mod {s : Sha256} {data : Bytes} (has : s.Has data) :
    data.length % 64 = s.buf.length :=
  Absorbed.length_mod has s.partialBlock

theorem shaFill_total (s : Sha256) (more : Bytes) : (shaFill s more).total = s.total := by
  fun_induction shaFill s more with
  | case1 s => rfl
  | case2 s more nonempty take filled full => assumption
  | case3 s more nonempty take filled partly => assumption

theorem shaUpdate_total (s : Sha256) (more : Bytes) :
    (shaUpdate s more).total = s.total + more.length :=
  shaFill_total _ more

/-- The zeros go in one by one until eight bytes of the block are left. -/
theorem shaPadZeros_has {s : Sha256} {data : Bytes} (has : s.Has data) {k fuel : Nat}
    (fills : (data.length + k) % 64 = 56) (least : k < 64) (enough : k ≤ fuel) :
    (shaPadZeros fuel s).Has (data ++ List.replicate k 0) ∧ (shaPadZeros fuel s).buf.length = 56 := by
  have length := has.length_mod
  induction fuel generalizing s data k with
  | zero =>
      obtain rfl : k = 0 := by omega
      show s.Has (data ++ []) ∧ s.buf.length = 56
      exact ⟨by rwa [List.append_nil], by omega⟩
  | succ fuel ih =>
      rw [shaPadZeros]
      by_cases done : s.buf.length = 56
      · obtain rfl : k = 0 := by omega
        rw [if_pos done]
        exact ⟨by simpa using has, done⟩
      · obtain ⟨k, rfl⟩ : ∃ j, k = j + 1 := ⟨k - 1, by omega⟩
        have one := shaUpdate_has has [0]
        rw [if_neg done]
        have fills' : ((data ++ [0]).length + k) % 64 = 56 := by
          rw [List.length_append, List.length_singleton]
          omega
        have rest := ih one fills' (by omega) (by omega) one.length_mod
        rwa [List.append_assoc, ← List.replicate_one, List.replicate_append_replicate,
          Nat.add_comm 1 k] at rest

theorem parts_has (parts : List Bytes) {s : Sha256} {data : Bytes} (has : s.Has data) :
    let s' := parts.foldl (fun s part => if part = [] then s else shaUpdate s part) s
    s'.Has (data ++ parts.flatten) ∧ s'.total = s.total + parts.flatten.length := by
  induction parts generalizing s data with
  | nil => simpa using has
  | cons part parts ih =>
      simp only [List.foldl_cons, List.flatten_cons]
      by_cases empty : part = []
      · rw [if_pos empty, empty, List.nil_append]
        exact ih has
      · rw [if_neg empty, ← List.append_assoc, List.length_append, ← Nat.add_assoc,
          ← shaUpdate_total]
        exact ih (shaUpdate_has has part)

/-! ## The padding -/

theorem bitString_zeros (k : Nat) : bitString (List.replicate k 0) = List.replicate (8 * k) false := by
  have zero : bitsOf (0 : UInt8).toBitVec = List.replicate 8 false := by decide
  induction k with
  | zero => rfl
  | succ k ih =>
      rw [List.replicate_succ, bitString_cons, ih, zero, List.replicate_append_replicate,
        Nat.mul_succ, Nat.add_comm]

theorem bitsOf_ofNat (w n : Nat) :
    bitsOf (BitVec.ofNat w n) = (List.range w).map fun i => n.testBit (w - 1 - i) := by
  refine List.map_congr_left fun i mem => ?_
  have small := List.mem_range.mp mem
  simp [BitVec.getMsbD, BitVec.getLsbD_ofNat, small]
  omega

/-- The trailer holds its number as the standard's 64-bit block. -/
theorem bitString_lengthBytes (n : Nat) : bitString (shaLengthBytes n) = bitsOf (BitVec.ofNat 64 n) := by
  have byte (v : Nat) :
      bitsOf (UInt8.ofNat v).toBitVec = (List.range 8).map fun i => v.testBit (7 - i) :=
    bitsOf_ofNat 8 v
  rw [bitsOf_ofNat]
  simp only [bitString, shaLengthBytes, List.flatMap_map, byte, Nat.testBit_shiftRight]
  rfl

theorem bitString_wordBytes (x : UInt32) : bitString (shaWordBytes x) = bitsOf x.toBitVec := by
  simp only [bitString, shaWordBytes, bitsOf, List.flatMap_cons, List.flatMap_nil, List.append_nil]
  simp [List.range_succ, BitVec.getMsbD]

/-- What `shaFinal` completes is the standard's padded message. -/
theorem padded_bits {data : Bytes} {k : Nat} (fills : (data.length + 1 + k) % 64 = 56)
    (least : k < 64) :
    bitString (data ++ [0x80] ++ List.replicate k 0 ++ shaLengthBytes (data.length * 8 % 2 ^ 64)) =
      pad (bitString data) := by
  have one : bitString [0x80] = [true] ++ List.replicate 7 false := by decide
  have zeros : paddingZeros (bitString data).length = 7 + 8 * k :=
    paddingZeros_unique (by rw [length_bitString]; omega) (by omega)
  have length : BitVec.ofNat 64 (data.length * 8 % 2 ^ 64) = BitVec.ofNat 64 (bitString data).length := by
    apply BitVec.eq_of_toNat_eq
    rw [BitVec.toNat_ofNat, BitVec.toNat_ofNat, Nat.mod_mod, length_bitString, Nat.mul_comm 8]
  simp only [pad, zeros, bitString_append, one, bitString_zeros, bitString_lengthBytes, length,
    ← List.replicate_append_replicate, List.append_assoc]

theorem shaFinal_bits {s : Sha256} {data : Bytes} (has : s.Has data) (total : s.total = data.length) :
    bitString (shaFinal s) = sha256 (bitString data) := by
  obtain ⟨k, fills, least⟩ : ∃ k, (data.length + 1 + k) % 64 = 56 ∧ k < 64 :=
    ⟨(119 - data.length % 64) % 64, by omega, by omega⟩
  obtain ⟨zeros, size⟩ := shaPadZeros_has (shaUpdate_has has [0x80]) (k := k)
    (by simpa using fills) least (le_of_lt least)
  have last := (zeros.buffer (shaLengthBytes (data.length * 8 % 2 ^ 64))).flush
    (by simp [size, shaLengthBytes])
  have bits := last.encode (fun b => bitsOf b.toBitVec) ShaWords.value (fun b => length_bitsOf _)
    fun h block full => shaCompress_value full h
  rw [← bitString, padded_bits fills least, shaInit_value] at bits
  rw [sha256_of_absorbed bits, shaFinal, total]
  simp only [List.flatMap_cons, List.flatMap_nil, bitString_append, bitString_nil,
    bitString_wordBytes, HashValue.bits]
  rfl

/-- **`job_sha256_parts` is SHA-256 of the concatenated spans**, however they are cut. -/
theorem jobSha256Parts_sha256 (parts : List Bytes) :
    bitString (jobSha256Parts parts) = sha256 (bitString parts.flatten) ∧
      jobSha256Parts parts = jobSha256Parts [parts.flatten] := by
  have digest (spans : List Bytes) :
      bitString (jobSha256Parts spans) = sha256 (bitString spans.flatten) := by
    have start : shaInit.Has [] := Absorbed.nil
    obtain ⟨has, total⟩ := parts_has spans start
    exact shaFinal_bits has (total.trans (Nat.zero_add _))
  refine ⟨digest parts, bitString_inj ?_⟩
  rw [digest parts, digest [parts.flatten], List.flatten_cons, List.flatten_nil, List.append_nil]

-- the standard's first example, "abc", in two spans
example : jobSha256Parts [[97], [98, 99]] =
    [0xba, 0x78, 0x16, 0xbf, 0x8f, 0x01, 0xcf, 0xea, 0x41, 0x41, 0x40, 0xde, 0x5d, 0xae, 0x22, 0x23,
      0xb0, 0x03, 0x61, 0xa3, 0x96, 0x17, 0x7a, 0x9c, 0xb4, 0x10, 0xff, 0x61, 0xf2, 0x00, 0x15, 0xad] :=
  by decide +kernel

end KuttiDB.Job
