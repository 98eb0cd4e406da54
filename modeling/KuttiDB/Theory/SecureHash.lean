/- # KuttiDB.Theory.SecureHash -- SHA-256 as FIPS 180-4 defines it, and hashing in blocks

`sha256` is the standard's definition over bit strings: the message is padded with a one bit, the
least number of zero bits and its length, cut into blocks of 512 bits, and the blocks are folded into
eight words. The constants are the leading fractional bits of the cube and square roots of the first
primes, computed and not listed.

`Absorbed` is what a program that hashes piece by piece keeps: the whole blocks of the data so far are
folded into its state, the rest waits in its buffer.
-/
import Mathlib.Data.Nat.NthRoot.Defs
import Mathlib.Data.Nat.Sqrt
import Mathlib.Data.Nat.Find
import Mathlib.Algebra.Order.Ring.Int

namespace KuttiDB.Theory.SecureHash

set_option autoImplicit false

/-! ## Cutting a string into blocks -/

section Blocks

variable {α β σ τ : Type}

/-- Consecutive pieces of length `n + 1`; the last one may be shorter. -/
def chunks (n : Nat) : List α → List (List α)
  | [] => []
  | x :: xs => (x :: xs).take (n + 1) :: chunks n ((x :: xs).drop (n + 1))
termination_by xs => xs.length

theorem chunks_block {n : Nat} {block rest : List α} (size : block.length = n + 1) :
    chunks n (block ++ rest) = block :: chunks n rest := by
  cases block with
  | nil => simp at size
  | cons x xs =>
      rw [List.cons_append, chunks, ← List.cons_append, ← size, List.take_left, List.drop_left]

theorem chunks_flatten {n : Nat} {blocks : List (List α)}
    (sizes : ∀ block ∈ blocks, block.length = n + 1) : chunks n blocks.flatten = blocks := by
  induction blocks with
  | nil => simp [chunks]
  | cons block blocks ih =>
      rw [List.flatten_cons, chunks_block (sizes block List.mem_cons_self),
        ih fun b mem => sizes b (List.mem_cons_of_mem block mem)]

/-- `data` has been taken in: its whole blocks are folded into `state`, `rest` is what is left. -/
def Absorbed (compress : σ → List α → σ) (n : Nat) (start : σ) (data : List α) (state : σ)
    (rest : List α) : Prop :=
  ∃ blocks : List (List α), (∀ block ∈ blocks, block.length = n) ∧ data = blocks.flatten ++ rest ∧
    state = blocks.foldl compress start

variable {compress : σ → List α → σ} {n : Nat} {start state : σ} {data rest : List α}

theorem Absorbed.nil : Absorbed compress n start [] start [] :=
  ⟨[], by simp, by simp, rfl⟩

theorem Absorbed.buffer (absorbed : Absorbed compress n start data state rest) (more : List α) :
    Absorbed compress n start (data ++ more) state (rest ++ more) := by
  obtain ⟨blocks, sizes, split, folded⟩ := absorbed
  exact ⟨blocks, sizes, by rw [split, List.append_assoc], folded⟩

/-- A full buffer goes into the state. -/
theorem Absorbed.flush (absorbed : Absorbed compress n start data state rest)
    (full : rest.length = n) : Absorbed compress n start data (compress state rest) [] := by
  obtain ⟨blocks, sizes, split, folded⟩ := absorbed
  refine ⟨blocks ++ [rest], ?_, by simp [split], by simp [folded]⟩
  intro block mem
  rcases List.mem_append.mp mem with old | new
  · exact sizes block old
  · rw [List.mem_singleton.mp new, full]

/-- The length of the rest is the length of the data up to whole blocks. -/
theorem Absorbed.length_mod (absorbed : Absorbed compress n start data state rest)
    (short : rest.length < n) : data.length % n = rest.length := by
  obtain ⟨blocks, sizes, split, -⟩ := absorbed
  have whole : blocks.flatten.length = n * blocks.length := by
    rw [List.length_flatten, List.map_congr_left sizes, List.map_const', List.sum_replicate_nat,
      Nat.mul_comm]
  rw [split, List.length_append, whole, Nat.mul_add_mod, Nat.mod_eq_of_lt short]

/-- Hashing letter by letter encoded data is hashing, if one step agrees with one step. -/
theorem Absorbed.encode {compress' : τ → List β → τ} (encode : α → List β) (view : σ → τ) {k : Nat}
    (width : ∀ a, (encode a).length = k)
    (agrees : ∀ s block, block.length = n →
      view (compress s block) = compress' (view s) (block.flatMap encode))
    (absorbed : Absorbed compress n start data state rest) :
    Absorbed compress' (n * k) (view start) (data.flatMap encode) (view state)
      (rest.flatMap encode) := by
  obtain ⟨blocks, sizes, split, folded⟩ := absorbed
  refine ⟨blocks.map (List.flatMap encode), ?_, ?_, ?_⟩
  · intro block mem
    obtain ⟨old, there, rfl⟩ := List.mem_map.mp mem
    rw [List.length_flatMap, List.map_congr_left fun a _ => width a, List.map_const',
      List.sum_replicate_nat, sizes old there]
  · rw [split, List.flatMap_append, ← List.flatMap_id, List.flatMap_assoc]
    rfl
  · subst folded
    clear split
    induction blocks generalizing start with
    | nil => rfl
    | cons block blocks ih =>
        have step := agrees start block (sizes block List.mem_cons_self)
        rw [List.foldl_cons, List.map_cons, List.foldl_cons, ← step]
        exact ih fun b mem => sizes b (List.mem_cons_of_mem block mem)

end Blocks

/-! ## Functions and constants of the standard -/

abbrev Word := BitVec 32

abbrev Bits := List Bool

def ch (x y z : Word) : Word := (x &&& y) ^^^ (~~~x &&& z)

def maj (x y z : Word) : Word := (x &&& y) ^^^ (x &&& z) ^^^ (y &&& z)

def bigSigma0 (x : Word) : Word := x.rotateRight 2 ^^^ x.rotateRight 13 ^^^ x.rotateRight 22

def bigSigma1 (x : Word) : Word := x.rotateRight 6 ^^^ x.rotateRight 11 ^^^ x.rotateRight 25

def smallSigma0 (x : Word) : Word := x.rotateRight 7 ^^^ x.rotateRight 18 ^^^ (x >>> 3)

def smallSigma1 (x : Word) : Word := x.rotateRight 17 ^^^ x.rotateRight 19 ^^^ (x >>> 10)

/-- The first sixty-four primes. -/
def firstPrimes : List Nat := [
    2, 3, 5, 7, 11, 13, 17, 19, 23, 29, 31, 37, 41, 43, 47, 53, 59, 61, 67, 71, 73, 79, 83, 89, 97,
    101, 103, 107, 109, 113, 127, 131, 137, 139, 149, 151, 157, 163, 167, 173, 179, 181, 191, 193,
    197, 199, 211, 223, 227, 229, 233, 239, 241, 251, 257, 263, 269, 271, 277, 281, 283, 293, 307,
    311]

/-- The first 32 bits of the fractional part of the cube root of the prime. -/
def roundConstant (t : Nat) : Word := BitVec.ofNat 32 (Nat.nthRoot 3 (firstPrimes.getD t 0 * 2 ^ 96))

/-- The first 32 bits of the fractional part of the square root of the prime. -/
def initialWord (i : Nat) : Word := BitVec.ofNat 32 (Nat.sqrt (firstPrimes.getD i 0 * 2 ^ 64))

/-- The eight working variables, and the intermediate hash value. -/
structure HashValue where
  a : Word
  b : Word
  c : Word
  d : Word
  e : Word
  f : Word
  g : Word
  h : Word
  deriving DecidableEq, Repr

def initial : HashValue :=
  ⟨initialWord 0, initialWord 1, initialWord 2, initialWord 3, initialWord 4, initialWord 5,
    initialWord 6, initialWord 7⟩

/-! ## Preprocessing -/

/-- The bits of a word, leftmost first. -/
def bitsOf {w : Nat} (x : BitVec w) : Bits := (List.range w).map x.getMsbD

/-- A string of 32 bits as a word. -/
def wordOf (bits : Bits) : Word := bits.foldl BitVec.shiftConcat 0

theorem zeros_exist (l : Nat) : ∃ k, (l + 1 + k) % 512 = 448 := ⟨(959 - l % 512) % 512, by omega⟩

/-- The least number of zero bits that leaves room for exactly the length in the last block. -/
def paddingZeros (l : Nat) : Nat := Nat.find (zeros_exist l)

theorem paddingZeros_unique {l k : Nat} (fills : (l + 1 + k) % 512 = 448) (least : k < 512) :
    paddingZeros l = k := by
  have found := Nat.find_spec (zeros_exist l)
  have below := Nat.find_min' (zeros_exist l) fills
  unfold paddingZeros
  omega

def pad (message : Bits) : Bits :=
  message ++ [true] ++ List.replicate (paddingZeros message.length) false ++
    bitsOf (BitVec.ofNat 64 message.length)

/-! ## Hash computation -/

/-- Word `t` of a block. -/
def blockWord (block : Bits) (t : Nat) : Word := wordOf ((block.drop (32 * t)).take 32)

/-- The message schedule. -/
def schedule (block : Bits) (t : Nat) : Word :=
  if t < 16 then blockWord block t
  else smallSigma1 (schedule block (t - 2)) + schedule block (t - 7) +
    smallSigma0 (schedule block (t - 15)) + schedule block (t - 16)
termination_by t

def round (block : Bits) (v : HashValue) (t : Nat) : HashValue :=
  let t1 := v.h + bigSigma1 v.e + ch v.e v.f v.g + roundConstant t + schedule block t
  let t2 := bigSigma0 v.a + maj v.a v.b v.c
  ⟨t1 + t2, v.a, v.b, v.c, v.d + t1, v.e, v.f, v.g⟩

def compress (h : HashValue) (block : Bits) : HashValue :=
  let v := (List.range 64).foldl (round block) h
  ⟨v.a + h.a, v.b + h.b, v.c + h.c, v.d + h.d, v.e + h.e, v.f + h.f, v.g + h.g, v.h + h.h⟩

/-- The eight words of a hash value as one string of 256 bits. -/
def HashValue.bits (v : HashValue) : Bits :=
  [v.a, v.b, v.c, v.d, v.e, v.f, v.g, v.h].flatMap bitsOf

def sha256 (message : Bits) : Bits := ((chunks 511 (pad message)).foldl compress initial).bits

/-- A padded message that has been taken in whole gives the digest. -/
theorem sha256_of_absorbed {message : Bits} {value : HashValue}
    (absorbed : Absorbed compress 512 initial (pad message) value []) :
    sha256 message = value.bits := by
  obtain ⟨blocks, sizes, split, rfl⟩ := absorbed
  rw [sha256, split, List.append_nil, chunks_flatten sizes]

end KuttiDB.Theory.SecureHash
