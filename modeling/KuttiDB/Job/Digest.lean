/- # KuttiDB.Job.Digest -- the request digest of job operations

The self-contained SHA-256 of the job modules and the canonical request form (tag `KJS1`) it
hashes. The digest is what decides whether a retry carries the same request, and replay recomputes
it from the fields of a record, so the receipt ledger needs it as a function of those fields.
-/
import KuttiDB.QueueStore.Record

namespace KuttiDB.Job

open KuttiDB.QueueStore (Bytes JobKind)

set_option autoImplicit false

/-! ## SHA-256 -/

def shaK : Array UInt32 := #[
    0x428a2f98, 0x71374491, 0xb5c0fbcf, 0xe9b5dba5, 0x3956c25b, 0x59f111f1,
    0x923f82a4, 0xab1c5ed5, 0xd807aa98, 0x12835b01, 0x243185be, 0x550c7dc3,
    0x72be5d74, 0x80deb1fe, 0x9bdc06a7, 0xc19bf174, 0xe49b69c1, 0xefbe4786,
    0x0fc19dc6, 0x240ca1cc, 0x2de92c6f, 0x4a7484aa, 0x5cb0a9dc, 0x76f988da,
    0x983e5152, 0xa831c66d, 0xb00327c8, 0xbf597fc7, 0xc6e00bf3, 0xd5a79147,
    0x06ca6351, 0x14292967, 0x27b70a85, 0x2e1b2138, 0x4d2c6dfc, 0x53380d13,
    0x650a7354, 0x766a0abb, 0x81c2c92e, 0x92722c85, 0xa2bfe8a1, 0xa81a664b,
    0xc24b8b70, 0xc76c51a3, 0xd192e819, 0xd6990624, 0xf40e3585, 0x106aa070,
    0x19a4c116, 0x1e376c08, 0x2748774c, 0x34b0bcb5, 0x391c0cb3, 0x4ed8aa4a,
    0x5b9cca4f, 0x682e6ff3, 0x748f82ee, 0x78a5636f, 0x84c87814, 0x8cc70208,
    0x90befffa, 0xa4506ceb, 0xbef9a3f7, 0xc67178f2]

/-- The eight chaining words. -/
structure ShaWords where
  a : UInt32
  b : UInt32
  c : UInt32
  d : UInt32
  e : UInt32
  f : UInt32
  g : UInt32
  h : UInt32
  deriving DecidableEq, Repr

/-- Running hash state. `buf` holds the bytes of the block being filled, so it never holds a whole
block. -/
structure Sha256 where
  words : ShaWords
  buf : Bytes
  partialBlock : buf.length < 64
  total : Nat

def shaRor (x n : UInt32) : UInt32 := (x >>> n) ||| (x <<< (32 - n))

def shaWordAt (block : Bytes) (i : Nat) : UInt32 :=
  ((block.getD (i * 4) 0).toUInt32 <<< 24) ||| ((block.getD (i * 4 + 1) 0).toUInt32 <<< 16) |||
    ((block.getD (i * 4 + 2) 0).toUInt32 <<< 8) ||| (block.getD (i * 4 + 3) 0).toUInt32

/-- Message schedule: sixteen big-endian words, then forty-eight derived ones. -/
def shaSchedule (block : Bytes) : Array UInt32 :=
  (List.range 48).foldl
    (fun w j =>
      let i := j + 16
      let x := w.getD (i - 15) 0
      let y := w.getD (i - 2) 0
      let s0 := shaRor x 7 ^^^ shaRor x 18 ^^^ (x >>> 3)
      let s1 := shaRor y 17 ^^^ shaRor y 19 ^^^ (y >>> 10)
      w.push (w.getD (i - 16) 0 + s0 + w.getD (i - 7) 0 + s1))
    ((List.range 16).map (shaWordAt block)).toArray

def shaRound (w : Array UInt32) (v : ShaWords) (i : Nat) : ShaWords :=
  let s1 := shaRor v.e 6 ^^^ shaRor v.e 11 ^^^ shaRor v.e 25
  let ch := (v.e &&& v.f) ^^^ (~~~v.e &&& v.g)
  let t1 := v.h + s1 + ch + shaK.getD i 0 + w.getD i 0
  let s0 := shaRor v.a 2 ^^^ shaRor v.a 13 ^^^ shaRor v.a 22
  let mj := (v.a &&& v.b) ^^^ (v.a &&& v.c) ^^^ (v.b &&& v.c)
  let t2 := s0 + mj
  ⟨t1 + t2, v.a, v.b, v.c, v.d + t1, v.e, v.f, v.g⟩

def shaCompress (h : ShaWords) (block : Bytes) : ShaWords :=
  let v := (List.range 64).foldl (shaRound (shaSchedule block)) h
  ⟨h.a + v.a, h.b + v.b, h.c + v.c, h.d + v.d, h.e + v.e, h.f + v.f, h.g + v.g, h.h + v.h⟩

def shaInit : Sha256 where
  words := ⟨0x6a09e667, 0xbb67ae85, 0x3c6ef372, 0xa54ff53a, 0x510e527f, 0x9b05688c,
    0x1f83d9ab, 0x5be0cd19⟩
  buf := []
  partialBlock := by decide
  total := 0

/-- The block-filling loop of `sha_update`. -/
def shaFill (s : Sha256) (data : Bytes) : Sha256 :=
  if _done : data = [] then s
  else
    let take := min (64 - s.buf.length) data.length
    let filled := s.buf ++ data.take take
    if full : filled.length = 64 then
      shaFill ⟨shaCompress s.words filled, [], by decide, s.total⟩ (data.drop take)
    else
      shaFill ⟨s.words, filled,
        by
          have room := s.partialBlock
          have size : filled.length = s.buf.length + take := by
            simp only [filled, List.length_append, List.length_take]
            omega
          omega,
        s.total⟩ (data.drop take)
termination_by data.length
decreasing_by
  all_goals
    have room := s.partialBlock
    have nonempty : 0 < data.length := List.length_pos_of_ne_nil _done
    simp only [List.length_drop]
    omega

def shaUpdate (s : Sha256) (data : Bytes) : Sha256 :=
  shaFill { s with total := s.total + data.length } data

/-- Pads with zero bytes until eight bytes of the block are left. -/
def shaPadZeros : Nat → Sha256 → Sha256
  | 0, s => s
  | fuel + 1, s => if s.buf.length = 56 then s else shaPadZeros fuel (shaUpdate s [0])

def shaWordBytes (x : UInt32) : Bytes :=
  [(x >>> 24).toUInt8, (x >>> 16).toUInt8, (x >>> 8).toUInt8, x.toUInt8]

/-- Big-endian bytes of the 64-bit message length. -/
def shaLengthBytes (bits : Nat) : Bytes :=
  (List.range 8).map (fun i => UInt8.ofNat (bits >>> (56 - i * 8)))

def shaFinal (s : Sha256) : Bytes :=
  let bits := (s.total * 8) % 2 ^ 64
  let padded := shaPadZeros 64 (shaUpdate s [0x80])
  let w := shaCompress padded.words (padded.buf ++ shaLengthBytes bits)
  [w.a, w.b, w.c, w.d, w.e, w.f, w.g, w.h].flatMap shaWordBytes

def jobSha256Parts (parts : List Bytes) : Bytes :=
  shaFinal (parts.foldl (fun s part => if part = [] then s else shaUpdate s part) shaInit)

end KuttiDB.Job
