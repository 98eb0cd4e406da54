/- # KuttiDB.Theory.LittleEndian -- numbers as bytes of fixed width

`leBytes width n` are the `width` lowest bytes of `n`, the lowest first, and `leNat` reads bytes back.
A number below `256 ^ width` is determined by its bytes.
-/
import Mathlib.Data.List.Basic
import Mathlib.Tactic.Ring

namespace KuttiDB.Theory

set_option autoImplicit false

def leBytes (width n : Nat) : List UInt8 :=
  (List.range width).map (fun i => UInt8.ofNat (n >>> (i * 8)))

def leNat : List UInt8 → Nat
  | [] => 0
  | b :: rest => b.toNat + 256 * leNat rest

@[simp] theorem length_leBytes (width n : Nat) : (leBytes width n).length = width := by
  simp [leBytes]

theorem leBytes_succ (width n : Nat) :
    leBytes (width + 1) n = UInt8.ofNat n :: leBytes width (n / 256) := by
  unfold leBytes
  rw [List.range_succ_eq_map, List.map_cons, List.map_map]
  refine congrArg₂ _ rfl (List.map_congr_left fun i _ => ?_)
  have shift : n >>> ((i + 1) * 8) = (n / 256) >>> (i * 8) := by
    rw [show (i + 1) * 8 = 8 + i * 8 by ring, Nat.shiftRight_add, Nat.shiftRight_eq_div_pow n 8]
  exact congrArg UInt8.ofNat shift

theorem leNat_leBytes (width n : Nat) : leNat (leBytes width n) = n % 256 ^ width := by
  induction width generalizing n with
  | zero => simp [leBytes, leNat, Nat.mod_one]
  | succ width ih =>
      rw [leBytes_succ, leNat, ih, UInt8.toNat_ofNat', Nat.pow_succ' (m := 256), Nat.mod_mul]

theorem leNat_leBytes_of_lt {width n : Nat} (fits : n < 256 ^ width) :
    leNat (leBytes width n) = n := by
  rw [leNat_leBytes, Nat.mod_eq_of_lt fits]

theorem leNat_lt : ∀ bytes : List UInt8, leNat bytes < 256 ^ bytes.length
  | [] => by decide
  | b :: rest => by
      have tail := leNat_lt rest
      have head := b.toNat_lt
      rw [leNat, List.length_cons, Nat.pow_succ]
      omega

/-- Bytes are those of the number they stand for. -/
theorem leBytes_leNat : ∀ bytes : List UInt8, leBytes bytes.length (leNat bytes) = bytes
  | [] => rfl
  | b :: rest => by
    have low : UInt8.ofNat (b.toNat + 256 * leNat rest) = b := by
      apply UInt8.toNat_inj.mp
      rw [UInt8.toNat_ofNat', Nat.add_mul_mod_self_left, Nat.mod_eq_of_lt b.toNat_lt]
    have high : (b.toNat + 256 * leNat rest) / 256 = leNat rest := by
      have := b.toNat_lt
      omega
    rw [leNat, List.length_cons, leBytes_succ, low, high, leBytes_leNat rest]

end KuttiDB.Theory
