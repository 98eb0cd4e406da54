/- # KuttiDB.Admin.Base64 -- the decoder of payloads and identifiers

`admin_base64_decode` shifts the values of the symbols into an accumulator and takes a byte out of it
whenever eight bits are there. It is compared with the encoder of RFC 4648, in groups of three bytes:

* `decode_encode`: an encoding is decoded to what was encoded;
* `decode_eq_some`: the texts that are accepted, and what they are decoded to. The bits that are left
  in the accumulator at the end are counted and not looked at, so a text is accepted whatever they
  are, although only a text with zeros there is an encoding;
* `base64_exact`: apart from such texts nothing but an encoding is accepted, and route identifiers
  stand for one route each.
-/
import KuttiDB.QueueStore.Fields
import KuttiDB.Admin.Utf8

namespace KuttiDB.Admin

open KuttiDB.QueueStore (Bytes field numberAt numberAt_at field_at length_field field_append
  leBytes_numberAt)
open KuttiDB.Theory (leBytes length_leBytes)

set_option autoImplicit false

/-! ## The decoder -/

def b64Value (c : UInt8) (urlsafe : Bool) : Option Nat :=
  if 65 ≤ c ∧ c ≤ 90 then some (c.toNat - 65)
  else if 97 ≤ c ∧ c ≤ 122 then some (c.toNat - 97 + 26)
  else if 48 ≤ c ∧ c ≤ 57 then some (c.toNat - 48 + 52)
  else if c = (if urlsafe then 45 else 43) then some 62
  else if c = (if urlsafe then 95 else 47) then some 63
  else none

structure B64 where
  out : Bytes
  bits : Nat
  acc : Nat
  pad : Nat
  deriving DecidableEq, Repr

/-- The accumulator is a 32-bit word. -/
def shiftIn (acc v : Nat) : Nat := (acc <<< 6 ||| v) % 2 ^ 32

/-- `while (bits >= 8)`, which takes a turn for each whole byte. -/
def takeBytes (cap acc : Nat) : Nat → Nat → Bytes → Option (Nat × Bytes)
  | 0, bits, out => some (bits, out)
  | turns + 1, bits, out =>
    if out.length ≥ cap then none
    else takeBytes cap acc turns (bits - 8) (out ++ [UInt8.ofNat (acc >>> (bits - 8))])

def decodeLoop (urlsafe : Bool) (cap : Nat) : Bytes → B64 → Option B64
  | [], s => some s
  | c :: rest, s =>
    if c = 61 then
      if urlsafe ∨ s.pad + 1 > 2 ∨ ∃ next ∈ rest.head?, next ≠ 61 then none
      else decodeLoop urlsafe cap rest { s with pad := s.pad + 1 }
    else if s.pad ≠ 0 then none
    else match b64Value c urlsafe with
      | none => none
      | some v =>
        match takeBytes cap (shiftIn s.acc v) ((s.bits + 6) / 8) (s.bits + 6) s.out with
        | none => none
        | some (bits, out) => decodeLoop urlsafe cap rest ⟨out, bits, shiftIn s.acc v, s.pad⟩

def adminBase64Decode (urlsafe : Bool) (data : Bytes) (cap : Nat) : Option Bytes :=
  if ¬ urlsafe ∧ data.length % 4 ≠ 0 then none
  else match decodeLoop urlsafe cap data ⟨[], 0, 0, 0⟩ with
    | none => none
    | some s =>
      if (¬ urlsafe ∧ ¬ (s.pad = 0 ∧ s.bits = 0 ∨ s.pad = 1 ∧ s.bits = 2 ∨ s.pad = 2 ∧ s.bits = 4)) ∨
          (urlsafe ∧ s.bits ≠ 0 ∧ s.bits ≠ 2 ∧ s.bits ≠ 4) then none
      else some s.out

/-! ## The encoding -/

def symbol (urlsafe : Bool) (v : Nat) : UInt8 :=
  if v < 26 then UInt8.ofNat (v + 65)
  else if v < 52 then UInt8.ofNat (v - 26 + 97)
  else if v < 62 then UInt8.ofNat (v - 52 + 48)
  else if v = 62 then (if urlsafe then 45 else 43)
  else if urlsafe then 95 else 47

def sextets : Bytes → List Nat
  | [] => []
  | [a] => [a.toNat / 4, a.toNat % 4 * 16]
  | [a, b] => [a.toNat / 4, a.toNat % 4 * 16 + b.toNat / 16, b.toNat % 16 * 4]
  | a :: b :: d :: rest =>
    a.toNat / 4 :: (a.toNat % 4 * 16 + b.toNat / 16) :: (b.toNat % 16 * 4 + d.toNat / 64) ::
      d.toNat % 64 :: sextets rest

/-- The padding after `n` symbols. -/
def padding (urlsafe : Bool) (n : Nat) : Bytes :=
  if urlsafe then [] else List.replicate ((4 - n % 4) % 4) 61

def spell (urlsafe : Bool) (values : List Nat) : Bytes :=
  values.map (symbol urlsafe) ++ padding urlsafe values.length

def base64Encode (urlsafe : Bool) (bytes : Bytes) : Bytes := spell urlsafe (sextets bytes)

theorem b64Value_symbol (urlsafe : Bool) {v : Nat} (small : v < 64) :
    b64Value (symbol urlsafe v) urlsafe = some v := by
  revert v
  cases urlsafe <;> decide

theorem symbol_ne_pad (urlsafe : Bool) {v : Nat} (small : v < 64) : symbol urlsafe v ≠ 61 := by
  revert v
  cases urlsafe <;> decide

theorem symbol_of_b64Value {c : UInt8} {urlsafe : Bool} {v : Nat}
    (value : b64Value c urlsafe = some v) : v < 64 ∧ c = symbol urlsafe v := by
  have all : ∀ b : BitVec 8, ∀ w ∈ b64Value ⟨b⟩ urlsafe, w < 64 ∧ ⟨b⟩ = symbol urlsafe w := by
    cases urlsafe <;> decide
  exact all c.toBitVec v value

/-! ## The symbols of a text -/

/-- The bytes that come out of the accumulator. -/
def octets : List Nat → Bytes
  | v₁ :: v₂ :: v₃ :: v₄ :: rest =>
    UInt8.ofNat (v₁ * 4 + v₂ / 16) :: UInt8.ofNat (v₂ % 16 * 16 + v₃ / 4) ::
      UInt8.ofNat (v₃ % 4 * 64 + v₄) :: octets rest
  | [v₁, v₂, v₃] => [UInt8.ofNat (v₁ * 4 + v₂ / 16), UInt8.ofNat (v₂ % 16 * 16 + v₃ / 4)]
  | [v₁, v₂] => [UInt8.ofNat (v₁ * 4 + v₂ / 16)]
  | _ => []

/-- The bits that stay in it. -/
def spare : List Nat → Nat
  | _ :: _ :: _ :: _ :: rest => spare rest
  | [_, _, v₃] => v₃ % 4
  | [_, v₂] => v₂ % 16
  | _ => 0

theorem shiftIn_eq {acc v : Nat} (small : v < 64) : shiftIn acc v = (acc * 64 + v) % 2 ^ 32 := by
  rw [shiftIn, ← Nat.shiftLeft_add_eq_or_of_lt (show v < 2 ^ 6 from small), Nat.shiftLeft_eq]

/-- Whatever was shifted in before, two values in a row fill a byte at each of the three places. -/
theorem shiftIn_pair {v w : Nat} (acc : Nat) (smallV : v < 64) (smallW : w < 64) :
    (shiftIn (shiftIn acc v) w >>> 4) % 256 = (UInt8.ofNat (v * 4 + w / 16)).toNat ∧
      (shiftIn (shiftIn acc v) w >>> 2) % 256 = (UInt8.ofNat (v % 16 * 16 + w / 4)).toNat ∧
      (shiftIn (shiftIn acc v) w >>> 0) % 256 = (UInt8.ofNat (v % 4 * 64 + w)).toNat := by
  simp only [shiftIn_eq smallV, shiftIn_eq smallW, Nat.shiftRight_eq_div_pow, UInt8.toNat_ofNat']
  refine ⟨?_, ?_, ?_⟩ <;> omega

section

variable {urlsafe : Bool} {cap : Nat} {rest out : Bytes} {acc v : Nat}

theorem loop_first (small : v < 64) :
    decodeLoop urlsafe cap (symbol urlsafe v :: rest) ⟨out, 0, acc, 0⟩ =
      decodeLoop urlsafe cap rest ⟨out, 6, shiftIn acc v, 0⟩ := by
  rw [decodeLoop, if_neg (symbol_ne_pad urlsafe small), if_neg (by simp),
    b64Value_symbol urlsafe small]
  simp [takeBytes]

/-- Every symbol but the first of a group completes a byte. -/
theorem loop_next {bits : Nat} {b : UInt8} (small : v < 64) (low : 2 ≤ bits) (high : bits < 10)
    (byte : (shiftIn acc v >>> (bits - 2)) % 256 = b.toNat) :
    decodeLoop urlsafe cap (symbol urlsafe v :: rest) ⟨out, bits, acc, 0⟩ =
      if out.length < cap then
        decodeLoop urlsafe cap rest ⟨out ++ [b], bits - 2, shiftIn acc v, 0⟩
      else none := by
  rw [decodeLoop, if_neg (symbol_ne_pad urlsafe small), if_neg (by simp),
    b64Value_symbol urlsafe small]
  dsimp only
  rw [show (bits + 6) / 8 = 0 + 1 by omega, takeBytes, takeBytes,
    show bits + 6 - 8 = bits - 2 by omega]
  by_cases room : out.length < cap
  · rw [if_neg (by omega), if_pos room, ofNat_eq byte]
  · rw [if_pos (by omega), if_neg room]

end

theorem spelled_loop (urlsafe : Bool) (cap : Nat) (tail : Bytes) : ∀ (values : List Nat)
    (out : Bytes) (acc : Nat), (∀ v ∈ values, v < 64) → out.length ≤ cap →
    decodeLoop urlsafe cap (values.map (symbol urlsafe) ++ tail) ⟨out, 0, acc, 0⟩ =
      if out.length + (octets values).length ≤ cap then
        decodeLoop urlsafe cap tail ⟨out ++ octets values, values.length * 6 % 8,
          values.foldl shiftIn acc, 0⟩
      else none
  | [], out, acc, _, room => by simp [octets, room]
  | [v₁], out, acc, small, room => by
    have s₁ := small v₁ (by simp)
    simp only [List.map_cons, List.map_nil, List.cons_append, List.nil_append]
    rw [loop_first s₁]
    simp [octets, room]
  | [v₁, v₂], out, acc, small, room => by
    have s₁ := small v₁ (by simp)
    have s₂ := small v₂ (by simp)
    have size : (octets [v₁, v₂]).length = 1 := rfl
    simp only [List.map_cons, List.map_nil, List.cons_append, List.nil_append]
    rw [loop_first s₁, loop_next s₂ (by decide) (by decide) (shiftIn_pair acc s₁ s₂).1, size]
    by_cases fits : out.length + 1 ≤ cap
    · rw [if_pos fits, if_pos (Nat.lt_of_succ_le fits)]
      simp [octets]
    · rw [if_neg fits, if_neg (fun less => fits (Nat.succ_le_of_lt less))]
  | [v₁, v₂, v₃], out, acc, small, room => by
    have s₁ := small v₁ (by simp)
    have s₂ := small v₂ (by simp)
    have s₃ := small v₃ (by simp)
    have size : (octets [v₁, v₂, v₃]).length = 2 := rfl
    simp only [List.map_cons, List.map_nil, List.cons_append, List.nil_append]
    rw [loop_first s₁, loop_next s₂ (by decide) (by decide) (shiftIn_pair acc s₁ s₂).1,
      loop_next s₃ (by decide) (by decide) (shiftIn_pair _ s₂ s₃).2.1, size]
    by_cases fits : out.length + 2 ≤ cap
    · rw [if_pos (by omega), if_pos (by simp; omega), if_pos fits, List.append_assoc]
      simp [octets]
    · rw [if_neg fits]
      split_ifs with one two
      · simp only [List.length_append, List.length_singleton] at two
        omega
      · rfl
      · rfl
  | v₁ :: v₂ :: v₃ :: v₄ :: values, out, acc, small, room => by
    simp only [List.mem_cons, forall_eq_or_imp] at small
    obtain ⟨s₁, s₂, s₃, s₄, small⟩ := small
    have size : (octets (v₁ :: v₂ :: v₃ :: v₄ :: values)).length = 3 + (octets values).length := by
      simp only [octets, List.length_cons]
      omega
    have bits : (v₁ :: v₂ :: v₃ :: v₄ :: values).length * 6 % 8 = values.length * 6 % 8 := by
      simp only [List.length_cons]
      omega
    simp only [List.map_cons, List.cons_append]
    rw [loop_first s₁, loop_next s₂ (by decide) (by decide) (shiftIn_pair acc s₁ s₂).1,
      loop_next s₃ (by decide) (by decide) (shiftIn_pair _ s₂ s₃).2.1,
      loop_next s₄ (by decide) (by decide) (shiftIn_pair _ s₃ s₄).2.2, size, bits]
    by_cases fits : out.length + 3 ≤ cap
    · rw [if_pos (by omega), if_pos (by simp; omega), if_pos (by simp; omega),
        spelled_loop urlsafe cap tail values _ _ small (by simp; omega)]
      simp [octets, Nat.add_assoc]
    · rw [if_neg (show ¬ out.length + (3 + (octets values).length) ≤ cap by omega)]
      split_ifs with one two three
      · simp only [List.length_append, List.length_singleton] at three
        omega
      · rfl
      · rfl
      · rfl

/-! ## The padding of a text -/

/-- After the symbols only one or two padding signs can stand, and only in the standard alphabet. -/
theorem pads_loop {urlsafe : Bool} {cap : Nat} {tail : Bytes} {s t : B64} (start : s.pad = 0)
    (head : ∀ c ∈ tail.head?, b64Value c urlsafe = none) :
    decodeLoop urlsafe cap tail s = some t ↔
      tail = [] ∧ t = s ∨ urlsafe = false ∧
        (tail = [61] ∧ t = { s with pad := 1 } ∨ tail = [61, 61] ∧ t = { s with pad := 2 }) := by
  obtain ⟨out, bits, acc, pad⟩ := s
  dsimp only at start
  subst start
  rcases tail with _ | ⟨c, tail⟩
  · simp only [decodeLoop, Option.some.injEq, true_and, reduceCtorEq, false_and, or_false,
      and_false]
    exact eq_comm
  · by_cases sign : c = 61
    · subst sign
      cases urlsafe with
      | true => simp [decodeLoop]
      | false =>
        rcases tail with _ | ⟨d, tail⟩
        · simp [decodeLoop]
          exact eq_comm
        · by_cases again : d = 61
          · subst again
            rcases tail with _ | ⟨e, tail⟩
            · simp [decodeLoop]
              exact eq_comm
            · by_cases third : e = 61 <;> simp [decodeLoop, third]
          · simp [decodeLoop, again]
    · have none : b64Value c urlsafe = none := head c rfl
      simp [decodeLoop, sign, none]

/-! ## What is accepted -/

theorem split_symbols (urlsafe : Bool) (data : Bytes) :
    ∃ (values : List Nat) (tail : Bytes), (∀ v ∈ values, v < 64) ∧
      data = values.map (symbol urlsafe) ++ tail ∧ ∀ c ∈ tail.head?, b64Value c urlsafe = none := by
  induction data with
  | nil => exact ⟨[], [], by simp, rfl, by simp⟩
  | cons c data ih =>
    cases value : b64Value c urlsafe with
    | none => exact ⟨[], c :: data, by simp, rfl, by simpa using value⟩
    | some v =>
      obtain ⟨values, tail, small, rfl, stops⟩ := ih
      obtain ⟨here, rfl⟩ := symbol_of_b64Value value
      exact ⟨v :: values, tail, by simpa using ⟨here, small⟩, rfl, stops⟩

theorem decode_eq_some {urlsafe : Bool} {data : Bytes} {cap : Nat} {out : Bytes} :
    adminBase64Decode urlsafe data cap = some out ↔
      ∃ values : List Nat, (∀ v ∈ values, v < 64) ∧ values.length % 4 ≠ 1 ∧
        data = spell urlsafe values ∧ (octets values).length ≤ cap ∧ out = octets values := by
  constructor
  · intro accepted
    obtain ⟨values, tail, small, rfl, stops⟩ := split_symbols urlsafe data
    refine ⟨values, small, ?_⟩
    unfold adminBase64Decode at accepted
    split at accepted
    · cases accepted
    rename_i whole
    rw [spelled_loop urlsafe cap tail values [] 0 small (Nat.zero_le _)] at accepted
    split at accepted
    · cases accepted
    rename_i t run
    split at run
    swap
    · cases run
    rename_i fits
    rw [pads_loop rfl stops] at run
    -- the number of padding signs and the bits left give the number of symbols in the last group
    split at accepted
    · cases accepted
    rename_i final
    cases accepted
    rcases run with ⟨rfl, rfl⟩ | ⟨rfl, ⟨rfl, rfl⟩ | ⟨rfl, rfl⟩⟩
    · cases urlsafe with
      | true =>
        simp at final
        exact ⟨by omega, rfl, by simpa using fits, rfl⟩
      | false =>
        simp at final
        refine ⟨by omega, ?_, by simpa using fits, rfl⟩
        rw [spell, padding, if_neg (by decide), show (4 - values.length % 4) % 4 = 0 by omega]
        rfl
    · simp at final
      refine ⟨by omega, ?_, by simpa using fits, rfl⟩
      rw [spell, padding, if_neg (by decide), show (4 - values.length % 4) % 4 = 1 by omega]
      rfl
    · simp at final
      refine ⟨by omega, ?_, by simpa using fits, rfl⟩
      rw [spell, padding, if_neg (by decide), show (4 - values.length % 4) % 4 = 2 by omega]
      rfl
  · rintro ⟨values, small, grouped, rfl, fits, rfl⟩
    have stops : ∀ c ∈ (padding urlsafe values.length).head?, b64Value c urlsafe = none := by
      intro c first
      have sign : c = 61 := by
        unfold padding at first
        split at first
        · cases first
        · exact List.eq_of_mem_replicate (List.mem_of_head? first)
      rw [sign]
      cases urlsafe <;> decide
    have whole : ¬ (¬ urlsafe ∧ (spell urlsafe values).length % 4 ≠ 0) := by
      rintro ⟨standard, odd⟩
      simp only [spell, padding, if_neg standard, List.length_append, List.length_map,
        List.length_replicate] at odd
      omega
    have group : values.length % 4 = 0 ∧ values.length * 6 % 8 = 0 ∨
        values.length % 4 = 2 ∧ values.length * 6 % 8 = 4 ∨
        values.length % 4 = 3 ∧ values.length * 6 % 8 = 2 := by omega
    have run : ∀ s : B64, s.pad = 0 →
        decodeLoop urlsafe cap (padding urlsafe values.length) s =
          some { s with pad := if urlsafe then 0 else (4 - values.length % 4) % 4 } := by
      intro s start
      rw [pads_loop start stops]
      obtain ⟨out, bits, acc, pad⟩ := s
      dsimp only at start
      cases urlsafe with
      | true => exact .inl ⟨rfl, by rw [start]; rfl⟩
      | false =>
        rcases group with ⟨group, -⟩ | ⟨group, -⟩ | ⟨group, -⟩
        · exact .inl ⟨by simp [padding, group], by simp [start, group]⟩
        · exact .inr ⟨rfl, .inr ⟨by simp [padding, group, List.replicate], by simp [group]⟩⟩
        · exact .inr ⟨rfl, .inl ⟨by simp [padding, group], by simp [group]⟩⟩
    rw [adminBase64Decode, if_neg whole, spell,
      spelled_loop urlsafe cap _ values [] 0 small (Nat.zero_le _), if_pos (by simpa using fits),
      run _ rfl]
    dsimp only
    rw [if_neg]
    · rfl
    · rcases group with ⟨group, bits⟩ | ⟨group, bits⟩ | ⟨group, bits⟩ <;>
        cases urlsafe <;> simp [group, bits]

/-! ## The encodings among them -/

theorem sextets_small : ∀ (bytes : Bytes), ∀ v ∈ sextets bytes, v < 64
  | [] => by simp [sextets]
  | [a] => by
    have := a.toNat_lt
    simp only [sextets, List.mem_cons, List.not_mem_nil, or_false, forall_eq_or_imp, forall_eq]
    omega
  | [a, b] => by
    have := a.toNat_lt
    have := b.toNat_lt
    simp only [sextets, List.mem_cons, List.not_mem_nil, or_false, forall_eq_or_imp, forall_eq]
    omega
  | a :: b :: d :: rest => by
    have := a.toNat_lt
    have := b.toNat_lt
    have := d.toNat_lt
    simp only [sextets, List.mem_cons, forall_eq_or_imp]
    exact ⟨by omega, by omega, by omega, by omega, sextets_small rest⟩

theorem octets_sextets : ∀ (bytes : Bytes), octets (sextets bytes) = bytes
  | [] => rfl
  | [a] => by
    have := a.toNat_lt
    rw [sextets, octets, ofNat_eq (b := a) (by omega)]
  | [a, b] => by
    have := a.toNat_lt
    have := b.toNat_lt
    rw [sextets, octets, ofNat_eq (b := a) (by omega), ofNat_eq (b := b) (by omega)]
  | a :: b :: d :: rest => by
    have := a.toNat_lt
    have := b.toNat_lt
    have := d.toNat_lt
    rw [sextets, octets, ofNat_eq (b := a) (by omega), ofNat_eq (b := b) (by omega),
      ofNat_eq (b := d) (by omega), octets_sextets rest]

theorem spare_sextets : ∀ (bytes : Bytes), spare (sextets bytes) = 0
  | [] => rfl
  | [a] => by simp [sextets, spare]
  | [a, b] => by simp [sextets, spare]
  | _ :: _ :: _ :: rest => spare_sextets rest

theorem length_sextets : ∀ (bytes : Bytes), (sextets bytes).length % 4 ≠ 1
  | [] => by decide
  | [_] => by simp [sextets]
  | [_, _] => by simp [sextets]
  | a :: b :: d :: rest => by
    have := length_sextets rest
    simp only [sextets, List.length_cons]
    omega

/-- With zeros in the bits left over, the values are those of what they were decoded to. -/
theorem sextets_octets : ∀ (values : List Nat), (∀ v ∈ values, v < 64) → values.length % 4 ≠ 1 →
    spare values = 0 → sextets (octets values) = values
  | [], _, _, _ => rfl
  | [_], _, odd, _ => absurd rfl odd
  | [v₁, v₂], small, _, zeros => by
    simp only [List.mem_cons, List.not_mem_nil, or_false, forall_eq_or_imp, forall_eq] at small
    simp only [spare] at zeros
    simp only [octets, sextets, UInt8.toNat_ofNat', List.cons.injEq, and_true]
    omega
  | [v₁, v₂, v₃], small, _, zeros => by
    simp only [List.mem_cons, List.not_mem_nil, or_false, forall_eq_or_imp, forall_eq] at small
    simp only [spare] at zeros
    simp only [octets, sextets, UInt8.toNat_ofNat', List.cons.injEq, and_true]
    omega
  | v₁ :: v₂ :: v₃ :: v₄ :: values, small, grouped, zeros => by
    simp only [List.mem_cons, forall_eq_or_imp] at small
    obtain ⟨s₁, s₂, s₃, s₄, small⟩ := small
    simp only [List.length_cons] at grouped
    have rest := sextets_octets values small (by omega) zeros
    simp only [octets, sextets, UInt8.toNat_ofNat', List.cons.injEq, rest, and_true]
    omega

theorem length_octets : ∀ values : List Nat, (octets values).length = values.length * 6 / 8
  | [] => by simp [octets]
  | [_] => by simp [octets]
  | [_, _] => by simp [octets]
  | [_, _, _] => by simp [octets]
  | _ :: _ :: _ :: _ :: values => by
    simp only [octets, List.length_cons, length_octets values]
    omega

/-- The values can be read off a text. -/
theorem values_spell (urlsafe : Bool) {values : List Nat} (small : ∀ v ∈ values, v < 64) :
    (spell urlsafe values).filterMap (b64Value · urlsafe) = values := by
  have signs : (padding urlsafe values.length).filterMap (b64Value · urlsafe) = [] := by
    rw [List.filterMap_eq_nil_iff]
    intro c mem
    have sign : c = 61 := by
      unfold padding at mem
      split at mem
      · cases mem
      · exact List.eq_of_mem_replicate mem
    rw [sign]
    cases urlsafe <;> decide
  rw [spell, List.filterMap_append, signs, List.append_nil, List.filterMap_map]
  clear signs
  induction values with
  | nil => rfl
  | cons v values ih =>
    simp only [List.mem_cons, forall_eq_or_imp] at small
    have here : ((b64Value · urlsafe) ∘ symbol urlsafe) v = some v :=
      b64Value_symbol urlsafe small.1
    rw [List.filterMap_cons_some here, ih small.2]

/-- An encoding is decoded to what was encoded. -/
theorem decode_encode (urlsafe : Bool) {bytes : Bytes} {cap : Nat} (room : bytes.length ≤ cap) :
    adminBase64Decode urlsafe (base64Encode urlsafe bytes) cap = some bytes :=
  decode_eq_some.mpr ⟨sextets bytes, sextets_small bytes, length_sextets bytes, rfl,
    by rwa [octets_sextets], (octets_sextets bytes).symm⟩

/-- A text of the alphabet and the right padding whose last symbol has ones in bits that belong to no
byte. -/
def Stray (urlsafe : Bool) (text : Bytes) (cap : Nat) : Prop :=
  ∃ values : List Nat, (∀ v ∈ values, v < 64) ∧ values.length % 4 ≠ 1 ∧
    text = spell urlsafe values ∧ values.length * 6 / 8 ≤ cap ∧ spare values ≠ 0

theorem encode_of_decode {urlsafe : Bool} {text out : Bytes} {cap : Nat}
    (accepted : adminBase64Decode urlsafe text cap = some out) :
    text = base64Encode urlsafe out ↔ ¬ Stray urlsafe text cap := by
  obtain ⟨values, small, grouped, rfl, room, rfl⟩ := decode_eq_some.mp accepted
  constructor
  · rintro same ⟨other, small', -, spelled, -, stray⟩
    have eq : other = sextets (octets values) := by
      rw [← values_spell urlsafe small', ← spelled, same]
      exact values_spell urlsafe (sextets_small _)
    rw [eq, spare_sextets] at stray
    exact stray rfl
  · intro clean
    have zeros : spare values = 0 := by
      by_contra stray
      exact clean ⟨values, small, grouped, rfl, by rwa [← length_octets], stray⟩
    rw [base64Encode, sextets_octets values small grouped zeros]

/-! ## Route identifiers -/

structure AdminRoute where
  queue : Bytes
  key : Bytes
  deriving DecidableEq, Repr

/-- `b64u:` -/
def idPrefix : Bytes := [98, 54, 52, 117, 58]

def queueNameMax : Nat := 255

def routingKeyMax : Nat := 255

def readRoute (raw : Bytes) : Option AdminRoute :=
  if raw.length < 4 then none
  else
    let ql := numberAt raw 0 2
    if ql = 0 ∨ ql > queueNameMax ∨ raw.length < 2 + ql + 2 then none
    else
      let kl := numberAt raw (2 + ql) 2
      if kl > routingKeyMax ∨ raw.length ≠ 4 + ql + kl then none
      else some ⟨field raw 2 ql, field raw (4 + ql) kl⟩

def decodeRouteId (text : Bytes) : Option AdminRoute :=
  if text.length ≤ idPrefix.length ∨ text.take idPrefix.length ≠ idPrefix then none
  else (adminBase64Decode true (text.drop idPrefix.length)
    (4 + queueNameMax + routingKeyMax)).bind readRoute

namespace AdminRoute

structure Admissible (r : AdminRoute) : Prop where
  named : 0 < r.queue.length
  queue : r.queue.length ≤ queueNameMax
  key : r.key.length ≤ routingKeyMax

def bytes (r : AdminRoute) : Bytes :=
  leBytes 2 r.queue.length ++ (r.queue ++ (leBytes 2 r.key.length ++ r.key))

def id (r : AdminRoute) : Bytes := idPrefix ++ base64Encode true r.bytes

theorem length_bytes (r : AdminRoute) : r.bytes.length = 4 + r.queue.length + r.key.length := by
  simp only [bytes, List.length_append, length_leBytes]
  omega

end AdminRoute

theorem readRoute_eq_some {raw : Bytes} {r : AdminRoute} :
    readRoute raw = some r ↔ r.Admissible ∧ raw = r.bytes := by
  constructor
  · intro read
    unfold readRoute at read
    split at read
    · cases read
    dsimp only at read
    split at read
    · cases read
    rename_i queue
    split at read
    · cases read
    rename_i key
    cases read
    obtain ⟨ql, nameNumber⟩ : ∃ ql, numberAt raw 0 2 = ql := ⟨_, rfl⟩
    rw [nameNumber] at queue key ⊢
    obtain ⟨kl, keyNumber⟩ : ∃ kl, numberAt raw (2 + ql) 2 = kl := ⟨_, rfl⟩
    rw [keyNumber] at key ⊢
    have whole : raw.length = 4 + ql + kl := by omega
    have nameLength : (field raw 2 ql).length = ql := length_field (by omega)
    have keyLength : (field raw (4 + ql) kl).length = kl := length_field (by omega)
    refine ⟨⟨by dsimp only; omega, by dsimp only; omega, by dsimp only; omega⟩, ?_⟩
    rw [AdminRoute.bytes, nameLength, keyLength, ← nameNumber, ← keyNumber,
      leBytes_numberAt (by omega), leBytes_numberAt (by omega), nameNumber, keyNumber,
      show 4 + ql = 2 + ql + 2 by omega, field_append, field_append,
      show (2 : Nat) = 0 + 2 by rfl, field_append, field, List.drop_zero,
      List.take_of_length_le (by omega)]
  · rintro ⟨ok, rfl⟩
    have name : numberAt r.bytes 0 2 = r.queue.length :=
      numberAt_at [] _ rfl rfl (ok.queue.trans_lt (by decide))
    have key : numberAt r.bytes (2 + r.queue.length) 2 = r.key.length :=
      numberAt_at (leBytes 2 r.queue.length ++ r.queue) r.key (by simp [AdminRoute.bytes])
        (by simp) (ok.key.trans_lt (by decide))
    have queueField : field r.bytes 2 r.queue.length = r.queue :=
      field_at (leBytes 2 r.queue.length) r.queue _ rfl (by simp) rfl
    have keyField : field r.bytes (4 + r.queue.length) r.key.length = r.key :=
      field_at (leBytes 2 r.queue.length ++ (r.queue ++ leBytes 2 r.key.length)) r.key []
        (by simp [AdminRoute.bytes]) (by simp; omega) rfl
    have size := r.length_bytes
    have named := ok.named
    have queue := ok.queue
    have small := ok.key
    rw [readRoute, if_neg (by omega), name]
    dsimp only
    rw [if_neg (by omega), key, if_neg (by omega), queueField, keyField]

theorem decodeRouteId_eq_some {text : Bytes} {r : AdminRoute} :
    decodeRouteId text = some r ↔ r.Admissible ∧ ∃ rest, text = idPrefix ++ rest ∧
      adminBase64Decode true rest (4 + queueNameMax + routingKeyMax) = some r.bytes := by
  unfold decodeRouteId
  constructor
  · intro read
    split at read
    · cases read
    rename_i shape
    obtain ⟨raw, decoded, route⟩ := Option.bind_eq_some_iff.mp read
    obtain ⟨ok, rfl⟩ := readRoute_eq_some.mp route
    have starts : text.take idPrefix.length = idPrefix := by
      by_contra other
      exact shape (.inr other)
    have whole := (List.take_append_drop idPrefix.length text).symm
    rw [starts] at whole
    exact ⟨ok, _, whole, decoded⟩
  · rintro ⟨ok, rest, rfl, decoded⟩
    have long : rest ≠ [] := by
      rintro rfl
      have empty : [] = r.bytes := Option.some.inj decoded
      have size := r.length_bytes
      rw [← empty, List.length_nil] at size
      omega
    rw [if_neg (by simp [long]), List.drop_left, decoded]
    exact readRoute_eq_some.mpr ⟨ok, rfl⟩

/-- Encodings are decoded, other texts are refused unless they end in stray bits, and without those
the identifiers and the admissible routes correspond to each other. -/
theorem base64_exact (urlsafe : Bool) (text : Bytes) (cap : Nat) :
    (∀ bytes : Bytes, bytes.length ≤ cap →
        adminBase64Decode urlsafe (base64Encode urlsafe bytes) cap = some bytes) ∧
      (((∀ bytes, text ≠ base64Encode urlsafe bytes) → adminBase64Decode urlsafe text cap = none) ↔
        ¬ Stray urlsafe text cap) ∧
      (∀ r : AdminRoute, r.Admissible → decodeRouteId r.id = some r) ∧
      ∀ r : AdminRoute, decodeRouteId text = some r → r.Admissible ∧
        (text = r.id ↔
          ¬ Stray true (text.drop idPrefix.length) (4 + queueNameMax + routingKeyMax)) := by
  refine ⟨fun bytes room => decode_encode urlsafe room, ⟨?_, ?_⟩, ?_, ?_⟩
  · rintro refused ⟨values, small, grouped, rfl, room, stray⟩
    have accepted : adminBase64Decode urlsafe (spell urlsafe values) cap = some (octets values) :=
      decode_eq_some.mpr ⟨values, small, grouped, rfl, by rwa [length_octets], rfl⟩
    have other : ∀ bytes, spell urlsafe values ≠ base64Encode urlsafe bytes := by
      intro bytes same
      have eq : values = sextets bytes := by
        rw [← values_spell urlsafe small, same]
        exact values_spell urlsafe (sextets_small bytes)
      rw [eq, spare_sextets] at stray
      exact stray rfl
    rw [refused other] at accepted
    cases accepted
  · intro clean other
    cases accepted : adminBase64Decode urlsafe text cap with
    | none => rfl
    | some out => exact absurd ((encode_of_decode accepted).mpr clean) (other out)
  · intro r ok
    have room : r.bytes.length ≤ 4 + queueNameMax + routingKeyMax := by
      have := ok.queue
      have := ok.key
      rw [r.length_bytes]
      omega
    exact decodeRouteId_eq_some.mpr ⟨ok, _, rfl, decode_encode true room⟩
  · intro r read
    obtain ⟨ok, rest, rfl, decoded⟩ := decodeRouteId_eq_some.mp read
    rw [List.drop_left, ← encode_of_decode decoded, AdminRoute.id, List.append_cancel_left_eq]
    exact ⟨ok, Iff.rfl⟩

/-- `QR==` is decoded to `A`, the encoding of which is `QQ==`, and two identifiers stand for the route
to the queue `q` under the empty key. -/
theorem stray_bits_accepted :
    adminBase64Decode false [81, 82, 61, 61] 1 = some [65] ∧
      base64Encode false [65] = [81, 81, 61, 61] ∧
      (∀ bytes, [81, 82, 61, 61] ≠ base64Encode false bytes) ∧
      decodeRouteId (idPrefix ++ [65, 81, 66, 120, 65, 65, 65]) = some ⟨[113], []⟩ ∧
      decodeRouteId (idPrefix ++ [65, 81, 66, 120, 65, 65, 66]) = some ⟨[113], []⟩ := by
  refine ⟨by decide +kernel, by decide +kernel, ?_, by decide +kernel, by decide +kernel⟩
  intro bytes same
  have values : sextets bytes = [16, 17] := by
    rw [← values_spell false (sextets_small bytes)]
    change (base64Encode false bytes).filterMap (b64Value · false) = [16, 17]
    rw [← same]
    decide
  have zeros := spare_sextets bytes
  rw [values] at zeros
  revert zeros
  decide

end KuttiDB.Admin
