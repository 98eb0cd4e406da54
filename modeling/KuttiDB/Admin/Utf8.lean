/- # KuttiDB.Admin.Utf8 -- the check of raw request bytes

`valid_utf8` walks over the bytes of a request by index, one character at a time, and looks at the
bytes after a lead byte only when the length says they are there. A read is modelled as a lookup that
fails outside of the buffer, so that a run that comes to an end has read nothing outside.

The specification is the encoder of the library: a text is UTF-8 when it is the encoding of a list of
scalar values. `nextChar_turn` holds one turn of the loop to the encoding of one scalar value, and
`validUtf8_iff` the whole loop to the encoding of a list of them.
-/
import KuttiDB.QueueStore.Record
import Mathlib.Tactic.SplitIfs
import Mathlib.Tactic.Tauto

namespace KuttiDB.Admin

open KuttiDB.QueueStore (Bytes)
open String (utf8EncodeChar)

set_option autoImplicit false

/-! ## The check -/

/-- `(b & 0xc0) == 0x80` -/
def continues (b : UInt8) : Bool := b &&& 0xc0 == 0x80

def between (low high b : UInt8) : Bool := decide (low ≤ b) && decide (b ≤ high)

/-- The continuation bytes from `i` on, up to the first that is none. -/
def continuations (p : Bytes) (i : Nat) : Nat → Option Bool
  | 0 => some true
  | more + 1 => do
    if continues (← p[i]?) then continuations p (i + 1) more else return false

/-- A branch of the loop: the byte at `i` and `more` continuation bytes after it. The outer option
is a read outside of the buffer, the inner one the index of the next character. -/
def restOfChar (p : Bytes) (len i : Nat) (second : UInt8 → Bool) (more : Nat) :
    Option (Option Nat) := do
  if i + more ≥ len then return none
  else if !second (← p[i]?) then return none
  else if ← continuations p (i + 1) more then return some (i + 1 + more)
  else return none

/-- One turn of the loop. -/
def nextChar (p : Bytes) (len i : Nat) : Option (Option Nat) := do
  let c ← p[i]?
  if c < 0x80 then return some (i + 1)
  else if between 0xc2 0xdf c then restOfChar p len (i + 1) continues 0
  else if c == 0xe0 then restOfChar p len (i + 1) (between 0xa0 0xbf) 1
  else if between 0xe1 0xec c then restOfChar p len (i + 1) continues 1
  else if c == 0xed then restOfChar p len (i + 1) (between 0x80 0x9f) 1
  else if between 0xee 0xef c then restOfChar p len (i + 1) continues 1
  else if c == 0xf0 then restOfChar p len (i + 1) (between 0x90 0xbf) 2
  else if between 0xf1 0xf3 c then restOfChar p len (i + 1) continues 2
  else if c == 0xf4 then restOfChar p len (i + 1) (between 0x80 0x8f) 2
  else return none

/-- The loop, which every turn brings further: with a turn for each byte it does not run out. -/
def utf8Loop (p : Bytes) (len : Nat) : Nat → Nat → Option Bool
  | turns, i =>
    if i < len then
      match turns with
      | 0 => none
      | turns + 1 => do
        match ← nextChar p len i with
        | none => return false
        | some j => utf8Loop p len turns j
    else some true

def validUtf8 (data : Bytes) : Option Bool := utf8Loop data data.length data.length 0

/-- The encoding of a list of scalar values. -/
def utf8Text (text : List Char) : Bytes := text.flatMap utf8EncodeChar

/-! ## One branch -/

theorem continues_iff {b : UInt8} : continues b = true ↔ 0x80 ≤ b.toNat ∧ b.toNat ≤ 0xbf := by
  have all : ∀ v : BitVec 8, (v &&& 0xc0 == 0x80) = true ↔ 0x80 ≤ v.toNat ∧ v.toNat ≤ 0xbf := by
    decide
  have same : continues b = (b.toBitVec &&& 0xc0 == 0x80) := by
    rw [continues, Bool.eq_iff_iff, beq_iff_eq, beq_iff_eq, ← UInt8.toBitVec_inj]
    rfl
  rw [same]
  exact all b.toBitVec

theorem between_iff {low high b : UInt8} :
    between low high b = true ↔ low.toNat ≤ b.toNat ∧ b.toNat ≤ high.toNat := by
  simp [between, UInt8.le_iff_toNat_le]

theorem continuations_eq (p : Bytes) (more : Nat) : ∀ i, i + more ≤ p.length →
    continuations p i more = some (((p.drop i).take more).all continues) := by
  induction more with
  | zero =>
    intro i _
    simp [continuations]
  | succ more ih =>
    intro i fits
    have inside : i < p.length := by omega
    rw [continuations, List.getElem?_eq_getElem inside, List.drop_eq_getElem_cons inside,
      List.take_succ_cons, List.all_cons]
    cases here : continues p[i] with
    | false => simp [here]
    | true => simpa [here] using ih (i + 1) (by omega)

/-- What a branch asks of the bytes after the lead byte. -/
def restOk (second : UInt8 → Bool) (more : Nat) : Bytes → Bool
  | [] => false
  | b :: rest => decide (more ≤ rest.length) && second b && (rest.take more).all continues

theorem restOfChar_eq (p : Bytes) (i : Nat) (second : UInt8 → Bool) (more : Nat) :
    restOfChar p p.length i second more =
      some (if restOk second more (p.drop i) then some (i + 1 + more) else none) := by
  unfold restOfChar
  by_cases outside : i + more ≥ p.length
  · rw [if_pos outside]
    by_cases inside : i < p.length
    · rw [List.drop_eq_getElem_cons inside]
      have short : ¬ more ≤ (p.drop (i + 1)).length := by
        rw [List.length_drop]
        omega
      rw [restOk, decide_eq_false short]
      rfl
    · rw [List.drop_eq_nil_of_le (Nat.not_lt.mp inside)]
      rfl
  · have inside : i < p.length := by omega
    have long : more ≤ (p.drop (i + 1)).length := by
      rw [List.length_drop]
      omega
    rw [if_neg outside, List.getElem?_eq_getElem inside, List.drop_eq_getElem_cons inside, restOk,
      decide_eq_true long, continuations_eq p more (i + 1) (by omega)]
    cases here : second p[i] with
    | false => simp [here]
    | true => cases ((p.drop (i + 1)).take more).all continues <;> simp [here]

/-! ## One character -/

/-- The bytes that are the encoding of one scalar value, by their lead byte. -/
def CharBytes : Bytes → Prop
  | [a] => a.toNat < 0x80
  | [a, b] => 0xc2 ≤ a.toNat ∧ a.toNat ≤ 0xdf ∧ continues b
  | [a, b, d] => 0xe0 ≤ a.toNat ∧ a.toNat ≤ 0xef ∧ continues b ∧ continues d ∧
      (a.toNat = 0xe0 → 0xa0 ≤ b.toNat) ∧ (a.toNat = 0xed → b.toNat ≤ 0x9f)
  | [a, b, d, e] => 0xf0 ≤ a.toNat ∧ a.toNat ≤ 0xf4 ∧ continues b ∧ continues d ∧ continues e ∧
      (a.toNat = 0xf0 → 0x90 ≤ b.toNat) ∧ (a.toNat = 0xf4 → b.toNat ≤ 0x8f)
  | _ => False

theorem charBytes_encode (c : Char) : CharBytes (utf8EncodeChar c) := by
  have scalar : c.val.toNat.isValidChar := c.valid
  unfold Nat.isValidChar at scalar
  unfold utf8EncodeChar
  dsimp only
  split_ifs with one two three <;>
    simp only [CharBytes, continues_iff, UInt8.toNat_ofNat'] <;> omega

theorem ofNat_eq {n : Nat} {b : UInt8} (same : n % 256 = b.toNat) : UInt8.ofNat n = b :=
  UInt8.toNat_inj.mp (UInt8.toNat_ofNat'.trans same)

theorem encode_ofNatAux {v : Nat} (valid : v.isValidChar) :
    utf8EncodeChar (Char.ofNatAux v valid) =
      if v ≤ 127 then [UInt8.ofNat v]
      else if v ≤ 2047 then [UInt8.ofNat (v / 64 % 32 + 192), UInt8.ofNat (v % 64 + 128)]
      else if v ≤ 65535 then [UInt8.ofNat (v / 4096 % 16 + 224), UInt8.ofNat (v / 64 % 64 + 128),
        UInt8.ofNat (v % 64 + 128)]
      else [UInt8.ofNat (v / 262144 % 8 + 240), UInt8.ofNat (v / 4096 % 64 + 128),
        UInt8.ofNat (v / 64 % 64 + 128), UInt8.ofNat (v % 64 + 128)] := rfl

/-- Such bytes stand for the scalar value that their payload bits spell. -/
theorem encode_of_charBytes : ∀ {bytes : Bytes}, CharBytes bytes →
    ∃ c : Char, utf8EncodeChar c = bytes
  | [a], low => by
    simp only [CharBytes] at low
    have valid : a.toNat.isValidChar := .inl (by omega)
    refine ⟨Char.ofNatAux a.toNat valid, ?_⟩
    rw [encode_ofNatAux, if_pos (by omega), UInt8.ofNat_toNat]
  | [a, b], fit => by
    simp only [CharBytes, continues_iff] at fit
    have valid : ((a.toNat - 192) * 64 + (b.toNat - 128)).isValidChar := .inl (by omega)
    refine ⟨Char.ofNatAux _ valid, ?_⟩
    rw [encode_ofNatAux, if_neg (by omega), if_pos (by omega), ofNat_eq (b := a) (by omega),
      ofNat_eq (b := b) (by omega)]
  | [a, b, d], fit => by
    simp only [CharBytes, continues_iff] at fit
    have valid : ((a.toNat - 224) * 4096 + (b.toNat - 128) * 64 + (d.toNat - 128)).isValidChar := by
      unfold Nat.isValidChar
      omega
    refine ⟨Char.ofNatAux _ valid, ?_⟩
    rw [encode_ofNatAux, if_neg (by omega), if_neg (by omega), if_pos (by omega),
      ofNat_eq (b := a) (by omega), ofNat_eq (b := b) (by omega), ofNat_eq (b := d) (by omega)]
  | [a, b, d, e], fit => by
    simp only [CharBytes, continues_iff] at fit
    have valid : ((a.toNat - 240) * 262144 + (b.toNat - 128) * 4096 + (d.toNat - 128) * 64 +
        (e.toNat - 128)).isValidChar := by
      unfold Nat.isValidChar
      omega
    refine ⟨Char.ofNatAux _ valid, ?_⟩
    rw [encode_ofNatAux, if_neg (by omega), if_neg (by omega), if_neg (by omega),
      ofNat_eq (b := a) (by omega), ofNat_eq (b := b) (by omega), ofNat_eq (b := d) (by omega),
      ofNat_eq (b := e) (by omega)]

/-! ## One turn of the loop -/

/-- The bytes a branch takes, without what follows them. -/
def restIs (second : UInt8 → Bool) (more : Nat) : Bytes → Bool
  | [] => false
  | b :: rest => decide (rest.length = more) && second b && rest.all continues

theorem restOk_iff {second : UInt8 → Bool} {more : Nat} {rest : Bytes} :
    restOk second more rest = true ↔ ∃ bytes, restIs second more bytes = true ∧ bytes <+: rest := by
  constructor
  · intro ok
    cases rest with
    | nil => cases ok
    | cons b rest =>
      simp only [restOk, Bool.and_eq_true, decide_eq_true_eq] at ok
      refine ⟨b :: rest.take more, ?_, (List.prefix_cons_inj b).mpr (List.take_prefix more rest)⟩
      simp [restIs, ok.1.1, ok.1.2, ok.2]
  · rintro ⟨bytes, is, tail, rfl⟩
    cases bytes with
    | nil => cases is
    | cons b bytes =>
      simp only [restIs, Bool.and_eq_true, decide_eq_true_eq] at is
      obtain ⟨⟨rfl, first⟩, all⟩ := is
      simp [restOk, first, all]

theorem restIs_length {second : UInt8 → Bool} {more : Nat} {bytes : Bytes}
    (is : restIs second more bytes = true) : bytes.length = more + 1 := by
  cases bytes with
  | nil => cases is
  | cons b bytes =>
    simp only [restIs, Bool.and_eq_true, decide_eq_true_eq] at is
    simp [is.1.1]

/-- What a turn at a text is for: to find the end of the character there. -/
def Turn (text : Bytes) (i : Nat) (r : Option Nat) : Prop :=
  ∀ j, r = some j ↔ ∃ bytes, CharBytes bytes ∧ bytes <+: text ∧ j = i + bytes.length

/-- A branch does that if it takes the characters that start with the lead byte. -/
theorem turn_branch {c : UInt8} {rest : Bytes} {second : UInt8 → Bool} {more i : Nat}
    (lead : ∀ bytes, CharBytes (c :: bytes) ↔ restIs second more bytes = true) :
    Turn (c :: rest) i (if restOk second more rest then some (i + 1 + 1 + more) else none) := by
  intro j
  constructor
  · intro taken
    split at taken
    · rename_i ok
      cases taken
      obtain ⟨bytes, is, here⟩ := restOk_iff.mp ok
      refine ⟨c :: bytes, (lead bytes).mpr is, (List.prefix_cons_inj c).mpr here, ?_⟩
      rw [List.length_cons, restIs_length is]
      omega
    · cases taken
  · rintro ⟨bytes, fit, here, rfl⟩
    cases bytes with
    | nil => exact fit.elim
    | cons a bytes =>
      obtain ⟨rfl, inner⟩ := List.cons_prefix_cons.mp here
      have is := (lead bytes).mp fit
      rw [if_pos (restOk_iff.mpr ⟨bytes, is, inner⟩), List.length_cons, restIs_length is]
      congr 1
      omega

/-- A character starts with a byte of one of the four ranges. -/
theorem charBytes_lead {c : UInt8} {bytes : Bytes} (fit : CharBytes (c :: bytes)) :
    c.toNat < 0x80 ∧ bytes = [] ∨ 0xc2 ≤ c.toNat ∧ c.toNat ≤ 0xdf ∨
      0xe0 ≤ c.toNat ∧ c.toNat ≤ 0xef ∨ 0xf0 ≤ c.toNat ∧ c.toNat ≤ 0xf4 := by
  rcases bytes with _ | ⟨b, _ | ⟨d, _ | ⟨e, _ | ⟨f, tail⟩⟩⟩⟩
  · exact .inl ⟨fit, rfl⟩
  · exact .inr (.inl ⟨fit.1, fit.2.1⟩)
  · exact .inr (.inr (.inl ⟨fit.1, fit.2.1⟩))
  · exact .inr (.inr (.inr ⟨fit.1, fit.2.1⟩))
  · exact fit.elim

theorem turn_ascii {c : UInt8} {rest : Bytes} {i : Nat} (low : c.toNat < 0x80) :
    Turn (c :: rest) i (some (i + 1)) := by
  intro j
  constructor
  · intro eq
    cases eq
    exact ⟨[c], low, (List.prefix_cons_inj c).mpr List.nil_prefix, rfl⟩
  · rintro ⟨bytes, fit, here, rfl⟩
    cases bytes with
    | nil => exact fit.elim
    | cons a bytes =>
      obtain ⟨rfl, -⟩ := List.cons_prefix_cons.mp here
      obtain ⟨-, rfl⟩ : a.toNat < 0x80 ∧ bytes = [] := by
        rcases charBytes_lead fit with ascii | range
        · exact ascii
        · omega
      rfl

theorem turn_none {c : UInt8} {rest : Bytes} {i : Nat} (high : 0x80 ≤ c.toNat)
    (other : ¬ (0xc2 ≤ c.toNat ∧ c.toNat ≤ 0xf4)) : Turn (c :: rest) i none := by
  intro j
  refine ⟨fun eq => (by cases eq), ?_⟩
  rintro ⟨bytes, fit, here, -⟩
  cases bytes with
  | nil => exact fit.elim
  | cons a bytes =>
    obtain ⟨rfl, -⟩ := List.cons_prefix_cons.mp here
    rcases charBytes_lead fit with ⟨ascii, -⟩ | range <;> omega

theorem lead_two {c : UInt8} (low : 0xc2 ≤ c.toNat) (high : c.toNat ≤ 0xdf) (bytes : Bytes) :
    CharBytes (c :: bytes) ↔ restIs continues 0 bytes = true := by
  rcases bytes with _ | ⟨b, _ | ⟨d, _ | ⟨e, _ | ⟨f, tail⟩⟩⟩⟩ <;>
    simp [CharBytes, restIs, low, high] <;> omega

theorem lead_three {c : UInt8} {second : UInt8 → Bool} (low : 0xe0 ≤ c.toNat)
    (high : c.toNat ≤ 0xef) (is : ∀ b, second b = true ↔ continues b = true ∧
      (c.toNat = 0xe0 → 0xa0 ≤ b.toNat) ∧ (c.toNat = 0xed → b.toNat ≤ 0x9f)) (bytes : Bytes) :
    CharBytes (c :: bytes) ↔ restIs second 1 bytes = true := by
  rcases bytes with _ | ⟨b, _ | ⟨d, _ | ⟨e, _ | ⟨f, tail⟩⟩⟩⟩
  case cons.cons.nil =>
    simp only [CharBytes, restIs, List.length_cons, List.length_nil, List.all_cons, List.all_nil,
      Bool.and_eq_true, is b]
    simp [low, high]
    tauto
  all_goals
    simp [CharBytes, restIs]
    try omega

theorem lead_four {c : UInt8} {second : UInt8 → Bool} (low : 0xf0 ≤ c.toNat)
    (high : c.toNat ≤ 0xf4) (is : ∀ b, second b = true ↔ continues b = true ∧
      (c.toNat = 0xf0 → 0x90 ≤ b.toNat) ∧ (c.toNat = 0xf4 → b.toNat ≤ 0x8f)) (bytes : Bytes) :
    CharBytes (c :: bytes) ↔ restIs second 2 bytes = true := by
  rcases bytes with _ | ⟨b, _ | ⟨d, _ | ⟨e, _ | ⟨f, tail⟩⟩⟩⟩
  case cons.cons.cons.nil =>
    simp only [CharBytes, restIs, List.length_cons, List.length_nil, List.all_cons, List.all_nil,
      Bool.and_eq_true, is b]
    simp [low, high]
    tauto
  all_goals
    simp [CharBytes, restIs]
    try omega

theorem nextChar_turn {p rest : Bytes} {c : UInt8} {i : Nat} (here : p.drop i = c :: rest) :
    ∃ r, nextChar p p.length i = some r ∧ Turn (c :: rest) i r := by
  have inside : i < p.length := by
    by_contra outside
    rw [List.drop_eq_nil_of_le (Nat.not_lt.mp outside)] at here
    cases here
  have cell : p[i]? = some c := by
    rw [← List.head?_drop, here]
    rfl
  have after : p.drop (i + 1) = rest := by
    rw [← List.tail_drop, here]
    rfl
  simp only [nextChar, cell, restOfChar_eq, after, Option.bind_eq_bind, Option.bind_some,
    Option.pure_def]
  simp only [UInt8.lt_iff_toNat_lt, between_iff, beq_iff_eq, ← UInt8.toNat_inj, UInt8.reduceToNat]
  -- one case for each branch of the source, in its order
  by_cases ascii : c.toNat < 128
  · rw [if_pos ascii]
    exact ⟨_, rfl, turn_ascii ascii⟩
  rw [if_neg ascii]
  by_cases two : 194 ≤ c.toNat ∧ c.toNat ≤ 223
  · rw [if_pos two]
    exact ⟨_, rfl, turn_branch (lead_two two.1 two.2)⟩
  rw [if_neg two]
  by_cases e0 : c.toNat = 224
  · rw [if_pos e0]
    refine ⟨_, rfl, turn_branch (lead_three (by omega) (by omega) fun b => ?_)⟩
    simp only [between_iff, continues_iff, UInt8.reduceToNat]
    omega
  rw [if_neg e0]
  by_cases e1 : 225 ≤ c.toNat ∧ c.toNat ≤ 236
  · rw [if_pos e1]
    refine ⟨_, rfl, turn_branch (lead_three (by omega) (by omega) fun b => ?_)⟩
    simp only [continues_iff]
    omega
  rw [if_neg e1]
  by_cases ed : c.toNat = 237
  · rw [if_pos ed]
    refine ⟨_, rfl, turn_branch (lead_three (by omega) (by omega) fun b => ?_)⟩
    simp only [between_iff, continues_iff, UInt8.reduceToNat]
    omega
  rw [if_neg ed]
  by_cases ee : 238 ≤ c.toNat ∧ c.toNat ≤ 239
  · rw [if_pos ee]
    refine ⟨_, rfl, turn_branch (lead_three (by omega) (by omega) fun b => ?_)⟩
    simp only [continues_iff]
    omega
  rw [if_neg ee]
  by_cases f0 : c.toNat = 240
  · rw [if_pos f0]
    refine ⟨_, rfl, turn_branch (lead_four (by omega) (by omega) fun b => ?_)⟩
    simp only [between_iff, continues_iff, UInt8.reduceToNat]
    omega
  rw [if_neg f0]
  by_cases f1 : 241 ≤ c.toNat ∧ c.toNat ≤ 243
  · rw [if_pos f1]
    refine ⟨_, rfl, turn_branch (lead_four (by omega) (by omega) fun b => ?_)⟩
    simp only [continues_iff]
    omega
  rw [if_neg f1]
  by_cases f4 : c.toNat = 244
  · rw [if_pos f4]
    refine ⟨_, rfl, turn_branch (lead_four (by omega) (by omega) fun b => ?_)⟩
    simp only [between_iff, continues_iff, UInt8.reduceToNat]
    omega
  rw [if_neg f4]
  exact ⟨_, rfl, turn_none (by omega) (by omega)⟩

/-! ## The loop -/

theorem utf8EncodeChar_ne_nil (c : Char) : utf8EncodeChar c ≠ [] := by
  intro empty
  have fit := charBytes_encode c
  rw [empty] at fit
  exact fit

/-- With a turn for each byte left, the loop decides whether the rest of the text is UTF-8. -/
theorem utf8Loop_spec (p : Bytes) (turns : Nat) : ∀ i, p.length ≤ i + turns →
    ∃ r, utf8Loop p p.length turns i = some r ∧ (r = true ↔ ∃ text, p.drop i = utf8Text text) := by
  induction turns with
  | zero =>
    intro i all
    rw [utf8Loop, if_neg (by omega), List.drop_eq_nil_of_le (by omega)]
    exact ⟨true, rfl, fun _ => ⟨[], rfl⟩, fun _ => rfl⟩
  | succ turns ih =>
    intro i all
    rw [utf8Loop]
    by_cases inside : i < p.length
    · rw [if_pos inside]
      have here := List.drop_eq_getElem_cons inside
      obtain ⟨r, next, turn⟩ := nextChar_turn here
      rw [next]
      cases r with
      | none =>
        refine ⟨false, rfl, fun eq => (by cases eq), ?_⟩
        rintro ⟨text, eq⟩
        cases text with
        | nil =>
          rw [here] at eq
          cases eq
        | cons c text =>
          rw [← here] at turn
          have starts : utf8EncodeChar c <+: p.drop i := ⟨utf8Text text, eq.symm⟩
          cases (turn _).mpr ⟨_, charBytes_encode c, starts, rfl⟩
      | some j =>
        rw [← here] at turn
        obtain ⟨bytes, fit, ⟨tail, eq⟩, rfl⟩ := (turn j).mp rfl
        obtain ⟨c, rfl⟩ := encode_of_charBytes fit
        have longer : 0 < (utf8EncodeChar c).length :=
          List.length_pos_iff.mpr (utf8EncodeChar_ne_nil c)
        have rest : p.drop (i + (utf8EncodeChar c).length) = tail := by
          rw [← List.drop_drop, ← eq, List.drop_left]
        obtain ⟨r, run, accepts⟩ := ih (i + (utf8EncodeChar c).length) (by omega)
        refine ⟨r, run, accepts.trans ?_⟩
        rw [rest, ← eq]
        constructor
        · rintro ⟨text, rfl⟩
          exact ⟨c :: text, rfl⟩
        · -- the text starts with a character of the same length, so with the same one
          rintro ⟨text, whole⟩
          cases text with
          | nil => exact absurd (List.append_eq_nil_iff.mp whole).1 (utf8EncodeChar_ne_nil c)
          | cons c' text =>
            have starts : utf8EncodeChar c' <+: p.drop i := ⟨utf8Text text, whole.symm.trans eq⟩
            have same := (turn _).mpr ⟨_, charBytes_encode c', starts, rfl⟩
            have lengths : (utf8EncodeChar c).length = (utf8EncodeChar c').length := by
              simpa using same
            exact ⟨text, (List.append_inj whole lengths).2⟩
    · rw [if_neg inside, List.drop_eq_nil_of_le (by omega)]
      exact ⟨true, rfl, fun _ => ⟨[], rfl⟩, fun _ => rfl⟩

/-- The check reads only within the text, and accepts exactly the encodings of lists of scalar
values. -/
theorem validUtf8_iff (data : Bytes) :
    ∃ r, validUtf8 data = some r ∧ (r = true ↔ ∃ text : List Char, data = utf8Text text) :=
  utf8Loop_spec data data.length 0 (Nat.le_add_left _ _)

example : validUtf8 [0xe2, 0x82, 0xac] = some true := by decide

example : validUtf8 [0xed, 0xa0, 0x80] = some false := by decide

end KuttiDB.Admin
