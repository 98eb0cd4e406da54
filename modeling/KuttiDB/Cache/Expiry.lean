/- # KuttiDB.Cache.Expiry -- from a time to live in milliseconds to the second a value disappears

An expiry is a whole second: the second of the write plus the time to live, rounded up
(`kuttidb_expiry_from_ttl`). The second of the write is rounded down, so the two roundings may cancel:
a value is gone up to 999 milliseconds before its time, and never stays for a second beyond it.

`ttl_visible` says this of every run of the local cache, with the exact second; `short_lived` is a value
with a second to live that is gone after a millisecond.
-/
import KuttiDB.Cache.LocalInvariant

namespace KuttiDB.Cache

open KuttiDB.QueueStore
open KuttiDB.Theory

set_option autoImplicit false

/-- `time(NULL)` at an instant given in milliseconds. -/
def timeAt (instant : Nat) : Nat := instant / 1000

/-- `(uint32_t)time(NULL)`. -/
def secondAt (instant : Nat) : Nat := timeAt instant % 2 ^ 32

/-- The second from which a value is not shown, over unbounded numbers. -/
def goneSecond (written ttlMs : Nat) : Nat :=
  min (timeAt written + min ((ttlMs + 999) / 1000) longestTtl) lastSecond

theorem expiryFromTtl_eq {written ttlMs : Nat} (positive : 0 < ttlMs)
    (early : written < 1000 * 2 ^ 32) :
    expiryFromTtl (timeAt written) ttlMs = goneSecond written ttlMs := by
  have now : timeAt written < 2 ^ 32 := by
    unfold timeAt
    omega
  have rounded : ttlMs / 1000 + (if ttlMs % 1000 ≠ 0 then 1 else 0) = (ttlMs + 999) / 1000 := by
    split <;> omega
  have cut : (if (ttlMs + 999) / 1000 > longestTtl then longestTtl else (ttlMs + 999) / 1000) =
      min ((ttlMs + 999) / 1000) longestTtl := by
    split <;> omega
  have added : 0 < min ((ttlMs + 999) / 1000) longestTtl := by
    unfold longestTtl
    omega
  rw [expiryFromTtl, if_neg (by omega), goneSecond]
  simp only [rounded, cut]
  generalize min ((ttlMs + 999) / 1000) longestTtl = more at added
  generalize timeAt written = start at now
  have clamped : (if start + more > lastSecond then lastSecond else start + more) =
      min (start + more) lastSecond := by
    split <;> omega
  -- the last correction is never needed: a second was added
  have later : ¬ (min (start + more) lastSecond ≤ start ∧ start < lastSecond) := by omega
  simp only [clamped, if_neg later]
  exact Nat.mod_eq_of_lt (by unfold lastSecond; omega)

theorem goneSecond_pos (written : Nat) {ttlMs : Nat} (positive : 0 < ttlMs) : 0 < goneSecond written ttlMs := by
  unfold goneSecond lastSecond longestTtl
  omega

/-- The value is shown as long as the second of the reading has not come. -/
theorem passed_goneSecond {written ttlMs read : Nat} (positive : 0 < ttlMs)
    (early : read < 1000 * 2 ^ 32) :
    passed (goneSecond written ttlMs) (secondAt read) = false ↔
      read < 1000 * goneSecond written ttlMs := by
  have some_ := goneSecond_pos written positive
  have second : secondAt read = read / 1000 := Nat.mod_eq_of_lt (by unfold timeAt; omega)
  simp only [passed, second, Bool.and_eq_false_iff, bne_eq_false_iff_eq, decide_eq_false_iff_not]
  omega

/-- The calls of the local cache at instants in milliseconds. -/
def runAt (instant : Nat) (call : MapCall Bytes Bytes) (c : Local) : MapAnswer Bytes × Local :=
  c.run (secondAt instant) call

/-- `kuttidb_put_ex` at the instant of the write. -/
def putEx (written : Nat) (key value : Bytes) (ttlMs : Nat) : Nat × MapCall Bytes Bytes :=
  (written, .put key value (expiryFromTtl (timeAt written) ttlMs))

def getAt (read : Nat) (key : Bytes) : Nat × MapCall Bytes Bytes := (read, .get key)

/-- Instants as the cache reads them. -/
def inSeconds (calls : List (Nat × MapCall Bytes Bytes)) : List (Nat × MapCall Bytes Bytes) :=
  calls.map fun call => (secondAt call.1, call.2)

theorem play_inSeconds (calls : List (Nat × MapCall Bytes Bytes)) (c : Local) :
    play runAt calls c = play Local.run (inSeconds calls) c := by
  induction calls generalizing c with
  | nil => rfl
  | cons call calls ih =>
      simp only [play, inSeconds, List.map_cons, runAt]
      rw [ih]
      rfl

theorem seconds_ordered {calls : List (Nat × MapCall Bytes Bytes)}
    (clock : (calls.map Prod.fst).Pairwise (· ≤ ·))
    (early : ∀ call ∈ calls, call.1 < 1000 * 2 ^ 32) :
    (0 :: (inSeconds calls).map Prod.fst).Pairwise (· ≤ ·) := by
  refine List.pairwise_cons.mpr ⟨fun _ _ => Nat.zero_le _, ?_⟩
  rw [inSeconds, List.map_map, List.pairwise_map]
  refine (List.pairwise_map.mp clock).imp_of_mem fun {a b} memA memB le => ?_
  have earlyA := early a memA
  have earlyB := early b memB
  simp only [Function.comp_apply, secondAt, timeAt]
  omega

/-- What a get at the end of a run answers: the map of the run, as the second of the get shows it. -/
theorem last_get {calls : List (Nat × MapCall Bytes Bytes)} {read nshards buckets : Nat} {key : Bytes}
    (clock : ((calls ++ [getAt read key]).map Prod.fst).Pairwise (· ≤ ·))
    (early : ∀ call ∈ calls ++ [getAt read key], call.1 < 1000 * 2 ^ 32) :
    (play runAt (calls ++ [getAt read key]) (Local.create nshards buckets)).1.getLast? =
      some (.found ((DatedMap.after .empty calls).shows (secondAt read) key)) := by
  have fits : ∀ (calls : List (Nat × MapCall Bytes Bytes)) (c : Local),
      Fits Local.run (fun _ _ => True) calls c := by
    intro calls
    induction calls with
    | nil => exact fun _ => trivial
    | cons call calls ih => exact fun c => ⟨trivial, ih _⟩
  have empty : Mirrors 0 (Local.create nshards buckets).contents (DatedMap.empty : DatedMap Bytes Bytes) := by
    rw [Local.contents_create]
    exact ⟨fun _ mem => absurd mem List.not_mem_nil, fun here => nomatch here⟩
  have serves : ∀ (now : Nat) {call : MapCall Bytes Bytes} {c : Local}, c.Ok → True →
      (c.run now call).2.Ok ∧ Serves now call (c.run now call).1 c.contents (c.run now call).2.contents :=
    fun now _ _ ok _ => Local.run_serves now _ ok
  have explained := (play_explained serves (inSeconds (calls ++ [getAt read key]))
    (Local.create_ok nshards buckets) empty (seconds_ordered clock early) (fits _ _)).1
  rw [← play_inSeconds] at explained
  have shape : inSeconds (calls ++ [getAt read key]) = inSeconds calls ++ [getAt (secondAt read) key] :=
    List.map_append
  rw [shape] at explained
  have same : DatedMap.after .empty (inSeconds calls) = DatedMap.after .empty calls := by
    rw [DatedMap.after, DatedMap.after, inSeconds, List.foldl_map]
  rw [explained.last_get, same]

/-- **How long a value with a time to live is shown**, in every run of the local cache whose other
calls leave its key alone: exactly before its second. That second is at most 999 milliseconds before
and at most 999 milliseconds after the write plus the time to live, unless it is the last one of 32
bits or the time to live is cut to `max_add` seconds. -/
theorem ttl_visible {nshards buckets written read ttlMs : Nat} {key value : Bytes}
    (earlier later : List (Nat × MapCall Bytes Bytes)) (positive : 0 < ttlMs)
    (clock : ((earlier ++ putEx written key value ttlMs :: later ++ [getAt read key]).map
      Prod.fst).Pairwise (· ≤ ·))
    (early : ∀ call ∈ earlier ++ putEx written key value ttlMs :: later ++ [getAt read key],
      call.1 < 1000 * 2 ^ 32)
    (others : ∀ call ∈ later, call.2.writes key = false) :
    (play runAt (earlier ++ putEx written key value ttlMs :: later ++ [getAt read key])
        (Local.create nshards buckets)).1.getLast? =
      some (.found (if read < 1000 * goneSecond written ttlMs then some value else none)) ∧
    (read + 999 < written + ttlMs → timeAt read < lastSecond →
      timeAt read < timeAt written + longestTtl → read < 1000 * goneSecond written ttlMs) ∧
    (written + ttlMs + 999 ≤ read → 1000 * goneSecond written ttlMs ≤ read) := by
  have writtenEarly : written < 1000 * 2 ^ 32 :=
    early _ (List.mem_append_left _ (List.mem_append_right _ List.mem_cons_self))
  have readEarly : read < 1000 * 2 ^ 32 :=
    early _ (List.mem_append_right _ (List.mem_singleton_self _))
  refine ⟨?_, ?_, ?_⟩
  · rw [last_get clock early]
    have held : (DatedMap.after .empty (earlier ++ putEx written key value ttlMs :: later) :
        DatedMap Bytes Bytes) key = some (value, goneSecond written ttlMs) := by
      have split : (DatedMap.after .empty (earlier ++ putEx written key value ttlMs :: later) :
          DatedMap Bytes Bytes) = DatedMap.after ((DatedMap.after .empty earlier).next
            (putEx written key value ttlMs).2) later := by
        rw [DatedMap.after, List.foldl_append]
        rfl
      rw [split, DatedMap.after_untouched others, ← expiryFromTtl_eq positive writtenEarly]
      exact Function.update_self ..
    rw [DatedMap.shows, held]
    simp only
    by_cases before : read < 1000 * goneSecond written ttlMs
    · rw [(passed_goneSecond positive readEarly).mpr before, if_pos before]
      rfl
    · rw [if_neg before, if_pos]
      rw [← Bool.not_eq_false]
      exact fun shown => before ((passed_goneSecond positive readEarly).mp shown)
  · intro inTime notLast short
    unfold goneSecond
    unfold timeAt at *
    omega
  · intro late
    unfold goneSecond timeAt
    omega

/-- Written at 1.999 s for half a second more than a second, read at 2.4 s. -/
theorem ttl_visible_read :
    (play runAt ([] ++ putEx 1999 [107] [7] 1500 :: [(2100, .sweep 4)] ++ [getAt 2400 [107]])
      (Local.create 2 16)).1.getLast? = some (.found (some [7])) :=
  (ttl_visible [] [(2100, .sweep 4)] (by decide) (by decide) (by decide) (by decide)).1

/-- **A second to live may be a millisecond**: written at 1.999 s, the value is gone at 2.000 s. -/
theorem short_lived :
    (play runAt ([] ++ putEx 1999 [107] [7] 1000 :: [] ++ [getAt 2000 [107]])
      (Local.create 2 16)).1.getLast? = some (.found none) := by
  rw [last_get (by decide) (by decide)]
  rfl

end KuttiDB.Cache
