/- # KuttiDB.Cache.LocalInvariant -- what every call of the local cache leaves behind

`Local.Ok`: every entry stands in the shard and the chain its hash names, no key is stored twice and
every shard counts its entries. Each critical section keeps it, and `run_serves` says what a call does
to the contents of the cache: in place, replaced or prepended, rehashed or not, a put leaves the same
bag of dated entries.
-/
import KuttiDB.Cache.Local
import KuttiDB.Theory.Chains

namespace KuttiDB.Cache

open KuttiDB.QueueStore
open KuttiDB.Theory

set_option autoImplicit false

/-! ## Places -/

theorem hashKey_lt (key : Bytes) : hashKey key < 2 ^ 32 := by
  rw [hashKey]
  exact Nat.mod_lt _ (by decide)

theorem and_pred_lt (h : Nat) {n : Nat} (room : 0 < n) : h &&& (n - 1) < n :=
  Nat.lt_of_le_of_lt Nat.and_le_right (by omega)

theorem shiftRight_lt {h : Nat} (bits : Nat) (lt : h < 2 ^ 32) : h >>> (32 - bits) < 2 ^ bits := by
  rw [Nat.shiftRight_eq_div_pow]
  refine Nat.div_lt_of_lt_mul (Nat.lt_of_lt_of_le lt ?_)
  rw [← Nat.pow_add]
  exact Nat.pow_le_pow_right (by decide) (by omega)

/-- With its own hash on it, an entry answers to its key only. -/
theorem Entry.named_eq {e : Entry} (hashed : e.hash = hashKey e.key) (key : Bytes) :
    e.named (hashKey key) key = decide (e.key = key) := by
  by_cases same : e.key = key
  · simp [named, hashed, same]
  · simp [named, same]

/-! ## Shards -/

structure Shard.Ok (s : Shard) : Prop where
  room : 0 < s.buckets.length
  placed : Placed (fun e => e.hash &&& (s.buckets.length - 1)) s.buckets
  counted : s.count = s.entries.length

/-- What the cache adds to it for each of its shards. -/
structure Shard.Hashed (s : Shard) : Prop where
  hashed : ∀ e ∈ s.entries, e.hash = hashKey e.key
  once : (s.entries.map Entry.key).Nodup

namespace Shard

variable {s : Shard} {key : Bytes} {e : Entry}

theorem Ok.chain_at (ok : s.Ok) (h : Nat) : s.buckets[s.bucketOf h]? = some (s.chain h) := by
  have lt : s.bucketOf h < s.buckets.length := and_pred_lt h ok.room
  rw [chain, List.getD_eq_getElem?_getD, List.getElem?_eq_getElem lt, Option.getD_some]

theorem Ok.mem_chain (ok : s.Ok) (mem : e ∈ s.entries) : e ∈ s.chain e.hash := by
  obtain ⟨chain, at_, inChain⟩ := ok.placed.mem_chain mem
  have same := at_.symm.trans (ok.chain_at e.hash)
  exact (Option.some.inj same) ▸ inChain

theorem mem_of_chain (ok : s.Ok) {h : Nat} (mem : e ∈ s.chain h) : e ∈ s.entries :=
  List.mem_flatten_of_mem (List.mem_of_getElem? (ok.chain_at h)) mem

theorem find_some (ok : s.Ok) (found : s.find (hashKey key) key = some e) :
    e ∈ s.entries ∧ e.key = key := by
  refine ⟨mem_of_chain ok (List.mem_of_find?_eq_some found), ?_⟩
  have named := List.find?_some found
  simp only [Entry.named, Bool.and_eq_true, beq_iff_eq] at named
  exact named.2

theorem find_none (ok : s.Ok) (hashed : s.Hashed) (missing : s.find (hashKey key) key = none) :
    ∀ e ∈ s.entries, e.key ≠ key := by
  rintro e mem rfl
  have own := hashed.hashed e mem
  refine List.find?_eq_none.mp missing e (own ▸ ok.mem_chain mem) ?_
  simp [Entry.named_eq own]

/-- All entries of a key are in one chain. -/
theorem slot_of_key (hashed : s.Hashed) :
    ∀ e ∈ s.entries, e.key = key → e.hash &&& (s.buckets.length - 1) = s.bucketOf (hashKey key) := by
  rintro e mem rfl
  rw [hashed.hashed e mem, bucketOf]

theorem Hashed.chain (hashed : s.Hashed) {b : Nat} {chain : List Entry}
    (at_ : s.buckets[b]? = some chain) :
    (∀ e ∈ chain, e.hash = hashKey e.key) ∧ (chain.map Entry.key).Nodup := by
  obtain ⟨before, after, eq, -⟩ := exists_split at_
  refine ⟨fun e mem => hashed.hashed e
    (List.mem_flatten_of_mem (List.mem_of_getElem? at_) mem), ?_⟩
  have part : chain.Sublist s.entries := by
    rw [entries, eq, List.flatten_append, List.flatten_cons]
    exact (List.sublist_append_left _ _).trans (List.sublist_append_right _ _)
  exact hashed.once.sublist (part.map _)

theorem entries_remove (ok : s.Ok) (hashed : s.Hashed) :
    (s.remove (hashKey key) key).entries = dropKey Entry.key key s.entries := by
  have inChain : s.buckets.modify (s.bucketOf (hashKey key)) (List.eraseP (Entry.named (hashKey key) key))
      = s.buckets.modify (s.bucketOf (hashKey key)) (dropKey Entry.key key) := by
    refine modify_congr fun chain at_ => ?_
    obtain ⟨own, distinct⟩ := hashed.chain at_
    rw [← eraseP_eq_dropKey Entry.key distinct]
    exact eraseP_congr fun e mem => Entry.named_eq (own e mem) key
  rw [remove, rechain, entries, inChain]
  exact flatten_modify_dropKey ok.placed (slot_of_key hashed)

/-- A change of one chain that stays in its bucket and is counted. -/
theorem Ok.rechain {b count : Nat} {f : List Entry → List Entry} {chain : List Entry} (ok : s.Ok)
    (at_ : s.buckets[b]? = some chain)
    (fits : ∀ e ∈ f chain, e.hash &&& (s.buckets.length - 1) = b)
    (counts : count + chain.length = s.count + (f chain).length) : (s.rechain b f count).Ok where
  room := by simpa [Shard.rechain] using ok.room
  placed := by
    have placed : Placed _ (s.buckets.modify b f) :=
      ok.placed.modify fun old found => Option.some.inj (at_.symm.trans found) ▸ fits
    simpa [Shard.rechain] using placed
  counted := by
    obtain ⟨before, after, eq, changed⟩ := exists_split at_
    have total := ok.counted
    rw [entries, eq] at total
    rw [Shard.rechain, entries, changed]
    simp only [List.flatten_append, List.flatten_cons, List.length_append] at total ⊢
    omega

theorem Ok.remove (ok : s.Ok) (found : s.find (hashKey key) key = some e) :
    (s.remove (hashKey key) key).Ok := by
  refine ok.rechain (ok.chain_at (hashKey key)) (fun x mem => ?_) ?_
  · exact ok.placed _ _ (ok.chain_at _) x (List.mem_of_mem_eraseP mem)
  · have mem := List.mem_of_find?_eq_some found
    have shorter := List.length_eraseP_of_mem mem (List.find?_some found)
    have held : 0 < (s.chain (hashKey key)).length := List.length_pos_of_mem mem
    have all : (s.chain (hashKey key)).length ≤ s.count := by
      rw [ok.counted]
      obtain ⟨before, after, eq, -⟩ := exists_split (ok.chain_at (hashKey key))
      rw [entries, eq]
      simp only [List.flatten_append, List.flatten_cons, List.length_append]
      omega
    omega

theorem entries_overwrite {value : Bytes} {exp : Nat} (ok : s.Ok) (hashed : s.Hashed) :
    (s.rechain (s.bucketOf (hashKey key))
        (updateFirst (Entry.named (hashKey key) key) (Entry.overwrite value exp)) s.count).entries =
      updateKey Entry.key key (Entry.overwrite value exp) s.entries := by
  have inChain : s.buckets.modify (s.bucketOf (hashKey key))
        (updateFirst (Entry.named (hashKey key) key) (Entry.overwrite value exp)) =
      s.buckets.modify (s.bucketOf (hashKey key))
        (updateKey Entry.key key (Entry.overwrite value exp)) := by
    refine modify_congr fun chain at_ => ?_
    obtain ⟨own, distinct⟩ := hashed.chain at_
    rw [← updateFirst_eq_updateKey Entry.key _ distinct]
    exact updateFirst_congr fun e mem => Entry.named_eq (own e mem) key
  rw [Shard.rechain, entries, inChain]
  exact flatten_modify_updateKey ok.placed (slot_of_key hashed)

end Shard

theorem Entry.overwrite_key (value : Bytes) (exp : Nat) (e : Entry) :
    (e.overwrite value exp).key = e.key := by
  unfold overwrite
  split <;> rfl

theorem Entry.overwrite_hash (value : Bytes) (exp : Nat) (e : Entry) :
    (e.overwrite value exp).hash = e.hash := by
  unfold overwrite
  split <;> rfl

theorem Entry.overwrite_dated (value : Bytes) (exp : Nat) (e : Entry) :
    (e.overwrite value exp).dated = ⟨e.key, value, exp⟩ := by
  unfold overwrite
  split <;> rfl

namespace Shard

variable {s : Shard} {key : Bytes}

/-- The nested loops of `maybe_resize` push the entries in walk order. -/
theorem rehash_eq (newn : Nat) (buckets : List (List Entry)) :
    rehash newn buckets =
      buckets.flatten.foldl (push (fun e => e.hash &&& (newn - 1))) (List.replicate newn []) :=
  List.foldl_flatten.symm

theorem rehash_spec {newn : Nat} (room : 0 < newn) (buckets : List (List Entry)) :
    (rehash newn buckets).length = newn ∧ (rehash newn buckets).flatten.Perm buckets.flatten ∧
      Placed (fun e => e.hash &&& (newn - 1)) (rehash newn buckets) := by
  have bound : ∀ e : Entry, e.hash &&& (newn - 1) <
      (List.replicate newn ([] : List Entry)).length := fun e => by
    rw [List.length_replicate]
    exact and_pred_lt e.hash room
  obtain ⟨length, perm, placed⟩ := pushAll _ bound buckets.flatten
  rw [← rehash_eq] at length perm placed
  rw [List.length_replicate] at length
  rw [List.flatten_replicate_nil, List.append_nil] at perm
  exact ⟨length, perm, placed (placed_replicate _)⟩

theorem maybeResize_ok (ok : s.Ok) : s.maybeResize.Ok ∧ s.maybeResize.entries.Perm s.entries := by
  unfold maybeResize
  split
  · exact ⟨ok, .refl _⟩
  · have room : 0 < s.buckets.length * 2 := Nat.mul_pos ok.room (by decide)
    obtain ⟨size, same, placed⟩ := rehash_spec room s.buckets
    refine ⟨⟨by simpa [size] using room, ?_, ?_⟩, same⟩
    · simpa only [size] using placed
    · exact ok.counted.trans same.length_eq.symm

theorem entries_put_new (value : Bytes) (exp : Nat) (ok : s.Ok) (missing : s.find (hashKey key) key = none) :
    (s.put (hashKey key) key value exp).Ok ∧ (s.put (hashKey key) key value exp).entries.Perm
      (Entry.create (hashKey key) key value exp :: s.entries) := by
  have at_ := ok.chain_at (hashKey key)
  have pushed : (s.rechain (s.bucketOf (hashKey key))
      (Entry.create (hashKey key) key value exp :: ·) (s.count + 1)).Ok := by
    refine ok.rechain at_ (fun e mem => ?_) (by simp only [List.length_cons]; omega)
    rcases List.mem_cons.mp mem with rfl | old
    · rw [Entry.create_hash, bucketOf]
    · exact ok.placed _ _ at_ e old
  obtain ⟨resized, same⟩ := maybeResize_ok pushed
  have eq : s.put (hashKey key) key value exp = (s.rechain (s.bucketOf (hashKey key))
      (Entry.create (hashKey key) key value exp :: ·) (s.count + 1)).maybeResize := by
    simp only [put, missing]
  rw [eq]
  refine ⟨resized, same.trans ?_⟩
  exact push_perm (fun e => e.hash &&& (s.buckets.length - 1)) (and_pred_lt _ ok.room)

theorem entries_put_old (value : Bytes) (exp : Nat) {e : Entry} (ok : s.Ok) (hashed : s.Hashed)
    (found : s.find (hashKey key) key = some e) :
    (s.put (hashKey key) key value exp).Ok ∧ (s.put (hashKey key) key value exp).entries =
      updateKey Entry.key key (Entry.overwrite value exp) s.entries := by
  have eq : s.put (hashKey key) key value exp = s.rechain (s.bucketOf (hashKey key))
      (updateFirst (Entry.named (hashKey key) key) (Entry.overwrite value exp)) s.count := by
    simp only [put, found]
  rw [eq]
  refine ⟨ok.rechain (ok.chain_at _) (fun x mem => ?_) (by simp), entries_overwrite ok hashed⟩
  have placed := ok.placed _ _ (ok.chain_at (hashKey key))
  rcases mem_updateFirst mem with old | ⟨y, old, -, rfl⟩
  · exact placed x old
  · rw [Entry.overwrite_hash]
    exact placed y old

theorem sweep_ok (now : Nat) {b : Nat} {chain : List Entry} (ok : s.Ok) (at_ : s.buckets[b]? = some chain) :
    (s.sweep now b).Ok ∧ s.entries.Perm
      (chain.filter (Entry.isExpired now) ++ (s.sweep now b).entries) := by
  have split := flatten_modify_filter_perm (fun e : Entry => !e.isExpired now) at_
  simp only [Bool.not_not] at split
  refine ⟨ok.rechain at_ (fun e mem => ok.placed b chain at_ e (List.mem_of_mem_filter mem)) ?_,
    split⟩
  have here : s.buckets.getD b [] = chain := by
    rw [List.getD_eq_getElem?_getD, at_, Option.getD_some]
  have parts : (chain.filter (Entry.isExpired now)).length +
      (chain.filter (fun e => !e.isExpired now)).length = chain.length := by
    rw [← List.length_append]
    exact (List.filter_append_perm (Entry.isExpired now) chain).length_eq
  have all : s.count = (chain.filter (Entry.isExpired now)).length + _ :=
    ok.counted.trans (split.length_eq.trans List.length_append)
  rw [here]
  omega

end Shard

/-! ## The cache -/

structure Local.Ok (c : Local) : Prop where
  length : c.shards.length = 2 ^ c.shardBits
  shards : ∀ s ∈ c.shards, s.Ok
  placed : Placed (fun e => e.hash >>> (32 - c.shardBits)) (c.shards.map Shard.entries)
  hashed : ∀ e ∈ c.entries, e.hash = hashKey e.key
  once : (c.entries.map Entry.key).Nodup

namespace Local

variable {c c' : Local} {i : Nat} {s : Shard} {key value : Bytes} {exp now : Nat} {e : Entry}

theorem entries_eq (c : Local) : c.entries = (c.shards.map Shard.entries).flatten :=
  List.flatMap_def ..

theorem keys_contents (c : Local) : c.contents.map Dated.key = c.entries.map Entry.key := by
  rw [contents, List.map_map]
  rfl

theorem Ok.once_contents (ok : c.Ok) : Once c.contents := by
  rw [Once, keys_contents]
  exact ok.once

/-- The shard beside everything else. -/
theorem entries_split (at_ : c.shards[i]? = some s) : ∃ rest, c.entries.Perm (s.entries ++ rest) ∧
    ∀ f, ((c.shards.modify i f).flatMap Shard.entries).Perm ((f s).entries ++ rest) := by
  obtain ⟨before, after, eq, changed⟩ := exists_split at_
  have move : ∀ xs : List Entry, (before.flatMap Shard.entries ++
      (xs ++ after.flatMap Shard.entries)).Perm
      (xs ++ (before.flatMap Shard.entries ++ after.flatMap Shard.entries)) :=
    fun xs => List.perm_append_comm_assoc ..
  refine ⟨before.flatMap Shard.entries ++ after.flatMap Shard.entries, ?_, fun f => ?_⟩
  · rw [entries, eq, List.flatMap_append, List.flatMap_cons]
    exact move s.entries
  · rw [changed, List.flatMap_append, List.flatMap_cons]
    exact move (f s).entries

theorem mem_entries (at_ : c.shards[i]? = some s) (mem : e ∈ s.entries) : e ∈ c.entries :=
  List.mem_flatMap.mpr ⟨s, List.mem_of_getElem? at_, mem⟩

theorem Ok.shard_hashed (ok : c.Ok) (at_ : c.shards[i]? = some s) : s.Hashed := by
  obtain ⟨rest, split, -⟩ := entries_split at_
  refine ⟨fun e mem => ok.hashed e (mem_entries at_ mem), ?_⟩
  have all := ((split.map Entry.key).nodup_iff).mp ok.once
  rw [List.map_append] at all
  exact (List.nodup_append.mp all).1

theorem Ok.home (ok : c.Ok) (key : Bytes) :
    c.shards[c.shardOf (hashKey key)]? = some (c.shardFor (hashKey key)) := by
  have lt : c.shardOf (hashKey key) < c.shards.length := by
    rw [ok.length]
    exact shiftRight_lt c.shardBits (hashKey_lt key)
  rw [shardFor, List.getD_eq_getElem?_getD, List.getElem?_eq_getElem lt, Option.getD_some]

theorem Ok.home_ok (ok : c.Ok) (key : Bytes) :
    (c.shardFor (hashKey key)).Ok ∧ (c.shardFor (hashKey key)).Hashed :=
  ⟨ok.shards _ (List.mem_of_getElem? (ok.home key)), ok.shard_hashed (ok.home key)⟩

/-- All entries of a key are in one shard. -/
theorem Ok.shard_of_key (ok : c.Ok) :
    ∀ e ∈ (c.shards.map Shard.entries).flatten, e.key = key →
      e.hash >>> (32 - c.shardBits) = c.shardOf (hashKey key) := by
  rintro e mem rfl
  rw [ok.hashed e (entries_eq c ▸ mem), shardOf]

theorem find_some (ok : c.Ok) (found : c.find key = some e) : e ∈ c.entries ∧ e.key = key := by
  obtain ⟨mem, named⟩ := Shard.find_some (ok.home_ok key).1 found
  exact ⟨mem_entries (ok.home key) mem, named⟩

theorem find_none (ok : c.Ok) (missing : c.find key = none) : ∀ e ∈ c.entries, e.key ≠ key := by
  rintro e mem rfl
  have inShards : e ∈ (c.shards.map Shard.entries).flatten := entries_eq c ▸ mem
  obtain ⟨part, at_, inPart⟩ := ok.placed.mem_chain inShards
  rw [ok.shard_of_key e inShards rfl, List.getElem?_map, ok.home e.key, Option.map_some] at at_
  obtain ⟨shardOk, hashed⟩ := ok.home_ok e.key
  exact Shard.find_none shardOk hashed missing e (Option.some.inj at_ ▸ inPart) rfl

/-- A change of one shard. -/
theorem Ok.change {f : Shard → Shard} (ok : c.Ok) (at_ : c.shards[i]? = some s)
    (same : c'.shards = c.shards.modify i f) (bits : c'.shardBits = c.shardBits) (shard : (f s).Ok)
    (members : ∀ e ∈ (f s).entries,
      e.hash = hashKey e.key ∧ e.hash >>> (32 - c.shardBits) = i)
    (once : Once c'.contents) : c'.Ok := by
  obtain ⟨before, after, eq, changed⟩ := exists_split at_
  have shards : c'.shards = before ++ f s :: after := same.trans (changed f)
  refine ⟨by rw [same, bits, List.length_modify, ok.length], fun x mem => ?_, ?_, fun e mem => ?_, ?_⟩
  · rw [shards] at mem
    rcases List.mem_append.mp mem with early | late
    · exact ok.shards x (eq ▸ List.mem_append_left _ early)
    · rcases List.mem_cons.mp late with rfl | late
      · exact shard
      · exact ok.shards x (eq ▸ List.mem_append_right _ (List.mem_cons_of_mem _ late))
  · rw [same, bits, map_modify_of (g := fun _ => (f s).entries) Shard.entries
      (fun x found => by rw [Option.some.inj (at_.symm.trans found)])]
    exact ok.placed.modify fun _ _ e mem => (members e mem).2
  · rw [entries, shards] at mem
    simp only [List.flatMap_append, List.flatMap_cons, List.mem_append] at mem
    rcases mem with early | here | late
    · exact ok.hashed e (by rw [entries, eq, List.flatMap_append]; exact List.mem_append_left _ early)
    · exact (members e here).1
    · refine ok.hashed e ?_
      rw [entries, eq, List.flatMap_append, List.flatMap_cons]
      exact List.mem_append_right _ (List.mem_append_right _ late)
  · rw [← keys_contents]
    exact once

theorem Ok.members (ok : c.Ok) (at_ : c.shards[i]? = some s) :
    ∀ e ∈ s.entries, e.hash = hashKey e.key ∧ e.hash >>> (32 - c.shardBits) = i :=
  fun e mem => ⟨ok.hashed e (mem_entries at_ mem),
    ok.placed i s.entries (by rw [List.getElem?_map, at_]; rfl) e mem⟩

/-! ## What the sections do to the contents -/

-- `rw`, not `rfl`: the latter has the kernel evaluate the hash of a variable
theorem unlink_shards (c : Local) (key : Bytes) : (c.unlink key).shards =
    c.shards.modify (c.shardOf (hashKey key)) (Shard.remove (hashKey key) key) := by
  rw [unlink]

theorem unlink_shardBits (c : Local) (key : Bytes) : (c.unlink key).shardBits = c.shardBits := by
  rw [unlink]

theorem putAbs_shardBits (c : Local) (key value : Bytes) (exp : Nat) :
    (c.putAbs key value exp).shardBits = c.shardBits := by
  rw [putAbs]

theorem putAbs_shards (c : Local) (key value : Bytes) (exp : Nat) :
    (c.putAbs key value exp).shards =
      c.shards.modify (c.shardOf (hashKey key)) (Shard.put (hashKey key) key value exp) := by
  rw [putAbs]

theorem entries_unlink (ok : c.Ok) (key : Bytes) :
    (c.unlink key).entries = dropKey Entry.key key c.entries := by
  obtain ⟨shardOk, hashed⟩ := ok.home_ok key
  have carried : (c.unlink key).shards.map Shard.entries =
      (c.shards.map Shard.entries).modify (c.shardOf (hashKey key)) (dropKey Entry.key key) := by
    rw [unlink_shards]
    refine map_modify_of Shard.entries fun s found => ?_
    obtain rfl := Option.some.inj (found.symm.trans (ok.home key))
    exact Shard.entries_remove shardOk hashed
  rw [entries_eq, carried, flatten_modify_dropKey ok.placed ok.shard_of_key, ← entries_eq]

theorem contents_dropKey (key : Bytes) (entries : List Entry) :
    (dropKey Entry.key key entries).map Entry.dated =
      dropKey Dated.key key (entries.map Entry.dated) :=
  map_dropKey Entry.key Entry.dated entries (fun _ => rfl)

theorem contents_unlink (ok : c.Ok) (key : Bytes) :
    (c.unlink key).contents = dropKey Dated.key key c.contents := by
  rw [contents, entries_unlink ok, contents_dropKey, ← contents]

theorem Ok.unlink (ok : c.Ok) (found : c.find key = some e) : (c.unlink key).Ok := by
  obtain ⟨shardOk, hashed⟩ := ok.home_ok key
  refine ok.change (ok.home key) (unlink_shards ..) (unlink_shardBits ..) (shardOk.remove found) (fun x mem => ?_) ?_
  · rw [Shard.entries_remove shardOk hashed] at mem
    exact ok.members (ok.home key) x ((mem_dropKey Entry.key).mp mem).1
  · rw [contents_unlink ok]
    exact nodup_dropKey _ ok.once_contents

theorem contents_putAbs (ok : c.Ok) : (c.putAbs key value exp).contents.Perm
    (⟨key, value, exp⟩ :: dropKey Dated.key key c.contents) := by
  obtain ⟨shardOk, hashed⟩ := ok.home_ok key
  cases found : c.find key with
  | none =>
      obtain ⟨rest, split, changed⟩ := entries_split (ok.home key)
      obtain ⟨-, added⟩ := Shard.entries_put_new value exp shardOk found
      have grown : (c.putAbs key value exp).entries.Perm
          (Entry.create (hashKey key) key value exp :: c.entries) := by
        rw [entries, putAbs_shards]
        exact (changed _).trans ((added.append_right rest).trans (split.symm.cons _))
      have absent : ∀ d ∈ c.contents, d.key ≠ key := by
        intro d mem
        obtain ⟨e, inside, rfl⟩ := List.mem_map.mp mem
        exact find_none ok found e inside
      have dated := grown.map Entry.dated
      rw [List.map_cons, Entry.create_dated] at dated
      rw [dropKey_of_absent Dated.key absent]
      exact dated
  | some e =>
      obtain ⟨-, updated⟩ := Shard.entries_put_old value exp shardOk hashed found
      have carried : (c.putAbs key value exp).shards.map Shard.entries =
          (c.shards.map Shard.entries).modify (c.shardOf (hashKey key))
            (updateKey Entry.key key (Entry.overwrite value exp)) := by
        rw [putAbs_shards]
        refine map_modify_of Shard.entries fun s at_ => ?_
        obtain rfl := Option.some.inj (at_.symm.trans (ok.home key))
        exact updated
      have eq : (c.putAbs key value exp).contents =
          updateKey Dated.key key (fun _ => ⟨key, value, exp⟩) c.contents := by
        rw [contents, entries_eq, carried, flatten_modify_updateKey ok.placed ok.shard_of_key,
          ← entries_eq]
        refine map_updateKey Entry.key Entry.dated (fun _ => rfl) fun x _ named => ?_
        rw [Entry.overwrite_dated, named]
      rw [eq]
      refine updateKey_perm ok.once_contents ?_
      obtain ⟨mem, named⟩ := find_some ok found
      exact ⟨e.dated, List.mem_map_of_mem mem, named⟩

theorem Ok.putAbs (ok : c.Ok) : (c.putAbs key value exp).Ok := by
  obtain ⟨shardOk, hashed⟩ := ok.home_ok key
  have serves : Serves 0 (.put key value exp) .stored c.contents (c.putAbs key value exp).contents :=
    ⟨rfl, contents_putAbs ok⟩
  have own : ∀ e ∈ (c.shardFor (hashKey key)).entries, _ := ok.members (ok.home key)
  cases found : c.find key with
  | none =>
      obtain ⟨putOk, added⟩ := Shard.entries_put_new value exp shardOk found
      refine ok.change (ok.home key) (putAbs_shards ..) (putAbs_shardBits ..) putOk
        (fun x mem => ?_) (serves.once ok.once_contents)
      rcases List.mem_cons.mp (added.mem_iff.mp mem) with rfl | old
      · rw [Entry.create_hash, Entry.create_key]
        exact ⟨rfl, by rw [shardOf]⟩
      · exact own x old
  | some e =>
      obtain ⟨putOk, updated⟩ :=
        Shard.entries_put_old value exp shardOk hashed found
      refine ok.change (ok.home key) (putAbs_shards ..) (putAbs_shardBits ..) putOk
        (fun x mem => ?_) (serves.once ok.once_contents)
      rw [updated] at mem
      rcases (mem_updateKey Entry.key).mp mem with ⟨old, -⟩ | ⟨y, old, -, rfl⟩
      · exact own x old
      · rw [Entry.overwrite_hash, Entry.overwrite_key]
        exact own y old

/-- What one ticket of the sweep finds expired in its bucket. -/
def due (now ticket : Nat) (c : Local) : List Entry :=
  let s := c.shards.getD (ticket &&& (c.nshards - 1)) ⟨[], 0⟩
  (s.buckets.getD ((ticket / c.nshards) &&& (s.buckets.length - 1)) []).filter (Entry.isExpired now)

/-- The bucket of a ticket. -/
theorem Ok.ticket_at (ticket : Nat) (ok : c.Ok) : ∃ i s b,
    ticket &&& (c.nshards - 1) = i ∧ c.shards[i]? = some s ∧ c.shards.getD i ⟨[], 0⟩ = s ∧
      (ticket / c.nshards) &&& (s.buckets.length - 1) = b ∧
      s.buckets[b]? = some (s.buckets.getD b []) := by
  have lt : (ticket &&& (c.nshards - 1)) < c.shards.length :=
    and_pred_lt ticket (by rw [nshards, ok.length]; exact Nat.two_pow_pos _)
  generalize shard : ticket &&& (c.nshards - 1) = i at lt
  have at_ : c.shards[i]? = some (c.shards.getD i ⟨[], 0⟩) := by
    rw [List.getD_eq_getElem?_getD, List.getElem?_eq_getElem lt, Option.getD_some]
  refine ⟨i, _, _, rfl, at_, rfl, rfl, ?_⟩
  have room := (ok.shards _ (List.mem_of_getElem? at_)).room
  generalize c.shards.getD i ⟨[], 0⟩ = s at room
  rw [List.getD_eq_getElem?_getD, List.getElem?_eq_getElem (and_pred_lt _ room), Option.getD_some]

/-- One ticket of the sweep takes away what it finds expired. -/
theorem sweepBucket_split (now ticket : Nat) (ok : c.Ok) : (c.sweepBucket now ticket).Ok ∧
    c.entries.Perm (c.due now ticket ++ (c.sweepBucket now ticket).entries) := by
  obtain ⟨i, s, b, shard, at_, home, bucket, chainAt⟩ := ok.ticket_at ticket
  have shardOk := ok.shards s (List.mem_of_getElem? at_)
  obtain ⟨sweptOk, split⟩ := Shard.sweep_ok now shardOk chainAt
  have shards : (c.sweepBucket now ticket).shards = c.shards.modify i (Shard.sweep now b) := by
    simp only [sweepBucket, shard, home, bucket]
  obtain ⟨rest, all, changed⟩ := entries_split at_
  have perm : c.entries.Perm (c.due now ticket ++ (c.sweepBucket now ticket).entries) := by
    simp only [due, shard, home, bucket]
    refine all.trans ((split.append_right rest).trans ?_)
    rw [List.append_assoc, entries, shards]
    exact (changed _).symm.append_left _
  have once : Once (c.sweepBucket now ticket).contents := by
    have both := (perm.map Entry.key).nodup_iff.mp ok.once
    rw [List.map_append] at both
    rw [Once, keys_contents]
    exact (List.nodup_append.mp both).2.1
  refine ⟨ok.change at_ shards rfl sweptOk (fun e mem => ok.members at_ e ?_) once, perm⟩
  exact split.mem_iff.mpr (List.mem_append_right _ mem)

/-- One ticket of the sweep takes away nothing but what has expired. -/
theorem sweepBucket_ok (now ticket : Nat) (ok : c.Ok) : (c.sweepBucket now ticket).Ok ∧
    ∃ gone, c.contents.Perm (gone ++ (c.sweepBucket now ticket).contents) ∧
      ∀ d ∈ gone, passed d.expiry now = true := by
  obtain ⟨sweptOk, perm⟩ := sweepBucket_split now ticket ok
  have contentsPerm := perm.map Entry.dated
  rw [List.map_append] at contentsPerm
  refine ⟨sweptOk, _, contentsPerm, fun d mem => ?_⟩
  obtain ⟨e, expired, rfl⟩ := List.mem_map.mp mem
  exact (List.mem_filter.mp expired).2

theorem sweepLoop_ok (now : Nat) : ∀ (work : Nat) {c : Local}, c.Ok → (c.sweepLoop now work).Ok ∧
    ∃ gone, c.contents.Perm (gone ++ (c.sweepLoop now work).contents) ∧
      ∀ d ∈ gone, passed d.expiry now = true
  | 0, c, ok => ⟨ok, [], .refl _, fun _ mem => (List.not_mem_nil mem).elim⟩
  | work + 1, c, ok => by
      have ticketOk : c.takeTicket.Ok := ⟨ok.length, ok.shards, ok.placed, ok.hashed, ok.once⟩
      obtain ⟨bucketOk, gone, split, past⟩ :=
        sweepBucket_ok now c.sweepCursor ticketOk
      obtain ⟨endOk, later, rest, pastLater⟩ := sweepLoop_ok now work bucketOk
      refine ⟨endOk, gone ++ later, ?_, fun d mem => ?_⟩
      · rw [List.append_assoc]
        exact split.trans (rest.append_left gone)
      · exact (List.mem_append.mp mem).elim (past d) (pastLater d)

theorem Ok.revised (ok : c.Ok) (revision : Nat) : ({ c with revision := revision } : Local).Ok :=
  ⟨ok.length, ok.shards, ok.placed, ok.hashed, ok.once⟩

theorem contents_revised (c : Local) (revision : Nat) :
    ({ c with revision := revision } : Local).contents = c.contents := rfl

theorem mem_contents_of_find (ok : c.Ok) (found : c.find key = some e) :
    e.dated ∈ c.contents ∧ e.key = key :=
  ⟨List.mem_map_of_mem (find_some ok found).1, (find_some ok found).2⟩

theorem absent_of_find (ok : c.Ok) (missing : c.find key = none) :
    ∀ d ∈ c.contents, d.key ≠ key := by
  intro d mem
  obtain ⟨e, inside, rfl⟩ := List.mem_map.mp mem
  exact find_none ok missing e inside

/-- What a call of the local cache does. -/
theorem run_serves (now : Nat) (call : MapCall Bytes Bytes) (ok : c.Ok) :
    (run now call c).2.Ok ∧ Serves now call (run now call c).1 c.contents (run now call c).2.contents := by
  cases call with
  | put key value expiry => exact ⟨ok.putAbs, rfl, contents_putAbs ok⟩
  | sweep work =>
      show (c.sweepExpired now work).Ok ∧ _ ∧ ∃ gone, List.Perm _ (gone ++ (c.sweepExpired now work).contents) ∧ _
      unfold sweepExpired
      split
      · exact ⟨ok, rfl, [], .refl _, fun _ mem => (List.not_mem_nil mem).elim⟩
      · obtain ⟨sweptOk, gone, split, past⟩ := sweepLoop_ok now work ok
        exact ⟨sweptOk, rfl, gone, split, past⟩
  | delete key =>
      cases found : c.find key with
      | none =>
          have same : run now (.delete key) c = (.deleted false, c) := by simp [run, delete, found]
          have absent := absent_of_find ok found
          rw [same]
          refine ⟨ok, ?_, by rw [dropKey_of_absent Dated.key absent]⟩
          have missing : key ∉ c.contents.map Dated.key := fun mem => by
            obtain ⟨d, held, named⟩ := List.mem_map.mp mem
            exact absent d held named
          simp [missing]
      | some e =>
          obtain ⟨held, named⟩ := mem_contents_of_find ok found
          have same : run now (.delete key) c =
              (.deleted true, { c.unlink key with revision := c.revision + 1 }) := by
            simp [run, delete, found]
          rw [same]
          refine ⟨(ok.unlink found).revised _, ?_, .of_eq (by rw [contents_revised, contents_unlink ok])⟩
          have present : key ∈ c.contents.map Dated.key := List.mem_map.mpr ⟨_, held, named⟩
          simp [present]
  | get key =>
      cases found : c.find key with
      | none =>
          have same : run now (.get key) c = (.found none, c) := by
            simp [run, get, lookupCopy, found]
          have absent := absent_of_find ok found
          rw [same]
          exact ⟨ok, Or.inr ⟨rfl, fun d mem named => absurd named (absent d mem), by
            rw [dropKey_of_absent Dated.key absent]⟩⟩
      | some e =>
          obtain ⟨held, named⟩ := mem_contents_of_find ok found
          cases past : e.isExpired now with
          | false =>
              have same : run now (.get key) c = (.found (some e.value), c) := by
                simp [run, get, lookupCopy, found, past]
              rw [same]
              exact ⟨ok, Or.inl ⟨e.dated, held, named, past, rfl, .refl _⟩⟩
          | true =>
              have same : run now (.get key) c = (.found none, c.unlink key) := by
                simp [run, get, lookupCopy, expire, found, past]
              rw [same]
              refine ⟨ok.unlink found, Or.inr ⟨rfl, fun d mem again => ?_,
                .of_eq (contents_unlink ok key)⟩⟩
              have only : d = e.dated :=
                List.inj_on_of_nodup_map ok.once_contents mem held (again.trans named.symm)
              rw [only]
              exact past

/-! ## What is reported and where a run starts -/

theorem count_eq (ok : c.Ok) : c.count = c.contents.length := by
  rw [contents, List.length_map, entries, List.length_flatMap, count]
  refine congrArg List.sum (List.map_congr_left fun s mem => ?_)
  exact (ok.shards s mem).counted

theorem entries_blank (shardBits bucketBits : Nat) : (blank shardBits bucketBits).entries = [] := by
  refine List.flatMap_eq_nil_iff.mpr fun s mem => ?_
  obtain ⟨-, rfl⟩ := List.mem_replicate.mp mem
  exact List.flatten_replicate_nil

theorem blank_ok (shardBits bucketBits : Nat) : (blank shardBits bucketBits).Ok where
  length := List.length_replicate
  shards := by
    intro s mem
    obtain ⟨-, rfl⟩ := List.mem_replicate.mp mem
    refine ⟨by rw [List.length_replicate]; exact Nat.two_pow_pos _, placed_replicate _, ?_⟩
    exact (congrArg List.length List.flatten_replicate_nil).symm
  placed := by
    have chains : (blank shardBits bucketBits).shards.map Shard.entries =
        List.replicate (2 ^ shardBits) [] := by
      rw [blank, List.map_replicate]
      exact congrArg _ List.flatten_replicate_nil
    rw [chains]
    exact placed_replicate _
  hashed := fun e mem => by
    rw [entries_blank] at mem
    cases mem
  once := by
    rw [entries_blank]
    exact List.nodup_nil

theorem create_ok (nshards initialBuckets : Nat) : (create nshards initialBuckets).Ok :=
  blank_ok _ _

theorem contents_create (nshards initialBuckets : Nat) :
    (create nshards initialBuckets).contents = [] :=
  congrArg (List.map Entry.dated) (entries_blank _ _)

end Local

end KuttiDB.Cache
