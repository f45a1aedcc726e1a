/-
A scan returns exactly what single reads would.

The range a prefix is turned into holds the tenant's data keys under it
and nothing else (ScanBounds), `filter_scan` keeps of an entry what `get`
returns of it, corrupt entries included, and the limit is applied to what
is left. So the chunks of a `Scan` are the beginning of one sorted list,
whose members are the keys a `get` finds (`scan_exact`).
-/
import FerrisKv.Proofs.Core.Keyspace
import FerrisKv.Proofs.Node.Represents
import FerrisKv.Proofs.Node.ScanBounds
import FerrisKv.Proofs.Node.Refusal

namespace FerrisKv

open Std Prog OrderedScan NodeService

-- ================================================================== chunks

/-- Chunking loses nothing and repeats nothing. -/
theorem chunkLoop_flatten (es cur : List (Bytes × Bytes)) :
    (chunkLoop es cur).flatten = cur ++ es := by
  induction es generalizing cur with
  | nil =>
      unfold chunkLoop
      split
      · next h => rw [h]; rfl
      · simp
  | cons e es ih =>
      unfold chunkLoop
      split
      · rw [List.flatten_cons, ih]
        simp
      · rw [ih]
        simp

/-- A chunk is sent as soon as it is full, and never empty. -/
theorem chunkLoop_sizes (es : List (Bytes × Bytes)) :
    ∀ cur : List (Bytes × Bytes), cur.length < scanChunkSize →
      ∀ c ∈ chunkLoop es cur, c ≠ [] ∧ c.length ≤ scanChunkSize := by
  induction es with
  | nil =>
      intro cur hcur c hc
      unfold chunkLoop at hc
      split at hc
      · cases hc
      · next hne =>
          cases List.mem_singleton.mp hc
          exact ⟨hne, hcur.le⟩
  | cons e es ih =>
      intro cur hcur c hc
      unfold chunkLoop at hc
      split at hc
      · rcases List.mem_cons.mp hc with rfl | hc
        · rw [List.length_append, List.length_singleton]
          exact ⟨by simp, hcur⟩
        · exact ih [] (by decide) c hc
      · next hlt => exact ih _ (Nat.lt_of_not_ge hlt) c hc

-- =============================================================== the reads

section Reads

variable {ext : Externals} {w : World}

/-- What a `get` of a stored entry returns. -/
def readEntry (now : Nat) (raw : Bytes) : Result (Option Bytes) :=
  match ValueCodec.isExpired raw now with
  | .error e => .error e
  | .ok true => .ok none
  | .ok false => (ValueCodec.decode raw).map fun sv => some sv.value

/-- `get` answers from the entry at the current time. -/
theorem run_get (key : Bytes) :
    ((NodeService.get key).run.run (Prim.exec ext none) w).1
      = w.storage.contents[key]?.elim (.ok none) (readEntry w.now) := by
  have hstore : (storageGet key).run.run (Prim.exec ext none) w
      = (.ok w.storage.contents[key]?, w) := rfl
  rw [NodeService.get, run_bindE, hstore]
  cases w.storage.contents[key]? with
  | none => rfl
  | some raw =>
      rw [Option.elim_some, readEntry]
      simp only [nowMs, ofResult, run_bindE, run_lift, run_step, Prim.exec]
      cases ValueCodec.isExpired raw w.now with
      | error e => rfl
      | ok b =>
          cases b with
          | true => rfl
          | false => cases ValueCodec.decode raw <;> rfl

/-- `get` and the scan's filter show the same values. -/
private theorem readEntry_eq_some_iff {now : Nat} {key raw v : Bytes} :
    readEntry now raw = .ok (some v) ↔ readRaw now key raw = some v := by
  rw [readEntry, readRaw, filterEntry]
  cases ValueCodec.isExpired raw now with
  | error e => simp
  | ok b =>
      cases b with
      | true => simp
      | false =>
          cases ValueCodec.decode raw <;> simp [Except.map, Except.toOption]

/-- A `get` returns what a scan keeps of the entry. -/
theorem get_eq_some_iff {key v : Bytes} :
    ((NodeService.get key).run.run (Prim.exec ext none) w).1 = .ok (some v)
      ↔ w.storage.contents[key]?.bind (readRaw w.now key) = some v := by
  rw [run_get]
  cases w.storage.contents[key]? with
  | none => simp
  | some raw => exact readEntry_eq_some_iff

/-- What a scan keeps of the entries between two bounds. -/
def kept (w : World) (start stop : Bytes) : List (Bytes × Bytes) :=
  (w.storage.scanRange start stop).filterMap (filterEntry w.now)

/-- What a scan keeps is a listing of the map. -/
private theorem kept_eq_listing (start stop : Bytes) :
    kept w start stop = listing (fun k raw =>
      if decide (compare start k ≠ .gt) && decide (compare k stop = .lt)
      then readRaw w.now k raw else none) w.storage.contents := by
  rw [kept, StorageBackend.scanRange, Table.scanRange, List.filterMap_filter,
    listing]
  refine List.filterMap_congr fun e _ => ?_
  rw [filterEntry_eq]
  split <;> rfl

variable {t : String}

/-- The pairs kept between the bounds of a prefix, with their full keys. -/
theorem mem_kept {pre k v : Bytes} :
    (k, v) ∈ kept w (KeyCodec.bytesOf t .data pre)
        (nextPrefixBound (KeyCodec.bytesOf t .data pre))
      ↔ KeyCodec.bytesOf t .data pre <+: k
        ∧ w.storage.contents[k]?.bind (readRaw w.now k) = some v := by
  rw [kept_eq_listing, mem_listing,
    ← between_nextPrefixBound (bytesOf_data_bounded t pre) k]
  by_cases hb : compare (KeyCodec.bytesOf t .data pre) k ≠ .gt
      ∧ compare k (nextPrefixBound (KeyCodec.bytesOf t .data pre)) = .lt
  · simp [hb.1, hb.2]
  · have hno : (decide (compare (KeyCodec.bytesOf t .data pre) k ≠ .gt)
        && decide (compare k (nextPrefixBound (KeyCodec.bytesOf t .data pre))
          = .lt)) = false := by
      simpa using hb
    simp only [hno, hb, false_and, iff_false]
    cases w.storage.contents[k]? <;> simp

/-- The pairs kept for a prefix, keys relative to the tenant. -/
def found (w : World) (t : String) (pre : Bytes) : List (Bytes × Bytes) :=
  (kept w (KeyCodec.bytesOf t .data pre)
      (nextPrefixBound (KeyCodec.bytesOf t .data pre))).map
    fun e => (e.1.drop (KeyCodec.bytesOf t .data []).length, e.2)

/-- A payload's prefix is a prefix of its key. -/
theorem bytesOf_split (s : Subspace) (p q : Bytes) :
    KeyCodec.bytesOf t s (p ++ q) = KeyCodec.bytesOf t s p ++ q := by
  simp [KeyCodec.bytesOf]

/-- Without the tenant and subspace a key is its payload. -/
theorem drop_bytesOf (s : Subspace) (p : Bytes) :
    (KeyCodec.bytesOf t s p).drop (KeyCodec.bytesOf t s []).length = p := by
  have h := bytesOf_split (t := t) s [] p
  rw [List.nil_append] at h
  rw [h, List.drop_left]

/-- A scan finds what starts with the prefix and can be read. -/
private theorem mem_found {pre u v : Bytes} :
    (u, v) ∈ found w t pre ↔ pre <+: u
      ∧ w.storage.contents[KeyCodec.bytesOf t .data u]?.bind
        (readRaw w.now (KeyCodec.bytesOf t .data u)) = some v := by
  rw [found, List.mem_map]
  constructor
  · rintro ⟨⟨k, v'⟩, hmem, heq⟩
    obtain ⟨⟨rest, rfl⟩, hread⟩ := mem_kept.mp hmem
    rw [← bytesOf_split] at hread heq
    simp only [drop_bytesOf, Prod.mk.injEq] at heq
    obtain ⟨rfl, rfl⟩ := heq
    exact ⟨⟨rest, rfl⟩, hread⟩
  · rintro ⟨⟨rest, rfl⟩, hread⟩
    refine ⟨(KeyCodec.bytesOf t .data (pre ++ rest), v), ?_, ?_⟩
    · exact mem_kept.mpr ⟨⟨rest, (bytesOf_split _ _ _).symm⟩, hread⟩
    · rw [drop_bytesOf]

/-- It finds them in order. -/
private theorem pairwise_found (pre : Bytes) :
    (found w t pre).Pairwise fun a b => compare a.1 b.1 = .lt := by
  rw [found, List.pairwise_map]
  have hsorted := pairwise_listing (fun k raw =>
    if decide (compare (KeyCodec.bytesOf t .data pre) k ≠ .gt)
      && decide (compare k (nextPrefixBound (KeyCodec.bytesOf t .data pre))
        = .lt)
    then readRaw w.now k raw else none) w.storage.contents
  rw [← kept_eq_listing] at hsorted
  refine hsorted.imp_of_mem fun {a b} ha hb hlt => ?_
  -- both keys are the tenant's, so the common part decides nothing
  obtain ⟨⟨ra, hra⟩, -⟩ := mem_kept (v := a.2).mp ha
  obtain ⟨⟨rb, hrb⟩, -⟩ := mem_kept (v := b.2).mp hb
  rw [← hra, ← hrb, ← bytesOf_split, ← bytesOf_split] at hlt ⊢
  rw [drop_bytesOf, drop_bytesOf]
  have hsplit : ∀ p : Bytes, KeyCodec.bytesOf t .data p
      = KeyCodec.bytesOf t .data [] ++ p := fun p => bytesOf_split .data [] p
  rw [hsplit, hsplit (pre ++ rb), compare_append_left] at hlt
  exact hlt

end Reads

-- ================================================================ the scan

/-- The bounds of a valid tenant's scan. -/
private theorem encodeDataScanBounds_of_valid {t : String}
    (ht : KeyCodec.ValidTenant t) (pre : Bytes) :
    encodeDataScanBounds t pre = .ok ⟨KeyCodec.bytesOf t .data pre,
      nextPrefixBound (KeyCodec.bytesOf t .data pre),
      (KeyCodec.bytesOf t .data []).length⟩ := by
  have hsplit := bytesOf_split (t := t) .data [] pre
  rw [List.nil_append] at hsplit
  rw [encodeDataScanBounds, KeyCodec.encodeSubspacePrefix,
    KeyCodec.encode_of_valid ht, hsplit]

/-- A request that is let in has only moved its tenant's limiter. -/
theorem enter_upToLimiters {ext : Externals} {cfg : NodeConfig}
    {principal : Option Principal} {t perm : String} {w : World}
    (h : ((enter cfg principal t perm).run.run (Prim.exec ext none) w).1
      = .ok ()) :
    ∃ th, (enter cfg principal t perm).run.run (Prim.exec ext none) w
      = (.ok (), { w with throttle := th }) := by
  have hmay : ∀ w p, Prim.May ext w p (Prim.exec ext none p w).1
      (Prim.exec ext none p w).2 := fun _ _ => ⟨none, rfl⟩
  have hends := ends_run hmay (enter cfg principal t perm).run w
  have hpost := hends.post (wp_enter principal perm)
  rw [h] at hpost
  obtain ⟨⟨th, hw⟩, -⟩ := hpost
  exact ⟨th, Prod.ext h hw⟩

/-- A `Scan` that is let in answers with chunks of at most 256 entries,
none of them empty, that make up the beginning of `all`: the sorted list
of the pairs under the prefix that a `get` would return. -/
theorem scan_exact (ext : Externals) (cfg : NodeConfig)
    (principal : Option Principal) (t : String)
    (ht : KeyCodec.ValidTenant t) (pre : Bytes) (limit : Nat) (w : World)
    (hin : ((enter cfg principal t permRead).run.run
      (Prim.exec ext none) w).1 = .ok ()) :
    ∃ chunks, ∃ all : List (Bytes × Bytes),
      ((scanImpl cfg principal t pre limit).run.run
          (Prim.exec ext none) w).1 = .ok chunks
        ∧ all.Pairwise (fun a b => compare a.1 b.1 = .lt)
        ∧ (∀ u v, (u, v) ∈ all ↔ pre <+: u
          ∧ ∃ key, KeyCodec.encode t .data u = .ok key
            ∧ ((get key).run.run (Prim.exec ext none) w).1 = .ok (some v))
        ∧ chunks.flatten = all.take
          (if limit = 0 ∨ limit > cfg.limits.maxScanLimit
            then cfg.limits.maxScanLimit else limit)
        ∧ ∀ c ∈ chunks, c ≠ [] ∧ c.length ≤ 256 := by
  obtain ⟨th, henter⟩ := enter_upToLimiters hin
  have hrun : ((scanImpl cfg principal t pre limit).run.run
      (Prim.exec ext none) w).1
        = .ok (chunkLoop ((found w t pre).take (capScanLimit cfg limit)) []) := by
    rw [scanImpl, run_bindE, henter]
    simp only [ofCheck, encodeDataScanBounds_of_valid ht]
    rw [found, ← List.map_take]
    rfl
  refine ⟨_, found w t pre, hrun, pairwise_found pre, ?_, ?_, ?_⟩
  · intro u v
    rw [mem_found]
    refine and_congr_right fun _ => ?_
    simp only [KeyCodec.encode_of_valid ht, Except.ok.injEq, exists_eq_left',
      get_eq_some_iff]
  · rw [chunkLoop_flatten]
    rfl
  · exact chunkLoop_sizes _ [] (by decide)

/-- One key of only `FF`s, and one of another tenant right after it. -/
def twoTenants : World :=
  { World.opened {} with
    storage := .memory ⟨(∅ : Table)
      |>.insert (KeyCodec.bytesOf "a" .data [255, 255])
        (ValueCodec.encode [7] none)
      |>.insert (KeyCodec.bytesOf "b" .data []) (ValueCodec.encode [8] none)⟩ }

/-- A prefix of bytes 255 is bounded by the tenant's end. -/
theorem scan_exact_all_ff :
    ∃ all : List (Bytes × Bytes), [([255, 255], [7])] = all.take 10000
      ∧ ∀ u v, (u, v) ∈ all ↔ [255] <+: u
        ∧ ∃ key, KeyCodec.encode "a" .data u = .ok key
          ∧ ((get key).run.run (Prim.exec .plain none) twoTenants).1
            = .ok (some v) := by
  obtain ⟨chunks, all, hrun, -, hmem, htake, -⟩ := scan_exact .plain {}
    (some .anonymous) "a" (by decide) [255] 0 twoTenants (by decide +kernel)
  have hchunks : ((scanImpl {} (some .anonymous) "a" [255] 0).run.run
      (Prim.exec .plain none) twoTenants).1
        = .ok [[([255, 255], [7])]] := by decide +kernel
  rw [hchunks, Except.ok.injEq] at hrun
  rw [← hrun] at htake
  exact ⟨all, htake, hmem⟩

end FerrisKv
