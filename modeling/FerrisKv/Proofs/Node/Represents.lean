/-
When a node's data stands for an abstract map.

`Agrees T m now`: the raw table `T` holds, for every data key, the
encoding of the abstract entry — or nothing, if the entry has expired
and was swept. `Represents` is the invariant between operations: the
live contents agree with the map, and they are durable. `Recoverable` is
what is left of it wherever a crash may fall.
-/
import FerrisKv.Node.Grpc
import FerrisKv.Proofs.Node.Durable
import FerrisKv.Spec.Store

namespace FerrisKv

open Std WriteLog OrderedScan NodeService Spec

-- =============================================================== agreement

/-- `T` holds the data of `m`, up to entries that expired by `now`. -/
def Agrees (T : Bytes → Option Bytes) (m : Spec.Map) (now : Nat) : Prop :=
  ∀ k, IsData k →
    match m[k]? with
    | none => T k = none
    | some e => (∀ x ∈ e.expiresAt, x < 2 ^ 64)
        ∧ (T k = some (ValueCodec.encode e.value e.expiresAt)
          ∨ T k = none ∧ e.visible now = false)

/-- What has expired stays expired. -/
private theorem Entry.visible_mono {e : Entry} {now now' : Nat} (h : now ≤ now')
    (hv : e.visible now = false) : e.visible now' = false := by
  unfold Entry.visible at *
  cases hexp : e.expiresAt with
  | none =>
      rw [hexp] at hv
      exact hv
  | some exp =>
      rw [hexp] at hv
      simp only [decide_eq_false_iff_not] at *
      omega

/-- An abstract entry is visible iff its encoding is not expired. -/
theorem isExpired_encode_entry {e : Entry}
    (h : ∀ x ∈ e.expiresAt, x < 2 ^ 64) (now : Nat) :
    ValueCodec.isExpired (ValueCodec.encode e.value e.expiresAt) now
      = .ok (!e.visible now) := by
  rw [ValueCodec.isExpired_encode _ _ h]
  unfold StoredValue.expiredAt Entry.visible
  cases e.expiresAt with
  | none => rfl
  | some exp =>
      simp only [Except.ok.injEq]
      by_cases hle : exp ≤ now
      · rw [decide_eq_true hle, decide_eq_false (by omega)]
        rfl
      · rw [decide_eq_false hle, decide_eq_true (by omega)]
        rfl

section Agreement

variable {T : Bytes → Option Bytes} {m : Spec.Map} {now : Nat}

/-- Time expires entries on both sides alike. -/
theorem Agrees.tick (h : Agrees T m now) {now' : Nat} (hn : now ≤ now') :
    Agrees T m now' := by
  intro k hk
  have hkey := h k hk
  cases hm : m[k]? with
  | none =>
      rw [hm] at hkey
      exact hkey
  | some e =>
      rw [hm] at hkey
      obtain ⟨hfit, hT | ⟨hT, hv⟩⟩ := hkey
      · exact ⟨hfit, .inl hT⟩
      · exact ⟨hfit, .inr ⟨hT, Entry.visible_mono hn hv⟩⟩

/-- Agreement is about data only. -/
theorem Agrees.congr {T' : Bytes → Option Bytes} (h : Agrees T m now)
    (hT : ∀ k, IsData k → T' k = T k) : Agrees T' m now := by
  intro k hk
  have hkey := h k hk
  rw [hT k hk]
  exact hkey

/-- A put on both sides. -/
theorem Agrees.put (h : Agrees T m now) (k v : Bytes) {exp : Option Nat}
    (hexp : ∀ x ∈ exp, x < 2 ^ 64) :
    Agrees (rewrite T (.put k (ValueCodec.encode v exp)))
      (m.insert k ⟨v, exp⟩) now := by
  intro k' hk'
  have hkey := h k' hk'
  by_cases hkk : k = k'
  · subst hkk
    rw [ExtTreeMap.getElem?_insert_self]
    exact ⟨hexp, .inl (rewrite_self T (.put k _))⟩
  · rw [ExtTreeMap.getElem?_insert, if_neg (by simpa using hkk),
      rewrite_ne T (.put k _) hkk]
    exact hkey

/-- A delete on both sides. -/
theorem Agrees.delete (h : Agrees T m now) (k : Bytes) :
    Agrees (rewrite T (.delete k)) (m.erase k) now := by
  intro k' hk'
  have hkey := h k' hk'
  by_cases hkk : k = k'
  · subst hkk
    rw [ExtTreeMap.getElem?_erase_self]
    exact rewrite_self T (.delete k)
  · rw [ExtTreeMap.getElem?_erase, if_neg (by simpa using hkk),
      rewrite_ne T (.delete k) hkk]
    exact hkey

/-- What the data holds under a key of the map. -/
theorem Agrees.entry (h : Agrees T m now) {k raw : Bytes} (hk : IsData k)
    (hT : T k = some raw) :
    ∃ e, m[k]? = some e ∧ (∀ x ∈ e.expiresAt, x < 2 ^ 64)
      ∧ raw = ValueCodec.encode e.value e.expiresAt := by
  have hkey := h k hk
  cases hm : m[k]? with
  | none =>
      rw [hm, hT] at hkey
      cases hkey
  | some e =>
      rw [hm, hT] at hkey
      obtain ⟨hfit, hT' | ⟨hT', -⟩⟩ := hkey
      · exact ⟨e, rfl, hfit, Option.some.inj hT'⟩
      · cases hT'

/-- Removing an expired entry changes nothing a reader can see. -/
theorem Agrees.expire (h : Agrees T m now) {k raw : Bytes} {t : Nat}
    (hT : T k = some raw) (hx : ValueCodec.isExpired raw t = .ok true)
    (ht : t ≤ now) : Agrees (rewrite T (.delete k)) m now := by
  intro k' hk'
  by_cases hkk : k = k'
  · subst hkk
    obtain ⟨e, hm, hfit, rfl⟩ := h.entry hk' hT
    rw [isExpired_encode_entry hfit, Except.ok.injEq,
      Bool.not_eq_true'] at hx
    rw [hm]
    exact ⟨hfit, .inr ⟨rewrite_self T (.delete k), Entry.visible_mono ht hx⟩⟩
  · rw [rewrite_ne T (.delete k) hkk]
    exact h k' hk'

-- =================================================================== reads

/-- `filter_scan` and `get` keep of an encoded entry what the abstract
reader sees. -/
theorem filterEntry_encode {e : Entry} (h : ∀ x ∈ e.expiresAt, x < 2 ^ 64)
    (k : Bytes) :
    filterEntry now (k, ValueCodec.encode e.value e.expiresAt)
      = (Entry.read now e).map fun v => (k, v) := by
  unfold filterEntry Entry.read
  simp only [isExpired_encode_entry h]
  cases e.visible now with
  | true =>
      simp only [Bool.not_true, if_pos]
      rw [ValueCodec.decode_encode _ h]
      rfl
  | false => rfl

/-- What a scan keeps under one key. -/
def readRaw (now : Nat) (k raw : Bytes) : Option Bytes :=
  (filterEntry now (k, raw)).map Prod.snd

/-- The scan's filter reads each entry as `get` does. -/
theorem filterEntry_eq (now : Nat) (e : Bytes × Bytes) :
    filterEntry now e = (readRaw now e.1 e.2).map fun v => (e.1, v) := by
  unfold readRaw filterEntry
  cases ValueCodec.isExpired e.2 now with
  | error _ => rfl
  | ok b =>
      cases b with
      | true => rfl
      | false => cases ValueCodec.decode e.2 <;> rfl

/-- Reading agrees. -/
theorem Agrees.read (h : Agrees T m now) {k : Bytes} (hk : IsData k) :
    (T k).bind (readRaw now k) = m[k]?.bind (Entry.read now) := by
  have hkey := h k hk
  cases hm : m[k]? with
  | none =>
      rw [hm] at hkey
      rw [hkey]
      rfl
  | some e =>
      rw [hm] at hkey
      obtain ⟨hfit, hT | ⟨hT, hv⟩⟩ := hkey
      · rw [hT, Option.bind_some, Option.bind_some, readRaw,
          filterEntry_encode hfit]
        cases Entry.read now e <;> rfl
      · rw [hT, Option.bind_none, Option.bind_some, Entry.read, hv]
        rfl

/-- A filtered scan answers what the abstract map would, as long as it
only covers data. -/
theorem Agrees.scan {table : Table} (h : Agrees (table[·]?) m now)
    {keep : Bytes → Bool} (hkeep : ∀ k, keep k = true → IsData k) :
    (table.toList.filter fun e => keep e.1).filterMap (filterEntry now)
      = select m now keep := by
  have hlist : (table.toList.filter fun e => keep e.1).filterMap (filterEntry now)
      = listing (fun k raw => if keep k then readRaw now k raw else none) table := by
    rw [List.filterMap_filter, listing]
    refine List.filterMap_congr fun e _ => ?_
    simp only [filterEntry_eq now e]
    cases keep e.1 <;> rfl
  rw [hlist, select]
  refine listing_congr fun k => ?_
  cases hk : keep k with
  | false =>
      simp only [Bool.false_eq_true, if_false]
      cases table[k]? <;> cases m[k]? <;> rfl
  | true => simpa using h.read (hkeep k hk)

end Agreement

-- ================================================================ the keys

/-- A key that fits a frame and is no quota record: what the served calls
and the node's own bookkeeping write. -/
def Plain (k : Bytes) : Prop :=
  k.length < 2 ^ 32 ∧ ∀ t, KeyCodec.decode k ≠ .ok (t, .metadata, quotaKey)

/-- Only plain keys anywhere a restart could find one. -/
structure PlainKeys (s : StorageBackend) (records : List WalRecord) :
    Prop where
  contents : ∀ k v, s.contents[k]? = some v → Plain k
  persisted : ∀ k v, s.persisted[k]? = some v → Plain k
  unflushed : ∀ w ∈ s.unflushed, Plain w.key
  records : ∀ r ∈ records, Plain r.key

section PlainKeys

variable {s : StorageBackend} {records : List WalRecord}

/-- Plain keys, as a property of everything a crash could leave. -/
theorem plainKeys_iff : PlainKeys s records
    ↔ Throughout (fun k _ => Plain k) s records :=
  ⟨fun h => ⟨h.contents, h.persisted, h.unflushed, h.records⟩,
    fun h => ⟨h.contents, h.persisted, h.unflushed, h.records⟩⟩

theorem PlainKeys.write (h : PlainKeys s records) {w : Write Bytes Bytes}
    (hw : Plain w.key) : PlainKeys (s.write w) records :=
  plainKeys_iff.mpr ((plainKeys_iff.mp h).write hw)

theorem PlainKeys.flush (h : PlainKeys s records) :
    PlainKeys s.flush records :=
  plainKeys_iff.mpr (plainKeys_iff.mp h).flush

theorem PlainKeys.survive (h : PlainKeys s records)
    {kept : List (Write Bytes Bytes)} (hk : s.MayKeep kept) :
    PlainKeys (s.survive kept) records :=
  plainKeys_iff.mpr ((plainKeys_iff.mp h).survive hk)

theorem PlainKeys.append (h : PlainKeys s records) {r : WalRecord}
    (hr : Plain r.key) : PlainKeys s (records ++ [r]) :=
  plainKeys_iff.mpr ((plainKeys_iff.mp h).append hr)

theorem PlainKeys.nil (h : PlainKeys s records) : PlainKeys s [] :=
  plainKeys_iff.mpr (plainKeys_iff.mp h).nil

end PlainKeys

-- ============================================================ the invariant

/-- The segment holds `records` and a restart would find the data `T`, an
image of the map. -/
structure Holding (w : World) (records : List WalRecord)
    (T : Bytes → Option Bytes) (m : Spec.Map) : Prop where
  wal : w.wal.Holds records
  durable : Durable w.storage records T
  agrees : Agrees T m w.now
  plain : PlainKeys w.storage records

/-- Between operations: the live data is what a restart would find. -/
def Represents (w : World) (m : Spec.Map) : Prop :=
  ∃ records, Holding w records (w.storage.contents[·]?) m

/-- After the append of `wr` and before its storage write: a restart would
find the write, the live data does not have it yet. -/
def Logged (wr : Write Bytes Bytes) (w : World) (m : Spec.Map) : Prop :=
  ∃ records, Holding w records (rewrite (w.storage.contents[·]?) wr) m
    ∧ (lastWrite (records.map WalRecord.write) wr.key).isSome
    ∧ Plain wr.key

/-- Whatever else may be true, a restart from here finds an image of the
map. -/
def Recoverable (s : StorageBackend) (file : Bytes) (m : Spec.Map)
    (now : Nat) : Prop :=
  ∃ records T, FileHolds file records ∧ Durable s records T
    ∧ Agrees T m now ∧ PlainKeys s records

/-- What a running node holds, a restart recovers. -/
theorem Holding.recoverable {w : World} {records : List WalRecord}
    {T : Bytes → Option Bytes} {m : Spec.Map} (h : Holding w records T m) :
    Recoverable w.storage w.wal.file m w.now :=
  ⟨records, T, h.wal.fileHolds, h.durable, h.agrees, h.plain⟩

/-- A crash does not change what can be recovered. -/
theorem Recoverable.survive {s : StorageBackend} {file : Bytes}
    {m : Spec.Map} {now : Nat} (h : Recoverable s file m now)
    {kept : List (Write Bytes Bytes)} (hk : s.MayKeep kept) :
    Recoverable (s.survive kept) file m now := by
  obtain ⟨records, T, hfile, hd, ha, hp⟩ := h
  exact ⟨records, T, hfile, hd.survive hk, ha, hp.survive hk⟩

/-- The storage and the log are untouched; time may have passed. -/
structure Still (w w' : World) : Prop where
  storage : w'.storage = w.storage
  wal : w'.wal = w.wal
  now : w.now ≤ w'.now

theorem Still.refl (w : World) : Still w w := ⟨rfl, rfl, le_rfl⟩

theorem Still.trans {w w' w'' : World} (h : Still w w') (h' : Still w' w'') :
    Still w w'' :=
  ⟨h'.storage.trans h.storage, h'.wal.trans h.wal, h.now.trans h'.now⟩

/-- The clock and the memory may move. -/
theorem Holding.still {w w' : World} {records : List WalRecord}
    {T : Bytes → Option Bytes} {m : Spec.Map} (h : Holding w records T m)
    (hs : Still w w') : Holding w' records T m := by
  refine ⟨?_, ?_, h.agrees.tick hs.now, ?_⟩
  · rw [hs.wal]
    exact h.wal
  · rw [hs.storage]
    exact h.durable
  · rw [hs.storage]
    exact h.plain

theorem Represents.still {w w' : World} {m : Spec.Map}
    (h : Represents w m) (hs : Still w w') : Represents w' m := by
  obtain ⟨records, hh⟩ := h
  refine ⟨records, ?_⟩
  rw [hs.storage]
  exact hh.still hs

/-- So they may between a write's log record and its storage write. -/
theorem Logged.still {w w' : World} {m : Spec.Map} {wr : Write Bytes Bytes}
    (h : Logged wr w m) (hs : Still w w') : Logged wr w' m := by
  obtain ⟨records, hh, hrest⟩ := h
  refine ⟨records, ?_, hrest⟩
  rw [hs.storage]
  exact hh.still hs

/-- The storage write completes the operation. -/
theorem Logged.write {wr : Write Bytes Bytes} {w : World} {m : Spec.Map}
    (h : Logged wr w m) :
    Represents { w with storage := w.storage.write wr } m := by
  obtain ⟨records, hh, hlog, hplain⟩ := h
  refine ⟨records, hh.wal, ?_, ?_, hh.plain.write hplain⟩
  · rw [contents_write_eq]
    exact hh.durable.write wr fun _ => hlog
  · rw [contents_write_eq]
    exact hh.agrees

/-- A write to no data leaves the data as it was. -/
theorem Represents.write_of_not_data {w : World} {m : Spec.Map}
    (h : Represents w m) (wr : Write Bytes Bytes) (hd : ¬ IsData wr.key)
    (hp : Plain wr.key) :
    Represents { w with storage := w.storage.write wr } m := by
  obtain ⟨records, hh⟩ := h
  have hsame : ∀ k, IsData k →
      (w.storage.write wr).contents[k]? = w.storage.contents[k]? :=
    fun _ => getElem?_write_aside _ wr hd
  refine ⟨records, hh.wal, ?_, hh.agrees.congr hsame, hh.plain.write hp⟩
  exact (hh.durable.write wr fun hk => absurd hk hd).congr hsame

/-- A flush changes nothing that is represented. -/
theorem Represents.flush {w : World} {m : Spec.Map} (h : Represents w m) :
    Represents { w with storage := w.storage.flush } m := by
  obtain ⟨records, hh⟩ := h
  refine ⟨records, hh.wal, ?_, ?_, hh.plain.flush⟩
  · simp only [StorageBackend.contents_flush]
    exact hh.durable.flush
  · simp only [StorageBackend.contents_flush]
    exact hh.agrees

/-- A rotation right after a flush drops nothing a restart would need. -/
theorem Represents.rotate {w : World} {m : Spec.Map} (h : Represents w m)
    {s : StorageBackend} (hs : w.storage = s.flush)
    (hd : s.isDurable = true) :
    Represents { w with wal := (w.wal.rotate none).2 } m := by
  obtain ⟨records, hh⟩ := h
  refine ⟨[], hh.wal.rotate.2, ?_, hh.agrees, hh.plain.nil⟩
  show Durable w.storage [] (w.storage.contents[·]?)
  rw [hs]
  simp only [StorageBackend.contents_flush]
  exact durable_flush_nil hd

end FerrisKv
