/-
What a restart would find: the three copies of the data and how every
storage and log step moves them.

At any moment a data key lives in the store's persisted part, in the
writes issued since the last flush, and in the log segment. `Durable s
records T` says that, whatever a crash keeps of the unflushed writes,
replaying `records` makes the data `T`. It is a property of one key at a
time: either the segment writes the key, and then its last record is all
that matters, or it does not, and then the persisted entry and every
unflushed write agree with `T` already. Each step of the node touches
one side of that alternative.
-/
import FerrisKv.Proofs.Node.StoredBytes
import FerrisKv.Proofs.Wal.Log

namespace FerrisKv

open Std WriteLog

/-- The write a record stands for. -/
def WalRecord.write (r : WalRecord) : Write Bytes Bytes :=
  match r.op with
  | .put => .put r.key r.value
  | .delete => .delete r.key

@[simp] theorem WalRecord.write_key (r : WalRecord) : r.write.key = r.key := by
  unfold WalRecord.write
  cases r.op <;> rfl

namespace StorageBackend

/-- The part of the contents no crash can take. -/
def persisted : StorageBackend → Table
  | .memory _ => ∅
  | .fjall s => s.durable

/-- The writes a crash may keep or lose. -/
def unflushed : StorageBackend → List (Write Bytes Bytes)
  | .memory _ => []
  | .fjall s => s.since

end StorageBackend

/-- Replaying `records` after a crash makes the data `T`. -/
def Durable (s : StorageBackend) (records : List WalRecord)
    (T : Bytes → Option Bytes) : Prop :=
  ∀ k, IsData k →
    match lastWrite (records.map WalRecord.write) k with
    | some v => v = T k
    | none => s.persisted[k]? = T k
        ∧ ∀ w ∈ s.unflushed, w.key = k → w.value = T k

/-- `T` with one key rewritten. -/
def rewrite (T : Bytes → Option Bytes) (w : Write Bytes Bytes) :
    Bytes → Option Bytes :=
  fun k => if w.key = k then w.value else T k

/-- The written key has the written value. -/
theorem rewrite_self (T : Bytes → Option Bytes) (w : Write Bytes Bytes) :
    rewrite T w w.key = w.value := if_pos rfl

/-- Every other key has what it had. -/
theorem rewrite_ne (T : Bytes → Option Bytes) (w : Write Bytes Bytes)
    {k : Bytes} (h : w.key ≠ k) : rewrite T w k = T k := if_neg h

/-- A write to storage, seen as a function of the keys. -/
theorem contents_write_eq (s : StorageBackend) (w : Write Bytes Bytes) :
    (fun k => (s.write w).contents[k]?)
      = rewrite (fun k => s.contents[k]?) w := by
  funext k
  rw [StorageBackend.contents_write, getElem?_apply]
  rfl

section Steps

variable {s : StorageBackend} {records : List WalRecord}
  {T : Bytes → Option Bytes}

/-- Durability is about data only. -/
theorem Durable.congr {T' : Bytes → Option Bytes} (h : Durable s records T)
    (hT : ∀ k, IsData k → T' k = T k) : Durable s records T' := by
  intro k hk
  have hkey := h k hk
  rw [hT k hk]
  exact hkey

/-- A step of the storage matters only where the segment is silent. -/
theorem Durable.of_silent {s' : StorageBackend} (h : Durable s records T)
    (hs : ∀ k, IsData k →
      lastWrite (records.map WalRecord.write) k = none →
      (s.persisted[k]? = T k ∧ ∀ w ∈ s.unflushed, w.key = k → w.value = T k) →
      s'.persisted[k]? = T k
        ∧ ∀ w ∈ s'.unflushed, w.key = k → w.value = T k) :
    Durable s' records T := by
  intro k hk
  have hkey := h k hk
  cases hl : lastWrite (records.map WalRecord.write) k with
  | some v =>
      rw [hl] at hkey
      exact hkey
  | none =>
      rw [hl] at hkey
      exact hs k hk hl hkey

-- ======================================================== the storage steps

/-- A write is not flushed at once. -/
theorem persisted_write (s : StorageBackend) (w : Write Bytes Bytes) :
    (s.write w).persisted = s.persisted := by
  cases s <;> rfl

theorem mem_unflushed_write {w w' : Write Bytes Bytes}
    (h : w' ∈ (s.write w).unflushed) : w' ∈ s.unflushed ∨ w' = w := by
  cases s with
  | memory m => exact (List.not_mem_nil h).elim
  | fjall f =>
      rcases List.mem_append.mp h with h | h
      · exact .inl h
      · exact .inr (List.mem_singleton.mp h)

/-- A write to a key the segment already decides, or to no data, is
harmless. -/
theorem Durable.write (h : Durable s records T) (w : Write Bytes Bytes)
    (hw : IsData w.key →
      (lastWrite (records.map WalRecord.write) w.key).isSome) :
    Durable (s.write w) records T := by
  refine h.of_silent fun k hk hl hkey => ⟨?_, ?_⟩
  · rw [persisted_write]
    exact hkey.1
  · intro w' hw' hw'k
    rcases mem_unflushed_write hw' with hmem | rfl
    · exact hkey.2 w' hmem hw'k
    · subst hw'k
      rw [hl] at hw
      exact absurd (hw hk) (by simp)

/-- Where the segment is silent, the live entry is the durable one; a
memory backend must not have been written yet. -/
theorem Durable.contents (h : Durable s records T) {k : Bytes}
    (hk : IsData k) (hd : s.isDurable = false → s.contents = ∅)
    (hl : lastWrite (records.map WalRecord.write) k = none) :
    s.contents[k]? = T k := by
  have hkey := h k hk
  rw [hl] at hkey
  cases s with
  | memory m =>
      rw [hd rfl]
      exact hkey.1
  | fjall f =>
      show f.partition[k]? = T k
      rw [f.consistent, getElem?_applyAll]
      cases hlast : lastWrite f.since k with
      | none => exact hkey.1
      | some v =>
          obtain ⟨w, hfind, hv⟩ := Option.map_eq_some_iff.mp hlast
          have hmem := List.mem_of_find?_eq_some hfind
          have hwk : w.key = k := by simpa using List.find?_some hfind
          rw [Option.getD_some, ← hv]
          exact hkey.2 w (List.mem_reverse.mp hmem) hwk

/-- A flush makes the live contents the persisted ones. -/
theorem Durable.flush (h : Durable s records T) :
    Durable s.flush records T := by
  refine h.of_silent fun k hk hl hkey => ?_
  cases s with
  | memory m => exact hkey
  | fjall f => exact ⟨h.contents hk nofun hl, fun w hw => (nomatch hw)⟩

/-- After a flush of a durable backend the segment is redundant. -/
theorem durable_flush_nil (hd : s.isDurable = true) :
    Durable s.flush [] (fun k => s.contents[k]?) := by
  intro k _
  cases s with
  | memory m => cases hd
  | fjall f => exact ⟨rfl, fun w hw => (nomatch hw)⟩

/-- A crash keeps what is durable durable. -/
theorem Durable.survive (h : Durable s records T)
    {kept : List (Write Bytes Bytes)} (hk : s.MayKeep kept) :
    Durable (s.survive kept) records T := by
  refine h.of_silent fun k _ _ hkey => ?_
  cases s with
  | memory m => exact ⟨hkey.1, fun w hw => (nomatch hw)⟩
  | fjall f => exact ⟨hkey.1, fun w hw => hkey.2 w (hk.subset hw)⟩

-- ============================================================ the log steps

/-- An append makes its write durable. -/
theorem Durable.append (h : Durable s records T) (r : WalRecord) :
    Durable s (records ++ [r]) (rewrite T r.write) := by
  intro k hk
  have hkey := h k hk
  rw [List.map_append, List.map_singleton, lastWrite_snoc]
  by_cases hr : r.write.key = k
  · subst hr
    rw [if_pos rfl, rewrite_self]
  · rw [if_neg hr, rewrite_ne T _ hr]
    exact hkey

/-- An appended key is decided by the segment. -/
theorem lastWrite_append_isSome (records : List WalRecord) (r : WalRecord) :
    (lastWrite ((records ++ [r]).map WalRecord.write) r.write.key).isSome := by
  rw [List.map_append, List.map_singleton, lastWrite_snoc, if_pos rfl]
  rfl

/-- Replaying the segment over a table that has what the segment does not
decide makes the data `T`. -/
theorem Durable.replay (h : Durable s records T) {table : Table} {k : Bytes}
    (hk : IsData k) (hc : lastWrite (records.map WalRecord.write) k = none →
      table[k]? = T k) :
    (applyAll (records.map WalRecord.write) table)[k]? = T k := by
  have hkey := h k hk
  rw [getElem?_applyAll]
  cases hl : lastWrite (records.map WalRecord.write) k with
  | none => exact hc hl
  | some v =>
      rw [hl] at hkey
      exact hkey

end Steps

-- ============================================================== all copies

/-- `P` of every entry a restart could find, wherever it is: of a removal
too. -/
structure Throughout (P : Bytes → Option Bytes → Prop) (s : StorageBackend)
    (records : List WalRecord) : Prop where
  contents : ∀ k v, s.contents[k]? = some v → P k (some v)
  persisted : ∀ k v, s.persisted[k]? = some v → P k (some v)
  unflushed : ∀ w ∈ s.unflushed, P w.key w.value
  records : ∀ r ∈ records, P r.key r.write.value

section Throughout

variable {P : Bytes → Option Bytes → Prop} {s : StorageBackend}
  {records : List WalRecord}

/-- What holds of all a crash could leave holds with one more such write. -/
theorem Throughout.write (h : Throughout P s records) {w : Write Bytes Bytes}
    (hw : P w.key w.value) : Throughout P (s.write w) records := by
  refine ⟨fun k v hk => ?_, fun k v hk => ?_, fun w' hw' => ?_, h.records⟩
  · rw [StorageBackend.contents_write, getElem?_apply] at hk
    by_cases hkey : w.key = k
    · rw [if_pos hkey] at hk
      rw [← hkey, ← hk]
      exact hw
    · rw [if_neg hkey] at hk
      exact h.contents k v hk
  · rw [persisted_write] at hk
    exact h.persisted k v hk
  · rcases mem_unflushed_write hw' with hw' | rfl
    · exact h.unflushed w' hw'
    · exact hw

/-- Flushing adds nothing to what could be left. -/
theorem Throughout.flush (h : Throughout P s records) :
    Throughout P s.flush records := by
  cases s with
  | memory m => exact h
  | fjall f => exact ⟨h.contents, h.contents, fun w hw => (nomatch hw), h.records⟩

/-- Nor does a crash. -/
theorem Throughout.survive (h : Throughout P s records)
    {kept : List (Write Bytes Bytes)} (hk : s.MayKeep kept) :
    Throughout P (s.survive kept) records := by
  cases s with
  | memory m =>
      have hempty : ∀ k v, (∅ : Table)[k]? = some v → P k (some v) :=
        fun k v hkv => by simp at hkv
      exact ⟨hempty, hempty, fun w hw => (nomatch hw), h.records⟩
  | fjall f =>
      refine ⟨fun k v hkv => ?_, h.persisted,
        fun w hw => h.unflushed w (hk.subset hw), h.records⟩
      have hkv' : (applyAll kept f.durable)[k]? = some v := hkv
      rw [getElem?_applyAll] at hkv'
      cases hl : lastWrite kept k with
      | none =>
          rw [hl] at hkv'
          exact h.persisted k v hkv'
      | some o =>
          obtain ⟨w, hfind, hv⟩ := Option.map_eq_some_iff.mp hl
          have hmem := List.mem_of_find?_eq_some hfind
          have hwk : w.key = k := by simpa using List.find?_some hfind
          rw [hl, Option.getD_some, ← hv] at hkv'
          rw [← hwk, ← hkv']
          exact h.unflushed w (hk.subset (List.mem_reverse.mp hmem))

/-- What a replay could write is among it. -/
theorem Throughout.append (h : Throughout P s records) {r : WalRecord}
    (hr : P r.key r.write.value) : Throughout P s (records ++ [r]) := by
  refine ⟨h.contents, h.persisted, h.unflushed, fun r' hr' => ?_⟩
  rcases List.mem_append.mp hr' with hr' | hr'
  · exact h.records r' hr'
  · rw [List.mem_singleton.mp hr']
    exact hr

/-- Less log, less to replay. -/
theorem Throughout.nil (h : Throughout P s records) : Throughout P s [] :=
  ⟨h.contents, h.persisted, h.unflushed, fun _ hr => (nomatch hr)⟩

end Throughout

end FerrisKv
