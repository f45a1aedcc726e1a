/-
The two storage backends (`ferriskv-core/src/storage.rs`) as ordered maps
of byte strings, with what a crash leaves of each.

`MemStorage` is a hash map that dies with the process. `FjallStorage` is
an LSM tree that is not part of the source; what is assumed of it is the
contract `Storage::flush` states. Beside its live contents it therefore
carries the contents at the last completed flush and the writes issued
since: a crash keeps the former and ANY subsequence of the latter
(`FjallStorage.survive`), which is the weakest reading of "only writes
that precede a completed flush are guaranteed". The field `consistent`
ties the three together, so no operation can forget to account for a
write.

# Scans

`MemStorage` collects matching entries in hash order and sorts them by
key; `FjallStorage` iterates its tree in key order. Both return the
matching entries in key order, which is how an ordered map lists them.

A scan is one step here. For `FjallStorage` this takes its iterator for a
snapshot. `MemStorage` walks its `DashMap` shard by shard: a write that comes
between two shards shows or not by where its key hashes to, and a scan can
answer with contents the map has had at no moment. Between calls that run one
at a time nothing comes; for calls that run at once `Mirror` takes the walk
apart.
-/
import FerrisKv.Core.Error
import FerrisKv.Lib.WriteLog

namespace FerrisKv

open Std WriteLog

/-- The contents of a store. -/
abbrev Table := ExtTreeMap Bytes Bytes

/-- Entries whose key starts with `pre`, in key order. -/
def Table.scan (m : Table) (pre : Bytes) : List (Bytes × Bytes) :=
  m.toList.filter fun e => pre.isPrefixOf e.1

/-- Entries with `start ≤ key < stop`, in key order. -/
def Table.scanRange (m : Table) (start stop : Bytes) : List (Bytes × Bytes) :=
  m.toList.filter fun e =>
    decide (compare start e.1 ≠ .gt) && decide (compare e.1 stop = .lt)

theorem Table.mem_scan {m : Table} {pre k v : Bytes} :
    (k, v) ∈ m.scan pre ↔ m[k]? = some v ∧ pre <+: k := by
  rw [Table.scan, List.mem_filter, ExtTreeMap.mem_toList_iff_getElem?_eq_some,
    List.isPrefixOf_iff_prefix]

-- ================================================================ backends

/-- `MemStorage`. -/
structure MemStorage where
  inner : Table

/-- `FjallStorage`: the live partition, its contents at the last completed
`persist`, and the writes issued since, oldest first. -/
structure FjallStorage where
  partition : Table
  durable : Table
  since : List (Write Bytes Bytes)
  consistent : partition = applyAll since durable

namespace FjallStorage

/-- The store holding `durable` on disk and `since` on top of it. -/
def mk' (durable : Table) (since : List (Write Bytes Bytes)) : FjallStorage :=
  ⟨applyAll since durable, durable, since, rfl⟩

/-- `partition.insert` and `partition.remove`. -/
def write (s : FjallStorage) (w : Write Bytes Bytes) : FjallStorage where
  partition := apply s.partition w
  durable := s.durable
  since := s.since ++ [w]
  consistent := by
    rw [applyAll_append, ← s.consistent]
    rfl

/-- `keyspace.persist(PersistMode::SyncAll)`. -/
def persist (s : FjallStorage) : FjallStorage := mk' s.partition []

end FjallStorage

/-- `StorageBackend`. -/
inductive StorageBackend where
  | memory (s : MemStorage)
  | fjall (s : FjallStorage)

namespace StorageBackend

/-- What the backend holds now. -/
def contents : StorageBackend → Table
  | .memory s => s.inner
  | .fjall s => s.partition

/-- `Storage::get`. -/
def get (s : StorageBackend) (key : Bytes) : Option Bytes := s.contents[key]?

/-- `Storage::put` and `Storage::delete`. -/
def write : StorageBackend → Write Bytes Bytes → StorageBackend
  | .memory s, w => .memory ⟨apply s.inner w⟩
  | .fjall s, w => .fjall (s.write w)

/-- `Storage::put`. -/
def put (s : StorageBackend) (key value : Bytes) : StorageBackend :=
  s.write (.put key value)

/-- `Storage::delete`. -/
def delete (s : StorageBackend) (key : Bytes) : StorageBackend :=
  s.write (.delete key)

/-- `Storage::scan`. -/
def scan (s : StorageBackend) (pre : Bytes) : List (Bytes × Bytes) :=
  s.contents.scan pre

/-- `Storage::scan_range`. -/
def scanRange (s : StorageBackend) (start stop : Bytes) :
    List (Bytes × Bytes) := s.contents.scanRange start stop

/-- `Storage::flush`. -/
def flush : StorageBackend → StorageBackend
  | .memory s => .memory s
  | .fjall s => .fjall s.persist

/-- `StorageBackend::is_durable`. -/
def isDurable : StorageBackend → Bool
  | .memory _ => false
  | .fjall _ => true

@[simp] theorem contents_write (s : StorageBackend)
    (w : Write Bytes Bytes) : (s.write w).contents = apply s.contents w := by
  cases s <;> rfl

/-- A write leaves every other key as it is. -/
theorem getElem?_write_of_ne (s : StorageBackend) (w : Write Bytes Bytes)
    {k : Bytes} (h : w.key ≠ k) : (s.write w).contents[k]? = s.contents[k]? := by
  rw [contents_write, getElem?_apply, if_neg h]

@[simp] theorem contents_flush (s : StorageBackend) :
    s.flush.contents = s.contents := by
  cases s <;> rfl

@[simp] theorem isDurable_write (s : StorageBackend)
    (w : Write Bytes Bytes) : (s.write w).isDurable = s.isDurable := by
  cases s <;> rfl

@[simp] theorem isDurable_flush (s : StorageBackend) :
    s.flush.isDurable = s.isDurable := by
  cases s <;> rfl

-- ================================================================= crashes

/-- What a restart finds after a crash that kept the writes `kept`. -/
def survive : StorageBackend → List (Write Bytes Bytes) → StorageBackend
  | .memory _, _ => .memory ⟨∅⟩
  | .fjall s, kept => .fjall (.mk' s.durable kept)

/-- `kept` is a possible outcome of a crash: some of the unflushed writes,
in order. A memory backend keeps nothing whatever is asked of it. -/
def MayKeep : StorageBackend → List (Write Bytes Bytes) → Prop
  | .memory _, _ => True
  | .fjall s, kept => kept.Sublist s.since

theorem mayKeep_nil (s : StorageBackend) : s.MayKeep [] := by
  cases s with
  | memory s => exact trivial
  | fjall s => exact List.nil_sublist _

@[simp] theorem isDurable_survive (s : StorageBackend)
    (kept : List (Write Bytes Bytes)) :
    (s.survive kept).isDurable = s.isDurable := by
  cases s <;> rfl

end StorageBackend

-- ============================================================== primitives

/-- An injected I/O failure: after how many of the call's file effects it
strikes, and the text the error carries. -/
structure Fault where
  after : Nat
  text : String
  deriving DecidableEq, Repr

/-- The storage calls a program can make, each one atomic step; for the scans
of a `MemStorage` that others write to meanwhile this is a simplification. -/
inductive StoragePrim where
  | get (key : Bytes)
  | put (key value : Bytes)
  | delete (key : Bytes)
  | scan (pre : Bytes)
  | scanRange (start stop : Bytes)
  | flush
  | isDurable
  deriving DecidableEq, Repr

/-- What a storage call answers. -/
@[reducible] def StoragePrim.Resp : StoragePrim → Type
  | .get _ => Result (Option Bytes)
  | .put _ _ => Result Unit
  | .delete _ => Result Unit
  | .scan _ => Result (List (Bytes × Bytes))
  | .scanRange _ _ => Result (List (Bytes × Bytes))
  | .flush => Result Unit
  | .isDurable => Bool

/-- The answer of a call that either succeeds with `done` or fails and
leaves the state as it was. -/
def attempt {α S : Type} (fault : Option Fault) (s : S) (done : α × S) :
    Result α × S :=
  match fault with
  | none => (.ok done.1, done.2)
  | some f => (.error (.storage f.text), s)

/-- Perform a storage call. -/
def StoragePrim.exec (fault : Option Fault) :
    (p : StoragePrim) → StorageBackend → p.Resp × StorageBackend
  | .get key, s => attempt fault s (s.get key, s)
  | .put key value, s => attempt fault s ((), s.put key value)
  | .delete key, s => attempt fault s ((), s.delete key)
  | .scan pre, s => attempt fault s (s.scan pre, s)
  | .scanRange start stop, s => attempt fault s (s.scanRange start stop, s)
  | .flush, s => attempt fault s ((), s.flush)
  | .isDurable, s => (s.isDurable, s)

end FerrisKv
