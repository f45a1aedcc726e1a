/-
The node's shared state and the atomic steps on it.

`World` is what the fields of `NodeService` point to, with the clock it
reads. A program of the node is a tree over `Prim`, one constructor per
component; each call of a component that takes a lock, a map shard, an
atomic or a file once is one primitive. `Prim.exec` performs it. An I/O
fault can only strike storage and log calls.

`World.crash` is what a process that dies leaves for the next one:
whatever the storage backend keeps, the bytes of the log file, and the
clock. Everything else is rebuilt from nothing.
-/
import FerrisKv.Lib.Prog
import FerrisKv.Node.Wal
import FerrisKv.Node.Ttl
import FerrisKv.Node.Quota
import FerrisKv.Node.Throttle
import FerrisKv.Node.Watch

namespace FerrisKv

open WriteLog

/-- The state behind a `NodeService`: `now` is its clock in milliseconds,
`instant` the monotonic clock the rate limiters and timers read. -/
structure World where
  now : Nat
  instant : Nat
  storage : StorageBackend
  wal : Wal
  ttl : TtlIndex
  quotas : QuotaStore
  throttle : Throttle
  watch : WatchHub

/-- The atomic steps of the node. -/
inductive Prim where
  | now
  | instant
  | storage (p : StoragePrim)
  | wal (p : WalPrim)
  | ttl (p : TtlPrim)
  | quota (p : QuotaPrim)
  | throttle (p : ThrottlePrim)
  | watch (p : WatchPrim)

/-- What a step answers. -/
@[reducible] def Prim.Resp : Prim → Type
  | .now => Nat
  | .instant => Nat
  | .storage p => p.Resp
  | .wal p => p.Resp
  | .ttl p => p.Resp
  | .quota p => p.Resp
  | .throttle p => p.Resp
  | .watch p => p.Resp

/-- Perform a step, with or without an I/O fault in it. -/
def Prim.exec (ext : Externals) (fault : Option Fault) :
    (p : Prim) → World → p.Resp × World
  | .now, w => (w.now, w)
  | .instant, w => (w.instant, w)
  | .storage p, w =>
      let out := p.exec fault w.storage
      (out.1, { w with storage := out.2 })
  | .wal p, w =>
      let out := p.exec fault w.wal
      (out.1, { w with wal := out.2 })
  | .ttl p, w =>
      let out := p.exec w.ttl
      (out.1, { w with ttl := out.2 })
  | .quota p, w =>
      let out := p.exec w.quotas
      (out.1, { w with quotas := out.2 })
  | .throttle p, w =>
      let out := p.exec ext w.instant w.throttle
      (out.1, { w with throttle := out.2 })
  | .watch p, w =>
      let out := p.exec ext w.watch
      (out.1, { w with watch := out.2 })

/-- A program of the node. -/
abbrev NodeProg (α : Type) := Prog Prim Prim.Resp α

/-- A program of the node that may fail. -/
abbrev NodeM (α : Type) := Prog.Fallible Prim Prim.Resp Error α

/-- One storage call. -/
abbrev StoragePrim.call (p : StoragePrim) : NodeProg p.Resp :=
  Prog.step (R := Prim.Resp) (Prim.storage p)

/-- One log call. -/
abbrev WalPrim.call (p : WalPrim) : NodeProg p.Resp :=
  Prog.step (R := Prim.Resp) (Prim.wal p)

/-- One index call. -/
abbrev TtlPrim.call (p : TtlPrim) : NodeProg p.Resp :=
  Prog.step (R := Prim.Resp) (Prim.ttl p)

/-- One quota-store call. -/
abbrev QuotaPrim.call (p : QuotaPrim) : NodeProg p.Resp :=
  Prog.step (R := Prim.Resp) (Prim.quota p)

/-- One throttle step. -/
abbrev ThrottlePrim.call (p : ThrottlePrim) : NodeProg p.Resp :=
  Prog.step (R := Prim.Resp) (Prim.throttle p)

/-- One hub step. -/
abbrev WatchPrim.call (p : WatchPrim) : NodeProg p.Resp :=
  Prog.step (R := Prim.Resp) (Prim.watch p)

-- ========================================================== boot and crash

namespace World

/-- The state a process starts from: the data directory as it was left,
the rest new. The `Wal` is not open yet, only its file is meaningful. -/
def boot (cfg : NodeConfig) (now instant : Nat) (storage : StorageBackend)
    (file : Bytes) : World where
  now := now
  instant := instant
  storage := storage
  wal := ⟨file, [], 0, 0⟩
  ttl := .new
  quotas := .new cfg.quota
  throttle := .new
  watch := .new cfg.watchBuffer

/-- An empty data directory. -/
def fresh (cfg : NodeConfig) (now instant : Nat) : World :=
  boot cfg now instant
    (match cfg.backend with
      | .memory => .memory ⟨∅⟩
      | .fjall => .fjall (.mk' ∅ []))
    []

/-- What the next process finds when this one dies and the log file is
left as `file`. -/
def crash (cfg : NodeConfig) (w : World) (kept : List (Write Bytes Bytes))
    (file : Bytes) : World :=
  boot cfg w.now w.instant (w.storage.survive kept) file

end World

end FerrisKv
