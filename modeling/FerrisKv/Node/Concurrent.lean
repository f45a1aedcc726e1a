/-
Calls of one node that run at the same time.

Every call is a thread of a pool over the node's shared state; what the
source does under one lock, one map shard or one atomic is one step, and
any thread may take its next step at any moment. A call that comes in
later is one that has not moved yet. The clock advances between steps.
There are no I/O faults here and no crash: what a crash would find is
read off the state reached.
-/
import FerrisKv.Lib.Pool
import FerrisKv.Node.Machine

namespace FerrisKv

/-- The calls in progress over the node's state. -/
abbrev NodePool := Pool World Prim Prim.Resp Answer

/-- A step some call has taken. -/
abbrev NodeEvent := Pool.Event Prim Prim.Resp

/-- A node that has just come up on an empty data directory. -/
def World.opened (cfg : NodeConfig) : World :=
  ((NodeService.open .plain).run.run (Prim.exec .plain none)
    (.fresh cfg 0 0)).2

/-- Such a node with one watcher of tenant `a`. -/
def oneWatcher : World :=
  ((NodeService.subscribe "a").run (Prim.exec .plain none) (.opened {})).2

/-- The clock moves forward. -/
def Ticks (w w' : World) : Prop :=
  ∃ now instant, w.now ≤ now ∧ w' = w.tick now instant

/-- A client's call, and not a sweep. -/
def Op.OfClient : Op → Prop
  | .sweep => False
  | _ => True

/-- All calls are made on `w`. -/
def NodePool.calls (cfg : NodeConfig) (w : World) (ops : List Op) :
    NodePool :=
  .ready w (ops.map (Op.prog cfg))

/-- The pools the calls can reach, when each step meets `allow`. -/
abbrev NodePool.Run (ext : Externals)
    (allow : NodePool → Nat → Prim → Prop) :=
  Pool.Run (Prim.exec ext none) Ticks allow

/-- The pool after call `i` took the step `p` and goes on with `k`. -/
abbrev NodePool.after (ext : Externals) (pool : NodePool) (i : Nat)
    (p : Prim) (k : p.Resp → NodeProg Answer) : NodePool :=
  Pool.fire (Prim.exec ext none) pool i p k

/-- No condition on the steps. -/
def NodePool.anyStep (_ : NodePool) (_ : Nat) (_ : Prim) : Prop := True

end FerrisKv
