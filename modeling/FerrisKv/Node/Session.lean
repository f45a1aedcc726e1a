/-
A node and the requests made of it, one after the other.

`Action` is what can happen to a node from outside: an RPC, one turn of
an open `Watch` stream, a client that drops its stream, a quota change on
the admin server, a sweep, the clock. Each is served to its end before
the next begins, without I/O errors; `Session.step` runs its program and
keeps the streams that are open. A stream is named by its tenant and its
place among the streams that tenant has opened.

`Session.Goes` is the same where storage and log calls may fail and the
clocks go on between the steps of a call; `Session.step` is one way it can
go (`goes_step`).
-/
import FerrisKv.Node.Grpc
import FerrisKv.Node.Machine

namespace FerrisKv

-- ================================================================ requests

/-- The RPCs. -/
inductive Request where
  | get (key : Bytes)
  | put (key value : Bytes) (ttlMs : Nat)
  | delete (key : Bytes)
  | scan (userPrefix : Bytes) (limit : Nat)
  | batch (ops : List BatchOp)
  | watch (keyPrefix : Bytes)
  deriving DecidableEq, Repr

/-- What an RPC answers. -/
inductive Response where
  | value (r : Except Status (Option Bytes))
  | done (r : Except Status Unit)
  | deleted (r : Except Status Bool)
  | chunks (r : Except Status (List (List (Bytes × Bytes))))
  | watching (r : Except Status WatchState)
  deriving DecidableEq

/-- The program of an RPC. -/
def Request.prog (cfg : NodeConfig) (principal : Option Principal)
    (tenant : String) : Request → NodeProg Response
  | .get key => .value <$> (getImpl cfg principal tenant key).run
  | .put key value ttlMs =>
      .done <$> (putImpl cfg principal tenant key value ttlMs).run
  | .delete key => .deleted <$> (deleteImpl cfg principal tenant key).run
  | .scan userPrefix limit =>
      .chunks <$> (scanImpl cfg principal tenant userPrefix limit).run
  | .batch ops => .done <$> (batchImpl cfg principal tenant ops).run
  | .watch keyPrefix =>
      .watching <$> (watchImpl cfg principal tenant keyPrefix).run

/-- An RPC served without I/O errors. -/
def Request.serve (ext : Externals) (cfg : NodeConfig)
    (principal : Option Principal) (tenant : String) (req : Request)
    (w : World) : Response × World :=
  (req.prog cfg principal tenant).run (Prim.exec ext none) w

-- ================================================================= actions

/-- What can happen to a node. -/
inductive Action where
  | rpc (principal : Option Principal) (tenant : String) (req : Request)
  | poll (tenant : String) (stream : Nat) (idleFirst : Bool)
  | hangUp (tenant : String) (stream : Nat)
  | setQuota (tenant : String) (maxBytes maxOpsPerSec : Option Nat)
  | clearQuota (tenant : String)
  | sweep
  | tick (now instant : Nat)
  deriving DecidableEq, Repr

/-- What an action answers. -/
inductive Output where
  | response (r : Response)
  | turn (t : Option StreamTurn)
  | quota (r : Except AdminError TenantUsage)
  | silent
  deriving DecidableEq

/-- The tenant an action names; a sweep and the clock name none. -/
def Action.tenant : Action → Option String
  | .rpc _ t _ => some t
  | .poll t _ _ => some t
  | .hangUp t _ => some t
  | .setQuota t _ _ => some t
  | .clearQuota t => some t
  | .sweep => none
  | .tick _ _ => none

/-- A node and the open streams of each tenant; a stream that has ended
leaves an empty place. -/
structure Session where
  world : World
  streams : String → List (Option WatchState)

namespace Session

/-- Replace a tenant's streams. -/
def setStreams (s : Session) (tenant : String)
    (streams : List (Option WatchState)) : Session :=
  { s with streams := Function.update s.streams tenant streams }

/-- A `Watch` that succeeded opens a stream. -/
def opened (s : Session) (tenant : String) : Response → Session
  | .watching (.ok state) =>
      s.setStreams tenant (s.streams tenant ++ [some state])
  | _ => s

/-- Drop the state of a stream, and its receiver with it. -/
def dropStream (ext : Externals) (s : Session) (tenant : String)
    (stream : Nat) (state : WatchState) : Session :=
  let w := ((WatchPrim.drop state.tenant state.rx).call.run
    (Prim.exec ext none) s.world).2
  { s with world := w }.setStreams tenant
    ((s.streams tenant).set stream none)

/-- What a turn of a stream leaves of it: it goes on with the new state,
ends and drops its receiver, or stays. -/
def turned (ext : Externals) (s : Session) (tenant : String) (stream : Nat)
    (state : WatchState) : StreamTurn → Session
  | .item _ state' =>
      s.setStreams tenant ((s.streams tenant).set stream (some state'))
  | .failed _ => s.dropStream ext tenant stream state
  | .ended => s.dropStream ext tenant stream state
  | .again => s
  | .pending => s

/-- The open stream of that name. -/
def stream (s : Session) (tenant : String) (i : Nat) : Option WatchState :=
  ((s.streams tenant)[i]?).join

/-- One action, served to its end. -/
def step (ext : Externals) (cfg : NodeConfig) (s : Session) :
    Action → Session × Output
  | .rpc principal tenant req =>
      let out := req.serve ext cfg principal tenant s.world
      ({ s with world := out.2 }.opened tenant out.1, .response out.1)
  | .poll tenant i idleFirst =>
      match s.stream tenant i with
      | none => (s, .turn none)
      | some state =>
          let out := (watchPoll state idleFirst).run (Prim.exec ext none) s.world
          ({ s with world := out.2 }.turned ext tenant i state out.1,
            .turn (some out.1))
  | .hangUp tenant i =>
      match s.stream tenant i with
      | none => (s, .silent)
      | some state => (s.dropStream ext tenant i state, .silent)
  | .setQuota tenant maxBytes maxOpsPerSec =>
      let out := (adminSetQuota ext tenant maxBytes maxOpsPerSec).run.run
        (Prim.exec ext none) s.world
      ({ s with world := out.2 }, .quota out.1)
  | .clearQuota tenant =>
      let out := (adminClearQuota tenant).run.run (Prim.exec ext none) s.world
      ({ s with world := out.2 }, .quota out.1)
  | .sweep =>
      let out := (NodeService.sweepOnce cfg).run (Prim.exec ext none) s.world
      ({ s with world := out.2 }, .silent)
  | .tick now instant =>
      ({ s with world := s.world.tick now instant }, .silent)

-- ================================================= actions that may fail

/-- A program that ends, whatever calls fail in it. -/
abbrev Served (ext : Externals) {α : Type} :
    NodeProg α → World → α → World → Prop :=
  Prog.Ends (Prim.Goes ext fun _ _ => True)

/-- One action, served to its end, with faults. -/
inductive Goes (ext : Externals) (cfg : NodeConfig) :
    Session → Action → Output → Session → Prop where
  | rpc {s : Session} {principal : Option Principal} {tenant : String}
      {req : Request} {r : Response} {w : World}
      (h : Served ext (req.prog cfg principal tenant) s.world r w) :
      Goes ext cfg s (.rpc principal tenant req) (.response r)
        ({ s with world := w }.opened tenant r)
  | pollNone {s : Session} {tenant : String} {i : Nat} {idleFirst : Bool}
      (hs : s.stream tenant i = none) :
      Goes ext cfg s (.poll tenant i idleFirst) (.turn none) s
  | poll {s : Session} {tenant : String} {i : Nat} {idleFirst : Bool}
      {state : WatchState} {turn : StreamTurn} {w : World}
      (hs : s.stream tenant i = some state)
      (h : Served ext (watchPoll state idleFirst) s.world turn w) :
      Goes ext cfg s (.poll tenant i idleFirst) (.turn (some turn))
        ({ s with world := w }.turned ext tenant i state turn)
  | hangUpNone {s : Session} {tenant : String} {i : Nat}
      (hs : s.stream tenant i = none) :
      Goes ext cfg s (.hangUp tenant i) .silent s
  | hangUp {s : Session} {tenant : String} {i : Nat} {state : WatchState}
      (hs : s.stream tenant i = some state) :
      Goes ext cfg s (.hangUp tenant i) .silent
        (s.dropStream ext tenant i state)
  | setQuota {s : Session} {tenant : String}
      {maxBytes maxOpsPerSec : Option Nat} {r : Except AdminError TenantUsage}
      {w : World}
      (h : Served ext (adminSetQuota ext tenant maxBytes maxOpsPerSec).run
        s.world r w) :
      Goes ext cfg s (.setQuota tenant maxBytes maxOpsPerSec) (.quota r)
        { s with world := w }
  | clearQuota {s : Session} {tenant : String}
      {r : Except AdminError TenantUsage} {w : World}
      (h : Served ext (adminClearQuota tenant).run s.world r w) :
      Goes ext cfg s (.clearQuota tenant) (.quota r) { s with world := w }
  | sweep {s : Session} {removed : Nat} {w : World}
      (h : Served ext (NodeService.sweepOnce cfg) s.world removed w) :
      Goes ext cfg s .sweep .silent { s with world := w }
  | tick {s : Session} {now instant : Nat} :
      Goes ext cfg s (.tick now instant) .silent
        { s with world := s.world.tick now instant }

/-- Action after action, with their answers. -/
inductive Runs (ext : Externals) (cfg : NodeConfig) :
    Session → List (Action × Output) → Session → Prop where
  | nil (s : Session) : Runs ext cfg s [] s
  | snoc {s s' s'' : Session} {steps : List (Action × Output)} {a : Action}
      {out : Output} (hr : Runs ext cfg s steps s')
      (h : Goes ext cfg s' a out s'') :
      Runs ext cfg s (steps ++ [(a, out)]) s''

theorem served_run {ext : Externals} {α : Type} (x : NodeProg α) (w : World) :
    Served ext x w (x.run (Prim.exec ext none) w).1
      (x.run (Prim.exec ext none) w).2 :=
  Prog.ends_run (fun w _ => ⟨w.now, w.instant, none, le_rfl, le_rfl, trivial,
    rfl⟩) x w

/-- Nothing need fail. -/
theorem goes_step (ext : Externals) (cfg : NodeConfig) (s : Session)
    (a : Action) :
    Goes ext cfg s a (s.step ext cfg a).2 (s.step ext cfg a).1 := by
  cases a with
  | rpc principal tenant req => exact .rpc (served_run _ _)
  | poll tenant i idleFirst =>
      rw [step]
      cases hs : s.stream tenant i with
      | none => exact .pollNone hs
      | some state => exact .poll hs (served_run _ _)
  | hangUp tenant i =>
      rw [step]
      cases hs : s.stream tenant i with
      | none => exact .hangUpNone hs
      | some state => exact .hangUp hs
  | setQuota tenant maxBytes maxOpsPerSec => exact .setQuota (served_run _ _)
  | clearQuota tenant => exact .clearQuota (served_run _ _)
  | sweep => exact .sweep (served_run _ _)
  | tick now instant => exact .tick

-- ============================================================== the streams

theorem streams_setStreams (s : Session) (t t' : String)
    (l : List (Option WatchState)) :
    (s.setStreams t l).streams t' = if t' = t then l else s.streams t' :=
  Function.update_apply _ _ _ _

theorem stream_setStreams (s : Session) (t t' : String)
    (l : List (Option WatchState)) (i : Nat) :
    (s.setStreams t l).stream t' i
      = if t' = t then l[i]?.join else s.stream t' i := by
  unfold stream
  rw [streams_setStreams]
  split <;> rfl

theorem world_opened (s : Session) (t : String) (r : Response) :
    (s.opened t r).world = s.world := by
  unfold opened
  split <;> rfl

end Session

section Streams

open Prog

/-- A turn of a stream reads the clock and its own receiver. -/
theorem watchPoll_uses (state : WatchState) (idleFirst : Bool) :
    (watchPoll state idleFirst).Uses fun p =>
      p = .instant ∨ p = .watch (.recv state.tenant state.rx) := by
  have hdeliver : ∀ event, (deliver state event).Uses fun p =>
      p = .instant ∨ p = .watch (.recv state.tenant state.rx) :=
    fun event => ⟨.inl rfl, fun _ => trivial⟩
  refine ⟨.inl rfl, fun now => ?_⟩
  show Uses _ (if _ then _ else _)
  split
  · exact hdeliver _
  · refine ⟨.inr rfl, fun received => ?_⟩
    cases received with
    | message change =>
        show Uses _ (if _ then _ else _)
        split
        · exact hdeliver _
        · exact trivial
    | lagged missed => exact trivial
    | closed => exact trivial
    | empty =>
        show Uses _ (if _ then _ else _)
        split
        · exact hdeliver _
        · exact trivial

/-- A stream is opened for the tenant who asked. -/
theorem watchImpl_tenant {cfg : NodeConfig} {principal : Option Principal}
    {t : String} (keyPrefix : Bytes) :
    (watchImpl cfg principal t keyPrefix).run.Yields (fun _ => True)
      fun r => ∀ st, r = .ok st → st.tenant = t := by
  refine (wp_bindE _ _ _).mpr (wp_mono ?_ (yields_any _))
  rintro _ (e | u) _
  · exact fun st h => nomatch h
  · rw [onResult_ok]
    cases enforceKeySize cfg keyPrefix with
    | error e => exact fun st h => nomatch h
    | ok u =>
        show wp _ _ (ExceptT.run (liftM (NodeService.subscribe t) >>= _)) _
        refine (wp_bindE _ _ _).mpr ((wp_lift _ _).mpr
          (wp_mono ?_ (yields_any _)))
        refine fun _ rx _ => ⟨trivial, fun now => ?_⟩
        rintro st ⟨⟩
        rfl

/-- And stays theirs. -/
theorem watchPoll_tenant (state : WatchState) (idleFirst : Bool) :
    (watchPoll state idleFirst).Yields (fun _ => True) fun turn =>
      ∀ event st, turn = .item event st → st.tenant = state.tenant := by
  have hdeliver : ∀ event, (deliver state event).Yields (fun _ => True)
      fun turn => ∀ event' st, turn = .item event' st →
        st.tenant = state.tenant := by
    refine fun event => ⟨trivial, fun now => ?_⟩
    rintro event' st ⟨⟩
    rfl
  refine ⟨trivial, fun now => ?_⟩
  show Yields _ _ (if _ then _ else _)
  split
  · exact hdeliver _
  · refine ⟨trivial, fun received => ?_⟩
    cases received with
    | message change =>
        show Yields _ _ (if _ then _ else _)
        split
        · exact hdeliver _
        · exact fun _ _ h => nomatch h
    | lagged missed => exact fun _ _ h => nomatch h
    | closed => exact fun _ _ h => nomatch h
    | empty =>
        show Yields _ _ (if _ then _ else _)
        split
        · exact hdeliver _
        · exact fun _ _ h => nomatch h

end Streams

end FerrisKv
