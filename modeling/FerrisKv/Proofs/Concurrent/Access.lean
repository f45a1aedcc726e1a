/-
Nobody reads or writes a tenant's data without a token for it.

The server serves any number of calls at a time, their steps interleaved
and any of their I/O failing; `Watch` calls open streams, which go on after
the call has returned. With an interceptor built from a configuration that
is not `insecure`, every step that changes data is a step of the sweeper,
which only removes, or of an RPC whose header carries a token for this tenant
with the permission this write takes; every answer that tells something of a
tenant's data goes to such an RPC, and every item of a stream to one whose
`Watch` was such an RPC (`access_guarded`). The token is one that verified
when the interceptor looked at the clock: what it grants is not looked at
again while the call runs, nor while the stream lasts.

The argument is about programs only. What the interceptor lets pass is an
authenticated caller; a caller without authority gets a program that takes
no step (`refused_of_forbidden`); and the program of a request writes no
data but under the keys it names.
-/
import FerrisKv.Node.Concurrent
import FerrisKv.Proofs.Node.Audit
import FerrisKv.Proofs.Node.Authorization

namespace FerrisKv

open Prog NodeService WriteLog

-- =============================================================== the server

/-- A stream that is open, with what is known of the `Watch` that opened it:
its header, its tenant, and the time its interceptor read. -/
structure OpenStream where
  header : Option Bytes
  tenant : String
  judged : Option Nat
  state : WatchState
  deriving DecidableEq, Repr

/-- The calls a server works on. A turn of a stream has the stream to itself
until it is over. -/
inductive Call where
  | rpc (header : Option Bytes) (tenant : String) (req : Request)
  | poll (stream : Nat) (o : OpenStream) (idleFirst : Bool)
  | setQuota (tenant : String) (maxBytes maxOpsPerSec : Option Nat)
  | clearQuota (tenant : String)
  | sweep
  deriving DecidableEq, Repr

/-- What they answer. -/
inductive CallReply where
  | rpc (r : Reply)
  | turn (t : StreamTurn)
  | quota (r : Except AdminError TenantUsage)
  | swept (removed : Nat)
  deriving DecidableEq

/-- A call in progress: the time it has read first, which for an RPC is the
interceptor's reading, and what is left of it. -/
structure Serving where
  call : Call
  judged : Option Nat
  left : NodeProg CallReply

/-- A node, the call each client has in progress, and the streams, in the
order they were opened; one that is closed or at its turn leaves an empty
place. -/
structure ServerState where
  world : World
  calls : Nat → Option Serving
  streams : List (Option OpenStream)

/-- What happens at a server, and by whom. -/
inductive Moment where
  | begun (client : Nat) (call : Call)
  | acted (client : Nat)
  | returned (client : Nat) (reply : CallReply)
  | hungUp (stream : Nat)
  | ticked
  deriving DecidableEq

/-- The time a step reads. -/
def Prim.reading : (p : Prim) → p.Resp → Option Nat
  | .now, t => some t
  | _, _ => none

/-- The call is a turn of a stream. -/
def Call.isTurn : Call → Bool
  | .poll _ _ _ => true
  | _ => false

namespace ServerState

/-- The receiver of a stream is dropped. -/
def dropped (ext : Externals) (s : ServerState) (o : OpenStream) :
    ServerState :=
  { s with world := ((WatchPrim.drop o.state.tenant o.state.rx).call.run
    (Prim.exec ext none) s.world).2 }

/-- A stream takes its place. -/
def setStream (s : ServerState) (n : Nat) (o : OpenStream) : ServerState :=
  { s with streams := s.streams.set n (some o) }

/-- What the return of a call leaves of the streams: a `Watch` that succeeded
opens one; a turn puts its stream back, as its item left it, or drops it. -/
def settled (ext : Externals) (s : ServerState) (judged : Option Nat) :
    Call → CallReply → ServerState
  | .rpc header tenant _, .rpc (.response (.watching (.ok state))) =>
      { s with streams := s.streams ++ [some ⟨header, tenant, judged, state⟩] }
  | .poll n o _, .turn (.item _ state) => s.setStream n { o with state := state }
  | .poll n o _, .turn .again => s.setStream n o
  | .poll n o _, .turn .pending => s.setStream n o
  | .poll _ o _, .turn (.failed _) => s.dropped ext o
  | .poll _ o _, .turn .ended => s.dropped ext o
  | _, _ => s

end ServerState

section Server

variable (ext : Externals) (cfg : NodeConfig)
  (blake3 : Bytes → Vector UInt8 32) (auth : AuthInterceptor)

/-- The program of a call. -/
def Call.prog : Call → NodeProg CallReply
  | .rpc header tenant req => (fun out => .rpc out.1)
      <$> serveRpc blake3 cfg auth header tenant req
  | .poll _ o idleFirst => .turn <$> watchPoll o.state idleFirst
  | .setQuota tenant maxBytes maxOpsPerSec => .quota
      <$> (adminSetQuota ext tenant maxBytes maxOpsPerSec).run
  | .clearQuota tenant => .quota <$> (adminClearQuota tenant).run
  | .sweep => .swept <$> sweepOnce cfg

/-- A call that has just been made. -/
def Call.begin (c : Call) : Serving := ⟨c, none, c.prog ext cfg blake3 auth⟩

/-- The steps of a server: its I/O may fail, its clock advances. -/
inductive ServerState.Step :
    ServerState → Option Moment → ServerState → Prop where
  | call {w : World} {calls : Nat → Option Serving}
      {streams : List (Option OpenStream)} {i : Nat} {c : Call}
      (hi : calls i = none) (hc : c.isTurn = false) :
      Step ⟨w, calls, streams⟩ (some (.begun i c))
        ⟨w, Function.update calls i (some (c.begin ext cfg blake3 auth)),
          streams⟩
  | poll {w : World} {calls : Nat → Option Serving}
      {streams : List (Option OpenStream)} {i n : Nat} {o : OpenStream}
      {idleFirst : Bool} (hi : calls i = none)
      (hn : streams[n]? = some (some o)) :
      Step ⟨w, calls, streams⟩ (some (.begun i (.poll n o idleFirst)))
        ⟨w, Function.update calls i
          (some ((Call.poll n o idleFirst).begin ext cfg blake3 auth)),
          streams.set n none⟩
  | act {w w' : World} {calls : Nat → Option Serving}
      {streams : List (Option OpenStream)} {i : Nat} {c : Call}
      {judged : Option Nat} {p : Prim} {k : p.Resp → NodeProg CallReply}
      {r : p.Resp} (hi : calls i = some ⟨c, judged, .act p k⟩)
      (hp : p.May ext w r w') :
      Step ⟨w, calls, streams⟩ (some (.acted i))
        ⟨w', Function.update calls i
          (some ⟨c, judged.or (p.reading r), k r⟩), streams⟩
  | ret {w : World} {calls : Nat → Option Serving}
      {streams : List (Option OpenStream)} {i : Nat} {c : Call}
      {judged : Option Nat} {a : CallReply}
      (hi : calls i = some ⟨c, judged, .ret a⟩) :
      Step ⟨w, calls, streams⟩ (some (.returned i a))
        (settled ext ⟨w, Function.update calls i none, streams⟩ judged c a)
  | hangUp {w : World} {calls : Nat → Option Serving}
      {streams : List (Option OpenStream)} {n : Nat} {o : OpenStream}
      (hn : streams[n]? = some (some o)) :
      Step ⟨w, calls, streams⟩ (some (.hungUp n))
        (dropped ext ⟨w, calls, streams.set n none⟩ o)
  | tick {w w' : World} {calls : Nat → Option Serving}
      {streams : List (Option OpenStream)} (ht : Ticks w w') :
      Step ⟨w, calls, streams⟩ (some .ticked) ⟨w', calls, streams⟩

/-- The server from `w` on, with nobody calling at first. -/
def server (w : World) : Lts ServerState Moment where
  init s := s = ⟨w, fun _ => none, []⟩
  step := ServerState.Step ext cfg blake3 auth

end Server

-- ================================================================ authority

/-- The header carries a token that verified at the time judged, for the
tenant and with the permission. -/
def Vouched (auth : AuthInterceptor) (judged : Option Nat)
    (header : Option Bytes) (t perm : String) : Prop :=
  ∃ verifier token now claims, auth.verifier = some verifier
    ∧ judged = some now
    ∧ bearerToken header = .ok token
    ∧ verifier.verify now token = .ok claims
    ∧ claims.tenant = t ∧ claims.allows perm = true

/-- The stream listens to the tenant of the `Watch` that opened it, which was
entitled to it. -/
def OpenStream.Proper (auth : AuthInterceptor) (o : OpenStream) : Prop :=
  o.state.tenant = o.tenant ∧ Vouched auth o.judged o.header o.tenant permWatch

/-- The keys a request writes, each with the permission it takes. -/
def Request.writes : Request → List (Bytes × String)
  | .put key _ _ => [(key, permWrite)]
  | .delete key => [(key, permDelete)]
  | .batch ops => ops.filterMap fun o =>
      if o.op = opPut then some (o.key, permWrite)
      else if o.op = opDelete then some (o.key, permDelete)
      else none
  | _ => []

/-- The permission a write takes. -/
def permFor : Write Bytes Bytes → String
  | .put _ _ => permWrite
  | .delete _ => permDelete

/-- The call may make a write that takes `perm` to what `t` has stored under
`u`. The sweeper may remove. -/
def Call.MayWrite (auth : AuthInterceptor) (judged : Option Nat) (t : String)
    (u : Bytes) (perm : String) : Call → Prop
  | .rpc header tenant req => tenant = t ∧ (u, perm) ∈ req.writes
      ∧ Vouched auth judged header t perm
  | .sweep => perm = permDelete
  | _ => False

/-- The answer may go to the call. A stream is only given to a `Watch`, and
listens to its tenant. -/
def CallReply.Proper (auth : AuthInterceptor) (judged : Option Nat) :
    Call → CallReply → Prop
  | .rpc header tenant req, .rpc (.response r) =>
      (r.carriesData = true →
        ∀ perm ∈ req.perms, Vouched auth judged header tenant perm)
        ∧ ∀ state, r = .watching (.ok state) →
          permWatch ∈ req.perms ∧ state.tenant = tenant
  | .poll _ o _, .turn (.item _ state) =>
      o.Proper auth ∧ state.tenant = o.tenant
  | _, _ => True

/-- What a request writes needs a permission the request asks for. -/
private theorem writes_perms {req : Request} {u : Bytes} {perm : String}
    (h : (u, perm) ∈ req.writes) : perm ∈ req.perms := by
  cases req with
  | put key value ttlMs =>
      obtain ⟨-, rfl⟩ := Prod.mk.inj (List.mem_singleton.mp h)
      exact List.mem_singleton.mpr rfl
  | delete key =>
      obtain ⟨-, rfl⟩ := Prod.mk.inj (List.mem_singleton.mp h)
      exact List.mem_singleton.mpr rfl
  | batch ops =>
      obtain ⟨o, ho, hsome⟩ := List.mem_filterMap.mp h
      refine List.mem_append.mpr ?_
      split at hsome
      · next hput =>
          cases hsome
          rw [if_pos (List.any_eq_true.mpr ⟨o, ho, by simpa using hput⟩)]
          exact .inl (List.mem_singleton.mpr rfl)
      · next hput =>
          split at hsome
          · next hdel =>
              cases hsome
              rw [if_pos (c := (ops.any fun o => o.op = opDelete) = true)
                (List.any_eq_true.mpr ⟨o, ho, by simpa using hdel⟩)]
              exact .inr (List.mem_singleton.mpr rfl)
          · cases hsome
  | get key | scan userPrefix limit | watch keyPrefix => cases h

-- ============================================================ the programs

/-- The step writes no data of `t` but what `us` names, with its permission,
and none of anybody else. -/
def Prim.WritesOnly (t : String) (us : List (Bytes × String)) (p : Prim) :
    Prop :=
  ∀ r, ∀ write ∈ p.wrote r, IsData write.key →
    ∃ u, KeyCodec.decode write.key = .ok (t, .data, u)
      ∧ (u, permFor write) ∈ us

/-- The step only removes data. -/
def Prim.RemovesOnly (p : Prim) : Prop :=
  ∀ r, ∀ write ∈ p.wrote r, IsData write.key → permFor write = permDelete

section Programs

variable {cfg : NodeConfig} {t : String} {us : List (Bytes × String)}
  {key u : Bytes}

theorem Prim.WritesNoData.writesOnly {p : Prim} (h : p.WritesNoData) :
    p.WritesOnly t us :=
  fun r write hw hd => absurd hd (h r write hw)

theorem Prim.WritesNoData.removesOnly {p : Prim} (h : p.WritesNoData) :
    p.RemovesOnly :=
  fun r write hw hd => absurd hd (h r write hw)

/-- An inert program writes nothing. -/
theorem uses_inert {α : Type} {x : NodeProg α} (hx : x.Uses Prim.Inert) :
    x.Uses (Prim.WritesOnly t us) :=
  hx.mono fun _ hp => hp.writesNoData.writesOnly

/-- What follows the storage write of a call writes no data. -/
private theorem settle_writesNoData (plan : Option Accounting) (value : Bytes)
    (kind : ChangeKind) :
    (ExceptT.run (do
      commitAccounting plan
      publishChange key kind value
      rotateWalIfNeeded cfg : NodeM Unit)).Uses Prim.WritesNoData :=
  settle_uses_of plan key value kind cfg
    ((commitAccounting_uses plan).mono fun _ hp => hp.inert.writesNoData)
    (fun _ hp => hp.writesNoData) fun _ hp => hp.inert.writesNoData

/-- A put writes its key. -/
theorem putWithTtl_writesOnly (hk : KeyCodec.decode key = .ok (t, .data, u))
    (hu : (u, permWrite) ∈ us) (value : Bytes) (ttlMs : Nat) :
    (putWithTtl cfg key value ttlMs).run.Uses (Prim.WritesOnly t us) := by
  unfold putWithTtl
  refine uses_bindE (uses_lift (uses_inert ((expiryStamp_uses ttlMs).mono
    fun _ hp => hp ▸ trivial))) fun exp => ?_
  refine uses_bindE (uses_inert ((planAccounting_uses key _).mono
    fun _ hp => hp.inert)) fun plan => ?_
  refine uses_bindE (uses_inert ((checkAccounting_uses plan).mono
    fun _ hp => hp.inert)) fun _ => ?_
  refine uses_bindE (uses_inert (walAppend_inert _ _ _)) fun _ => ?_
  have hput : (Prim.storage (.put key (ValueCodec.encode value exp))).WritesOnly
      t us := by
    rintro (e | v) write hw -
    · cases hw
    · cases hw
      exact ⟨u, hk, hu⟩
  refine uses_bindE ((wp_step _).mpr ⟨hput, fun _ => trivial⟩) fun _ => ?_
  refine uses_bindE (uses_lift (uses_inert ((scheduleExpiry_uses key exp).mono
    fun _ hp => hp.inert))) fun _ => ?_
  exact (settle_writesNoData plan value .put).mono fun _ hp => hp.writesOnly

/-- A delete makes one write that may be to data, and it removes its key. -/
theorem delete_uses_of {S : Prim → Prop} (hS : ∀ p, p.WritesNoData → S p)
    (hdelete : S (.storage (.delete key))) :
    (NodeService.delete cfg key).run.Uses S := by
  unfold NodeService.delete
  refine uses_bindE ((planDeleteAccounting_uses key).mono
    fun _ hp => hS _ hp.inert.writesNoData) fun plan => ?_
  refine uses_bindE ((walAppend_inert _ _ _).mono
    fun _ hp => hS _ hp.writesNoData) fun _ => ?_
  refine uses_bindE ((wp_step _).mpr ⟨hdelete, fun _ => trivial⟩) fun _ => ?_
  exact (settle_writesNoData plan [] .delete).mono hS

private theorem delete_writesOnly (hk : KeyCodec.decode key = .ok (t, .data, u))
    (hu : (u, permDelete) ∈ us) :
    (NodeService.delete cfg key).run.Uses (Prim.WritesOnly t us) := by
  refine delete_uses_of (fun _ hp => hp.writesOnly) ?_
  rintro (e | v) write hw -
  · cases hw
  · cases hw
    exact ⟨u, hk, hu⟩

/-- A sweep only removes. -/
theorem sweepOnce_removesOnly : (sweepOnce cfg).Uses Prim.RemovesOnly := by
  have hdelete : ∀ key, (NodeService.delete cfg key).run.Uses
      Prim.RemovesOnly := by
    refine fun key => delete_uses_of (fun _ hp => hp.removesOnly) ?_
    rintro (e | v) write hw -
    · cases hw
    · cases hw
      rfl
  refine sweepOnce_preserves (L := .ghost (fun _ p => p.RemovesOnly) fun _ _ _ => ())
    (I := fun _ => True) ?_ ?_ ?_ () trivial
  · exact fun _ _ _ hp => ⟨hp.inert.writesNoData.removesOnly, fun _ => trivial⟩
  · exact fun key raw _ _ => (reschedule_uses key raw).mono
      fun _ hp => hp.inert.writesNoData.removesOnly
  · exact fun key _ _ => hdelete key

/-- What follows a check counts only if the check passes. -/
theorem uses_ofCheck {α β : Type} {S : Prim → Prop} {c : Except Status α}
    {f : α → GrpcM β} (h : ∀ a, c = .ok a → (f a).run.Uses S) :
    (ExceptT.run (ofCheck c >>= f)).Uses S := by
  cases c with
  | error st => exact trivial
  | ok a => exact h a rfl

theorem uses_mapStatus {α : Type} {S : Prim → Prop} {x : NodeM α}
    (h : x.run.Uses S) : (mapStatus x).run.Uses S :=
  uses_bind h fun _ => trivial

/-- An operation of a batch writes what the batch lists, if its permission is
among those listed. -/
private theorem batchOp_writesOnly (o : BatchOp)
    (hput : o.op = opPut → (o.key, permWrite) ∈ us)
    (hdelete : o.op ≠ opPut → o.op = opDelete → (o.key, permDelete) ∈ us) :
    (batchOp cfg t o).run.Uses (Prim.WritesOnly t us) := by
  refine uses_ofCheck fun _ _ => uses_ofCheck fun _ _ =>
    uses_ofCheck fun k hk => ?_
  have hd := decode_of_encodeDataKey hk
  split
  · next hop => exact uses_mapStatus (putWithTtl_writesOnly hd (hput hop) _ _)
  · next hne =>
    split
    · next hop => exact uses_mapStatus (delete_writesOnly hd (hdelete hne hop))
    · exact trivial

/-- So does the batch. -/
private theorem batchLoop_writesOnly (all : List BatchOp) :
    ∀ ops : List BatchOp, (∀ o ∈ ops, o ∈ all) →
      (batchLoop cfg t ops).run.Uses
        (Prim.WritesOnly t (Request.writes (.batch all)))
  | [], _ => trivial
  | o :: rest, h => by
      have ho : o ∈ all := h o List.mem_cons_self
      refine uses_bindE (batchOp_writesOnly o (fun hput => ?_)
        fun hne hdel => ?_) fun _ => batchLoop_writesOnly all rest
          fun o' ho' => h o' (List.mem_cons_of_mem _ ho')
      · exact List.mem_filterMap.mpr ⟨o, ho, if_pos hput⟩
      · exact List.mem_filterMap.mpr
          ⟨o, ho, (if_neg hne).trans (if_pos hdel)⟩

/-- A request writes no data but under the keys it names, and each as it
says. -/
theorem request_writesOnly (principal : Option Principal) (req : Request) :
    (req.prog cfg principal t).Uses (Prim.WritesOnly t req.writes) := by
  cases req with
  | get key => exact uses_map _ (uses_inert (getImpl_inert principal key))
  | put key value ttlMs =>
      refine uses_map _ (uses_bindE (uses_inert (enter_inert principal _))
        fun _ => uses_ofCheck fun _ _ => uses_ofCheck fun _ _ =>
          uses_ofCheck fun k hk => uses_mapStatus ?_)
      exact putWithTtl_writesOnly (decode_of_encodeDataKey hk)
        (List.mem_singleton.mpr rfl) _ _
  | delete key =>
      refine uses_map _ (uses_bindE (uses_inert (enter_inert principal _))
        fun _ => uses_ofCheck fun _ _ => uses_ofCheck fun k hk =>
          uses_bindE (uses_inert (getRpc_inert k)) fun found => ?_)
      exact uses_bindE (uses_mapStatus (delete_writesOnly
        (decode_of_encodeDataKey hk) (List.mem_singleton.mpr rfl)))
        fun _ => trivial
  | scan userPrefix limit =>
      exact uses_map _ (uses_inert (scanImpl_inert principal userPrefix limit))
  | batch ops =>
      refine uses_map _ ?_
      rw [batchEnter_bind]
      exact uses_bindE (uses_inert (batchEnter_inert principal ops))
        fun _ => batchLoop_writesOnly ops ops fun _ ho => ho
  | watch keyPrefix =>
      exact uses_map _ ((watchImpl_spares principal keyPrefix).mono
        fun _ hp => hp.writesOnly)

/-- A stream is only given to a `Watch`, and listens to its tenant. -/
theorem request_watching (principal : Option Principal) (req : Request) :
    (req.prog cfg principal t).Yields (fun _ => True) fun r =>
      ∀ state, r = .watching (.ok state) →
        permWatch ∈ req.perms ∧ state.tenant = t := by
  cases req with
  | watch keyPrefix =>
      refine (wp_map _ _ _).mpr (wp_mono ?_ (watchImpl_tenant keyPrefix))
      rintro _ r hr state ⟨⟩
      exact ⟨List.mem_singleton.mpr rfl, hr state rfl⟩
  | get _ | put _ _ _ | delete _ | scan _ _ | batch _ =>
      exact (wp_map _ _ _).mpr (wp_mono (fun _ _ _ _ h => by cases h)
        (yields_any _))

end Programs

-- ============================================================= the callers

section Callers

variable {cfg : NodeConfig} {blake3 : Bytes → Vector UInt8 32}
  {auth : AuthInterceptor} {header : Option Bytes} {t : String}
  {judged : Option Nat}

/-- An interceptor built for a configuration that is not `insecure` has a
verifier. -/
theorem buildAuthInterceptor_secure {read : String → Except String Bytes}
    {rs256 : Bytes → Except String JwtVerifier} {acfg : AuthConfig}
    (hsecure : acfg.insecure = false)
    (h : buildAuthInterceptor read rs256 acfg = .ok auth) :
    ∃ verifier, auth = .withVerifier verifier := by
  unfold buildAuthInterceptor at h
  rw [hsecure, if_neg Bool.false_ne_true] at h
  split at h
  · cases h
  · cases h
  · split at h
    · cases h
    · next verifier _ =>
        cases h
        exact ⟨verifier, rfl⟩

/-- Whom it lets pass has shown a token that verifies. -/
theorem call_secure {verifier : JwtVerifier} {now : Nat} {caller : Caller}
    (h : (AuthInterceptor.withVerifier verifier).call now header = .ok caller) :
    ∃ token claims, bearerToken header = .ok token
      ∧ verifier.verify now token = .ok claims
      ∧ caller = .authenticated claims := by
  unfold AuthInterceptor.call AuthInterceptor.withVerifier at h
  rw [if_neg Bool.false_ne_true] at h
  dsimp only at h
  split at h
  · cases h
  · next token htoken =>
      split at h
      · cases h
      · next claims hclaims =>
          cases h
          exact ⟨token, claims, htoken, hclaims, rfl⟩

/-- Every write of data the step makes is one the call may make. -/
def Prim.Guarded (auth : AuthInterceptor) (c : Call) (judged : Option Nat)
    (p : Prim) : Prop :=
  ∀ r, ∀ write ∈ p.wrote r, ∀ t u,
    KeyCodec.decode write.key = .ok (t, .data, u) →
      c.MayWrite auth judged t u (permFor write)

/-- The rules a call is judged by: its first look at the clock is
remembered. -/
abbrev guards (auth : AuthInterceptor) (c : Call) :
    Rules (Option Nat) Prim Prim.Resp :=
  .ghost (fun judged p => p.Guarded auth c judged)
    fun judged p r => judged.or (p.reading r)

theorem Prim.WritesNoData.guarded {p : Prim} (h : p.WritesNoData) (c : Call) :
    p.Guarded auth c judged :=
  fun r write hw t u hd => absurd ⟨t, u, hd⟩ (h r write hw)

/-- A request writes what it may if every permission it asks for is
vouched for. -/
theorem Prim.WritesOnly.guarded {p : Prim} {req : Request}
    (h : p.WritesOnly t req.writes)
    (hv : ∀ perm ∈ req.perms, Vouched auth judged header t perm) :
    p.Guarded auth (.rpc header t req) judged := by
  intro r write hw t' u hd
  obtain ⟨u', hd', hu⟩ := h r write hw ⟨t', u, hd⟩
  obtain ⟨rfl, -, rfl⟩ : t = t' ∧ _ ∧ u' = u := by
    have heq := Except.ok.inj (hd'.symm.trans hd)
    exact ⟨congrArg Prod.fst heq, trivial, congrArg (·.2.2) heq⟩
  exact ⟨rfl, hu, hv _ (writes_perms hu)⟩

/-- A request that was vouched for takes guarded steps only. -/
private theorem request_guarded {req : Request}
    (hv : ∀ perm ∈ req.perms, Vouched auth judged header t perm)
    (principal : Option Principal) :
    (req.prog cfg principal t).Uses
      (Prim.Guarded auth (.rpc header t req) judged) :=
  (request_writesOnly principal req).mono fun _ hp => hp.guarded hv

/-- What a caller without authority is served touches no data and tells
nothing of it. -/
theorem forbidden_guarded {claims : Claims} {req : Request}
    (h : Forbidden claims.tenant claims.perms t req) :
    (req.prog cfg (some (.authenticated claims.tenant claims.perms)) t).Yields
      (Prim.Guarded auth (.rpc header t req) judged)
      fun r => r.carriesData = false := by
  by_cases hbatch : ∀ ops, req = .batch ops →
      ∃ o ∈ ops, o.op = opPut ∨ o.op = opDelete
  · obtain ⟨r, hr, hdata⟩ : Refused cfg _ t req := refused_of_forbidden h hbatch
    rw [hr]
    exact hdata
  · push Not at hbatch
    obtain ⟨ops, rfl, hops⟩ := hbatch
    -- a batch that asks for nothing has nothing to write
    have hnone : ∀ perm ∈ Request.perms (.batch ops),
        Vouched auth judged header t perm := by
      intro perm hperm
      have hput : (ops.any fun o => o.op = opPut) = false :=
        List.any_eq_false.mpr fun o ho => by simpa using (hops o ho).1
      have hdel : (ops.any fun o => o.op = opDelete) = false :=
        List.any_eq_false.mpr fun o ho => by simpa using (hops o ho).2
      rw [Request.perms, hput, hdel] at hperm
      cases hperm
    exact (wp_map _ _ _).mpr (wp_mono (fun _ _ _ => rfl)
      ((wp_map _ _ _).mp (request_guarded hnone _)))

/-- What a request of somebody who has shown a token is served. -/
theorem prog_guarded {verifier : JwtVerifier} {token : String} {now : Nat}
    {claims : Claims} (hauth : auth = .withVerifier verifier)
    (htoken : bearerToken header = .ok token)
    (hverify : verifier.verify now token = .ok claims) (req : Request) :
    (req.prog cfg (some (.authenticated claims.tenant claims.perms)) t).Yields
      (Prim.Guarded auth (.rpc header t req) (some now))
      fun r => r.carriesData = true →
        ∀ perm ∈ req.perms, Vouched auth (some now) header t perm := by
  by_cases hforbidden : Forbidden claims.tenant claims.perms t req
  · refine wp_mono (fun _ r hr hdata => ?_) (forbidden_guarded hforbidden)
    rw [hr] at hdata
    cases hdata
  · have hv : ∀ perm ∈ req.perms, Vouched auth (some now) header t perm := by
      unfold Forbidden at hforbidden
      push Not at hforbidden
      obtain ⟨htenant, hperms⟩ := hforbidden
      intro perm hperm
      refine ⟨verifier, token, now, claims, by rw [hauth]; rfl, rfl, htoken,
        hverify, htenant, ?_⟩
      exact Bool.ne_false_iff.mp (hperms perm hperm)
    refine wp_mono ?_ (request_guarded hv _)
    exact fun _ _ _ _ => hv

/-- A program whose steps write no data keeps to any rules. -/
private theorem wp_guards_noData {α : Type} {A : α → Prop} {x : NodeProg α}
    {c : Call} {Q : Option Nat → α → Prop}
    (hx : x.Yields Prim.WritesNoData A) (hQ : ∀ judged a, A a → Q judged a) :
    wp (guards auth c) Q x judged := by
  refine wp_of_yields (I := fun _ => True) ?_
    (fun judged a _ ha => hQ judged a ha) hx trivial
  exact fun _ _ _ hp => ⟨hp.guarded c, fun _ => trivial⟩

/-- An RPC keeps to what it may do. -/
theorem rpc_guarded {ext : Externals} {verifier : JwtVerifier}
    (hauth : auth = .withVerifier verifier) (req : Request) :
    wp (guards auth (.rpc header t req))
      (fun judged a => a.Proper auth judged (.rpc header t req))
      ((Call.rpc header t req).prog ext cfg blake3 auth) none := by
  have hnow : Prim.WritesNoData .now := Prim.Inert.writesNoData trivial
  refine (wp_map _ _ _).mpr ⟨hnow.guarded _, fun now => ?_⟩
  show wp _ _ (serveAs blake3 cfg t req (auth.call now header)) (some now)
  cases hcall : auth.call now header with
  | error st => exact trivial
  | ok caller =>
      have hcall' := hcall
      rw [hauth] at hcall'
      obtain ⟨token, claims, htoken, hverify, rfl⟩ := call_secure hcall'
      have haudited : (Prod.fst <$> req.audited blake3 cfg
          (some (.authenticated claims)) t).Yields
          (Prim.Guarded auth (.rpc header t req) (some now)) fun r =>
            CallReply.Proper auth (some now) (.rpc header t req)
              (.rpc (.response r)) := by
        rw [audited_erases]
        exact (prog_guarded hauth htoken hverify req).and
          (request_watching _ req)
      have hserved : (req.audited blake3 cfg (some (.authenticated claims))
          t).Yields (Prim.Guarded auth (.rpc header t req) (some now))
          fun out => CallReply.Proper auth (some now) (.rpc header t req)
            (.rpc (.response out.1)) := (wp_map Prod.fst _ _).mp haudited
      -- from its first step on the time judged is the interceptor's
      refine (wp_map _ _ _).mpr (wp_of_yields (I := fun g => g = some now)
        ?_ ?_ hserved rfl)
      · rintro _ p rfl hp
        exact ⟨hp, fun _ => rfl⟩
      · rintro _ out rfl hout
        exact hout

/-- A turn of a stream may only be taken of a proper one. -/
def Call.Proper (auth : AuthInterceptor) : Call → Prop
  | .poll _ o _ => o.Proper auth
  | _ => True

/-- Every call of a secure server keeps to what it may do. -/
theorem call_guarded {ext : Externals} {verifier : JwtVerifier}
    (hauth : auth = .withVerifier verifier) {c : Call} (hc : c.Proper auth) :
    wp (guards auth c) (fun judged a => a.Proper auth judged c)
      (c.prog ext cfg blake3 auth) none := by
  cases c with
  | rpc header t req => exact rpc_guarded hauth req
  | poll n o idleFirst =>
      refine (wp_map _ _ _).mpr (wp_guards_noData
        ((watchPoll_spares o.state idleFirst).yields
          (watchPoll_tenant o.state idleFirst)) fun judged turn hturn => ?_)
      cases turn with
      | item event state => exact ⟨hc, (hturn event state rfl).trans hc.1⟩
      | failed _ | ended | again | pending => exact trivial
  | setQuota t maxBytes maxOpsPerSec =>
      exact (wp_map _ _ _).mpr (wp_guards_noData
        ((adminSetQuota_inert maxBytes maxOpsPerSec).mono
          fun _ hp => hp.writesNoData) fun _ _ _ => trivial)
  | clearQuota t =>
      exact (wp_map _ _ _).mpr (wp_guards_noData
        (adminClearQuota_inert.mono fun _ hp => hp.writesNoData)
        fun _ _ _ => trivial)
  | sweep =>
      refine (wp_map _ _ _).mpr (wp_of_uses (I := fun _ => True) ?_
        (fun _ _ _ => trivial) sweepOnce_removesOnly trivial)
      exact fun _ _ _ hp => ⟨fun r write hw t u hd =>
        hp r write hw ⟨t, u, hd⟩, fun _ => trivial⟩

/-- A call in progress keeps to what it may do. -/
def Serving.Guarded (auth : AuthInterceptor) (x : Serving) : Prop :=
  x.call.Proper auth
    ∧ wp (guards auth x.call) (fun judged a => a.Proper auth judged x.call)
      x.left x.judged

/-- So does every call from its beginning: without a voucher it has no steps
that matter. -/
private theorem begin_guarded {ext : Externals} {verifier : JwtVerifier}
    (hauth : auth = .withVerifier verifier) {c : Call} (hc : c.Proper auth) :
    (c.begin ext cfg blake3 auth).Guarded auth :=
  ⟨hc, call_guarded hauth hc⟩

end Callers

/-- An entry that changes in a step is written by it, and shows which
permission the write takes. -/
theorem wrote_of_change {ext : Externals} {w w' : World} {p : Prim}
    {r : p.Resp} {k : Bytes} (hp : p.May ext w r w')
    (h : w'.storage.contents[k]? ≠ w.storage.contents[k]?) :
    ∃ write ∈ p.wrote r, write.key = k ∧ permFor write
      = if w'.storage.contents[k]? = none then permDelete else permWrite := by
  obtain ⟨fault, he⟩ := hp
  have hwrote := exec_wrote ext fault p w
  rw [he] at hwrote
  dsimp only at hwrote
  cases hw : p.wrote r with
  | none =>
      rw [hwrote, hw] at h
      exact absurd rfl h
  | some write =>
      have hentry : w'.storage.contents[k]? = if write.key = k then
          write.value else w.storage.contents[k]? := by
        rw [hwrote, hw]
        exact getElem?_apply _ write k
      have hkey : write.key = k := by_contra fun hne =>
        h (hentry.trans (if_neg hne))
      rw [if_pos hkey] at hentry
      refine ⟨write, rfl, hkey, ?_⟩
      rw [hentry]
      cases write <;> rfl

-- ================================================================ the result

section Result

variable {ext : Externals} {cfg : NodeConfig}
  {blake3 : Bytes → Vector UInt8 32} {auth : AuthInterceptor} {w : World}
  {s s' : ServerState}

/-- Every call in progress keeps to what it may do, and every stream was
opened by somebody entitled to it. -/
structure Guarding (auth : AuthInterceptor) (s : ServerState) : Prop where
  calls : ∀ i x, s.calls i = some x → x.Guarded auth
  streams : ∀ o, some o ∈ s.streams → o.Proper auth

/-- A call in progress after one client moved is that client's, or was there
before. -/
private theorem Guarding.update (h : Guarding auth s) {i : Nat}
    {x : Option Serving} (hx : ∀ y, x = some y → y.Guarded auth) :
    ∀ j y, Function.update s.calls i x j = some y → y.Guarded auth := by
  intro j y hy
  rcases eq_or_ne j i with rfl | hij
  · rw [Function.update_self] at hy
    exact hx y hy
  · rw [Function.update_of_ne hij] at hy
    exact h.calls j y hy

/-- A place in the list of streams is set. -/
private theorem mem_set_of_proper {streams : List (Option OpenStream)}
    (h : ∀ o, some o ∈ streams → o.Proper auth) (n : Nat)
    {place : Option OpenStream} (hplace : ∀ o, place = some o → o.Proper auth) :
    ∀ o, some o ∈ streams.set n place → o.Proper auth := by
  intro o ho
  rcases List.mem_or_eq_of_mem_set ho with ho | ho
  · exact h o ho
  · exact hplace o ho.symm

/-- What a return leaves of the streams is proper if the answer is. -/
private theorem streams_settled {streams : List (Option OpenStream)}
    {calls : Nat → Option Serving} {judged : Option Nat} {c : Call}
    {a : CallReply} (h : ∀ o, some o ∈ streams → o.Proper auth)
    (hc : c.Proper auth) (ha : a.Proper auth judged c) :
    ∀ o, some o ∈ (ServerState.settled ext ⟨w, calls, streams⟩ judged c a).streams →
      o.Proper auth := by
  unfold ServerState.settled
  split
  · next header tenant req state =>
    obtain ⟨hperm, htenant⟩ := ha.2 state rfl
    intro o ho
    rcases List.mem_append.mp ho with ho | ho
    · exact h o ho
    · obtain rfl := Option.some.inj (List.mem_singleton.mp ho)
      exact ⟨htenant, ha.1 rfl _ hperm⟩
  · next n o _ _ state =>
    refine mem_set_of_proper h n ?_
    rintro _ ⟨⟩
    exact ⟨ha.2, ha.1.2⟩
  · next n o _ =>
    refine mem_set_of_proper h n ?_
    rintro _ ⟨⟩
    exact hc
  · next n o _ =>
    refine mem_set_of_proper h n ?_
    rintro _ ⟨⟩
    exact hc
  · exact h
  · exact h
  · exact h

/-- A reply settles streams, and no calls. -/
private theorem calls_settled (s : ServerState) (judged : Option Nat) (c : Call)
    (a : CallReply) : (s.settled ext judged c a).calls = s.calls := by
  unfold ServerState.settled
  split <;> rfl

private theorem storage_settled (s : ServerState) (judged : Option Nat)
    (c : Call) (a : CallReply) :
    (s.settled ext judged c a).world.storage = s.world.storage := by
  unfold ServerState.settled
  split <;> rfl

/-- Every step of the server keeps its calls guarded. -/
private theorem guarding_step {verifier : JwtVerifier}
    (hauth : auth = .withVerifier verifier) {l : Option Moment}
    (h : Guarding auth s) (hstep : (server ext cfg blake3 auth w).step s l s') :
    Guarding auth s' := by
  cases hstep with
  | @call w calls streams i c hi hc =>
      have hproper : c.Proper auth := by
        cases c with
        | poll _ _ _ => cases hc
        | _ => exact trivial
      refine ⟨h.update ?_, h.streams⟩
      rintro _ ⟨⟩
      exact begin_guarded hauth hproper
  | @poll w calls streams i n o idleFirst hi hn =>
      -- a poll brings no token; it has what the call that opened the stream
      -- was vouched for
      have hproper : o.Proper auth := h.streams o (List.mem_of_getElem? hn)
      refine ⟨h.update ?_, mem_set_of_proper h.streams n fun o ho => by cases ho⟩
      rintro _ ⟨⟩
      exact begin_guarded (c := .poll n o idleFirst) hauth hproper
  | act hi hp =>
      obtain ⟨hproper, hleft⟩ := h.calls _ _ hi
      refine ⟨h.update ?_, h.streams⟩
      rintro _ ⟨⟩
      exact ⟨hproper, hleft.2 _⟩
  | ret hi =>
      obtain ⟨hproper, hleft⟩ := h.calls _ _ hi
      refine ⟨?_, streams_settled h.streams hproper hleft⟩
      rw [calls_settled]
      exact h.update fun y hy => by cases hy
  | hangUp hn =>
      exact ⟨h.calls, mem_set_of_proper h.streams _ fun o ho => by cases ho⟩
  | tick ht => exact ⟨h.calls, h.streams⟩

/-- On a server that is not `insecure`, whatever step it takes in a reachable
state: if what tenant `t` has stored under `u` changes, the step is one of a
call in progress that is a sweep, which removes it, or an RPC on `t` that
names `u`, and whose header carries a token that verified, when its
interceptor read the clock, for `t` and with the permission to write or to
remove, whichever was done; and if a call returns, what it tells of a tenant's
data is told to an RPC on that tenant with such a token for every permission
it asks for, or is the item of a stream that listens to the tenant of the
`Watch` that opened it, which had such a token. -/
theorem access_guarded (ext : Externals) (cfg : NodeConfig)
    (blake3 : Bytes → Vector UInt8 32)
    (read : String → Except String Bytes)
    (rs256 : Bytes → Except String JwtVerifier) (acfg : AuthConfig)
    {auth : AuthInterceptor} (hsecure : acfg.insecure = false)
    (hauth : buildAuthInterceptor read rs256 acfg = .ok auth) {w : World}
    {s s' : ServerState} (hs : (server ext cfg blake3 auth w).Reachable s)
    {l : Option Moment} (hstep : (server ext cfg blake3 auth w).step s l s') :
    (∀ t u k, KeyCodec.decode k = .ok (t, .data, u) →
        s'.world.storage.contents[k]? ≠ s.world.storage.contents[k]? →
        ∃ i x, l = some (.acted i) ∧ s.calls i = some x
          ∧ x.call.MayWrite auth x.judged t u
            (if s'.world.storage.contents[k]? = none then permDelete
              else permWrite))
      ∧ ∀ i a, l = some (.returned i a) →
        ∃ x, s.calls i = some x ∧ a.Proper auth x.judged x.call := by
  -- without `insecure` there is a verifier, so no call goes unjudged
  obtain ⟨verifier, hverifier⟩ := buildAuthInterceptor_secure hsecure hauth
  have hguard : Guarding auth s := by
    refine hs.induction ?_ fun _ _ _ h => guarding_step hverifier h
    rintro _ rfl
    exact ⟨fun _ _ h => (by cases h), fun _ h => (by cases h)⟩
  constructor
  · intro t u k hk hchange
    cases hstep with
    | call _ _ => exact absurd rfl hchange
    | poll _ _ => exact absurd rfl hchange
    | ret _ =>
        rw [storage_settled] at hchange
        exact absurd rfl hchange
    | hangUp _ => exact absurd rfl hchange
    | tick ht =>
        obtain ⟨now, instant, -, rfl⟩ := ht
        exact absurd rfl hchange
    | @act w₁ w₂ calls streams i c judged p rest r hi hp =>
        -- only a step of a call stores anything, and what it stores its guard
        -- allows
        obtain ⟨write, hw, hkey, hperm⟩ := wrote_of_change hp hchange
        refine ⟨i, _, rfl, hi, ?_⟩
        rw [← hperm]
        exact (hguard.calls i _ hi).2.1 r write hw t u (hkey ▸ hk)
  · rintro i a rfl
    cases hstep with
    | ret hi => exact ⟨_, hi, (hguard.calls i _ hi).2⟩

end Result

-- =================================================================== a run

namespace ServerState

variable {ext : Externals} {cfg : NodeConfig}
  {blake3 : Bytes → Vector UInt8 32} {auth : AuthInterceptor} {w : World}
  {s : ServerState} {i : Nat}

/-- A call of client `i`. -/
def calling (i : Nat) (x : Serving) (s : ServerState) : ServerState :=
  { s with calls := Function.update s.calls i (some x) }

/-- The next step of client `i`'s call, without a fault. -/
def advance (ext : Externals) (i : Nat) (s : ServerState) : ServerState :=
  match s.calls i with
  | some ⟨c, judged, .act p k⟩ =>
      ⟨(p.exec ext none s.world).2, Function.update s.calls i
        (some ⟨c, judged.or (p.reading (p.exec ext none s.world).1),
          k (p.exec ext none s.world).1⟩), s.streams⟩
  | _ => s

/-- Its return. -/
def finish (ext : Externals) (i : Nat) (s : ServerState) : ServerState :=
  match s.calls i with
  | some ⟨c, judged, .ret a⟩ =>
      settled ext ⟨s.world, Function.update s.calls i none, s.streams⟩ judged c a
  | _ => s

/-- What client `i`'s call is about to return. -/
def reply (i : Nat) (s : ServerState) : Option CallReply :=
  match s.calls i with
  | some ⟨_, _, .ret a⟩ => some a
  | _ => none

theorem step_finish {a : CallReply} (h : s.reply i = some a) :
    Step ext cfg blake3 auth s (some (.returned i a)) (s.finish ext i) := by
  unfold reply at h
  unfold finish
  split at h
  · next c judged b hi =>
    cases h
    exact .ret hi
  · cases h

/-- Client `i`'s call has a step to take, or the state stays as it is. -/
theorem advance_cases (ext : Externals) (cfg : NodeConfig)
    (blake3 : Bytes → Vector UInt8 32) (auth : AuthInterceptor)
    (s : ServerState) (i : Nat) :
    Step ext cfg blake3 auth s (some (.acted i)) (s.advance ext i)
      ∨ s.advance ext i = s := by
  unfold advance
  split
  · next hi => exact .inl (.act hi ⟨none, rfl⟩)
  · exact .inr rfl

/-- A call can be let run for a while. -/
theorem reachable_advance (i n : Nat)
    (h : (server ext cfg blake3 auth w).Reachable s) :
    (server ext cfg blake3 auth w).Reachable ((advance ext i)^[n] s) := by
  induction n generalizing s with
  | zero => exact h
  | succ n ih =>
      refine ih ?_
      rcases advance_cases ext cfg blake3 auth s i with hs | hs
      · exact h.step hs
      · rw [hs]
        exact h

/-- A request can come in at any time. -/
private theorem reachable_calling {c : Call}
    (h : (server ext cfg blake3 auth w).Reachable s)
    (hi : (s.calls i).isNone) (hc : c.isTurn = false) :
    (server ext cfg blake3 auth w).Reachable
      (s.calling i (c.begin ext cfg blake3 auth)) :=
  h.step (.call (Option.isNone_iff_eq_none.mp hi) hc)

/-- An open stream can be polled at any time. -/
private theorem reachable_polling {n : Nat} {o : OpenStream} {idleFirst : Bool}
    (h : (server ext cfg blake3 auth w).Reachable s)
    (hi : (s.calls i).isNone) (hn : s.streams[n]? = some (some o)) :
    (server ext cfg blake3 auth w).Reachable
      (calling i ((Call.poll n o idleFirst).begin ext cfg blake3 auth)
        { s with streams := s.streams.set n none }) :=
  h.step (.poll (Option.isNone_iff_eq_none.mp hi) hn)

private theorem reachable_tick {now instant : Nat}
    (h : (server ext cfg blake3 auth w).Reachable s) (hn : s.world.now ≤ now) :
    (server ext cfg blake3 auth w).Reachable
      { s with world := s.world.tick now instant } :=
  h.step (.tick ⟨now, instant, hn, rfl⟩)

end ServerState

/-- The token `T` is tenant `a`'s, for writing and watching, until 100. -/
def dayVerifier : JwtVerifier :=
  ⟨fun now token =>
    if token = "T" then
      if now < 100 then .ok ⟨"u", "a", [permWrite, permWatch]⟩
      else .error .expiredSignature
    else .error (.other "unknown")⟩

/-- The interceptor with that verifier. -/
def dayToken : AuthInterceptor := .withVerifier dayVerifier

/-- The server behind it. -/
abbrev dayServer : Lts ServerState Moment :=
  server .plain {} digest dayToken (.opened {})

/-- A request of tenant `a` with the token. -/
def withToken (req : Request) : Serving :=
  (Call.rpc (some (asBytes "Bearer T")) "a" req).begin .plain {} digest dayToken

/-- Client 0 has opened a stream. -/
def watchedServer : ServerState :=
  ((ServerState.advance .plain 0)^[20] (ServerState.calling 0
    (withToken (.watch [])) ⟨.opened {}, fun _ => none, []⟩)).finish .plain 0

/-- Client 1 is about to store what it puts, and it is late: the token has
expired since the interceptor looked. -/
def aboutToStore : ServerState :=
  let s := (ServerState.advance .plain 1)^[5]
    (watchedServer.calling 1 (withToken (.put [1] [2] 0)))
  { s with world := s.world.tick 200 200 }

/-- The stream, as it was opened. -/
def openedStream : OpenStream where
  header := some (asBytes "Bearer T")
  tenant := "a"
  judged := some 0
  state := ⟨⟨0, 0⟩, [], 30000, 30000, "a"⟩

/-- The put is through, and the stream has taken a turn. -/
def aboutToDeliver : ServerState :=
  let s := ((ServerState.advance .plain 1)^[20] aboutToStore).finish .plain 1
  (ServerState.advance .plain 0)^[5] (ServerState.calling 0
    ((Call.poll 0 openedStream false).begin .plain {} digest dayToken)
    { s with streams := s.streams.set 0 none })

private theorem reachable_aboutToStore : dayServer.Reachable aboutToStore := by
  have hstart : dayServer.Reachable ⟨.opened {}, fun _ => none, []⟩ :=
    ⟨[], .start rfl⟩
  have hwatch := ServerState.reachable_advance 0 20
    (ServerState.reachable_calling (i := 0)
      (c := .rpc (some (asBytes "Bearer T")) "a" (.watch [])) hstart rfl rfl)
  have hopened : dayServer.Reachable watchedServer :=
    hwatch.step (ServerState.step_finish (a := .rpc (.response
      (.watching (.ok openedStream.state)))) (by decide +kernel))
  exact ServerState.reachable_tick (ServerState.reachable_advance 1 5
    (ServerState.reachable_calling (i := 1)
      (c := .rpc (some (asBytes "Bearer T")) "a" (.put [1] [2] 0)) hopened
      (by decide +kernel) rfl)) (by decide +kernel)

private theorem reachable_aboutToDeliver :
    dayServer.Reachable aboutToDeliver := by
  have hdone := (ServerState.reachable_advance 1 20 reachable_aboutToStore).step
    (ServerState.step_finish (i := 1) (a := .rpc (.response (.done (.ok ()))))
      (by decide +kernel))
  exact ServerState.reachable_advance 0 5 (ServerState.reachable_polling
    (o := openedStream) hdone (by decide +kernel) (by decide +kernel))

/-- The put is stored and the stream's item delivered after the token has
expired; it was good when the interceptor looked, at time 0. -/
theorem access_guarded_late :
    aboutToStore.world.now = 200
      ∧ (aboutToStore.advance .plain 1).world.storage.contents[
          KeyCodec.bytesOf "a" .data [1]]?
        ≠ aboutToStore.world.storage.contents[KeyCodec.bytesOf "a" .data [1]]?
      ∧ Vouched dayToken (some 0) (some (asBytes "Bearer T")) "a" permWrite
      ∧ aboutToDeliver.reply 0 = some (.turn (.item ⟨.put, [1], [2]⟩
          { openedStream.state with nextBeat := 30200 }))
      ∧ Vouched dayToken (some 0) (some (asBytes "Bearer T")) "a" permWatch := by
  have hchange : (aboutToStore.advance .plain 1).world.storage.contents[
        KeyCodec.bytesOf "a" .data [1]]?
      ≠ aboutToStore.world.storage.contents[KeyCodec.bytesOf "a" .data [1]]? := by
    decide +kernel
  have hreply : aboutToDeliver.reply 0 = some (.turn (.item ⟨.put, [1], [2]⟩
      { openedStream.state with nextBeat := 30200 })) := by decide +kernel
  refine ⟨by decide +kernel, hchange, ?_, hreply, ?_⟩
  · have hstep := (ServerState.advance_cases .plain {} digest dayToken
      aboutToStore 1).resolve_right fun h => hchange (by rw [h])
    obtain ⟨i, x, hi, hx, hwrite⟩ := (access_guarded .plain {} digest
      (fun _ => .ok []) (fun _ => .ok dayVerifier)
      { publicKeyPath := some "key.pem" } rfl rfl reachable_aboutToStore
      hstep).1 "a" [1] _ (KeyCodec.decode_bytesOf (by decide) .data [1]) hchange
    cases hi
    have hcall : (aboutToStore.calls 1).map (fun x => (x.call, x.judged))
        = some (.rpc (some (asBytes "Bearer T")) "a" (.put [1] [2] 0), some 0) := by
      decide +kernel
    rw [hx] at hcall
    obtain ⟨hcall, hjudged⟩ := Prod.mk.inj (Option.some.inj hcall)
    rw [hcall, hjudged, if_neg (by decide +kernel)] at hwrite
    exact hwrite.2.2
  · obtain ⟨x, hx, hproper⟩ := (access_guarded .plain {} digest
      (fun _ => .ok []) (fun _ => .ok dayVerifier)
      { publicKeyPath := some "key.pem" } rfl rfl reachable_aboutToDeliver
      (ServerState.step_finish hreply)).2 0 _ rfl
    have hcall : (aboutToDeliver.calls 0).map Serving.call
        = some (.poll 0 openedStream false) := by decide +kernel
    rw [hx] at hcall
    rw [Option.some.inj hcall] at hproper
    exact hproper.1.2

end FerrisKv
