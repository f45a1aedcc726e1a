/-
The server around the handlers: the interceptor that names the caller
(`ferriskv-node/src/auth_layer.rs`, `ferriskv-auth/src/jwt.rs`), how it is
built from the configuration (`config.rs`, `main.rs`), and the audit trail
(`audit.rs`) that `put_impl`, `delete_impl` and `batch_impl` write.

Checking a token's signature and expiry is the business of a library and
a parameter here (`JwtVerifier.decode`). An audit entry is written where
the source writes it, after the write it is about has succeeded; the
entries of a call are collected beside its answer. Taking them away leaves
the handlers of `Grpc` (`audited_erases`).
-/
import FerrisKv.Node.Session

namespace FerrisKv

open NodeService

-- =================================================================== tokens

/-- `Claims`, with the parts that are read. -/
structure Claims where
  sub : String
  tenant : String
  perms : List String
  deriving DecidableEq, Repr

/-- `Claims::allows`. -/
def Claims.allows (c : Claims) (perm : String) : Bool :=
  allowsPerm c.perms perm

/-- `jsonwebtoken::errors::Error`. -/
inductive JwtError where
  | expiredSignature
  | other (text : String)
  deriving DecidableEq, Repr

/-- `AuthError`, as far as `verify` goes. -/
inductive AuthError where
  | invalidToken (text : String)
  | expired
  deriving DecidableEq, Repr

/-- `Display` of `AuthError`. -/
def AuthError.display : AuthError → String
  | .invalidToken text => s!"invalid token: {text}"
  | .expired => "expired token"

/-- `JwtVerifier`: `decode now token` is what the library makes of a token
at that time, with the verifier's key. -/
structure JwtVerifier where
  decode : Nat → String → Except JwtError Claims

/-- `JwtVerifier::verify`. -/
def JwtVerifier.verify (v : JwtVerifier) (now : Nat) (token : String) :
    Except AuthError Claims :=
  match v.decode now token with
  | .ok claims => .ok claims
  | .error .expiredSignature => .error .expired
  | .error (.other text) => .error (.invalidToken text)

-- ============================================================== interceptor

/-- `Principal`, with its claims. -/
inductive Caller where
  | anonymous
  | authenticated (claims : Claims)
  deriving DecidableEq, Repr

/-- What the handlers read of it. -/
def Caller.principal : Caller → Principal
  | .anonymous => .anonymous
  | .authenticated c => .authenticated c.tenant c.perms

/-- The codes the interceptor answers with. -/
inductive AuthCode where
  | unauthenticated
  | internal
  deriving DecidableEq, Repr

/-- `tonic::Status`, from the interceptor. -/
structure AuthStatus where
  code : AuthCode
  message : String
  deriving DecidableEq, Repr

/-- `AuthInterceptor`. -/
structure AuthInterceptor where
  verifier : Option JwtVerifier
  insecure : Bool

/-- `HeaderValue::to_str`: visible ASCII and tabs. -/
def headerToStr (value : Bytes) : Option String :=
  if value.all fun b => (32 ≤ b ∧ b < 127) ∨ b = 9 then
    some (String.ofList (value.map fun b => Char.ofNat b.toNat))
  else none

/-- `str::strip_prefix`. -/
def stripPrefix (pre s : String) : Option String :=
  if pre.toList.isPrefixOf s.toList then
    some (String.ofList (s.toList.drop pre.length))
  else none

/-- The token of an `authorization` header. -/
def bearerToken (header : Option Bytes) : Except AuthStatus String :=
  match header with
  | none => .error ⟨.unauthenticated, "missing authorization header"⟩
  | some value =>
      match headerToStr value with
      | none =>
          .error ⟨.unauthenticated, "authorization header is not ASCII"⟩
      | some raw =>
          match (stripPrefix "Bearer " raw).or (stripPrefix "bearer " raw) with
          | none => .error ⟨.unauthenticated,
              "authorization must start with Bearer"⟩
          | some token => .ok token

namespace AuthInterceptor

/-- `AuthInterceptor::insecure`. -/
def mkInsecure : AuthInterceptor := ⟨none, true⟩

/-- `AuthInterceptor::with_verifier`. -/
def withVerifier (verifier : JwtVerifier) : AuthInterceptor :=
  ⟨some verifier, false⟩

/-- `AuthInterceptor::call`, at the given time. -/
def call (auth : AuthInterceptor) (now : Nat) (header : Option Bytes) :
    Except AuthStatus Caller :=
  if auth.insecure then .ok .anonymous
  else
    match auth.verifier with
    | none => .error ⟨.internal, "auth misconfigured: no verifier"⟩
    | some verifier =>
        match bearerToken header with
        | .error st => .error st
        | .ok token =>
            match verifier.verify now token with
            | .error e =>
                .error ⟨.unauthenticated, s!"invalid token: {e.display}"⟩
            | .ok claims => .ok (.authenticated claims)

end AuthInterceptor

-- ============================================================ configuration

/-- `AuthConfig`. -/
structure AuthConfig where
  insecure : Bool := false
  publicKeyPath : Option String := none
  deriving DecidableEq, Repr

/-- `AuthConfig::validate`. -/
def AuthConfig.validate (cfg : AuthConfig) : Except String Unit :=
  if cfg.insecure then .ok ()
  else if cfg.publicKeyPath.isNone then
    .error "auth: set insecure=true or provide public_key_path"
  else .ok ()

/-- `AuthConfig::load_public_key`; `read` is `std::fs::read`. -/
def AuthConfig.loadPublicKey (read : String → Except String Bytes)
    (cfg : AuthConfig) : Except String (Option Bytes) :=
  match cfg.publicKeyPath with
  | some path =>
      match read path with
      | .ok bytes => .ok (some bytes)
      | .error e => .error s!"read public_key_path {path}: {e}"
  | none => .ok none

/-- `build_auth_interceptor`; `rs256` is `JwtVerifier::new_rs256`. -/
def buildAuthInterceptor (read : String → Except String Bytes)
    (rs256 : Bytes → Except String JwtVerifier) (cfg : AuthConfig) :
    Except String AuthInterceptor :=
  if cfg.insecure then .ok .mkInsecure
  else
    match cfg.loadPublicKey read with
    | .error e => .error e
    | .ok none => .error "auth: public_key_path required when not insecure"
    | .ok (some pem) =>
        match rs256 pem with
        | .error e => .error e
        | .ok verifier => .ok (.withVerifier verifier)

-- ==================================================================== audit

/-- One line of the audit log. -/
structure AuditEntry where
  principal : String
  tenant : String
  op : String
  keyHash : String
  valueSize : Nat
  deriving DecidableEq, Repr

/-- `principal_label`. -/
def principalLabel : Caller → String
  | .anonymous => "anonymous"
  | .authenticated c => c.sub

/-- The two lower-case hexadecimal digits of a byte. -/
def hexByte (b : UInt8) : List Char :=
  [Nat.digitChar (b.toNat / 16), Nat.digitChar (b.toNat % 16)]

/-- `KeyHash::of` and its `Display`. -/
def keyHash (blake3 : Bytes → Vector UInt8 32) (key : Bytes) : String :=
  String.ofList (((blake3 key).toList.take 8).flatMap hexByte)

section Handlers

variable (blake3 : Bytes → Vector UInt8 32) (cfg : NodeConfig)

/-- `audit::write`; a caller the interceptor did not name is anonymous. -/
def audit (caller : Option Caller) (tenant op : String) (key : Bytes)
    (valueSize : Nat) : AuditEntry :=
  ⟨principalLabel (caller.getD .anonymous), tenant, op, keyHash blake3 key,
    valueSize⟩

/-- A handler whose last act is to write an audit entry. -/
def thenAudit {α : Type} (x : GrpcM α) (entry : AuditEntry) :
    NodeProg (Except Status α × List AuditEntry) := do
  let r ← x.run
  match r with
  | .ok a => pure (.ok a, [entry])
  | .error st => pure (.error st, [])

/-- The name `batch_impl` audits an operation under. -/
def opName (op : Nat) : String := if op = opPut then "put" else "delete"

/-- The loop of `batch_impl`, with the entries written so far. -/
def batchAudited (caller : Option Caller) (tenant : String) :
    List BatchOp → List AuditEntry →
      NodeProg (Except Status Unit × List AuditEntry)
  | [], trail => pure (.ok (), trail)
  | o :: rest, trail => do
      let r ← (batchOp cfg tenant o).run
      match r with
      | .error st => pure (.error st, trail)
      | .ok _ => batchAudited caller tenant rest (trail
          ++ [audit blake3 caller tenant (opName o.op) o.key o.value.length])

/-- What `batch_impl` does before its loop. -/
def batchEnter (principal : Option Principal) (tenant : String)
    (ops : List BatchOp) : GrpcM Unit := do
  ofCheck (checkTenant tenant)
  ofCheck (if ops.any fun o => o.op = opPut then
    authorize principal tenant permWrite else .ok ())
  ofCheck (if ops.any fun o => o.op = opDelete then
    authorize principal tenant permDelete else .ok ())
  ofCheck (enforceBatchSize cfg ops.length)
  admitRpc cfg tenant (min ops.length (2 ^ 32 - 1))

/-- An RPC, with the audit entries it writes. -/
def Request.audited (caller : Option Caller) (tenant : String) :
    Request → NodeProg (Response × List AuditEntry)
  | .put key value ttlMs =>
      (fun out => (.done out.1, out.2)) <$> thenAudit
        (putImpl cfg (caller.map Caller.principal) tenant key value ttlMs)
        (audit blake3 caller tenant "put" key value.length)
  | .delete key =>
      (fun out => (.deleted out.1, out.2)) <$> thenAudit
        (deleteImpl cfg (caller.map Caller.principal) tenant key)
        (audit blake3 caller tenant "delete" key 0)
  | .batch ops => do
      let r ← (batchEnter cfg (caller.map Caller.principal) tenant ops).run
      match r with
      | .error st => pure (.done (.error st), [])
      | .ok _ =>
          (fun out => (.done out.1, out.2))
            <$> batchAudited blake3 cfg caller tenant ops []
  | req => (fun r => (r, []))
      <$> req.prog cfg (caller.map Caller.principal) tenant

/-- What a client hears: from the interceptor, or from a handler. -/
inductive Reply where
  | refused (st : AuthStatus)
  | response (r : Response)
  deriving DecidableEq

/-- What is served once the interceptor has spoken. -/
def serveAs (tenant : String) (req : Request) :
    Except AuthStatus Caller → NodeProg (Reply × List AuditEntry)
  | .error st => pure (.refused st, [])
  | .ok caller => (fun out => (.response out.1, out.2))
      <$> req.audited blake3 cfg (some caller) tenant

/-- An RPC as the server serves it. -/
def serveRpc (auth : AuthInterceptor) (header : Option Bytes)
    (tenant : String) (req : Request) :
    NodeProg (Reply × List AuditEntry) := do
  let now ← nowMs
  serveAs blake3 cfg tenant req (auth.call now header)

end Handlers

-- ================================================================== serving

namespace Server

/-- What can happen to a server: an RPC with its `authorization` header, or
anything else a node knows. -/
inductive Event where
  | rpc (header : Option Bytes) (tenant : String) (req : Request)
  | inside (a : Action)
  deriving DecidableEq, Repr

/-- A `Watch` that succeeded opens a stream. -/
def heard (s : Session) (tenant : String) : Reply → Session
  | .refused _ => s
  | .response r => s.opened tenant r

/-- One event, served to its end, whatever calls fail in it, with the audit
entries written. The handlers are only reached through the interceptor. -/
inductive Goes (ext : Externals) (cfg : NodeConfig)
    (blake3 : Bytes → Vector UInt8 32) (auth : AuthInterceptor) :
    Session → Event → List AuditEntry → Session → Prop where
  | rpc {s : Session} {header : Option Bytes} {tenant : String}
      {req : Request} {reply : Reply} {entries : List AuditEntry} {w : World}
      (h : Session.Served ext (serveRpc blake3 cfg auth header tenant req)
        s.world (reply, entries) w) :
      Goes ext cfg blake3 auth s (.rpc header tenant req) entries
        (heard { s with world := w } tenant reply)
  | inside {s s' : Session} {a : Action} {out : Output}
      (ha : ∀ principal tenant req, a ≠ .rpc principal tenant req)
      (h : Session.Goes ext cfg s a out s') :
      Goes ext cfg blake3 auth s (.inside a) [] s'

/-- Event after event. -/
inductive Runs (ext : Externals) (cfg : NodeConfig)
    (blake3 : Bytes → Vector UInt8 32) (auth : AuthInterceptor) :
    Session → List (Event × List AuditEntry) → Session → Prop where
  | nil (s : Session) : Runs ext cfg blake3 auth s [] s
  | snoc {s s' s'' : Session} {steps : List (Event × List AuditEntry)}
      {e : Event} {entries : List AuditEntry}
      (hr : Runs ext cfg blake3 auth s steps s')
      (h : Goes ext cfg blake3 auth s' e entries s'') :
      Runs ext cfg blake3 auth s (steps ++ [(e, entries)]) s''

end Server

-- ============================================================ without audit

section Erasure

variable (blake3 : Bytes → Vector UInt8 32) (cfg : NodeConfig)
  (caller : Option Caller) (tenant : String)

theorem batchAudited_erases (ops : List BatchOp) :
    ∀ trail, Prod.fst <$> batchAudited blake3 cfg caller tenant ops trail
      = (batchLoop cfg tenant ops).run := by
  induction ops with
  | nil => exact fun _ => rfl
  | cons o rest ih =>
      intro trail
      rw [batchAudited, batchLoop, map_bind, ExceptT.run_bind]
      congr 1
      funext r
      cases r with
      | error st => rfl
      | ok u => exact ih _

theorem batchEnter_bind (principal : Option Principal) (ops : List BatchOp) :
    batchImpl cfg principal tenant ops
      = batchEnter cfg principal tenant ops >>= fun _ =>
        batchLoop cfg tenant ops := by
  simp only [batchImpl, batchEnter, bind_assoc]

/-- Without its audit entries an RPC is the handler's. -/
theorem audited_erases (req : Request) :
    Prod.fst <$> req.audited blake3 cfg caller tenant
      = req.prog cfg (caller.map Caller.principal) tenant := by
  have hthen : ∀ {α : Type} (x : GrpcM α) (entry : AuditEntry),
      Prod.fst <$> thenAudit x entry = x.run := by
    intro α x entry
    rw [thenAudit, map_bind]
    refine (bind_congr fun r => ?_).trans (bind_pure _)
    cases r <;> rfl
  cases req with
  | put key value ttlMs =>
      show Prod.fst <$> (_ <$> thenAudit _ _) = Response.done <$> _
      rw [← hthen, Functor.map_map, Functor.map_map]
  | delete key =>
      show Prod.fst <$> (_ <$> thenAudit _ _) = Response.deleted <$> _
      rw [← hthen, Functor.map_map, Functor.map_map]
  | batch ops =>
      show Prod.fst <$> (_ >>= _) = Response.done <$> _
      rw [batchEnter_bind, map_bind, ExceptT.run_bind, map_bind]
      refine bind_congr fun r => ?_
      cases r with
      | error st => rfl
      | ok u =>
          show Prod.fst <$> (_ <$> batchAudited _ _ _ _ _ _) = _
          rw [← batchAudited_erases blake3 cfg caller tenant ops [],
            Functor.map_map, Functor.map_map]
  | get key => exact (Functor.map_map _ _ _).trans (id_map _)
  | scan userPrefix limit => exact (Functor.map_map _ _ _).trans (id_map _)
  | watch keyPrefix => exact (Functor.map_map _ _ _).trans (id_map _)

end Erasure

end FerrisKv
