/-
What a request without authority can do to a node.

Every handler checks the principal before it charges the rate limiter and
before it touches anything else, so a refused request takes no step at
all. `batch_impl` is the exception: it checks a permission only for the
puts and deletes it finds, and a batch without either reaches the limiter
with no check of the tenant. `forbidden_untouched_iff` says that these
batches, and only they, spend another tenant's allowance.
-/
import FerrisKv.Node.Session
import FerrisKv.Node.Concurrent
import FerrisKv.Proofs.Node.RateLimit

namespace FerrisKv

open Prog NodeService

-- ================================================================ authority

/-- The permissions a request asks for. -/
def Request.perms : Request → List String
  | .get _ => [permRead]
  | .put _ _ _ => [permWrite]
  | .delete _ => [permDelete]
  | .scan _ _ => [permRead]
  | .batch ops =>
      (if ops.any fun o => o.op = opPut then [permWrite] else [])
        ++ if ops.any fun o => o.op = opDelete then [permDelete] else []
  | .watch _ => [permWatch]

/-- The principal with tenant claim `claimed` and the permissions `granted`
has no authority for the request on `t`. -/
def Forbidden (claimed : String) (granted : List String) (t : String)
    (req : Request) : Prop :=
  claimed ≠ t
    ∨ ∃ perm ∈ req.perms, Principal.allows (.authenticated claimed granted)
      perm = false

/-- The answer tells something of the tenant's data: what a key holds,
whether it was there, what a scan found, or a stream of changes. -/
def Response.carriesData : Response → Bool
  | .value (.ok _) => true
  | .deleted (.ok _) => true
  | .chunks (.ok _) => true
  | .watching (.ok _) => true
  | _ => false

/-- Nothing of the node has changed, as far as `t` is concerned. -/
structure Untouched (t : String) (w w' : World) : Prop where
  storage : w'.storage = w.storage
  wal : w'.wal = w.wal
  ttl : w'.ttl = w.ttl
  quotas : w'.quotas = w.quotas
  watch : w'.watch = w.watch
  allowance : w'.throttle.tenant t = w.throttle.tenant t

theorem Untouched.refl (t : String) (w : World) : Untouched t w w :=
  ⟨rfl, rfl, rfl, rfl, rfl, rfl⟩

/-- A batch that reaches the limiter with nothing to authorize: not empty,
within the size limit, without a put or a delete, on a tenant whose rate is
limited. -/
def ChargesUnchecked (cfg : NodeConfig) (w : World) (t : String) :
    Request → Prop
  | .batch ops =>
      checkTenant t = .ok () ∧ ops ≠ [] ∧ ops.length ≤ cfg.limits.maxBatchOps
        ∧ (∀ o ∈ ops, o.op ≠ opPut ∧ o.op ≠ opDelete)
        ∧ rateLimit cfg w t ≠ 0
  | _ => False

-- ================================================================= refusals

section Refusals

variable {α : Type} {cfg : NodeConfig} {claimed t : String}
  {granted : List String}

/-- `authorize` refuses a foreign tenant and a missing permission. -/
theorem authorize_error (perm : String)
    (h : claimed ≠ t
      ∨ Principal.allows (.authenticated claimed granted) perm = false) :
    ∃ st, authorize (some (.authenticated claimed granted)) t perm
      = .error st := by
  unfold authorize
  by_cases heq : claimed = t
  · obtain hne | hperm := h
    · exact absurd heq hne
    · subst heq
      simp only [Principal.tenant, hperm, ne_eq, not_true_eq_false, and_false,
        Bool.false_eq_true, if_false]
      exact ⟨_, rfl⟩
  · have hforeign : (some claimed).isSome ∧ some claimed ≠ some t :=
      ⟨rfl, fun he => heq (Option.some.inj he)⟩
    exact ⟨_, if_pos hforeign⟩

/-- A handler that starts with `enter` takes no step for a principal that
`authorize` refuses. -/
theorem enter_refused {perm : String}
    (h : claimed ≠ t
      ∨ Principal.allows (.authenticated claimed granted) perm = false)
    (f : Unit → GrpcM α) :
    ∃ st, ExceptT.run (enter cfg (some (.authenticated claimed granted)) t
      perm >>= f) = .ret (.error st) := by
  unfold enter
  cases checkTenant t with
  | error st => exact ⟨st, rfl⟩
  | ok u =>
      obtain ⟨st, hst⟩ := authorize_error perm h
      exact ⟨st, by rw [hst]; rfl⟩

end Refusals

-- ============================================================== the limiter

section Limiter

variable {ext : Externals} {cfg : NodeConfig} {w : World} {t : String}
  {rate cost : Nat}

/-- Without a limit, or without a cost, nothing is charged. -/
theorem admitRpc_free (h : rateLimit cfg w t = 0 ∨ cost = 0) :
    (admitRpc cfg t cost).run.run (Prim.exec ext none) w = (.ok (), w) := by
  have hzero : throttleCheck cfg t (w.quotas.quota t).maxOpsPerSec cost
      = pure () := if_pos h
  show ((ExceptT.run (throttleCheck cfg t (w.quotas.quota t).maxOpsPerSec cost))
    >>= fun r => pure (r.mapError toStatus)).run _ w = _
  rw [hzero]
  rfl

/-- A check of a limited tenant is recorded with its limiter. -/
theorem admitRpc_charged (h : rateLimit cfg w t ≠ 0) (hcost : cost ≠ 0) :
    ∃ th, ((admitRpc cfg t cost).run.run (Prim.exec ext none) w).2
        = { w with throttle := th }
      ∧ th.tenant t ≠ w.throttle.tenant t := by
  obtain ⟨th, i, l, hf, hcharge⟩ := @chargeAt_run ext w t _ _ h hcost
  refine ⟨((ThrottlePrim.check t i cost).exec ext w.instant th).2, ?_,
    hf.check_ne w.instant⟩
  show (((chargeAt t (rateLimit cfg w t) cost).run
    >>= fun r => pure (r.mapError toStatus)).run _ w).2 = _
  rw [run_bind, ← hcharge]
  rfl

end Limiter

-- ================================================================ the batch

section Batch

variable {ext : Externals} {cfg : NodeConfig} {w : World} {t : String}
  {ops : List BatchOp}

/-- The loop stops at once at an operation it does not know. -/
theorem batchLoop_unknown
    (h : ∀ o ∈ ops, o.op ≠ opPut ∧ o.op ≠ opDelete) :
    ∃ r, (batchLoop cfg t ops).run = .ret r := by
  cases ops with
  | nil => exact ⟨.ok (), rfl⟩
  | cons o rest =>
      obtain ⟨hput, hdel⟩ := h o List.mem_cons_self
      unfold batchLoop batchOp
      simp only [hput, hdel, if_false]
      cases enforceKeySize cfg o.key with
      | error st => exact ⟨.error st, rfl⟩
      | ok u =>
          cases encodeDataKey t o.key with
          | error st => exact ⟨.error st, rfl⟩
          | ok k => exact ⟨.error _, rfl⟩

/-- Neither permission is checked for a batch without puts and deletes. -/
theorem batchImpl_unchecked {principal : Option Principal}
    (hops : ∀ o ∈ ops, o.op ≠ opPut ∧ o.op ≠ opDelete) :
    batchImpl cfg principal t ops
      = ofCheck (checkTenant t) >>= fun _ =>
        ofCheck (enforceBatchSize cfg ops.length) >>= fun _ =>
        admitRpc cfg t (min ops.length (2 ^ 32 - 1)) >>= fun _ =>
        batchLoop cfg t ops := by
  have hput : (ops.any fun o => o.op = opPut) = false := by
    rw [List.any_eq_false]
    exact fun o ho => by simpa using (hops o ho).1
  have hdel : (ops.any fun o => o.op = opDelete) = false := by
    rw [List.any_eq_false]
    exact fun o ho => by simpa using (hops o ho).2
  unfold batchImpl
  rw [hput, hdel]
  rfl

/-- Such a batch takes the steps of its admission and no others. -/
theorem batch_unchecked {principal : Option Principal}
    (ht : checkTenant t = .ok ())
    (hops : ∀ o ∈ ops, o.op ≠ opPut ∧ o.op ≠ opDelete)
    (hsize : ops.length ≤ cfg.limits.maxBatchOps) :
    (Request.serve ext cfg principal t (.batch ops) w).2
      = ((admitRpc cfg t (min ops.length (2 ^ 32 - 1))).run.run
        (Prim.exec ext none) w).2 := by
  have hbatch : enforceBatchSize cfg ops.length = .ok () :=
    if_neg (by omega)
  obtain ⟨r, hr⟩ : ∃ r, (batchLoop cfg t ops).run = .ret r :=
    batchLoop_unknown hops
  have hprog : batchImpl cfg principal t ops
      = admitRpc cfg t (min ops.length (2 ^ 32 - 1)) >>= fun _ =>
        batchLoop cfg t ops := by
    rw [batchImpl_unchecked hops, ht, hbatch]
    rfl
  show (run _ (Response.done <$> (batchImpl cfg principal t ops).run) w).2 = _
  rw [run_map, hprog, run_bindE]
  rcases (admitRpc cfg t (min ops.length (2 ^ 32 - 1))).run.run
    (Prim.exec ext none) w with ⟨_ | _, w'⟩
  · rfl
  · simp only [hr]
    rfl

end Batch

-- ================================================================= the law

section Law

variable {ext : Externals} {cfg : NodeConfig} {w : World}
  {claimed t : String} {granted : List String} {req : Request}

/-- A request that is refused before its first step. -/
def Refused (cfg : NodeConfig) (principal : Principal) (t : String)
    (req : Request) : Prop :=
  ∃ r, req.prog cfg (some principal) t = .ret r ∧ r.carriesData = false

/-- A refused request leaves the tenant's state as it was, and is told nothing
of it. -/
theorem Refused.untouched {principal : Principal}
    (h : Refused cfg principal t req) :
    Untouched t w (req.serve ext cfg (some principal) t w).2
      ∧ (req.serve ext cfg (some principal) t w).1.carriesData = false := by
  obtain ⟨r, hr, hd⟩ := h
  unfold Request.serve
  rw [hr]
  exact ⟨.refl t w, hd⟩

/-- A handler that enters first refuses whoever may not enter. -/
theorem refused_of_enter {perm : String} {α : Type}
    (hperm : claimed ≠ t
      ∨ Principal.allows (.authenticated claimed granted) perm = false)
    (f : Unit → GrpcM α) (respond : Except Status α → Response)
    (hprog : req.prog cfg (some (.authenticated claimed granted)) t
      = respond <$> ExceptT.run
        (enter cfg (some (.authenticated claimed granted)) t perm >>= f))
    (hdata : ∀ st, (respond (.error st)).carriesData = false) :
    Refused cfg (.authenticated claimed granted) t req := by
  obtain ⟨st, hst⟩ := enter_refused hperm f
  refine ⟨respond (.error st), ?_, hdata st⟩
  rw [hprog, hst]
  rfl

/-- A batch whose first failing check is before the limiter. -/
theorem refused_batch {principal : Principal} {ops : List BatchOp}
    {st : Status}
    (h : (batchImpl cfg (some principal) t ops).run = .ret (.error st)) :
    Refused cfg principal t (.batch ops) := by
  refine ⟨.done (.error st), ?_, rfl⟩
  show Response.done <$> _ = _
  rw [h]
  rfl

/-- What is left to refuse a batch when the write check lets it pass. -/
theorem delete_forbidden {ops : List BatchOp}
    (h : Forbidden claimed granted t (.batch ops))
    (hops : ∃ o ∈ ops, o.op = opPut ∨ o.op = opDelete)
    (hw : ¬ ((ops.any fun o => o.op = opPut) = true
      ∧ (claimed ≠ t ∨ Principal.allows
        (.authenticated claimed granted) permWrite = false))) :
    (ops.any fun o => o.op = opDelete) = true
      ∧ (claimed ≠ t ∨ Principal.allows
        (.authenticated claimed granted) permDelete = false) := by
  have hone : (ops.any fun o => o.op = opPut) = true
      ∨ (ops.any fun o => o.op = opDelete) = true := by
    obtain ⟨o, ho, hp | hd⟩ := hops
    · exact .inl (List.any_eq_true.mpr ⟨o, ho, by simpa using hp⟩)
    · exact .inr (List.any_eq_true.mpr ⟨o, ho, by simpa using hd⟩)
  by_cases heq : claimed = t
  · obtain hne | ⟨perm, hmem, hno⟩ := h
    · exact absurd heq hne
    · rcases List.mem_append.mp hmem with hin | hin
      · -- the write permission is the one that lacks
        by_cases hput : (ops.any fun o => o.op = opPut) = true
        · rw [if_pos hput, List.mem_singleton] at hin
          exact absurd ⟨hput, .inr (hin ▸ hno)⟩ hw
        · rw [if_neg hput] at hin
          exact absurd hin List.not_mem_nil
      · by_cases hdel : (ops.any fun o => o.op = opDelete) = true
        · rw [if_pos hdel, List.mem_singleton] at hin
          exact ⟨hdel, .inr (hin ▸ hno)⟩
        · rw [if_neg hdel] at hin
          exact absurd hin List.not_mem_nil
  · refine ⟨hone.resolve_left fun hput => hw ⟨hput, .inl heq⟩, .inl heq⟩

/-- A batch asks for the delete permission when it has a delete, and for the
write permission when it has a put; the write permission is checked first. -/
theorem batch_forbidden {ops : List BatchOp}
    (h : Forbidden claimed granted t (.batch ops))
    (hops : ∃ o ∈ ops, o.op = opPut ∨ o.op = opDelete) :
    Refused cfg (.authenticated claimed granted) t (.batch ops) := by
  have hrun : ∃ st, (batchImpl cfg (some (.authenticated claimed granted)) t
      ops).run = .ret (.error st) := by
    unfold batchImpl
    cases checkTenant t with
    | error st => exact ⟨st, rfl⟩
    | ok u =>
        by_cases hw : (ops.any fun o => o.op = opPut) = true
          ∧ (claimed ≠ t ∨ Principal.allows
            (.authenticated claimed granted) permWrite = false)
        · obtain ⟨st, hst⟩ := authorize_error permWrite hw.2
          exact ⟨st, by rw [if_pos hw.1, hst]; rfl⟩
        · obtain ⟨hany, hd⟩ := delete_forbidden h hops hw
          obtain ⟨st, hst⟩ := authorize_error permDelete hd
          rw [if_pos hany, hst]
          cases (if (ops.any fun o => o.op = opPut) = true then
            authorize (some (.authenticated claimed granted)) t permWrite
            else .ok ()) with
          | error st' => exact ⟨st', rfl⟩
          | ok u => exact ⟨st, rfl⟩
  obtain ⟨st, hst⟩ := hrun
  exact refused_batch hst

/-- A forbidden request takes no step, unless it is a batch that asks for
nothing. -/
theorem refused_of_forbidden (h : Forbidden claimed granted t req)
    (hbatch : ∀ ops, req = .batch ops →
      ∃ o ∈ ops, o.op = opPut ∨ o.op = opDelete) :
    Refused cfg (.authenticated claimed granted) t req := by
  have hone : ∀ perm, req.perms = [perm] → claimed ≠ t
      ∨ Principal.allows (.authenticated claimed granted) perm = false := by
    intro perm hp
    obtain hne | ⟨perm', hmem, hno⟩ := h
    · exact .inl hne
    · rw [hp, List.mem_singleton] at hmem
      exact .inr (hmem ▸ hno)
  cases req with
  | get key =>
      exact refused_of_enter (hone _ rfl) _ .value rfl fun _ => rfl
  | put key value ttlMs =>
      exact refused_of_enter (hone _ rfl) _ .done rfl fun _ => rfl
  | delete key =>
      exact refused_of_enter (hone _ rfl) _ .deleted rfl fun _ => rfl
  | scan userPrefix limit =>
      exact refused_of_enter (hone _ rfl) _ .chunks rfl fun _ => rfl
  | watch keyPrefix =>
      exact refused_of_enter (hone _ rfl) _ .watching rfl fun _ => rfl
  | batch ops => exact batch_forbidden h (hbatch ops rfl)

/-- A batch that asks for nothing touches nothing unless it charges. -/
theorem batch_unchecked_untouched {principal : Principal}
    {ops : List BatchOp}
    (hops : ∀ o ∈ ops, o.op ≠ opPut ∧ o.op ≠ opDelete)
    (h : ¬ ChargesUnchecked cfg w t (.batch ops)) :
    Untouched t w (Request.serve ext cfg (some principal) t (.batch ops) w).2
    := by
  have hrefused : ∀ st, (batchImpl cfg (some principal) t ops).run
      = .ret (.error st) → Untouched t w
        (Request.serve ext cfg (some principal) t (.batch ops) w).2 :=
    fun st hst => (refused_batch hst).untouched.1
  cases ht : checkTenant t with
  | error st =>
      apply hrefused st
      rw [batchImpl_unchecked hops, ht]
      rfl
  | ok u =>
      by_cases hsize : ops.length ≤ cfg.limits.maxBatchOps
      · rw [batch_unchecked ht hops hsize, admitRpc_free]
        · exact .refl t w
        · by_cases hnil : ops = []
          · subst hnil
            exact .inr rfl
          · by_cases hrate : rateLimit cfg w t = 0
            · exact .inl hrate
            · exact absurd ⟨ht, hnil, hsize, hops, hrate⟩ h
      · have hlarge : ∃ st, enforceBatchSize cfg ops.length = .error st :=
          ⟨_, if_pos (by omega)⟩
        obtain ⟨st, hst⟩ := hlarge
        apply hrefused st
        rw [batchImpl_unchecked hops, ht, hst]
        rfl

/-- One that charges does change the tenant's allowance. -/
theorem charged_of_unchecked {principal : Principal}
    (h : ChargesUnchecked cfg w t req) :
    (req.serve ext cfg (some principal) t w).2.throttle.tenant t
      ≠ w.throttle.tenant t := by
  cases req with
  | batch ops =>
      obtain ⟨ht, hnil, hsize, hops, hrate⟩ := h
      have hlen : ops.length ≠ 0 :=
        fun h0 => hnil (List.eq_nil_of_length_eq_zero h0)
      have hcost : min ops.length (2 ^ 32 - 1) ≠ 0 := by omega
      obtain ⟨th, hth, hne⟩ : ∃ th, ((admitRpc cfg t
          (min ops.length (2 ^ 32 - 1))).run.run (Prim.exec ext none) w).2
            = { w with throttle := th }
          ∧ th.tenant t ≠ w.throttle.tenant t := admitRpc_charged hrate hcost
      rw [batch_unchecked ht hops hsize, hth]
      exact hne
  | get key => exact h.elim
  | put key value ttlMs => exact h.elim
  | delete key => exact h.elim
  | scan userPrefix limit => exact h.elim
  | watch keyPrefix => exact h.elim

/-- A request without authority leaves the node and the tenant's allowance as
they were, and its answer tells nothing of the tenant's data, unless it is a
batch that charges the tenant's limiter with nothing to authorize. -/
theorem forbidden_untouched_iff (ext : Externals) (cfg : NodeConfig)
    (w : World) (claimed : String) (granted : List String) (t : String)
    (req : Request) (h : Forbidden claimed granted t req) :
    (Untouched t w
        (req.serve ext cfg (some (.authenticated claimed granted)) t w).2
      ∧ (req.serve ext cfg (some (.authenticated claimed granted)) t
          w).1.carriesData = false)
      ↔ ¬ ChargesUnchecked cfg w t req := by
  constructor
  · rintro ⟨hsame, -⟩ hcharge
    exact charged_of_unchecked hcharge hsame.allowance
  · intro hcharge
    by_cases hbatch : ∀ ops, req = .batch ops →
        ∃ o ∈ ops, o.op = opPut ∨ o.op = opDelete
    · exact (refused_of_forbidden h hbatch).untouched
    · push Not at hbatch
      obtain ⟨ops, rfl, hops⟩ := hbatch
      refine ⟨batch_unchecked_untouched hops hcharge, ?_⟩
      -- the answer to a batch is a bare acknowledgement
      show ((run _ (Response.done <$> _) w).1).carriesData = false
      rw [run_map]
      rfl

/-- A reader's put is refused without a step. -/
theorem forbidden_untouched_put :
    Untouched "a" (.opened {})
      (Request.serve .plain {} (some (.authenticated "a" [permRead])) "a"
        (.put [1] [2] 0) (.opened {})).2 :=
  ((forbidden_untouched_iff .plain {} (.opened {}) "a" [permRead] "a"
    (.put [1] [2] 0) (.inr ⟨permWrite, by decide, by decide⟩)).mpr
      (fun h => h)).1

end Law

-- ============================================================== a foreigner

/-- One operation with an unknown code. -/
def junkBatch : Request := .batch [⟨7, [1], []⟩]

/-- The node after tenant `u` has sent the batch in the name of `a`. -/
def afterJunk : World :=
  (junkBatch.serve .counting slowConfig (some (.authenticated "u" ["admin"]))
    "a" (.opened slowConfig)).2

/-- A principal of tenant `u` spends the allowance of `a`: the batch is
refused, and `a`'s own read, admitted before it, is refused after it. -/
theorem foreign_batch_spends :
    Forbidden "u" ["admin"] "a" junkBatch
      ∧ ¬ Untouched "a" (.opened slowConfig) afterJunk
      ∧ (Request.serve .counting slowConfig
          (some (.authenticated "a" ["read"])) "a" (.get [1])
          (.opened slowConfig)).1 = .value (.ok none)
      ∧ (Request.serve .counting slowConfig
          (some (.authenticated "a" ["read"])) "a" (.get [1]) afterJunk).1
        = .value (.error (toStatus (.rateLimited "a" 1))) := by
  refine ⟨.inl (by decide), fun h => ?_, by decide +kernel, by decide +kernel⟩
  have hne : afterJunk.throttle.tenant "a"
      ≠ (World.opened slowConfig).throttle.tenant "a" := by decide +kernel
  exact hne h.allowance

end FerrisKv
