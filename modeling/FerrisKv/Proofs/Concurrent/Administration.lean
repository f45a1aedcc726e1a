/-
What concurrent changes of one tenant's quota can lose.

`PUT /quotas/t` reads the cached quota, fills in the fields the request
leaves open, writes the record and caches it; `DELETE` removes the record
and then the cached entry. Nothing holds a lock across these steps. Two
`PUT`s that both read before either writes lose a field, and if their
cache updates come in the other order than their records the cache
disagrees with what the next start will load (`quota_change_lost`).

When a request only begins while no other is between its first step and
its cache update, the requests take effect in the order in which they
begin, and cache and record agree (`quota_changes_in_turn`).
-/
import FerrisKv.Node.Concurrent
import FerrisKv.Node.Grpc
import FerrisKv.Proofs.Node.Overrides

namespace FerrisKv

open Std Prog NodeService

-- ============================================================= the requests

/-- `PUT` and `DELETE` of one tenant's quota. -/
inductive AdminRequest where
  | put (maxBytes maxOpsPerSec : Option Nat)
  | delete
  deriving DecidableEq, Repr

/-- The program of a request. -/
def AdminRequest.prog (ext : Externals) (t : String) :
    AdminRequest → NodeProg (Except AdminError TenantUsage)
  | .put maxBytes maxOpsPerSec =>
      (adminSetQuota ext t maxBytes maxOpsPerSec).run
  | .delete => (adminClearQuota t).run

/-- Requests in progress. -/
abbrev AdminPool := Pool World Prim Prim.Resp (Except AdminError TenantUsage)

/-- All requests are made on `w`. -/
def AdminPool.requests (ext : Externals) (t : String) (w : World)
    (reqs : List AdminRequest) : AdminPool :=
  .ready w (reqs.map (AdminRequest.prog ext t))

/-- The pools the requests can reach, when each step meets `allow`. -/
abbrev AdminPool.Run (ext : Externals)
    (allow : AdminPool → Nat → Prim → Prop) :=
  Pool.Run (Prim.exec ext none) Ticks allow

/-- The pool after request `i` took the step `p` and goes on with `k`. -/
abbrev AdminPool.after (ext : Externals) (pool : AdminPool) (i : Nat)
    (p : Prim) (k : p.Resp → NodeProg (Except AdminError TenantUsage)) :
    AdminPool :=
  Pool.fire (Prim.exec ext none) pool i p k

/-- The requests one after the other. -/
def inTurn (ext : Externals) (t : String) (reqs : List AdminRequest)
    (w : World) : World :=
  reqs.foldl (fun w req =>
    ((req.prog ext t).run (Prim.exec ext none) w).2) w

-- =============================================================== the stages

/-- How far a request has come: it has not begun, it has but has not
updated the cache, it has. -/
inductive AdminStage where
  | waiting
  | inside
  | served
  deriving DecidableEq, Repr

/-- The step updates the cache. -/
def Prim.caches : Prim → Bool
  | .quota (.insertQuota _ _) => true
  | .quota (.removeQuota _) => true
  | _ => false

/-- What a step makes of the stage. -/
def AdminStage.advance (stage : AdminStage) (p : Prim) : AdminStage :=
  if stage = .served ∨ p.caches then .served else .inside

/-- How far request `i` has come. -/
def AdminPool.stage (pool : AdminPool) (i : Nat) : AdminStage :=
  Pool.ghost (fun stage p _ => AdminStage.advance stage p)
    (fun _ => .waiting) pool.log i

/-- A request begins only while no other is inside. -/
def OneAtATime (pool : AdminPool) (i : Nat) (_ : Prim) : Prop :=
  pool.stage i = .waiting →
    ∀ j < pool.threads.length, pool.stage j ≠ .inside

instance (pool : AdminPool) (i : Nat) (p : Prim) :
    Decidable (OneAtATime pool i p) :=
  inferInstanceAs (Decidable (_ → ∀ j < pool.threads.length, _))

-- ============================================================== one request

/-- The quota a `PUT` makes of the current one. -/
def merged (maxBytes maxOpsPerSec : Option Nat) (current : Quota) : Quota :=
  ⟨maxBytes.getD current.maxBytes, maxOpsPerSec.getD current.maxOpsPerSec⟩

/-- The part of the state that quotas live in. -/
abbrev QuotaState := StorageBackend × QuotaStore

/-- What a request does to it. -/
def AdminRequest.change (ext : Externals) (t : String) (s : QuotaState) :
    AdminRequest → QuotaState
  | .put maxBytes maxOpsPerSec =>
      let q := merged maxBytes maxOpsPerSec (s.2.quota t)
      (s.1.put (quotaRecord t) (storedQuota ext q),
        { s.2 with quotas := s.2.quotas.insert t q })
  | .delete =>
      (s.1.delete (quotaRecord t),
        { s.2 with quotas := s.2.quotas.erase t })

/-- That part of a world. -/
def World.quotaState (w : World) : QuotaState := (w.storage, w.quotas)

section Requests

variable {ext : Externals} {t : String} {w : World}

/-- A valid tenant's quota key encodes. -/
theorem encode_quotaKey (ht : KeyCodec.ValidTenant t) :
    KeyCodec.encode t .metadata quotaKey = .ok (quotaRecord t) :=
  KeyCodec.encode_eq_ok.mpr ⟨ht, rfl⟩

theorem validateTenant_ok (ht : KeyCodec.ValidTenant t) :
    validateTenant t = pure () := by
  unfold validateTenant
  rw [if_neg]
  have := ht.1
  have := ht.2
  unfold maxTenantLen at this
  omega

/-- Any other name is refused, with this text. -/
private theorem validateTenant_error (ht : ¬ KeyCodec.ValidTenant t) :
    validateTenant t
      = throw (.badRequest "tenant must be between 1 and 255 bytes") := by
  unfold validateTenant
  rw [if_pos]
  by_contra hno
  exact ht ⟨by omega, by unfold maxTenantLen; omega⟩

/-- A request for a name that is none ends before its first step. -/
theorem prog_of_invalid (ht : ¬ KeyCodec.ValidTenant t)
    (req : AdminRequest) : req.prog ext t
      = .ret (.error (.badRequest "tenant must be between 1 and 255 bytes")) := by
  cases req with
  | put maxBytes maxOpsPerSec =>
      show ExceptT.run (validateTenant t >>= _) = _
      rw [validateTenant_error ht]
      rfl
  | delete =>
      show ExceptT.run (validateTenant t >>= _) = _
      rw [validateTenant_error ht]
      rfl

/-- Served alone, a request is its change. -/
theorem serve_change (ht : KeyCodec.ValidTenant t) (req : AdminRequest) :
    ((req.prog ext t).run (Prim.exec ext none) w).2
      = { w with
          storage := (req.change ext t w.quotaState).1
          quotas := (req.change ext t w.quotaState).2 } := by
  cases req with
  | put maxBytes maxOpsPerSec =>
      show (run _ (ExceptT.run (validateTenant t >>= _)) w).2 = _
      rw [validateTenant_ok ht]
      simp only [mapInternal, NodeService.setQuota, encode_quotaKey ht]
      rfl
  | delete =>
      show (run _ (ExceptT.run (validateTenant t >>= _)) w).2 = _
      rw [validateTenant_ok ht]
      simp only [mapInternal, NodeService.clearQuota, encode_quotaKey ht]
      rfl

-- =========================================================== the discipline

/-- A request's own history: the quota it has read, whether it has written
the record and whether that has failed. -/
structure AdminGhost where
  req : AdminRequest
  stage : AdminStage
  seen : Option Quota
  wrote : Bool
  failed : Bool

/-- The step writes to storage. -/
def Prim.putsRecord : Prim → Bool
  | .storage (.put _ _) => true
  | .storage (.delete _) => true
  | _ => false

/-- The quota the step has read. -/
def Prim.reads : (p : Prim) → p.Resp → Option Quota
  | .quota (.quota _), q => some q
  | _, _ => none

/-- The storage write has failed. -/
def Prim.refused : (p : Prim) → p.Resp → Bool
  | .storage (.put _ _), .error _ => true
  | .storage (.delete _), .error _ => true
  | _, _ => false

def AdminGhost.advance (g : AdminGhost) (p : Prim) (r : p.Resp) :
    AdminGhost where
  req := g.req
  stage := g.stage.advance p
  seen := if g.stage = .waiting then p.reads r else g.seen
  wrote := g.wrote || p.putsRecord
  failed := g.failed || p.refused r

/-- The step a request takes next. -/
def AdminGhost.Takes (ext : Externals) (t : String) (g : AdminGhost)
    (p : Prim) : Prop :=
  match g.stage with
  | .waiting =>
      g.wrote = false ∧ match g.req with
        | .put _ _ => p = .quota (.quota t)
        | .delete => p = .storage (.delete (quotaRecord t))
  | .inside =>
      match g.req with
      | .put maxBytes maxOpsPerSec =>
          ∃ q, g.seen = some q ∧ p =
            if g.wrote then
              .quota (.insertQuota t (merged maxBytes maxOpsPerSec q))
            else .storage (.put (quotaRecord t)
              (storedQuota ext (merged maxBytes maxOpsPerSec q)))
      | .delete => p = .quota (.removeQuota t)
  | .served => p.ReadsQuota

/-- A request changes record and cache by what it asks for, each once, record
first. -/
private theorem prog_takes (ht : KeyCodec.ValidTenant t) (req : AdminRequest) :
    wp (.ghost (AdminGhost.Takes ext t) AdminGhost.advance)
      (fun g _ => g.stage = .served ∨ g.failed = true) (req.prog ext t)
      ⟨req, .waiting, none, false, false⟩ := by
  cases req with
  | put maxBytes maxOpsPerSec =>
      show wp _ _ (ExceptT.run (validateTenant t >>= _)) _
      rw [validateTenant_ok ht]
      simp only [mapInternal, NodeService.setQuota, encode_quotaKey ht]
      refine ⟨⟨rfl, rfl⟩, fun q => ⟨⟨q, rfl, rfl⟩, fun r => ?_⟩⟩
      cases r with
      | error e => exact .inr rfl
      | ok u =>
          refine ⟨⟨q, rfl, rfl⟩, fun _ => ?_⟩
          exact ⟨.inl ⟨t, rfl⟩, fun _ => ⟨.inr ⟨t, rfl⟩, fun _ => .inl rfl⟩⟩
  | delete =>
      show wp _ _ (ExceptT.run (validateTenant t >>= _)) _
      rw [validateTenant_ok ht]
      simp only [mapInternal, NodeService.clearQuota, encode_quotaKey ht]
      refine ⟨⟨rfl, rfl⟩, fun r => ?_⟩
      cases r with
      | error e => exact .inr rfl
      | ok u =>
          refine ⟨rfl, fun _ => ?_⟩
          exact ⟨.inl ⟨t, rfl⟩, fun _ => ⟨.inr ⟨t, rfl⟩, fun _ => .inl rfl⟩⟩

end Requests

-- ================================================================= the runs

section Runs

variable {ext : Externals} {t : String} {w : World}
  {reqs : List AdminRequest} {pool : AdminPool}

/-- Request `i`'s history. -/
def AdminPool.ghost (reqs : List AdminRequest) (pool : AdminPool) (i : Nat) :
    AdminGhost :=
  Pool.ghost AdminGhost.advance
    (fun j => ⟨reqs[j]?.getD .delete, .waiting, none, false, false⟩) pool.log i

private theorem adminGhost_stage (i : Nat) :
    (AdminPool.ghost reqs pool i).stage = pool.stage i :=
  Pool.ghost_proj AdminGhost.stage (fun _ _ _ => rfl) pool.log i

/-- The quota state after the requests of `order`. -/
def changedBy (ext : Externals) (t : String) (reqs : List AdminRequest)
    (s : QuotaState) (order : List Nat) : QuotaState :=
  (order.map fun i => reqs[i]?.getD .delete).foldl
    (fun s req => req.change ext t s) s

/-- The quota state while a request is inside, `s` being the one it found. -/
def AdminGhost.midway (ext : Externals) (t : String) (g : AdminGhost)
    (s : QuotaState) : QuotaState :=
  match g.req with
  | .put maxBytes maxOpsPerSec =>
      if g.wrote then
        (s.1.put (quotaRecord t)
          (storedQuota ext (merged maxBytes maxOpsPerSec (s.2.quota t))), s.2)
      else s
  | .delete => (s.1.delete (quotaRecord t), s.2)

/-- The requests served so far have taken effect one after the other, and
at most one more has begun. -/
structure Serial (ext : Externals) (t : String) (reqs : List AdminRequest)
    (w : World) (pool : AdminPool) (order : List Nat) : Prop where
  nodup : order.Nodup
  served : ∀ i, i ∈ order ↔ pool.stage i = .served
  sound : ∀ i, (AdminPool.ghost reqs pool i).failed = false
  alone : ∀ i j, pool.stage i = .inside → pool.stage j = .inside → i = j
  quiet : (∀ i, pool.stage i ≠ .inside) →
    pool.world.quotaState = changedBy ext t reqs w.quotaState order
  inside : ∀ i, pool.stage i = .inside →
    pool.world.quotaState = (AdminPool.ghost reqs pool i).midway ext t
      (changedBy ext t reqs w.quotaState order)
  seen : ∀ i, pool.stage i = .inside →
    ∀ q, (AdminPool.ghost reqs pool i).seen = some q →
      q = (changedBy ext t reqs w.quotaState order).2.quota t

section Step

variable {i : Nat} {p : Prim} {order : List Nat}
  {k : p.Resp → NodeProg (Except AdminError TenantUsage)}

theorem adminStage_self :
    (pool.after ext i p k).stage i
      = (pool.stage i).advance p := Pool.ghost_snoc_self _ _ _ _

theorem adminStage_ne {j : Nat} (h : i ≠ j) :
    (pool.after ext i p k).stage j = pool.stage j :=
  Pool.ghost_snoc_ne _ h _ _

theorem adminGhost_self :
    AdminPool.ghost reqs (pool.after ext i p k) i
      = (AdminPool.ghost reqs pool i).advance p
        (p.exec ext none pool.world).1 := Pool.ghost_snoc_self _ _ _ _

private theorem adminGhost_ne {j : Nat} (h : i ≠ j) :
    AdminPool.ghost reqs (pool.after ext i p k) j
      = AdminPool.ghost reqs pool j := Pool.ghost_snoc_ne _ h _ _

private theorem adminGhost_req :
    (AdminPool.ghost reqs pool i).req = reqs[i]?.getD .delete := by
  unfold AdminPool.ghost
  induction pool.log using List.reverseRecOn with
  | nil => rfl
  | append_singleton log e ih =>
      rw [Pool.ghost_snoc]
      split <;> exact ih

private theorem changedBy_snoc (s : QuotaState) :
    changedBy ext t reqs s (order ++ [i])
      = (reqs[i]?.getD .delete).change ext t (changedBy ext t reqs s order) := by
  unfold changedBy
  rw [List.map_append, List.foldl_append]
  rfl

/-- A storage call of a node without faults does not fail. -/
theorem refused_exec (p : Prim) (w : World) :
    p.refused (p.exec ext none w).1 = false := by
  cases p with
  | storage q => cases q <;> rfl
  | _ => rfl

/-- No step of a run without faults fails. -/
theorem Serial.sound_fire (h : Serial ext t reqs w pool order) (j : Nat) :
    (AdminPool.ghost reqs (pool.after ext i p k) j).failed
      = false := by
  by_cases hij : i = j
  · subst hij
    rw [adminGhost_self]
    show ((AdminPool.ghost reqs pool i).failed || _) = false
    rw [h.sound i, refused_exec]
    rfl
  · rw [adminGhost_ne hij]
    exact h.sound j

/-- A request that goes on, or begins while nobody is inside. -/
theorem Serial.enter (h : Serial ext t reqs w pool order)
    (hfree : ∀ j, pool.stage j = .inside → j = i)
    (hopen : pool.stage i ≠ .served) (hp : p.caches = false)
    (hstate : (p.exec ext none pool.world).2.quotaState
      = ((AdminPool.ghost reqs pool i).advance p
        (p.exec ext none pool.world).1).midway ext t
        (changedBy ext t reqs w.quotaState order))
    (hseen : ∀ q, ((AdminPool.ghost reqs pool i).advance p
        (p.exec ext none pool.world).1).seen = some q →
      q = (changedBy ext t reqs w.quotaState order).2.quota t) :
    Serial ext t reqs w (pool.after ext i p k) order := by
  have hself : (pool.after ext i p k).stage i = .inside := by
    rw [adminStage_self, AdminStage.advance, if_neg]
    rw [hp]
    exact fun ho => ho.elim hopen nofun
  have honly : ∀ j, (pool.after ext i p k).stage j = .inside →
      j = i := by
    intro j hj
    by_contra hne
    rw [adminStage_ne (Ne.symm hne)] at hj
    exact hne (hfree j hj)
  refine ⟨h.nodup, fun j => ?_, h.sound_fire, fun j j' hj hj' => ?_,
    fun hno => absurd hself (hno i), fun j hj => ?_, fun j hj => ?_⟩
  · by_cases hij : i = j
    · subst hij
      rw [h.served, hself]
      exact ⟨fun hs => absurd hs hopen, nofun⟩
    · rw [adminStage_ne hij]
      exact h.served j
  · rw [honly j hj, honly j' hj']
  · rw [honly j hj, adminGhost_self]
    exact hstate
  · rw [honly j hj, adminGhost_self]
    exact hseen

/-- The request inside updates the cache. -/
theorem Serial.leave (h : Serial ext t reqs w pool order)
    (hin : pool.stage i = .inside) (hp : p.caches = true)
    (hstate : (p.exec ext none pool.world).2.quotaState
      = (reqs[i]?.getD .delete).change ext t
        (changedBy ext t reqs w.quotaState order)) :
    Serial ext t reqs w (pool.after ext i p k)
      (order ++ [i]) := by
  have hself : (pool.after ext i p k).stage i = .served := by
    rw [adminStage_self, AdminStage.advance, if_pos (.inr hp)]
  have hnone : ∀ j, (pool.after ext i p k).stage j
      ≠ .inside := by
    intro j hj
    by_cases hij : i = j
    · subst hij
      rw [hself] at hj
      cases hj
    · rw [adminStage_ne hij] at hj
      exact hij (h.alone i j hin hj)
  refine ⟨?_, fun j => ?_, h.sound_fire, fun j _ hj => absurd hj (hnone j),
    fun _ => ?_, fun j hj => absurd hj (hnone j),
    fun j hj => absurd hj (hnone j)⟩
  · refine List.nodup_append'.mpr ⟨h.nodup, List.nodup_singleton i, ?_⟩
    intro j hj hi
    rw [List.mem_singleton.mp hi, h.served, hin] at hj
    cases hj
  · rw [List.mem_append, List.mem_singleton]
    by_cases hij : i = j
    · subst hij
      exact ⟨fun _ => hself, fun _ => .inr rfl⟩
    · rw [adminStage_ne hij, h.served]
      exact ⟨fun hj => hj.resolve_right fun he => hij he.symm, .inl⟩
  · rw [changedBy_snoc]
    exact hstate

/-- A request that has been served only looks. -/
theorem Serial.look (h : Serial ext t reqs w pool order)
    (hout : pool.stage i = .served)
    (hp : (p.exec ext none pool.world).2 = pool.world) :
    Serial ext t reqs w (pool.after ext i p k) order := by
  have hstage : ∀ j, (pool.after ext i p k).stage j
      = pool.stage j := by
    intro j
    by_cases hij : i = j
    · subst hij
      rw [adminStage_self, AdminStage.advance, if_pos (.inl hout), hout]
    · exact adminStage_ne hij
  have hghost : ∀ j, pool.stage j = .inside →
      AdminPool.ghost reqs (pool.after ext i p k) j
        = AdminPool.ghost reqs pool j := by
    intro j hj
    refine adminGhost_ne ?_
    rintro rfl
    rw [hout] at hj
    cases hj
  have hworld : (pool.after ext i p k).world
      = pool.world := hp
  refine ⟨h.nodup, fun j => ?_, h.sound_fire, fun j j' hj hj' => ?_,
    fun hno => ?_, fun j hj => ?_, fun j hj => ?_⟩
  · rw [hstage]
    exact h.served j
  · rw [hstage] at hj hj'
    exact h.alone j j' hj hj'
  · rw [hworld]
    exact h.quiet fun j => hstage j ▸ hno j
  · rw [hstage] at hj
    rw [hworld, hghost j hj]
    exact h.inside j hj
  · rw [hstage] at hj
    rw [hghost j hj]
    exact h.seen j hj

/-- One step of one request. -/
theorem Serial.step (h : Serial ext t reqs w pool order)
    (halone : pool.stage i = .waiting → ∀ j, pool.stage j ≠ .inside)
    (htakes : (AdminPool.ghost reqs pool i).Takes ext t p) :
    ∃ order', Serial ext t reqs w (pool.after ext i p k) order' := by
  have hstage : (AdminPool.ghost reqs pool i).stage = _ := adminGhost_stage i
  have hreq : (AdminPool.ghost reqs pool i).req = _ := adminGhost_req
  have hseen := h.seen i
  have hinside := h.inside i
  generalize hg : AdminPool.ghost reqs pool i = g at *
  obtain ⟨req, stage, seen, wrote, failed⟩ := g
  cases stage with
  | waiting =>
      -- it comes in: whoever is inside would have to leave first, so the
      -- state is that of the requests already served
      have hfree := halone hstage.symm
      have hstate := h.quiet hfree
      obtain ⟨rfl, htakes⟩ : wrote = false ∧ _ := htakes
      refine ⟨order, h.enter (fun j hj => absurd hj (hfree j))
        (by rw [← hstage]; exact nofun) ?_ ?_ ?_⟩
      · cases req <;> cases htakes <;> rfl
      · rw [hg]
        cases req with
        | put maxBytes maxOpsPerSec =>
            cases htakes
            exact hstate
        | delete =>
            cases htakes
            rw [← hstate]
            rfl
      · rw [hg]
        cases req with
        | put maxBytes maxOpsPerSec =>
            cases htakes
            rw [← hstate]
            rintro q ⟨⟩
            rfl
        | delete =>
            cases htakes
            exact nofun
  | inside =>
      -- it is inside and so alone: the quota it has seen is still the current
      -- one
      have hstate := hinside hstage.symm
      have hfree : ∀ j, pool.stage j = .inside → j = i := fun j hj =>
        h.alone j i hj hstage.symm
      cases req with
      | put maxBytes maxOpsPerSec =>
          obtain ⟨q, hq, htakes⟩ := htakes
          have hq : seen = some q := hq
          subst hq
          have hcurrent := hseen hstage.symm q rfl
          cases wrote with
          | false =>
              -- the record first; the cache is behind until the next step
              have htakes : p = .storage (.put (quotaRecord t)
                (storedQuota ext (merged maxBytes maxOpsPerSec q))) := htakes
              subst htakes
              refine ⟨order, h.enter hfree (by rw [← hstage]; exact nofun)
                rfl ?_ ?_⟩
              · have hstorage := congrArg Prod.fst hstate
                have hquotas := congrArg Prod.snd hstate
                rw [hg, hcurrent]
                exact Prod.ext (congrArg (StorageBackend.put · _ _) hstorage)
                  hquotas
              · rw [hg]
                exact hseen hstage.symm
          | true =>
              -- then the cache, which ends the request and puts it last in
              -- the order
              have htakes : p = .quota (.insertQuota t
                (merged maxBytes maxOpsPerSec q)) := htakes
              subst htakes
              refine ⟨order ++ [i], h.leave hstage.symm rfl ?_⟩
              have hstorage := congrArg Prod.fst hstate
              have hquotas := congrArg Prod.snd hstate
              rw [← hreq, hcurrent]
              exact Prod.ext hstorage (congrArg (fun s =>
                (QuotaPrim.exec (.insertQuota t _) s).2) hquotas)
      | delete =>
          have htakes : p = .quota (.removeQuota t) := htakes
          subst htakes
          refine ⟨order ++ [i], h.leave hstage.symm rfl ?_⟩
          have hstorage := congrArg Prod.fst hstate
          have hquotas := congrArg Prod.snd hstate
          rw [← hreq]
          exact Prod.ext hstorage (congrArg (fun s =>
            (QuotaPrim.exec (.removeQuota t) s).2) hquotas)
  | served =>
      -- what is left of a request only reads
      refine ⟨order, h.look hstage.symm ?_⟩
      obtain ⟨t', rfl⟩ | ⟨t', rfl⟩ : p.ReadsQuota := htakes
      · rfl
      · rfl

end Step

variable {allow : AdminPool → Nat → Prim → Prop}

theorem stage_of_length_le
    (h : AdminPool.Run ext allow (AdminPool.requests ext t w reqs) pool)
    {j : Nat} (hj : reqs.length ≤ j) : pool.stage j = .waiting := by
  refine Pool.ghost_of_idle fun e he heq => ?_
  have hlt := h.tid_lt e he
  rw [List.length_map] at hlt
  omega

/-- Every request, wherever it is, keeps to that. -/
private theorem takes_run (ht : KeyCodec.ValidTenant t)
    (h : AdminPool.Run ext allow (AdminPool.requests ext t w reqs) pool) :
    ∀ i x, pool.threads[i]? = some x →
      wp (.ghost (AdminGhost.Takes ext t) AdminGhost.advance)
        (fun g _ => g.stage = .served ∨ g.failed = true) x
        (AdminPool.ghost reqs pool i) := by
  refine h.discipline
    (Q := fun _ (g : AdminGhost) _ => g.stage = .served ∨ g.failed = true)
    fun j x hx => ?_
  rw [List.getElem?_map] at hx
  obtain ⟨req, hreq, rfl⟩ := Option.map_eq_some_iff.mp hx
  rw [hreq]
  exact prog_takes ht req

/-- Where requests are let in one at a time, the state is that of the requests
served so far, in some order. -/
private theorem serial_run (ht : KeyCodec.ValidTenant t)
    (h : AdminPool.Run ext OneAtATime (AdminPool.requests ext t w reqs) pool) :
    ∃ order, Serial ext t reqs w pool order := by
  induction h with
  | start =>
      exact ⟨[], List.nodup_nil, fun i => ⟨nofun, nofun⟩, fun i => rfl, nofun,
        fun _ => rfl, nofun, nofun⟩
  | @step pool i p k hrun hi hallow ih =>
      obtain ⟨order, hserial⟩ := ih
      refine hserial.step (fun hw j => ?_) (takes_run ht hrun i _ hi).1
      by_cases hj : j < pool.threads.length
      · exact hallow hw j hj
      · rw [hrun.length, AdminPool.requests, Pool.ready, List.length_map] at hj
        rw [stage_of_length_le hrun (Nat.le_of_not_lt hj)]
        exact nofun
  | env hrun he ih =>
      obtain ⟨order, hserial⟩ := ih
      obtain ⟨now, instant, -, rfl⟩ := he
      exact ⟨order, hserial.nodup, hserial.served, hserial.sound,
        hserial.alone, hserial.quiet, hserial.inside, hserial.seen⟩

/-- Once all have returned, all have been served. -/
theorem Serial.all_served (hs : Serial ext t reqs w pool order)
    (ht : KeyCodec.ValidTenant t)
    (h : AdminPool.Run ext allow (AdminPool.requests ext t w reqs) pool)
    (hall : ∀ i < reqs.length, pool.result i ≠ none) (i : Nat)
    (hi : i < reqs.length) : pool.stage i = .served := by
  obtain ⟨r, hr⟩ := Option.ne_none_iff_exists'.mp (hall i hi)
  have hdone := takes_run ht h i _ (Pool.result_eq_some.mp hr)
  rcases (wp_ret _ _).mp hdone with hserved | hfailed
  · rwa [adminGhost_stage] at hserved
  · rw [hs.sound i] at hfailed
    cases hfailed

private theorem inTurn_cons (req : AdminRequest) (rest : List AdminRequest)
    (w : World) : inTurn ext t (req :: rest) w
      = inTurn ext t rest ((req.prog ext t).run (Prim.exec ext none) w).2 :=
  rfl

/-- Served one after the other, requests change the state one after the other.
-/
private theorem inTurn_quotaState (ht : KeyCodec.ValidTenant t) :
    ∀ (reqs : List AdminRequest) (w : World),
      (inTurn ext t reqs w).quotaState
        = reqs.foldl (fun s req => req.change ext t s) w.quotaState := by
  intro reqs
  induction reqs with
  | nil => exact fun w => rfl
  | cons req rest ih =>
      intro w
      rw [inTurn_cons, ih, serve_change ht]
      rfl

/-- Requests for a name that is none do nothing, together or in turn. -/
theorem run_of_invalid (ht : ¬ KeyCodec.ValidTenant t)
    (h : AdminPool.Run ext allow (AdminPool.requests ext t w reqs) pool) :
    pool.threads = reqs.map (AdminRequest.prog ext t)
      ∧ pool.world.quotaState = w.quotaState := by
  induction h with
  | start => exact ⟨rfl, rfl⟩
  | step hrun hi hallow ih =>
      rw [ih.1, List.getElem?_map] at hi
      obtain ⟨req, -, hreq⟩ := Option.map_eq_some_iff.mp hi
      rw [prog_of_invalid ht] at hreq
      cases hreq
  | env hrun he ih =>
      obtain ⟨now, instant, -, rfl⟩ := he
      exact ih

/-- An invalid name changes nothing. -/
private theorem inTurn_of_invalid (ht : ¬ KeyCodec.ValidTenant t)
    (reqs : List AdminRequest) (w : World) : inTurn ext t reqs w = w := by
  induction reqs with
  | nil => rfl
  | cons req rest ih =>
      rw [inTurn_cons, prog_of_invalid ht]
      exact ih

/-- Some order of the requests, one after the other, has the outcome. -/
theorem exists_order
    (h : AdminPool.Run ext OneAtATime (AdminPool.requests ext t w reqs) pool)
    (hall : ∀ i < reqs.length, pool.result i ≠ none) :
    ∃ order : List AdminRequest, order.Perm reqs
      ∧ pool.world.quotaState = (inTurn ext t order w).quotaState := by
  by_cases ht : KeyCodec.ValidTenant t
  · obtain ⟨order, hserial⟩ := serial_run ht h
    have hserved := hserial.all_served ht h hall
    have hquiet : ∀ j, pool.stage j ≠ .inside := by
      intro j
      by_cases hj : j < reqs.length
      · rw [hserved j hj]
        exact nofun
      · rw [stage_of_length_le h (Nat.le_of_not_lt hj)]
        exact nofun
    refine ⟨order.map fun i => reqs[i]?.getD .delete, ?_, ?_⟩
    · have hperm : order.Perm (List.range reqs.length) := by
        refine (List.perm_ext_iff_of_nodup hserial.nodup
          List.nodup_range).mpr fun i => ?_
        rw [hserial.served, List.mem_range]
        refine ⟨fun hi => ?_, hserved i⟩
        by_contra hge
        rw [stage_of_length_le h (Nat.le_of_not_lt hge)] at hi
        cases hi
      refine (hperm.map _).trans (List.Perm.of_eq ?_)
      refine List.ext_getElem (by simp) fun i hi hi' => ?_
      simp [hi']
    · rw [inTurn_quotaState ht]
      exact hserial.quiet hquiet
  -- an invalid tenant's requests are all refused, so any order will do
  · refine ⟨reqs, .refl reqs, ?_⟩
    rw [inTurn_of_invalid ht]
    exact (run_of_invalid ht h).2

-- ============================================================ cache and record

/-- A request keeps records and cache in agreement. -/
theorem QuotaSound.serve {cfg : NodeConfig} (h : QuotaSound ext cfg w)
    (req : AdminRequest) :
    QuotaSound ext cfg ((req.prog ext t).run (Prim.exec ext none) w).2 := by
  by_cases ht : KeyCodec.ValidTenant t
  · rw [serve_change ht]
    cases req with
    | put maxBytes maxOpsPerSec =>
        have hset := h.setQuota t (merged maxBytes maxOpsPerSec
          (w.quotas.quota t))
        simp only [NodeService.setQuota, encode_quotaKey ht] at hset
        exact hset
    | delete =>
        have hclear := h.clearQuota t
        simp only [NodeService.clearQuota, encode_quotaKey ht] at hclear
        exact hclear
  · rw [prog_of_invalid ht]
    exact h

/-- So do any number of them, one after the other. -/
theorem QuotaSound.inTurn {cfg : NodeConfig} :
    ∀ (reqs : List AdminRequest) {w : World}, QuotaSound ext cfg w →
      QuotaSound ext cfg (inTurn ext t reqs w) := by
  intro reqs
  induction reqs with
  | nil => exact fun h => h
  | cons req rest ih => exact fun h => ih (h.serve req)

/-- What `load_quotas` reads is what is cached, where the cache is on
record. -/
theorem loadQuotas_cached
    (hserde : ∀ q, ext.quotaFromSlice (ext.quotaToVec q) = some q)
    (hrec : Recorded ext w) :
    ∃ n w', (loadQuotas ext).run.run (Prim.exec ext none) w = (.ok n, w')
      ∧ ∀ t, w'.quotas.quota t = w.quotas.quota t := by
  have hform : ∀ k raw, IsQuotaRecord k → w.storage.contents[k]? = some raw →
      ∃ q, raw = storedQuota ext q := by
    intro k raw hk hraw
    obtain ⟨t, ht, rfl⟩ := isQuotaRecord_iff.mp hk
    rw [hrec.stored t ht] at hraw
    obtain ⟨q, -, hq⟩ := Option.map_eq_some_iff.mp hraw
    exact ⟨q, hq.symm⟩
  obtain ⟨⟨n, hn⟩, after, hw', hrec'⟩ :=
    run_post (loadQuotas_recorded hserde hform)
  refine ⟨n, _, Prod.ext hn rfl, fun t => ?_⟩
  have hover := hrec'.agree hserde hrec (t := t) fun t _ => by rw [hw']
  have hdefault := congrArg (fun w : World => w.quotas.defaultQuota) hw'
  exact congrArg₂ Option.getD hover hdefault

end Runs

-- ================================================================== results

/-- When no request begins while another is inside, then once all have
returned what `load_quotas` would read is what is cached, and storage and
cache are as after some order of the requests, one after the other. -/
theorem quota_changes_in_turn (ext : Externals)
    (hserde : ∀ q, ext.quotaFromSlice (ext.quotaToVec q) = some q)
    (cfg : NodeConfig) (w : World) (hw : QuotaRun ext cfg w) (t : String)
    (reqs : List AdminRequest) {pool : AdminPool}
    (h : AdminPool.Run ext OneAtATime (AdminPool.requests ext t w reqs) pool)
    (hall : ∀ i < reqs.length, pool.result i ≠ none) :
    (∃ n w', (loadQuotas ext).run.run (Prim.exec ext none) pool.world
        = (.ok n, w')
      ∧ w'.quotas.quota t = pool.world.quotas.quota t)
    ∧ ∃ order : List AdminRequest, order.Perm reqs
      ∧ pool.world.storage = (inTurn ext t order w).storage
      ∧ pool.world.quotas = (inTurn ext t order w).quotas := by
  obtain ⟨order, hperm, hstate⟩ := exists_order h hall
  have hstorage : pool.world.storage = (inTurn ext t order w).storage :=
    congrArg Prod.fst hstate
  have hquotas : pool.world.quotas = (inTurn ext t order w).quotas :=
    congrArg Prod.snd hstate
  have hrec : Recorded ext pool.world := by
    obtain ⟨hvalid, hstored⟩ :=
      (QuotaSound.inTurn (t := t) order (hw.sound hserde)).recorded
    rw [← hquotas] at hvalid hstored
    rw [← hstorage] at hstored
    exact ⟨hvalid, hstored⟩
  obtain ⟨n, w', hload, hsame⟩ := loadQuotas_cached hserde hrec
  exact ⟨⟨n, w', hload, hsame t⟩, order, hperm, hstorage, hquotas⟩

/-- A node that has just come up. -/
def plainNode : World :=
  ((NodeService.open .json).run.run (Prim.exec .json none)
    (.fresh {} 0 0)).2

/-- One request sets one field, one the other. -/
def bothFields : List AdminRequest := [.put (some 5) none, .put none (some 3)]

/-- One after the other: both fields are set, in the cache and on record. -/
theorem quota_changes_in_turn_both :
    ∃ pool : AdminPool, (∀ i < 2, pool.result i ≠ none)
      ∧ pool.world.quotas.quota "a" = ⟨5, 3⟩
      ∧ ∃ n w', (loadQuotas .json).run.run (Prim.exec .json none) pool.world
          = (.ok n, w') ∧ w'.quotas.quota "a" = ⟨5, 3⟩ := by
  have hrun : AdminPool.Run .json OneAtATime
      (AdminPool.requests .json "a" plainNode bothFields) _ :=
    Pool.run_play [0, 0, 0, 1, 0, 1, 1, 0, 1, 1] (by decide +kernel)
  have hall : ∀ i < 2, Pool.result (Pool.play (Prim.exec .json none)
      [0, 0, 0, 1, 0, 1, 1, 0, 1, 1]
      (AdminPool.requests .json "a" plainNode bothFields)) i ≠ none := by
    decide +kernel
  obtain ⟨⟨n, w', hload, hsame⟩, -⟩ := quota_changes_in_turn .json
    json_round_trip {} plainNode ⟨0, 0, .refl⟩ "a" bothFields hrun hall
  refine ⟨_, hall, by decide +kernel, n, w', hload, hsame.trans ?_⟩
  decide +kernel

/-- Both read before either writes, and the caches are updated in the other
order than the records. -/
def crossed : AdminPool :=
  Pool.play (Prim.exec .json none) [0, 1, 0, 1, 1, 0, 0, 0, 1, 1]
    (AdminPool.requests .json "a" plainNode bothFields)

/-- Both requests have returned: the cache has one field, the record the
other, and in either order they would have set both. -/
theorem quota_change_lost :
    AdminPool.Run .json (fun _ _ _ => True)
        (AdminPool.requests .json "a" plainNode bothFields) crossed
      ∧ (∀ i < 2, crossed.result i ≠ none)
      ∧ crossed.world.quotas.quota "a" = ⟨5, 0⟩
      ∧ ((loadQuotas .json).run.run (Prim.exec .json none)
          crossed.world).2.quotas.quota "a" = ⟨0, 3⟩
      ∧ ∀ order : List AdminRequest, order.Perm bothFields →
        (inTurn .json "a" order plainNode).quotas.quota "a" = ⟨5, 3⟩ := by
  refine ⟨Pool.run_play _ (Pool.allowed_of_forall (fun _ _ _ => trivial) _ _),
    by decide +kernel, by decide +kernel, by decide +kernel,
    fun order hperm => ?_⟩
  have hboth : ∀ order ∈ bothFields.permutations',
      (inTurn .json "a" order plainNode).quotas.quota "a" = ⟨5, 3⟩ := by
    decide +kernel
  exact hboth order (List.mem_permutations'.mpr hperm)

end FerrisKv
