/-
A batch is its operations, one after the other.

`batch_impl` has its own path to the service: one check of the tenant and
the permissions, one charge to the limiter, and a loop that does not look
up what it deletes. For a caller with both permissions and no rate limit
it comes to what single `Put` and `Delete` requests in the same order
would do, up to the first that fails (`batch_in_turn`): the same answer
and the same node, its log, counters and watchers included. In particular
a batch that fails has done exactly what stands before the failure.

The paths part where an entry does not decode: `Delete` reads it first and
answers with an error, and the node the two are compared on has none. The
induction carries that (`Unhindered`), since what a batch writes decodes.
-/
import FerrisKv.Proofs.Node.Limits
import FerrisKv.Proofs.Node.ScanExact

namespace FerrisKv

open Prog NodeService WriteLog

-- ================================================================ the turns

/-- Whether a request was served. -/
def Response.status : Response → Except Status Unit
  | .value r => r.map fun _ => ()
  | .done r => r
  | .deleted r => r.map fun _ => ()
  | .chunks r => r.map fun _ => ()
  | .watching r => r.map fun _ => ()

/-- The request a client would make instead. -/
def BatchOp.request (o : BatchOp) : Request :=
  if o.op = opPut then .put o.key o.value 0 else .delete o.key

/-- One request for each operation, up to the first that fails. -/
def requestsInTurn (ext : Externals) (cfg : NodeConfig) (principal : Option Principal)
    (t : String) : List BatchOp → World → Except Status Unit × World
  | [], w => (.ok (), w)
  | o :: rest, w =>
      let out := o.request.serve ext cfg principal t w
      match out.1.status with
      | .ok _ => requestsInTurn ext cfg principal t rest out.2
      | .error st => (.error st, out.2)

-- ============================================================== no hindrance

/-- Every stored entry decodes. -/
def Decodes (m : Table) : Prop :=
  ∀ k raw, IsData k → m[k]? = some raw → ∃ sv, ValueCodec.decode raw = .ok sv

/-- The caller may write and delete, nobody counts its requests, and what
is stored can be read. -/
structure Unhindered (cfg : NodeConfig) (principal : Option Principal)
    (t : String) (w : World) : Prop where
  tenant : checkTenant t = .ok ()
  write : authorize principal t permWrite = .ok ()
  delete : authorize principal t permDelete = .ok ()
  rate : (w.quotas.quota t).maxOpsPerSec = 0
  default : cfg.quota.maxOpsPerSec = 0
  decodes : Decodes w.storage.contents

section Steps

variable {ext : Externals} {cfg : NodeConfig} {principal : Option Principal}
  {t : String} {w : World}

private theorem run_keepsLimits {α : Type} {x : NodeProg α}
    (hx : x.Uses Prim.KeepsLimits) (w : World) :
    (x.run (Prim.exec ext none) w).2.quotas.quota = w.quotas.quota := by
  have hwp : wp (.handler (Prim.exec ext none))
      (fun w' _ => w'.quotas.quota = w.quotas.quota) x w := by
    refine wp_of_uses (I := fun w' : World => w'.quotas.quota = w.quotas.quota)
      ?_ (fun _ _ h => h) hx rfl
    intro g p hg hp
    exact (hp.exec ext g).trans hg
  exact run_post hwp

theorem Prim.Looks.keepsLimits {p : Prim} (h : p.Looks) : p.KeepsLimits := by
  obtain ⟨key, hp⟩ := h
  rw [hp]
  exact trivial

theorem Prim.ReadsQuota.keepsLimits {p : Prim} (h : p.ReadsQuota) :
    p.KeepsLimits := by
  rcases h with ⟨t, hp⟩ | ⟨t, hp⟩ <;> rw [hp] <;> exact trivial

theorem Prim.Schedules.keepsLimits {p : Prim} (h : p.Schedules) :
    p.KeepsLimits := by
  rcases h with ⟨k, e, hp⟩ | hp <;> rw [hp] <;> exact trivial

theorem Prim.Settles.keepsLimits {p : Prim} (h : p.Settles) :
    p.KeepsLimits := by
  obtain (⟨t, d, hp⟩ | ⟨t, k, v, hk, hp⟩) | ⟨q, hp⟩
    | (hp | hp | hp | hp) := h
  all_goals
    rw [hp]
    exact trivial

/-- A put does. -/
private theorem putWithTtl_keepsLimits (k v : Bytes) (ttlMs : Nat) :
    (putWithTtl cfg k v ttlMs).run.Uses Prim.KeepsLimits := by
  unfold putWithTtl
  refine uses_bindE (uses_lift ((expiryStamp_uses ttlMs).mono
    fun _ hp => hp ▸ trivial)) fun exp => ?_
  refine uses_bindE ((planAccounting_uses k v.length).mono
    fun _ hp => hp.keepsLimits) fun plan => ?_
  refine uses_bindE ((checkAccounting_uses plan).mono
    fun _ hp => hp.keepsLimits) fun _ => ?_
  refine uses_bindE ⟨trivial, fun _ => trivial⟩ fun _ => ?_
  refine uses_bindE ⟨trivial, fun _ => trivial⟩ fun _ => ?_
  refine uses_bindE (uses_lift ((scheduleExpiry_uses k exp).mono
    fun _ hp => hp.keepsLimits)) fun _ => ?_
  exact (settle_uses plan k v .put cfg).mono fun _ hp => hp.keepsLimits

private theorem delete_keepsLimits (k : Bytes) :
    (NodeService.delete cfg k).run.Uses Prim.KeepsLimits := by
  unfold NodeService.delete
  refine uses_bindE ((planDeleteAccounting_uses k).mono
    fun _ hp => hp.keepsLimits) fun plan => ?_
  refine uses_bindE ⟨trivial, fun _ => trivial⟩ fun _ => ?_
  refine uses_bindE ⟨trivial, fun _ => trivial⟩ fun _ => ?_
  exact (settle_uses plan k [] .delete cfg).mono fun _ hp => hp.keepsLimits

/-- So does an operation of a batch. -/
private theorem batchOp_keepsLimits (o : BatchOp) :
    (batchOp cfg t o).run.Uses Prim.KeepsLimits := by
  unfold batchOp
  refine uses_bindE trivial fun _ => uses_bindE trivial fun _ =>
    uses_bindE trivial fun k => ?_
  by_cases hput : o.op = opPut
  · rw [if_pos hput]
    exact uses_bind (putWithTtl_keepsLimits k o.value 0) fun _ => trivial
  · rw [if_neg hput]
    by_cases hdelete : o.op = opDelete
    · rw [if_pos hdelete]
      exact uses_bind (delete_keepsLimits k) fun _ => trivial
    · rw [if_neg hdelete]
      exact trivial

/-- What an encoder wrote, a decoder reads. -/
theorem decode_of_encode (value : Bytes) (exp : Option Nat) :
    ∃ sv, ValueCodec.decode (ValueCodec.encode value exp) = .ok sv := by
  cases exp with
  | none => exact ⟨_, rfl⟩
  | some e =>
      unfold ValueCodec.encode ValueCodec.decode
      simp only
      rw [if_neg (by decide), if_pos trivial, if_neg (by simp)]
      exact ⟨_, rfl⟩

/-- A turn of the batch leaves nothing that does not decode. -/
theorem batchOp_decodes (o : BatchOp) (h : Decodes w.storage.contents) :
    Decodes ((batchOp cfg t o).run.run (Prim.exec ext none) w).2.storage.contents := by
  have hserved : Session.Served ext (batchOp cfg t o).run w _ _ :=
    Session.served_run _ w
  obtain ⟨new, ⟨_, hlog, hnew⟩, hdata⟩ := ends_noted hserved
    (wp_batchOp_sized o (sized_refl cfg.limits []))
  rw [List.nil_append, List.nil_append] at hlog
  subst hlog
  have hsince := ((withinSince_refl cfg.limits w.storage.contents).applyAll
    hnew).same hdata
  intro k raw hk hraw
  rcases hsince k raw hk hraw with hold | ⟨-, -, value, exp, -, he, -, -⟩
  · exact h k raw hk hold
  · rw [he]
    exact decode_of_encode value exp

/-- Who was not hindered is not, one operation later. -/
theorem Unhindered.after (h : Unhindered cfg principal t w) (o : BatchOp) :
    Unhindered cfg principal t
      ((batchOp cfg t o).run.run (Prim.exec ext none) w).2 where
  tenant := h.tenant
  write := h.write
  delete := h.delete
  rate := by
    rw [run_keepsLimits (batchOp_keepsLimits o)]
    exact h.rate
  default := h.default
  decodes := batchOp_decodes o h.decodes

end Steps

-- ================================================================= the paths

section Paths

variable {ext : Externals} {cfg : NodeConfig} {principal : Option Principal}
  {t : String} {w : World}

/-- A check that passes. -/
theorem run_ofCheck {α β : Type} {c : Except Status α} {a : α} (hc : c = .ok a)
    (f : α → GrpcM β) :
    (ExceptT.run (ofCheck c >>= f)).run (Prim.exec ext none) w
      = (f a).run.run (Prim.exec ext none) w := by
  rw [hc]
  rfl

/-- Nobody counts the requests. -/
theorem run_admitRpc (hrate : (w.quotas.quota t).maxOpsPerSec = 0)
    (hdefault : cfg.quota.maxOpsPerSec = 0) (cost : Nat) :
    (admitRpc cfg t cost).run.run (Prim.exec ext none) w = (.ok (), w) := by
  have hquota : (quotaOf t).run (Prim.exec ext none) w = (w.quotas.quota t, w) :=
    rfl
  have hcheck : throttleCheck cfg t 0 cost = pure () := by
    unfold throttleCheck
    rw [if_neg (Nat.lt_irrefl 0), if_pos (.inl hdefault)]
  have hadmit : (admitOps cfg t cost).run.run (Prim.exec ext none) w
      = (.ok (), w) := by
    unfold admitOps
    rw [run_bindE, run_lift, hquota]
    show (throttleCheck cfg t (w.quotas.quota t).maxOpsPerSec cost).run.run _ w = _
    rw [hrate, hcheck]
    rfl
  show ((admitOps cfg t cost).run >>= _).run _ w = _
  rw [run_bind, hadmit]
  rfl

/-- Who is not hindered enters without a trace. -/
private theorem Unhindered.run_enter (h : Unhindered cfg principal t w)
    {perm : String}
    (hperm : authorize principal t perm = .ok ()) {β : Type} (f : Unit → GrpcM β) :
    (ExceptT.run (enter cfg principal t perm >>= f)).run (Prim.exec ext none) w
      = (f ()).run.run (Prim.exec ext none) w := by
  have henter : (enter cfg principal t perm).run.run (Prim.exec ext none) w
      = (.ok (), w) := by
    unfold enter
    rw [run_ofCheck h.tenant, run_ofCheck hperm]
    exact run_admitRpc h.rate h.default 1
  rw [run_bindE, henter]

/-- `Put` is the batch's put. -/
theorem Unhindered.serve_put (h : Unhindered cfg principal t w)
    (key value : Bytes) :
    (Request.put key value 0).serve ext cfg principal t w
      = (.done ((batchOp cfg t ⟨opPut, key, value⟩).run.run
          (Prim.exec ext none) w).1,
        ((batchOp cfg t ⟨opPut, key, value⟩).run.run
          (Prim.exec ext none) w).2) := by
  show (Response.done <$> (putImpl cfg principal t key value 0).run).run _ w = _
  rw [run_map]
  have hsame : (putImpl cfg principal t key value 0).run.run
      (Prim.exec ext none) w
        = (batchOp cfg t ⟨opPut, key, value⟩).run.run (Prim.exec ext none) w :=
    h.run_enter h.write _
  rw [hsame]

/-- A `get` changes nothing. -/
theorem run_get_world (k : Bytes) :
    ((NodeService.get k).run.run (Prim.exec ext none) w).2 = w := by
  have hwp : wp (.handler (Prim.exec ext none)) (fun w' _ => w' = w)
      (NodeService.get k).run w := by
    refine wp_of_uses (I := fun w' => w' = w) (fun g p hg hp => ?_)
      (fun _ _ h => h) (get_uses_of k) rfl
    rcases hp with hp | hp <;> subst hp <;> exact hg
  exact run_post hwp

/-- A value that decodes is read. -/
private theorem readEntry_of_decode {raw : Bytes} {sv : StoredValue}
    (h : ValueCodec.decode raw = .ok sv) (now : Nat) :
    ∃ found, readEntry now raw = .ok found := by
  have hexpired : ValueCodec.isExpired raw now = .ok (sv.expiredAt now) := by
    rw [ValueCodec.isExpired_eq, h]
    rfl
  unfold readEntry
  rw [hexpired]
  cases sv.expiredAt now with
  | true => exact ⟨none, rfl⟩
  | false => exact ⟨some sv.value, by rw [h]; rfl⟩

/-- And finds what there is, if it decodes. -/
theorem run_get_decodes (hd : Decodes w.storage.contents) {k : Bytes}
    (hk : IsData k) : ∃ found,
      (mapStatus (NodeService.get k)).run.run (Prim.exec ext none) w
        = (.ok found, w) := by
  have hread : ∃ found, ((NodeService.get k).run.run (Prim.exec ext none) w).1
      = .ok found := by
    rw [run_get]
    cases hraw : w.storage.contents[k]? with
    | none => exact ⟨none, rfl⟩
    | some raw =>
        obtain ⟨sv, hsv⟩ := hd k raw hk hraw
        exact readEntry_of_decode hsv w.now
  obtain ⟨found, hfound⟩ := hread
  refine ⟨found, ?_⟩
  show ((NodeService.get k).run >>= _).run _ w = _
  rw [run_bind, hfound, run_get_world]
  rfl

/-- A call with another answer. -/
theorem run_then_pure {α : Type} (x : GrpcM Unit) (a : α) :
    (ExceptT.run (x >>= fun _ => pure a)).run (Prim.exec ext none) w
      = ((x.run.run (Prim.exec ext none) w).1.map fun _ => a,
        (x.run.run (Prim.exec ext none) w).2) := by
  rw [run_bindE]
  rcases x.run.run (Prim.exec ext none) w with ⟨_ | _, w'⟩ <;> rfl

/-- `Delete` is the batch's delete, with an answer. -/
theorem Unhindered.serve_delete (h : Unhindered cfg principal t w) {o : BatchOp}
    (hput : o.op ≠ opPut) (hdelete : o.op = opDelete) :
    ∃ found, (Request.delete o.key).serve ext cfg principal t w
      = (.deleted (((batchOp cfg t o).run.run (Prim.exec ext none) w).1.map
          fun _ => found),
        ((batchOp cfg t o).run.run (Prim.exec ext none) w).2) := by
  have hserve : (Request.delete o.key).serve ext cfg principal t w
      = (.deleted ((deleteImpl cfg principal t o.key).run.run
          (Prim.exec ext none) w).1,
        ((deleteImpl cfg principal t o.key).run.run (Prim.exec ext none) w).2) :=
    run_map _ _ _
  rw [hserve]
  unfold deleteImpl batchOp
  rw [h.run_enter h.delete]
  cases hkey : enforceKeySize cfg o.key with
  | error st => exact ⟨false, rfl⟩
  | ok u =>
      rw [run_ofCheck rfl, run_ofCheck rfl, if_neg hput, run_ofCheck rfl]
      cases hcode : encodeDataKey t o.key with
      | error st => exact ⟨false, rfl⟩
      | ok k =>
          -- only the single call looks whether there is anything to delete;
          -- looking changes nothing
          obtain ⟨found, hfound⟩ : ∃ found, (mapStatus (NodeService.get k)).run.run
              (Prim.exec ext none) w = (.ok found, w) := run_get_decodes h.decodes
            ⟨t, o.key, decode_of_encodeDataKey hcode⟩
          refine ⟨found.isSome, ?_⟩
          rw [run_ofCheck rfl, run_ofCheck rfl, if_neg hput, if_pos hdelete,
            run_bindE, hfound]
          dsimp only
          rw [run_then_pure]

/-- One operation is one request. -/
theorem Unhindered.request (h : Unhindered cfg principal t w) {o : BatchOp}
    (ho : o.op = opPut ∨ o.op = opDelete) :
    (o.request.serve ext cfg principal t w).1.status
        = ((batchOp cfg t o).run.run (Prim.exec ext none) w).1
      ∧ (o.request.serve ext cfg principal t w).2
        = ((batchOp cfg t o).run.run (Prim.exec ext none) w).2 := by
  by_cases hput : o.op = opPut
  · have hreq : o.request = .put o.key o.value 0 := if_pos hput
    have hop : o = ⟨opPut, o.key, o.value⟩ := by rw [← hput]
    rw [hreq, h.serve_put, ← hop]
    exact ⟨rfl, rfl⟩
  · have hreq : o.request = .delete o.key := if_neg hput
    obtain ⟨found, hserve⟩ := h.serve_delete hput (ho.resolve_left hput)
    rw [hreq, hserve]
    refine ⟨?_, rfl⟩
    show Except.map _ (Except.map _ _) = _
    cases ((batchOp cfg t o).run.run (Prim.exec ext none) w).1 <;> rfl

/-- The loop is one request after the other. -/
theorem Unhindered.loop (ops : List BatchOp)
    (hops : ∀ o ∈ ops, o.op = opPut ∨ o.op = opDelete) :
    ∀ w : World, Unhindered cfg principal t w →
      (batchLoop cfg t ops).run.run (Prim.exec ext none) w
        = requestsInTurn ext cfg principal t ops w := by
  induction ops with
  | nil => exact fun _ _ => rfl
  | cons o rest ih =>
      intro w h
      have hrest := ih fun o' ho' => hops o' (List.mem_cons_of_mem _ ho')
      have hafter : Unhindered cfg principal t
        ((batchOp cfg t o).run.run (Prim.exec ext none) w).2 := h.after o
      obtain ⟨hstatus, hworld⟩ : (o.request.serve ext cfg principal t w).1.status
          = _ ∧ (o.request.serve ext cfg principal t w).2 = _ :=
        h.request (hops o List.mem_cons_self)
      rw [batchLoop, run_bindE, requestsInTurn]
      simp only [hstatus, hworld]
      generalize (batchOp cfg t o).run.run (Prim.exec ext none) w = out at hafter ⊢
      obtain ⟨r, w'⟩ := out
      cases r with
      | error st => rfl
      | ok u => exact hrest w' hafter

end Paths

-- ================================================================== results

/-- A batch is its operations in turn. For a caller who may write and
delete and is not rate limited, on a node whose entries decode, a batch
within the size limit answers and leaves the node as single requests in
the same order would, up to the first that fails. -/
theorem batch_in_turn (ext : Externals) (cfg : NodeConfig)
    (principal : Option Principal) (t : String) (ops : List BatchOp) (w : World)
    (h : Unhindered cfg principal t w)
    (hlen : ops.length ≤ cfg.limits.maxBatchOps)
    (hops : ∀ o ∈ ops, o.op = opPut ∨ o.op = opDelete) :
    (Request.batch ops).serve ext cfg principal t w
      = (.done (requestsInTurn ext cfg principal t ops w).1,
        (requestsInTurn ext cfg principal t ops w).2) := by
  have hauth : ∀ (op : Nat) (perm : String),
      authorize principal t perm = .ok () →
      (if ops.any fun o => o.op = op then authorize principal t perm
        else .ok ()) = .ok () := by
    intro op perm hperm
    rw [hperm, ite_self]
  have hsize : enforceBatchSize cfg ops.length = .ok () :=
    if_neg (Nat.not_lt.mpr hlen)
  have hbatch : (batchImpl cfg principal t ops).run.run (Prim.exec ext none) w
      = requestsInTurn ext cfg principal t ops w := by
    unfold batchImpl
    rw [run_ofCheck h.tenant, run_ofCheck (hauth opPut permWrite h.write),
      run_ofCheck (hauth opDelete permDelete h.delete), run_ofCheck hsize,
      run_bindE, run_admitRpc h.rate h.default]
    exact Unhindered.loop ops hops w h
  show (Response.done <$> (batchImpl cfg principal t ops).run).run _ w = _
  rw [run_map, hbatch]

/-- A put, a put too large for the limits, and a delete. -/
def threeOps : List BatchOp :=
  [⟨opPut, [1], [7]⟩, ⟨opPut, [2], [7, 8]⟩, ⟨opDelete, [1], []⟩]

/-- The batch stops where the requests would: the first put is done. -/
theorem batch_in_turn_stopped :
    Except.isOk (requestsInTurn .plain narrow (some .anonymous) "a" threeOps
        (.opened narrow)).1 = false
      ∧ ((Request.batch threeOps).serve .plain narrow (some .anonymous) "a"
          (.opened narrow)).2.storage.contents[KeyCodec.bytesOf "a" .data [1]]?
        = some (ValueCodec.encode [7] none) := by
  have hfree : Unhindered narrow (some .anonymous) "a" (.opened narrow) := by
    refine ⟨by decide +kernel, by decide +kernel, by decide +kernel,
      by decide +kernel, rfl, fun k raw _ hraw => ?_⟩
    have hempty : (World.opened narrow).storage.contents.isEmpty = true := by
      decide +kernel
    rw [Std.ExtTreeMap.isEmpty_iff.mp hempty, Std.ExtTreeMap.getElem?_empty] at hraw
    cases hraw
  rw [batch_in_turn .plain narrow (some .anonymous) "a" threeOps
    (.opened narrow) hfree (by decide) (by decide)]
  exact ⟨by decide +kernel, by decide +kernel⟩

end FerrisKv
