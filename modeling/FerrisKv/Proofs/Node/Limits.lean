/-
The size limits hold of the data.

The limits are checked at the door: a handler compares the client's key and
value with them and only then encodes and stores them. That nothing larger
is ever stored is a fact about every way to the storage, the batch that
stops halfway and the sweep included, and about failures between the log
and the storage: whatever a run does to the data it does by writes that
were written down (`ends_noted`), and every put among them has passed the
door (`wp_prog_within_limits`).

A node that comes up with lower limits than before may hold larger entries;
the theorem is about those it did not find.
-/
import FerrisKv.Proofs.Node.Audit

namespace FerrisKv

open Prog NodeService WriteLog

-- ================================================================ the limits

/-- The entry is one a client within the limits may have stored. -/
def EntryWithin (limits : Limits) (k raw : Bytes) : Prop :=
  ∃ t payload value exp, KeyCodec.decode k = .ok (t, .data, payload)
    ∧ raw = ValueCodec.encode value exp
    ∧ payload.length ≤ limits.maxKeySize ∧ value.length ≤ limits.maxValueSize

/-- A write of no larger entry. -/
def WriteWithin (limits : Limits) (write : Write Bytes Bytes) : Prop :=
  ∀ k raw, write = .put k raw → EntryWithin limits k raw

/-- Every stored entry is within the limits, or is what `m₀` holds there. -/
def WithinSince (limits : Limits) (m₀ m : Table) : Prop :=
  ∀ k raw, IsData k → m[k]? = some raw →
    m₀[k]? = some raw ∨ EntryWithin limits k raw

section Tables

variable {limits : Limits} {m₀ m m' : Table}

theorem withinSince_refl (limits : Limits) (m : Table) : WithinSince limits m m :=
  fun _ _ _ h => .inl h

/-- A write within the limits keeps the data within them. -/
theorem WithinSince.apply (h : WithinSince limits m₀ m)
    {write : Write Bytes Bytes} (hw : WriteWithin limits write) :
    WithinSince limits m₀ (apply m write) := by
  intro k raw hd hraw
  rw [getElem?_apply] at hraw
  by_cases hk : write.key = k
  · rw [if_pos hk] at hraw
    cases write with
    | put k' raw' =>
        cases hk
        cases hraw
        exact .inr (hw _ _ rfl)
    | delete k' => cases hraw
  · rw [if_neg hk] at hraw
    exact h k raw hd hraw

theorem WithinSince.applyAll {log : List (Write Bytes Bytes)}
    (hlog : ∀ write ∈ log, WriteWithin limits write)
    (h : WithinSince limits m₀ m) : WithinSince limits m₀ (applyAll log m) := by
  induction log generalizing m with
  | nil => exact h
  | cons write rest ih =>
      rw [applyAll_cons]
      exact ih (fun w hw => hlog w (List.mem_cons_of_mem _ hw))
        (h.apply (hlog write List.mem_cons_self))

/-- Only data counts. -/
theorem WithinSince.same (h : WithinSince limits m₀ m) (hd : SameData m' m) :
    WithinSince limits m₀ m' := by
  intro k raw hk hraw
  rw [hd k hk] at hraw
  exact h k raw hk hraw

end Tables

-- ============================================================= the requests

/-- Only writes within the limits have been added. -/
def Sized (limits : Limits) (log log' : List (Write Bytes Bytes)) : Prop :=
  ∃ new, log' = log ++ new ∧ ∀ write ∈ new, WriteWithin limits write

section Requests

variable {cfg : NodeConfig} {log log' : List (Write Bytes Bytes)} {t : String}

theorem sized_refl (limits : Limits) (log : List (Write Bytes Bytes)) :
    Sized limits log log :=
  ⟨[], (List.append_nil log).symm, nofun⟩

/-- One more write within the limits. -/
theorem Sized.snoc {limits : Limits} (h : Sized limits log log')
    {write : Write Bytes Bytes} (hw : WriteWithin limits write) :
    Sized limits log (log' ++ [write]) := by
  obtain ⟨new, hnew, hall⟩ := h
  refine ⟨new ++ [write], by rw [hnew, List.append_assoc], fun w hmem => ?_⟩
  rcases List.mem_append.mp hmem with hmem | hmem
  · exact hall w hmem
  · rw [List.mem_singleton.mp hmem]
    exact hw

/-- What a size check lets through. -/
theorem enforceSize_eq_ok {code : Code} {what : String} {max : Nat}
    {bytes : Bytes} (h : enforceSize code what max bytes = .ok ()) :
    bytes.length ≤ max := by
  unfold enforceSize at h
  by_cases hlen : bytes.length > max
  · rw [if_pos hlen] at h
    cases h
  · omega

/-- A put whose key and value were let through is within the limits. -/
private theorem writeWithin_put {key k value : Bytes}
    (hk : enforceKeySize cfg key = .ok ())
    (hv : enforceValueSize cfg value = .ok ())
    (hd : KeyCodec.decode k = .ok (t, .data, key)) (exp : Option Nat) :
    WriteWithin cfg.limits (.put k (ValueCodec.encode value exp)) := by
  intro k' raw he
  cases he
  exact ⟨t, key, value, exp, hd, rfl, enforceSize_eq_ok hk, enforceSize_eq_ok hv⟩

/-- A delete always is. -/
private theorem writeWithin_delete (limits : Limits) (k : Bytes) :
    WriteWithin limits (.delete k) :=
  fun _ _ he => nomatch he

/-- A call that makes one write within the limits, or none. -/
theorem wp_sized_of_made {α : Type} {x : GrpcM α}
    {made : Write Bytes Bytes → Prop} (hs : Sized cfg.limits log log')
    (hmade : ∀ write, made write → WriteWithin cfg.limits write)
    (h : wp noting (Made log' made) x.run log') :
    wp noting (fun log'' _ => Sized cfg.limits log log'') x.run log' := by
  refine wp_mono (fun log'' r hr => ?_) h
  cases r with
  | error st =>
      have hr : log'' = log' := hr
      rw [hr]
      exact hs
  | ok a =>
      obtain ⟨write, hw, hlog⟩ := hr
      rw [hlog]
      exact hs.snoc (hmade write hw)

/-- A put after the checks writes within the limits. -/
private theorem wp_putRpc_sized {key k value : Bytes}
    (hs : Sized cfg.limits log log') (hk : enforceKeySize cfg key = .ok ())
    (hv : enforceValueSize cfg value = .ok ())
    (hd : KeyCodec.decode k = .ok (t, .data, key)) (ttlMs : Nat) :
    wp noting (fun log'' _ => Sized cfg.limits log log'')
      (mapStatus (putWithTtl cfg k value ttlMs)).run log' := by
  refine wp_sized_of_made hs ?_
    (wp_made_mapStatus (fun _ h => h) (wp_put_noted ⟨t, key, hd⟩ value ttlMs))
  intro write hw
  obtain ⟨exp, he⟩ := hw
  rw [he]
  exact writeWithin_put hk hv hd exp

private theorem wp_deleteRpc_sized {key k : Bytes}
    (hs : Sized cfg.limits log log')
    (hd : KeyCodec.decode k = .ok (t, .data, key)) :
    wp noting (fun log'' _ => Sized cfg.limits log log'')
      (mapStatus (NodeService.delete cfg k)).run log' := by
  refine wp_sized_of_made hs ?_
    (wp_made_mapStatus (fun _ h => h) (wp_delete_noted ⟨t, key, hd⟩))
  intro write hw
  rw [hw]
  exact writeWithin_delete _ _

/-- The `put` handler writes only after the checks. -/
private theorem wp_putImpl_sized (principal : Option Principal)
    (key value : Bytes) (ttlMs : Nat) :
    wp noting (fun log' _ => Sized cfg.limits log log')
      (putImpl cfg principal t key value ttlMs).run log := by
  unfold putImpl
  refine (wp_bindE _ _ _).mpr (wp_noting_inert (enter_inert principal _) ?_)
  intro entered
  cases entered with
  | error st => exact sized_refl _ _
  | ok u =>
      refine wp_noting_ofCheck (fun _ => sized_refl _ _) fun _ hk => ?_
      refine wp_noting_ofCheck (fun _ => sized_refl _ _) fun _ hv => ?_
      refine wp_noting_ofCheck (fun _ => sized_refl _ _) fun k hcode => ?_
      exact wp_putRpc_sized (sized_refl _ _) hk hv
        (decode_of_encodeDataKey hcode) ttlMs

/-- The `delete` handler writes nothing that has a size. -/
private theorem wp_deleteImpl_sized (principal : Option Principal)
    (key : Bytes) : wp noting (fun log' _ => Sized cfg.limits log log')
      (deleteImpl cfg principal t key).run log := by
  unfold deleteImpl
  refine (wp_bindE _ _ _).mpr (wp_noting_inert (enter_inert principal _) ?_)
  intro entered
  cases entered with
  | error st => exact sized_refl _ _
  | ok u =>
      refine wp_noting_ofCheck (fun _ => sized_refl _ _) fun _ _ => ?_
      refine wp_noting_ofCheck (fun _ => sized_refl _ _) fun k hcode => ?_
      refine (wp_bindE _ _ _).mpr (wp_noting_inert (getRpc_inert k) ?_)
      intro found
      cases found with
      | error st => exact sized_refl _ _
      | ok value =>
          refine (wp_bindE _ _ _).mpr (wp_mono ?_ (wp_deleteRpc_sized
            (sized_refl _ _) (decode_of_encodeDataKey hcode)))
          intro log' r hr
          cases r with
          | error st => exact hr
          | ok u => exact hr

/-- One turn of the batch: its size checks are a put's. -/
theorem wp_batchOp_sized (o : BatchOp) (hs : Sized cfg.limits log log') :
    wp noting (fun log'' _ => Sized cfg.limits log log'')
      (batchOp cfg t o).run log' := by
  unfold batchOp
  refine wp_noting_ofCheck (fun _ => hs) fun _ hk => ?_
  refine wp_noting_ofCheck (fun _ => hs) fun _ hv => ?_
  refine wp_noting_ofCheck (fun _ => hs) fun k hcode => ?_
  have hd := decode_of_encodeDataKey hcode
  by_cases hput : o.op = opPut
  · rw [if_pos hput] at hv ⊢
    exact wp_putRpc_sized hs hk hv hd 0
  · rw [if_neg hput]
    by_cases hdelete : o.op = opDelete
    · rw [if_pos hdelete]
      exact wp_deleteRpc_sized hs hd
    · rw [if_neg hdelete]
      exact hs

/-- A batch checks every operation before it writes it. -/
private theorem wp_batchLoop_sized (ops : List BatchOp) :
    ∀ {log' : List (Write Bytes Bytes)}, Sized cfg.limits log log' →
      wp noting (fun log'' _ => Sized cfg.limits log log'')
        (batchLoop cfg t ops).run log' := by
  induction ops with
  | nil => exact fun h => h
  | cons o rest ih =>
      intro log' h
      refine (wp_bindE _ _ _).mpr (wp_mono ?_ (wp_batchOp_sized o h))
      intro log'' r hr
      cases r with
      | error st => exact hr
      | ok u => exact ih hr

/-- Whatever its steps answer, an RPC puts nothing beyond the limits. -/
theorem wp_prog_within_limits (log : List (Write Bytes Bytes))
    (principal : Option Principal) (req : Request) :
    wp noting (fun log' _ => Sized cfg.limits log log')
      (req.prog cfg principal t) log := by
  have hnone : ∀ {x : NodeProg Response}, x.Uses Prim.WritesNoData →
      wp noting (fun log' _ => Sized cfg.limits log log') x log :=
    fun hx => wp_noting_noData hx fun _ => sized_refl _ _
  cases req with
  | get key =>
      exact hnone (uses_map _ ((getImpl_inert _ key).mono
        fun _ hp => hp.writesNoData))
  | put key value ttlMs =>
      exact (wp_map _ _ _).mpr (wp_putImpl_sized principal key value ttlMs)
  | delete key => exact (wp_map _ _ _).mpr (wp_deleteImpl_sized principal key)
  | scan userPrefix limit =>
      exact hnone (uses_map _ ((scanImpl_inert _ userPrefix limit).mono
        fun _ hp => hp.writesNoData))
  | batch ops =>
      refine (wp_map _ _ _).mpr ?_
      refine wp_noting_ofCheck (fun _ => sized_refl _ _) fun _ _ => ?_
      refine wp_noting_ofCheck (fun _ => sized_refl _ _) fun _ _ => ?_
      refine wp_noting_ofCheck (fun _ => sized_refl _ _) fun _ _ => ?_
      refine wp_noting_ofCheck (fun _ => sized_refl _ _) fun _ _ => ?_
      refine (wp_bindE _ _ _).mpr (wp_noting_inert (admitRpc_inert _) ?_)
      intro admitted
      cases admitted with
      | error st => exact sized_refl _ _
      | ok u => exact wp_batchLoop_sized ops (sized_refl _ _)
  | watch keyPrefix => exact hnone (uses_map _ (watchImpl_spares _ keyPrefix))

end Requests

-- ================================================================== results

section Runs

variable {ext : Externals} {cfg : NodeConfig} {s s' : Session}

/-- One action. -/
theorem withinSince_step {m₀ : Table} {a : Action} {out : Output}
    (hgo : Session.Goes ext cfg s a out s')
    (h : WithinSince cfg.limits m₀ s.world.storage.contents) :
    WithinSince cfg.limits m₀ s'.world.storage.contents := by
  by_cases ha : ∃ principal tenant req, a = .rpc principal tenant req
  · obtain ⟨principal, tenant, req, he⟩ := ha
    subst he
    cases hgo with
    | @rpc _ _ _ r w hserved =>
        obtain ⟨new, ⟨_, hlog, hnew⟩, hdata⟩ :=
          ends_noted hserved (wp_prog_within_limits [] principal req)
        rw [List.nil_append, List.nil_append] at hlog
        subst hlog
        rw [Session.world_opened]
        exact (h.applyAll hnew).same hdata
  · have ha : ∀ principal tenant req, a ≠ .rpc principal tenant req :=
      fun principal tenant req he => ha ⟨principal, tenant, req, he⟩
    obtain ⟨new, hnew, hdata⟩ := inside_noted ha hgo
    refine WithinSince.same (h.applyAll fun write hw => ?_) hdata
    obtain ⟨-, key, he⟩ := hnew write hw
    rw [he]
    exact writeWithin_delete _ _

/-- The limits hold of the data. Whatever is asked of a node and whatever
calls fail in it, every entry it stores at the end is one it already had,
or its key and its value are within the limits. -/
theorem limits_hold (ext : Externals) (cfg : NodeConfig)
    {steps : List (Action × Output)} {s s' : Session}
    (hrun : Session.Runs ext cfg s steps s') :
    WithinSince cfg.limits s.world.storage.contents
      s'.world.storage.contents := by
  induction hrun with
  | nil => exact withinSince_refl _ _
  | snoc _ hgo ih => exact withinSince_step hgo ih

/-- Keys and values of one byte at most. -/
def narrow : NodeConfig := { limits := { maxKeySize := 1, maxValueSize := 1 } }

/-- One put that fits and one that does not. -/
def narrowPuts : List Action :=
  [.rpc (some .anonymous) "a" (.put [1] [7] 0),
    .rpc (some .anonymous) "a" (.put [1] [7, 8] 0)]

/-- The session after them. -/
def narrowed : Session :=
  narrowPuts.foldl (fun s a => (s.step .plain narrow a).1)
    ⟨.opened narrow, fun _ => []⟩

/-- A put that just fits. -/
theorem limits_hold_narrow :
    narrowed.world.storage.contents[KeyCodec.bytesOf "a" .data [1]]?
        = some (ValueCodec.encode [7] none)
      ∧ WithinSince narrow.limits (World.opened narrow).storage.contents
        narrowed.world.storage.contents := by
  refine ⟨by decide +kernel, ?_⟩
  have hfirst := Session.Runs.snoc (.nil ⟨.opened narrow, fun _ => []⟩)
    (Session.goes_step .plain narrow _
      (.rpc (some .anonymous) "a" (.put [1] [7] 0)))
  exact limits_hold .plain narrow (.snoc hfirst (Session.goes_step .plain narrow _
    (.rpc (some .anonymous) "a" (.put [1] [7, 8] 0))))

end Runs

end FerrisKv
