/-
The audit trail accounts for the data.

A put or delete that gets as far as its storage write cannot fail any
more, and one that does not has written nothing; the entry is written when
the call has succeeded. So the entries of a request are, one for one and
in order, the writes of data it has made (`serveRpc_noted`), whatever
calls fail in it and also when a batch stops halfway.

`audit_accounts` is the same of whole runs: start from the data as it was,
perform the audited writes and the evictions of the sweeper in order, and
you have the data as it is.
-/
import FerrisKv.Core.Hashing
import FerrisKv.Node.Server
import FerrisKv.Proofs.Node.Published

namespace FerrisKv

open Prog NodeService WriteLog

-- =============================================================== the writes

instance : DecidablePred IsData := fun k =>
  decidable_of_iff ((KeyCodec.decode k).toOption.map (·.2.1) = some .data) <| by
    constructor
    · intro h
      cases hd : KeyCodec.decode k with
      | error e => rw [hd] at h; cases h
      | ok d =>
          rw [hd] at h
          obtain ⟨t, s, payload⟩ := d
          cases h
          exact ⟨t, payload, hd⟩
    · rintro ⟨t, payload, hd⟩
      rw [hd]
      rfl

/-- What a step that succeeded has written to storage. -/
def Prim.wrote : (p : Prim) → p.Resp → Option (Write Bytes Bytes)
  | .storage (.put key value), .ok _ => some (.put key value)
  | .storage (.delete key), .ok _ => some (.delete key)
  | _, _ => none

/-- Write down what a step has written, if it is data. -/
def note (log : List (Write Bytes Bytes)) (p : Prim) (r : p.Resp) :
    List (Write Bytes Bytes) :=
  log ++ (p.wrote r).toList.filter (IsData ·.key)

section Note

variable {log : List (Write Bytes Bytes)} {p : Prim} {r : p.Resp}

/-- A write of data is noted. -/
theorem note_data {write : Write Bytes Bytes} (hw : p.wrote r = some write)
    (hd : IsData write.key) : note log p r = log ++ [write] := by
  rw [note, hw, Option.toList_some, List.filter_singleton, decide_eq_true hd]
  rfl

/-- Anything else is not. -/
theorem note_aside (h : ∀ write ∈ p.wrote r, ¬ IsData write.key) :
    note log p r = log := by
  cases hw : p.wrote r with
  | none =>
      rw [note, hw]
      exact List.append_nil log
  | some write =>
      rw [note, hw, Option.toList_some, List.filter_singleton,
        decide_eq_false (h write hw)]
      exact List.append_nil log

end Note

/-- The rules of a program whose writes of data are written down. -/
abbrev noting : Rules (List (Write Bytes Bytes)) Prim Prim.Resp :=
  .ghost (fun _ _ => True) note

/-- Both maps hold the same data. -/
def SameData (m m' : Table) : Prop := ∀ k, IsData k → m[k]? = m'[k]?

/-- The same writes to the same data leave the same data. -/
theorem SameData.applyAll {m m' : Table} (h : SameData m m')
    (log : List (Write Bytes Bytes)) :
    SameData (WriteLog.applyAll log m) (WriteLog.applyAll log m') := by
  intro k hk
  rw [getElem?_applyAll, getElem?_applyAll, h k hk]

/-- A step changes storage by what it wrote, whatever fails. -/
theorem exec_wrote (ext : Externals) (fault : Option Fault) (p : Prim)
    (w : World) :
    (p.exec ext fault w).2.storage.contents
      = applyAll (p.wrote (p.exec ext fault w).1).toList
        w.storage.contents := by
  cases p with
  | storage q =>
      cases fault with
      | some f => cases q <;> rfl
      | none =>
          cases q with
          | put key value => exact StorageBackend.contents_write _ _
          | delete key => exact StorageBackend.contents_write _ _
          | flush => exact StorageBackend.contents_flush _
          | _ => rfl
  | _ => rfl

/-- What is written down of a step is what it does to the data. -/
theorem exec_noted (ext : Externals) (fault : Option Fault) (p : Prim)
    (w : World) :
    SameData (p.exec ext fault w).2.storage.contents
      (applyAll (note [] p (p.exec ext fault w).1) w.storage.contents) := by
  intro k hk
  rw [exec_wrote]
  cases hw : p.wrote (p.exec ext fault w).1 with
  | none =>
      rw [note_aside (by rw [hw]; nofun)]
      rfl
  | some write =>
      by_cases hd : IsData write.key
      · rw [note_data hw hd]
        rfl
      · have hne : write.key ≠ k := fun he => hd (he ▸ hk)
        rw [note_aside (by rw [hw]; rintro _ ⟨⟩; exact hd)]
        exact (getElem?_apply _ write k).trans (if_neg hne)

/-- What is written down along a run is what the run does to the data. -/
theorem ends_noted {α : Type} {ext : Externals}
    {ok : Prim → Option Fault → Prop}
    {Q : List (Write Bytes Bytes) → α → Prop} {x : NodeProg α} {w w' : World}
    {a : α} (h : Ends (Prim.Goes ext ok) x w a w')
    {log : List (Write Bytes Bytes)} (hx : wp noting Q x log) :
    ∃ new, Q (log ++ new) a
      ∧ SameData w'.storage.contents (applyAll new w.storage.contents) := by
  induction h generalizing log with
  | ret a w => exact ⟨[], by rw [List.append_nil]; exact hx, fun _ _ => rfl⟩
  | @act p k w w₁ w₂ r a hp _ ih =>
      obtain ⟨now, instant, fault, -, -, -, he⟩ := hp
      obtain ⟨new, hQ, hdata⟩ := ih (hx.2 r)
      have hstep := exec_noted ext fault p (w.tick now instant)
      rw [he] at hstep
      refine ⟨note [] p r ++ new, ?_, fun k hk => ?_⟩
      · rw [← List.append_assoc]
        exact hQ
      · rw [applyAll_append, hdata k hk]
        exact hstep.applyAll new k hk

-- ================================================================= the calls

/-- A step that writes no data. -/
def Prim.WritesNoData (p : Prim) : Prop :=
  ∀ r, ∀ write ∈ p.wrote r, ¬ IsData write.key

/-- An inert step writes no data. -/
theorem Prim.Inert.writesNoData {p : Prim} (h : p.Inert) : p.WritesNoData := by
  intro r
  cases p with
  | storage q => cases q <;> cases r <;> rintro _ ⟨⟩ <;> exact h
  | _ => nofun

theorem Prim.OnWatch.writesNoData {p : Prim} (h : p.OnWatch) : p.WritesNoData := by
  obtain ⟨q, rfl⟩ := h
  exact nofun

section Calls

variable {cfg : NodeConfig} {α : Type} {log : List (Write Bytes Bytes)}
  {key payload : Bytes} {t : String}

/-- A program that writes no data notes nothing. -/
theorem wp_noting_noData {x : NodeProg α} (hx : x.Uses Prim.WritesNoData)
    {Q : List (Write Bytes Bytes) → α → Prop} (hQ : ∀ a, Q log a) :
    wp noting Q x log := by
  refine wp_of_uses (I := (· = log)) ?_ ?_ hx rfl
  · rintro _ p rfl hp
    exact ⟨trivial, fun r => note_aside (hp r)⟩
  · rintro _ a rfl
    exact hQ a

theorem wp_noting_inert {x : NodeProg α} (hx : x.Uses Prim.Inert)
    {Q : List (Write Bytes Bytes) → α → Prop} (hQ : ∀ a, Q log a) :
    wp noting Q x log :=
  wp_noting_noData (hx.mono fun _ hp => hp.writesNoData) hQ

/-- The outcome of a write: it has been written down, or the call has
failed. -/
def Made (log : List (Write Bytes Bytes)) (made : Write Bytes Bytes → Prop)
    {ε α : Type} : List (Write Bytes Bytes) → Except ε α → Prop :=
  onResult (fun log' _ => ∃ write, made write ∧ log' = log ++ [write])
    fun log' _ => log' = log

/-- The end of every write writes no more data, and succeeds. -/
theorem wp_settle_noted (plan : Option Accounting) (value : Bytes)
    (kind : ChangeKind) {Q : List (Write Bytes Bytes) → Result Unit → Prop}
    (hQ : Q log (.ok ())) :
    wp noting Q (ExceptT.run (do
      commitAccounting plan
      publishChange key kind value
      rotateWalIfNeeded cfg : NodeM Unit)) log := by
  simp only [wp_bindE, wp_lift, onResult_ok]
  refine wp_noting_inert ((commitAccounting_uses plan).mono
    fun _ hp => hp.inert) fun _ => ?_
  refine wp_noting_noData ((publishChange_uses key kind value).mono
    fun _ hp => hp.writesNoData) fun _ => ?_
  exact wp_noting_inert ((rotateWalIfNeeded_uses cfg).mono
    fun _ hp => hp.inert) fun _ => hQ

/-- A put has made its write when it succeeds, and none when it fails. -/
theorem wp_put_noted (hk : IsData key) (value : Bytes) (ttlMs : Nat) :
    wp noting (Made log fun write => ∃ exp,
        write = .put key (ValueCodec.encode value exp))
      (putWithTtl cfg key value ttlMs).run log := by
  have hfailed : ∀ e : Error, Made log (fun write => ∃ exp,
      write = .put key (ValueCodec.encode value exp))
      log (.error e : Result Unit) := fun _ => rfl
  unfold putWithTtl
  refine (wp_bindE _ _ _).mpr ((wp_lift _ _).mpr (wp_noting_inert
    ((expiryStamp_uses ttlMs).mono fun _ hp => hp ▸ trivial) fun exp => ?_))
  refine (wp_bindE _ _ _).mpr (wp_noting_inert ((planAccounting_uses key
    value.length).mono fun _ hp => hp.inert) ?_)
  rintro (e | plan)
  · exact hfailed e
  refine (wp_bindE _ _ _).mpr (wp_noting_inert ((checkAccounting_uses
    plan).mono fun _ hp => hp.inert) ?_)
  rintro (e | u)
  · exact hfailed e
  refine (wp_bindE _ _ _).mpr (wp_noting_inert (walAppend_inert _ _ _) ?_)
  rintro (e | n)
  · exact hfailed e
  refine (wp_bindE _ _ _).mpr ⟨trivial, ?_⟩
  rintro (e | u)
  · exact List.append_nil log
  have hnote : note log (.storage (.put key (ValueCodec.encode value exp)))
      (.ok u) = log ++ [.put key (ValueCodec.encode value exp)] :=
    note_data rfl hk
  -- from here on nothing fails
  rw [hnote]
  refine (wp_bindE _ _ _).mpr ((wp_lift _ _).mpr (wp_noting_inert
    ((scheduleExpiry_uses key exp).mono fun _ hp => hp.inert) fun _ => ?_))
  exact wp_settle_noted plan value .put ⟨_, ⟨exp, rfl⟩, rfl⟩

/-- A delete, of any key. -/
theorem wp_delete_note (key : Bytes) :
    wp noting (onResult
        (fun log' _ => log' = note log (.storage (.delete key)) (.ok ()))
        fun log' _ => log' = log)
      (NodeService.delete cfg key).run log := by
  unfold NodeService.delete
  refine (wp_bindE _ _ _).mpr (wp_noting_inert
    ((planDeleteAccounting_uses key).mono fun _ hp => hp.inert) ?_)
  rintro (e | plan)
  · exact rfl
  refine (wp_bindE _ _ _).mpr (wp_noting_inert (walAppend_inert _ _ _) ?_)
  rintro (e | n)
  · exact rfl
  refine (wp_bindE _ _ _).mpr ⟨trivial, ?_⟩
  rintro (e | u)
  · exact List.append_nil log
  exact wp_settle_noted plan [] .delete rfl

theorem wp_delete_noted (hk : IsData key) :
    wp noting (Made log (· = .delete key))
      (NodeService.delete cfg key).run log := by
  refine wp_mono ?_ (wp_delete_note key)
  rintro log' (e | u) h
  · exact h
  · exact ⟨.delete key, rfl, h.trans (note_data rfl hk)⟩

end Calls

-- ============================================================= the requests

/-- The entry is about the write. -/
structure Audits (blake3 : Bytes → Vector UInt8 32) (entry : AuditEntry)
    (write : Write Bytes Bytes) : Prop where
  key : ∃ payload, KeyCodec.decode write.key = .ok (entry.tenant, .data, payload)
    ∧ entry.keyHash = keyHash blake3 payload
  put : ∀ k raw, write = .put k raw → entry.op = "put"
    ∧ ∃ value exp, raw = ValueCodec.encode value exp
      ∧ entry.valueSize = value.length
  delete : ∀ k, write = .delete k → entry.op = "delete"

section Requests

variable {blake3 : Bytes → Vector UInt8 32} {cfg : NodeConfig}
  {log : List (Write Bytes Bytes)} {caller : Option Caller} {t : String}

/-- A handler's key decodes to its tenant and key. -/
theorem decode_of_encodeDataKey {key k : Bytes}
    (h : encodeDataKey t key = .ok k) :
    KeyCodec.decode k = .ok (t, .data, key) := by
  unfold encodeDataKey at h
  cases he : KeyCodec.encode t .data key with
  | error e => rw [he] at h; cases h
  | ok k' =>
      rw [he] at h
      cases h
      obtain ⟨hv, rfl⟩ := KeyCodec.encode_eq_ok.mp he
      exact KeyCodec.decode_bytesOf hv .data key

/-- The entry of a put is about its write. -/
private theorem audits_put {key k value : Bytes}
    (hk : KeyCodec.decode k = .ok (t, .data, key)) (exp : Option Nat) :
    Audits blake3 (audit blake3 caller t "put" key value.length)
      (.put k (ValueCodec.encode value exp)) where
  key := ⟨key, hk, rfl⟩
  put := by
    rintro _ _ ⟨⟩
    exact ⟨rfl, value, exp, rfl, rfl⟩
  delete := nofun

private theorem audits_delete {key k : Bytes}
    (hk : KeyCodec.decode k = .ok (t, .data, key)) (size : Nat) :
    Audits blake3 (audit blake3 caller t "delete" key size) (.delete k) where
  key := ⟨key, hk, rfl⟩
  put := nofun
  delete _ _ := rfl

/-- A check writes nothing. -/
theorem wp_noting_ofCheck {α β : Type} {c : Except Status α} {f : α → GrpcM β}
    {Q : List (Write Bytes Bytes) → Except Status β → Prop}
    (herr : ∀ st, Q log (.error st))
    (hok : ∀ a, c = .ok a → wp noting Q (f a).run log) :
    wp noting Q (ExceptT.run (ofCheck c >>= f)) log := by
  cases c with
  | error st => exact herr st
  | ok a => exact hok a rfl

/-- What was made does not depend on how an error is reported. -/
theorem wp_made_mapStatus {α : Type} {x : NodeM α}
    {made made' : Write Bytes Bytes → Prop}
    (hmade : ∀ write, made write → made' write)
    (h : wp noting (Made log made) x.run log) :
    wp noting (Made log made') (mapStatus x).run log := by
  refine (wp_bind _ _ _).mpr (wp_mono ?_ h)
  rintro log' (e | a) hr
  · exact hr
  · obtain ⟨write, hw, rfl⟩ := hr
    exact ⟨write, hmade write hw, rfl⟩

/-- One turn of the batch makes the write its audit entry is about. -/
theorem wp_batchOp_noted (blake3 : Bytes → Vector UInt8 32)
    (caller : Option Caller) (o : BatchOp) :
    wp noting (Made log (Audits blake3
        (audit blake3 caller t (opName o.op) o.key o.value.length)))
      (batchOp cfg t o).run log := by
  unfold batchOp
  refine wp_noting_ofCheck (fun _ => rfl) fun _ _ => ?_
  refine wp_noting_ofCheck (fun _ => rfl) fun _ _ => ?_
  refine wp_noting_ofCheck (fun _ => rfl) fun k hk => ?_
  have hd := decode_of_encodeDataKey hk
  split
  · next hput =>
      refine wp_made_mapStatus ?_ (wp_put_noted ⟨t, o.key, hd⟩ o.value 0)
      rintro _ ⟨exp, rfl⟩
      rw [opName, if_pos hput]
      exact audits_put hd exp
  · next hput =>
      split
      · refine wp_made_mapStatus ?_ (wp_delete_noted ⟨t, o.key, hd⟩)
        rintro _ rfl
        rw [opName, if_neg hput]
        exact audits_delete hd _
      · exact rfl

/-- The entries written are the writes made. -/
def Accounted (blake3 : Bytes → Vector UInt8 32)
    (log : List (Write Bytes Bytes)) (entries : List AuditEntry)
    (log' : List (Write Bytes Bytes)) : Prop :=
  ∃ new, log' = log ++ new ∧ List.Forall₂ (Audits blake3) entries new

theorem Accounted.refl : Accounted blake3 log [] log :=
  ⟨[], (List.append_nil log).symm, .nil⟩

/-- One more write, one more entry. -/
theorem Accounted.snoc {entries : List AuditEntry}
    {log' : List (Write Bytes Bytes)} {entry : AuditEntry}
    {write : Write Bytes Bytes} (h : Accounted blake3 log entries log')
    (hw : Audits blake3 entry write) :
    Accounted blake3 log (entries ++ [entry]) (log' ++ [write]) := by
  obtain ⟨new, rfl, hall⟩ := h
  exact ⟨new ++ [write], List.append_assoc .., List.rel_append hall (.cons hw .nil)⟩

/-- The entries of a batch are its writes, also when it stops halfway. The
induction is on the operations still to do. -/
private theorem wp_batchAudited_noted (ops : List BatchOp) :
    ∀ {trail : List AuditEntry} {log' : List (Write Bytes Bytes)},
      Accounted blake3 log trail log' →
      wp noting (fun log'' out => Accounted blake3 log out.2 log'')
        (batchAudited blake3 cfg caller t ops trail) log' := by
  induction ops with
  | nil => exact fun h => h
  | cons o rest ih =>
      intro trail log' h
      rw [batchAudited]
      refine (wp_bind _ _ _).mpr (wp_mono ?_ (wp_batchOp_noted blake3 caller o))
      rintro _ (st | u) hr
      · obtain rfl : _ = log' := hr
        exact h
      · obtain ⟨write, hw, rfl⟩ := hr
        exact ih (h.snoc hw)

/-- An entry is written after a success, and a success has made one write. -/
private theorem wp_thenAudit_noted {α : Type} {x : GrpcM α} {entry : AuditEntry}
    (h : wp noting (Made log (Audits blake3 entry)) x.run log) :
    wp noting (fun log' out => Accounted blake3 log out.2 log')
      (thenAudit x entry) log := by
  refine (wp_bind _ _ _).mpr (wp_mono ?_ h)
  rintro _ (st | a) hr
  · obtain rfl : _ = log := hr
    exact .refl
  · obtain ⟨write, hw, rfl⟩ := hr
    exact Accounted.refl.snoc hw

/-- The `put` handler makes the write its entry is about. -/
private theorem wp_putImpl_noted (blake3 : Bytes → Vector UInt8 32)
    (caller : Option Caller) (principal : Option Principal)
    (key value : Bytes) (ttlMs : Nat) :
    wp noting (Made log (Audits blake3
        (audit blake3 caller t "put" key value.length)))
      (putImpl cfg principal t key value ttlMs).run log := by
  unfold putImpl
  refine (wp_bindE _ _ _).mpr (wp_noting_inert (enter_inert principal _) ?_)
  rintro (st | u)
  · exact rfl
  refine wp_noting_ofCheck (fun _ => rfl) fun _ _ => ?_
  refine wp_noting_ofCheck (fun _ => rfl) fun _ _ => ?_
  refine wp_noting_ofCheck (fun _ => rfl) fun k hk => ?_
  have hd := decode_of_encodeDataKey hk
  refine wp_made_mapStatus ?_ (wp_put_noted ⟨t, key, hd⟩ value ttlMs)
  rintro _ ⟨exp, rfl⟩
  exact audits_put hd exp

/-- A read for a client is inert. -/
theorem getRpc_inert (k : Bytes) :
    (mapStatus (NodeService.get k)).run.Uses Prim.Inert :=
  uses_bind (get_inert k) fun _ => trivial

/-- So does the `delete` handler. -/
private theorem wp_deleteImpl_noted (blake3 : Bytes → Vector UInt8 32)
    (caller : Option Caller) (principal : Option Principal) (key : Bytes) :
    wp noting (Made log (Audits blake3
        (audit blake3 caller t "delete" key 0)))
      (deleteImpl cfg principal t key).run log := by
  unfold deleteImpl
  refine (wp_bindE _ _ _).mpr (wp_noting_inert (enter_inert principal _) ?_)
  rintro (st | u)
  · exact rfl
  refine wp_noting_ofCheck (fun _ => rfl) fun _ _ => ?_
  refine wp_noting_ofCheck (fun _ => rfl) fun k hk => ?_
  have hd := decode_of_encodeDataKey hk
  refine (wp_bindE _ _ _).mpr (wp_noting_inert (getRpc_inert k) ?_)
  rintro (st | found)
  · exact rfl
  have hdelete : wp noting (Made log (Audits blake3
      (audit blake3 caller t "delete" key 0)))
      (mapStatus (NodeService.delete cfg k)).run log := by
    refine wp_made_mapStatus ?_ (wp_delete_noted ⟨t, key, hd⟩)
    rintro _ rfl
    exact audits_delete hd 0
  refine (wp_bindE _ _ _).mpr (wp_mono ?_ hdelete)
  rintro log' (st | u) hr
  · exact hr
  · exact hr

/-- What comes before a batch is inert. -/
theorem batchEnter_inert (principal : Option Principal) (ops : List BatchOp) :
    (batchEnter cfg principal t ops).run.Uses Prim.Inert :=
  uses_bindE trivial fun _ => uses_bindE trivial fun _ =>
    uses_bindE trivial fun _ => uses_bindE trivial fun _ => admitRpc_inert _

/-- The other RPCs write no data. -/
theorem getImpl_inert (principal : Option Principal) (key : Bytes) :
    (getImpl cfg principal t key).run.Uses Prim.Inert :=
  uses_bindE (enter_inert principal _) fun _ => uses_bindE trivial fun _ =>
    uses_bindE trivial fun k => getRpc_inert k

theorem scanImpl_inert (principal : Option Principal) (userPrefix : Bytes)
    (limit : Nat) :
    (scanImpl cfg principal t userPrefix limit).run.Uses Prim.Inert := by
  refine uses_bindE (enter_inert principal _) fun _ =>
    uses_bindE trivial fun bounds => ?_
  have hscan : (scanRange bounds.start bounds.stop).run.Uses Prim.Inert :=
    uses_bindE ((wp_step _).mpr ⟨trivial, fun _ => trivial⟩) fun _ =>
      uses_lift ⟨trivial, fun _ => trivial⟩
  exact uses_bindE (uses_bind hscan fun _ => trivial) fun _ => trivial

/-- Opening a stream writes no data. -/
theorem watchImpl_spares (principal : Option Principal) (keyPrefix : Bytes) :
    (watchImpl cfg principal t keyPrefix).run.Uses Prim.WritesNoData := by
  refine uses_bindE ((enter_inert principal _).mono fun _ hp => hp.writesNoData)
    fun _ => uses_bindE trivial fun _ => ?_
  have hwatch : ∀ q : WatchPrim, (Prim.watch q).WritesNoData :=
    fun q => Prim.OnWatch.writesNoData ⟨q, rfl⟩
  refine uses_bindE (uses_lift ⟨hwatch _, fun found => ?_⟩) fun rx => ?_
  · cases found with
    | none => exact ⟨hwatch _, fun _ => trivial⟩
    | some rx => exact trivial
  · exact uses_bindE (uses_lift ⟨Prim.Inert.writesNoData trivial, fun _ => trivial⟩)
      fun _ => trivial

/-- Whatever its steps answer, the writes of data an RPC makes are those its
audit entries are about. -/
theorem wp_audited_noted (blake3 : Bytes → Vector UInt8 32)
    (caller : Option Caller) (req : Request) :
    wp noting (fun log' out => Accounted blake3 log out.2 log')
      (req.audited blake3 cfg caller t) log := by
  have hnone : ∀ {x : NodeProg Response}, x.Uses Prim.WritesNoData →
      wp noting (fun log' out => Accounted blake3 log out.2 log')
        ((fun r => (r, [])) <$> x) log :=
    fun hx => (wp_map _ _ _).mpr (wp_noting_noData hx fun _ => .refl)
  cases req with
  | put key value ttlMs =>
      exact (wp_map _ _ _).mpr (wp_thenAudit_noted
        (wp_putImpl_noted blake3 caller _ key value ttlMs))
  | delete key =>
      exact (wp_map _ _ _).mpr (wp_thenAudit_noted
        (wp_deleteImpl_noted blake3 caller _ key))
  | batch ops =>
      refine (wp_bind _ _ _).mpr (wp_noting_inert (batchEnter_inert _ ops) ?_)
      rintro (st | u)
      · exact .refl
      · exact (wp_map _ _ _).mpr (wp_batchAudited_noted ops .refl)
  | get key =>
      exact hnone (uses_map _ ((getImpl_inert _ key).mono
        fun _ hp => hp.writesNoData))
  | scan userPrefix limit =>
      exact hnone (uses_map _ ((scanImpl_inert _ userPrefix limit).mono
        fun _ hp => hp.writesNoData))
  | watch keyPrefix =>
      exact hnone (uses_map _ (watchImpl_spares _ keyPrefix))

/-- A request's entries are its writes of data. -/
private theorem wp_serveRpc_noted (blake3 : Bytes → Vector UInt8 32)
    (auth : AuthInterceptor) (header : Option Bytes) (req : Request) :
    wp noting (fun log' out => Accounted blake3 log out.2 log')
      (serveRpc blake3 cfg auth header t req) log := by
  refine (wp_bind _ _ _).mpr (wp_noting_inert
    (x := nowMs) ⟨trivial, fun _ => trivial⟩ fun now => ?_)
  cases auth.call now header with
  | error st => exact .refl
  | ok caller =>
      exact (wp_map _ _ _).mpr (wp_audited_noted blake3 (some caller) req)

/-- The entry names the caller and the tenant. -/
def Names (caller : Option Caller) (t : String) (entry : AuditEntry) : Prop :=
  entry.principal = principalLabel (caller.getD .anonymous) ∧ entry.tenant = t

/-- The entries of a batch name the caller and the tenant. -/
private theorem batchAudited_names (ops : List BatchOp) :
    ∀ {trail : List AuditEntry}, (∀ e ∈ trail, Names caller t e) →
      (batchAudited blake3 cfg caller t ops trail).Yields (fun _ => True)
        fun out => ∀ e ∈ out.2, Names caller t e := by
  induction ops with
  | nil => exact fun h => h
  | cons o rest ih =>
      intro trail h
      rw [batchAudited]
      refine (wp_bind _ _ _).mpr (wp_mono ?_ (yields_any _))
      rintro - (st | u) -
      · exact h
      · refine ih fun e he => ?_
        rcases List.mem_append.mp he with he | he
        · exact h e he
        · obtain rfl := List.mem_singleton.mp he
          exact ⟨rfl, rfl⟩

/-- The entry of a single call does. -/
private theorem thenAudit_names {α : Type} (x : GrpcM α) {entry : AuditEntry}
    (h : Names caller t entry) :
    (thenAudit x entry).Yields (fun _ => True)
      fun out => ∀ e ∈ out.2, Names caller t e := by
  refine (wp_bind _ _ _).mpr (wp_mono ?_ (yields_any _))
  rintro - (st | a) -
  · exact fun e he => nomatch he
  · intro e he
    obtain rfl := List.mem_singleton.mp he
    exact h

/-- So the entries of every request do. -/
private theorem audited_names (blake3 : Bytes → Vector UInt8 32)
    (caller : Option Caller) (req : Request) :
    (req.audited blake3 cfg caller t).Yields (fun _ => True)
      fun out => ∀ e ∈ out.2, Names caller t e := by
  cases req with
  | put key value ttlMs =>
      exact (wp_map _ _ _).mpr (thenAudit_names _ ⟨rfl, rfl⟩)
  | delete key => exact (wp_map _ _ _).mpr (thenAudit_names _ ⟨rfl, rfl⟩)
  | batch ops =>
      refine (wp_bind _ _ _).mpr (wp_mono ?_ (yields_any _))
      rintro - (st | u) -
      · exact fun e he => nomatch he
      · exact (wp_map _ _ _).mpr (batchAudited_names ops nofun)
  | get key | scan userPrefix limit | watch keyPrefix =>
      exact (wp_map _ _ _).mpr (wp_mono (fun _ _ _ _ he => nomatch he)
        (yields_any _))

/-- An entry names somebody the interceptor let pass. -/
theorem serveRpc_names (blake3 : Bytes → Vector UInt8 32)
    (auth : AuthInterceptor) (header : Option Bytes) (req : Request) :
    (serveRpc blake3 cfg auth header t req).Yields (fun _ => True)
      fun out => ∀ e ∈ out.2, ∃ now caller,
        auth.call now header = .ok caller ∧ Names (some caller) t e := by
  refine ⟨trivial, fun now => ?_⟩
  show wp _ _ (serveAs blake3 cfg t req (auth.call now header)) _
  cases hc : auth.call now header with
  | error st => exact fun e he => nomatch he
  | ok caller =>
      refine (wp_map _ _ _).mpr (wp_mono ?_
        (audited_names blake3 (some caller) req))
      exact fun _ out h e he => ⟨now, caller, hc, h e he⟩

end Requests

-- =================================================== what else a node does

section Inside

variable {ext : Externals} {cfg : NodeConfig} {s s' : Session}

/-- A sweep writes deletes only. -/
private theorem sweepOnce_noted (log : List (Write Bytes Bytes)) :
    wp noting (fun log' _ => ∃ new, log' = log ++ new
        ∧ ∀ write ∈ new, ∃ key, write = .delete key)
      (sweepOnce cfg) log := by
  refine sweepOnce_preserves (L := noting) (I := fun log' => ∃ new,
    log' = log ++ new ∧ ∀ write ∈ new, ∃ key, write = .delete key)
    ?_ ?_ ?_ log ⟨[], (List.append_nil log).symm, nofun⟩
  · intro g p hg hp
    exact ⟨trivial, fun r => by rw [note_aside (hp.inert.writesNoData r)]; exact hg⟩
  · intro key raw g hg
    exact wp_noting_inert ((reschedule_uses key raw).mono
      fun _ hp => hp.inert) fun _ => hg
  · intro key g hg
    refine wp_mono ?_ (wp_delete_note key)
    rintro g' (e | u) h
    · exact h ▸ hg
    · obtain ⟨new, rfl, hnew⟩ := hg
      obtain rfl : g' = _ := h
      refine ⟨new ++ ([.delete key] : List (Write Bytes Bytes)).filter
        (IsData ·.key), List.append_assoc .., fun write hw => ?_⟩
      rcases List.mem_append.mp hw with hw | hw
      · exact hnew write hw
      · exact ⟨key, List.mem_singleton.mp (List.mem_of_mem_filter hw)⟩

/-- A turn of a stream writes no data. -/
theorem watchPoll_spares (state : WatchState) (idleFirst : Bool) :
    (watchPoll state idleFirst).Uses Prim.WritesNoData := by
  refine (watchPoll_uses state idleFirst).mono fun p hp => ?_
  rcases hp with hp | hp
  · rw [hp]
    exact Prim.Inert.writesNoData trivial
  · exact Prim.OnWatch.writesNoData ⟨_, hp⟩

/-- What writes no data leaves the data. -/
theorem served_spares {α : Type} {x : NodeProg α} {w w' : World} {a : α}
    (h : Session.Served ext x w a w') (hx : x.Uses Prim.WritesNoData) :
    SameData w'.storage.contents w.storage.contents := by
  have hnone : wp noting (fun log _ => log = []) x [] :=
    wp_noting_noData hx fun _ => rfl
  obtain ⟨new, rfl, hdata⟩ := ends_noted h hnone
  exact hdata

/-- Nor does what becomes of the stream after the turn. -/
private theorem contents_turned (s : Session) (t : String) (j : Nat)
    (st : WatchState) (turn : StreamTurn) :
    (s.turned ext t j st turn).world.storage = s.world.storage := by
  cases turn <;> rfl

/-- Beside the RPCs, only a sweep changes data, and it only deletes. -/
theorem inside_noted {a : Action} {out : Output}
    (ha : ∀ principal tenant req, a ≠ .rpc principal tenant req)
    (h : Session.Goes ext cfg s a out s') :
    ∃ new, (∀ write ∈ new, a = .sweep ∧ ∃ key, write = .delete key)
      ∧ SameData s'.world.storage.contents
        (applyAll new s.world.storage.contents) := by
  cases h with
  | rpc _ => exact absurd rfl (ha _ _ _)
  | pollNone _ => exact ⟨[], nofun, fun _ _ => rfl⟩
  | poll _ hserved =>
      refine ⟨[], nofun, ?_⟩
      rw [contents_turned]
      exact served_spares hserved (watchPoll_spares _ _)
  | hangUpNone _ => exact ⟨[], nofun, fun _ _ => rfl⟩
  | hangUp _ => exact ⟨[], nofun, fun _ _ => rfl⟩
  | setQuota hserved =>
      exact ⟨[], nofun, served_spares hserved
        ((adminSetQuota_inert _ _).mono fun _ hp => hp.writesNoData)⟩
  | clearQuota hserved =>
      exact ⟨[], nofun, served_spares hserved
        (adminClearQuota_inert.mono fun _ hp => hp.writesNoData)⟩
  | sweep hserved =>
      obtain ⟨new, ⟨_, hlog, hnew⟩, hdata⟩ :=
        ends_noted hserved (sweepOnce_noted [])
      obtain rfl : new = _ := hlog
      exact ⟨new, fun write hw => ⟨rfl, hnew write hw⟩, hdata⟩
  | tick => exact ⟨[], nofun, fun _ _ => rfl⟩

end Inside

-- ================================================================ whole runs

/-- A change of the data with its origin: the audit entry about it, or the
sweeper. -/
abbrev Change := Option AuditEntry × Write Bytes Bytes

/-- The audit entry is about the change; the sweeper only deletes. -/
def Change.Accountable (blake3 : Bytes → Vector UInt8 32) (c : Change) :
    Prop :=
  (∃ entry, c.1 = some entry ∧ Audits blake3 entry c.2)
    ∨ c.1 = none ∧ ∃ key, c.2 = .delete key

section Runs

variable {ext : Externals} {cfg : NodeConfig}
  {blake3 : Bytes → Vector UInt8 32} {auth : AuthInterceptor}

/-- The changes of the data between `m` and `m'`, the audited ones being
those of `entries`. -/
def History (blake3 : Bytes → Vector UInt8 32) (m m' : Table)
    (entries : List AuditEntry) (history : List Change) : Prop :=
  history.filterMap Prod.fst = entries
    ∧ (∀ c ∈ history, c.Accountable blake3)
    ∧ SameData m' (applyAll (history.map Prod.snd) m)

/-- Histories one after the other. -/
theorem History.trans {m m' m'' : Table} {entries entries' : List AuditEntry}
    {history history' : List Change}
    (h : History blake3 m m' entries history)
    (h' : History blake3 m' m'' entries' history') :
    History blake3 m m'' (entries ++ entries') (history ++ history') := by
  obtain ⟨he, ha, hd⟩ := h
  obtain ⟨he', ha', hd'⟩ := h'
  refine ⟨by rw [List.filterMap_append, he, he'], fun c hc => ?_, fun k hk => ?_⟩
  · exact (List.mem_append.mp hc).elim (ha c) (ha' c)
  · rw [hd' k hk, List.map_append, applyAll_append]
    exact hd.applyAll _ k hk

/-- Audited writes. -/
theorem history_of_audits {m m' : Table} {entries : List AuditEntry}
    {new : List (Write Bytes Bytes)}
    (h : List.Forall₂ (Audits blake3) entries new)
    (hd : SameData m' (applyAll new m)) :
    History blake3 m m' entries (List.zip (entries.map some) new) := by
  have hpairs : (List.zip (entries.map some) new).filterMap Prod.fst = entries
      ∧ (List.zip (entries.map some) new).map Prod.snd = new
      ∧ ∀ c ∈ List.zip (entries.map some) new,
        ∃ entry, c.1 = some entry ∧ Audits blake3 entry c.2 := by
    clear hd
    induction h with
    | nil => exact ⟨rfl, rfl, nofun⟩
    | @cons entry write entries new hw _ ih =>
        obtain ⟨he, hn, ha⟩ := ih
        refine ⟨congrArg (entry :: ·) he, congrArg (write :: ·) hn, ?_⟩
        rintro c (_ | ⟨_, hc⟩)
        · exact ⟨entry, rfl, hw⟩
        · exact ha c hc
  obtain ⟨he, hn, ha⟩ := hpairs
  exact ⟨he, fun c hc => .inl (ha c hc), by rw [hn]; exact hd⟩

/-- Evictions. -/
theorem history_of_sweep {m m' : Table} {new : List (Write Bytes Bytes)}
    (h : ∀ write ∈ new, ∃ key, write = .delete key)
    (hd : SameData m' (applyAll new m)) :
    History blake3 m m' [] (new.map fun write => (none, write)) := by
  refine ⟨?_, fun c hc => ?_, ?_⟩
  · rw [List.filterMap_map]
    exact List.filterMap_eq_nil_iff.mpr fun _ _ => rfl
  · obtain ⟨write, hw, rfl⟩ := List.mem_map.mp hc
    exact .inr ⟨rfl, h write hw⟩
  · rw [List.map_map, show (Prod.snd ∘ fun write => ((none, write) : Change))
      = id from rfl, List.map_id]
    exact hd

/-- Handing a reply over changes no world. -/
private theorem world_heard (s : Session) (t : String) (reply : Reply) :
    (Server.heard s t reply).world = s.world := by
  cases reply with
  | refused st => rfl
  | response r => exact s.world_opened t r

/-- One event. -/
theorem goes_history {s s' : Session} {e : Server.Event}
    {entries : List AuditEntry}
    (h : Server.Goes ext cfg blake3 auth s e entries s') :
    ∃ history, History blake3 s.world.storage.contents
        s'.world.storage.contents entries history
      ∧ ∀ c ∈ history, c.1 = none → e = .inside .sweep := by
  cases h with
  | @rpc header tenant req reply _ w hserved =>
      have hnoted : wp noting (fun log out => Accounted blake3 [] out.2 log)
          (serveRpc blake3 cfg auth header tenant req) [] :=
        wp_serveRpc_noted blake3 auth header req
      obtain ⟨new, ⟨_, hlog, hall⟩, hdata⟩ := ends_noted hserved hnoted
      obtain rfl : new = _ := hlog
      rw [world_heard]
      refine ⟨_, history_of_audits hall hdata, fun c hc hnone => ?_⟩
      obtain ⟨entry, -, hentry⟩ := List.mem_map.mp (List.of_mem_zip hc).1
      rw [hnone] at hentry
      cases hentry
  | inside ha hgo =>
      obtain ⟨new, hnew, hdata⟩ := inside_noted ha hgo
      refine ⟨_, history_of_sweep (fun write hw => (hnew write hw).2) hdata, ?_⟩
      rintro c hc -
      obtain ⟨write, hw, rfl⟩ := List.mem_map.mp hc
      rw [(hnew write hw).1]

/-- Who the entries of an event name. -/
theorem goes_names {s s' : Session} {e : Server.Event}
    {entries : List AuditEntry}
    (h : Server.Goes ext cfg blake3 auth s e entries s') :
    ∀ entry ∈ entries, ∃ header t req now caller,
      e = .rpc header t req ∧ auth.call now header = .ok caller
        ∧ Names (some caller) t entry := by
  cases h with
  | @rpc header t req reply _ w hserved =>
      intro entry hentry
      have hnames : wp (restless ext fun _ _ => True)
          (fun _ out => ∀ e ∈ out.2, ∃ now caller,
            auth.call now header = .ok caller ∧ Names (some caller) t e)
          (serveRpc blake3 cfg auth header t req) s.world :=
        wp_of_yields (L := restless ext fun _ _ => True) (I := fun _ => True)
          (fun _ _ _ _ => restless_post fun _ _ _ _ => trivial)
          (fun _ _ _ h => h) (serveRpc_names blake3 auth header req) trivial
      obtain ⟨now, caller, hcall, hn⟩ := hserved.post hnames entry hentry
      exact ⟨header, t, req, now, caller, rfl, hcall, hn⟩
  | inside ha hgo => exact fun _ he => nomatch he

/-- The audit trail accounts for the data, whatever calls fail. The data at
the end of a run is the data at its start with the audited writes and the
evictions made in order: each audit entry is about one of the writes, each
write that is not an eviction has its entry, and there are no evictions
without a sweep. An entry names somebody whom the interceptor let pass. -/
theorem audit_accounts (ext : Externals) (cfg : NodeConfig)
    (blake3 : Bytes → Vector UInt8 32) (auth : AuthInterceptor)
    {s s' : Session} {steps : List (Server.Event × List AuditEntry)}
    (h : Server.Runs ext cfg blake3 auth s steps s') :
    (∃ history : List Change,
      history.filterMap Prod.fst = steps.flatMap Prod.snd
        ∧ (∀ c ∈ history, c.Accountable blake3)
        ∧ (∀ c ∈ history, c.1 = none → ∃ step ∈ steps,
          step.1 = .inside .sweep)
        ∧ SameData s'.world.storage.contents
          (applyAll (history.map Prod.snd) s.world.storage.contents))
      ∧ ∀ step ∈ steps, ∀ entry ∈ step.2, ∃ header t req now caller,
        step.1 = .rpc header t req ∧ auth.call now header = .ok caller
          ∧ Names (some caller) t entry := by
  induction h with
  | nil => exact ⟨⟨[], rfl, nofun, nofun, fun _ _ => rfl⟩, nofun⟩
  | @snoc s₁ s₂ steps e entries _ hgo ih =>
      obtain ⟨⟨history, he, ha, hsweep, hd⟩, hnames⟩ := ih
      -- a step adds its own changes, and those without an entry are the
      -- sweeper's
      obtain ⟨new, hnew, hnone⟩ := goes_history hgo
      obtain ⟨he', ha', hd'⟩ := History.trans ⟨he, ha, hd⟩ hnew
      refine ⟨⟨history ++ new, ?_, ha', fun c hc hc1 => ?_, hd'⟩, ?_⟩
      · rw [he', List.flatMap_append, List.flatMap_singleton]
      · rcases List.mem_append.mp hc with hc | hc
        · obtain ⟨step, hs, hstep⟩ := hsweep c hc hc1
          exact ⟨step, List.mem_append_left _ hs, hstep⟩
        · exact ⟨(e, entries), by simp, hnone c hc hc1⟩
      · intro step hstep
        rcases List.mem_append.mp hstep with hs | hs
        · exact hnames step hs
        · obtain rfl := List.mem_singleton.mp hs
          exact goes_names hgo

end Runs

/-- A verifier that knows one token, for a reader and writer of `a`. -/
def oneVerifier : JwtVerifier :=
  ⟨fun _ token => if token = "T" then
    .ok ⟨"u", "a", [permRead, permWrite]⟩ else .error (.other "unknown")⟩

/-- The interceptor with that verifier. -/
def oneToken : AuthInterceptor := .withVerifier oneVerifier

/-- A node with room for three bytes. -/
def threeByteNode : NodeConfig := { quota := { maxBytes := 3 } }

/-- Two puts, of which there is room for one. -/
def halfFits : NodeProg (Reply × List AuditEntry) :=
  serveRpc digest threeByteNode oneToken (some (asBytes "Bearer T")) "a"
    (.batch [⟨opPut, [1], [5]⟩, ⟨opPut, [2], [6, 7]⟩])

/-- The batch is refused halfway, and the write it has made is accounted
for. -/
theorem audit_accounts_halfway :
    ∃ history : List Change,
      history.filterMap Prod.fst = [⟨"u", "a", "put", "48fc721fbbc172e0", 1⟩]
        ∧ SameData (halfFits.run (Prim.exec .plain none)
            (.opened threeByteNode)).2.storage.contents
          (applyAll (history.map Prod.snd)
            (World.opened threeByteNode).storage.contents) := by
  have hentries : (halfFits.run (Prim.exec .plain none)
      (.opened threeByteNode)).1.2
        = [⟨"u", "a", "put", "48fc721fbbc172e0", 1⟩] := by decide +kernel
  have hserved : Session.Served .plain halfFits (.opened threeByteNode)
      (_, _) _ := Session.served_run _ _
  have hrun := Server.Runs.snoc (.nil ⟨.opened threeByteNode, fun _ => []⟩)
    (Server.Goes.rpc hserved)
  obtain ⟨⟨history, he, -, -, hd⟩, -⟩ :=
    audit_accounts .plain threeByteNode digest oneToken hrun
  refine ⟨history, ?_, ?_⟩
  · rw [he, ← hentries]
    exact List.append_nil _
  · rw [world_heard] at hd
    exact hd

end FerrisKv
