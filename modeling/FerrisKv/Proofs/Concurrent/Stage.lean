/-
How far a write is on its way from the log to the store.

A put or delete appends its record, then writes it to storage, and may
then flush and rotate. `Stage` follows one call through this, from its
own steps alone; the programs keep the order whatever the other calls do
(`putWithTtl_staged`, `delete_staged`). What can happen BETWEEN two
stages of one call is up to the other calls, and is what the laws about
rotation and about write order are about.
-/
import FerrisKv.Node.Concurrent
import FerrisKv.Proofs.Node.Durable
import FerrisKv.Proofs.Node.Footprint

namespace FerrisKv

open Prog NodeService

-- =============================================================== the stages

/-- The storage call that carries out a record. -/
def WalRecord.store (r : WalRecord) : StoragePrim :=
  match r.op with
  | .put => .put r.key r.value
  | .delete => .delete r.key

/-- Where a write is: nothing appended, its record appended and not yet
in storage, in storage, in storage and between `flush` and `rotate`. -/
inductive Stage where
  | fresh
  | logged (r : WalRecord)
  | stored (r : WalRecord)
  | flushed (r : WalRecord)

namespace Stage

/-- What a step of the call does to its stage. -/
def advance : Stage → (p : Prim) → p.Resp → Stage
  | .fresh, .wal (.append op key value), .ok seq =>
      .logged ⟨seq, op, key, value⟩
  | .logged r, .storage (.put _ _), _ => .stored r
  | .logged r, .storage (.delete _), _ => .stored r
  | .stored r, .storage .flush, .ok () => .flushed r
  | .flushed r, .wal .rotate, _ => .stored r
  | s, _, _ => s

/-- The steps a write takes at each stage. Beside the four that move it on
it writes its tenant's usage record, which is no data, and otherwise only
takes quiet steps. -/
inductive Ok : Stage → Prim → Prop where
  | append {op : WalOp} {key value : Bytes} (hk : key.length < 2 ^ 32)
      (hv : value.length < 2 ^ 32) : Ok .fresh (.wal (.append op key value))
  | store {r : WalRecord} : Ok (.logged r) (.storage r.store)
  | usage {r : WalRecord} {key value : Bytes} (hk : ¬ IsData key) :
      Ok (.stored r) (.storage (.put key value))
  | flush {r : WalRecord} : Ok (.stored r) (.storage .flush)
  | rotate {r : WalRecord} : Ok (.flushed r) (.wal .rotate)
  | quiet {s : Stage} {p : Prim} (hp : p.Quiet) : Ok s p

/-- Appended and not yet in storage. -/
def isLogged : Stage → Bool
  | .logged _ => true
  | _ => false

/-- Between `flush` and `rotate`. -/
def isFlushed : Stage → Bool
  | .flushed _ => true
  | _ => false

/-- The storage write of a logged record stores it. -/
theorem advance_store (r : WalRecord) (a : (Prim.storage r.store).Resp) :
    (Stage.logged r).advance (.storage r.store) a = .stored r := by
  obtain ⟨seq, op, key, value⟩ := r
  cases op <;> rfl

end Stage

theorem exec_store (ext : Externals) (r : WalRecord) (w : World) :
    ((Prim.storage r.store).exec ext none w).2
      = { w with storage := w.storage.write r.write } := by
  obtain ⟨seq, op, key, value⟩ := r
  cases op <;> rfl

/-- Where call `i` is. -/
def NodePool.stage (pool : NodePool) (i : Nat) : Stage :=
  Pool.ghost Stage.advance (fun _ => .fresh) pool.log i

/-- Where the others are is decided by those that have moved: a call that
has not is still fresh. -/
theorem NodePool.forall_stage {pool : NodePool} {i : Nat}
    (holds : Nat → Stage → Prop) (hfresh : ∀ j, holds j .fresh)
    (h : ∀ e ∈ pool.log, e.tid ≠ i → holds e.tid (pool.stage e.tid)) :
    ∀ j ≠ i, holds j (pool.stage j) := by
  intro j hj
  by_cases hmoved : ∃ e ∈ pool.log, e.tid = j
  · obtain ⟨e, he, htid⟩ := hmoved
    subst htid
    exact h e he hj
  · have hidle : pool.stage j = .fresh :=
      Pool.ghost_of_idle fun e he htid => hmoved ⟨e, he, htid⟩
    rw [hidle]
    exact hfresh j

/-- A write that has returned is not between its record and its storage
write, and has made both if it succeeded. -/
def Settled (s : Stage) (a : Answer) : Prop :=
  (∀ r, s ≠ .logged r) ∧ (a = .done (.ok ()) → ∃ r, s = .stored r)

-- ========================================================= the two programs

section Programs

variable {α : Type} {s : Stage} {r : WalRecord}

/-- The discipline's rules. -/
abbrev stageRules : Rules Stage Prim Prim.Resp := .ghost Stage.Ok Stage.advance

/-- A quiet step leaves the stage. -/
theorem Prim.Quiet.advance {p : Prim} (h : p.Quiet) (s : Stage)
    (a : p.Resp) : s.advance p a = s := by
  cases p with
  | storage q => cases q <;> cases s <;> first | rfl | exact h.elim
  | wal q => cases q <;> cases s <;> first | rfl | exact h.elim
  | _ => cases s <;> rfl

/-- A program of quiet steps stays at its stage. -/
theorem wp_quiet_stage {x : NodeProg α} (hx : x.Uses Prim.Quiet) :
    wp stageRules (fun g _ => g = s) x s := by
  refine wp_of_uses (I := fun g => g = s) ?_ (fun _ _ hI => hI) hx rfl
  rintro _ p rfl hp
  exact ⟨.quiet hp, hp.advance _⟩

/-- The usage record is no data. -/
theorem wp_commit_staged (plan : Option Accounting) :
    wp stageRules (fun g _ => g = .stored r) (commitAccounting plan)
      (.stored r) := by
  refine wp_commitAccounting_of (fun _ => rfl) fun a _ _ =>
    ⟨.quiet trivial, fun total => ⟨fun _ _ => rfl, fun key hk => ?_⟩⟩
  refine ⟨.usage (not_isData_encode hk (by decide)), fun a => ?_⟩
  cases a <;> exact rfl

/-- Rotation comes when the write is stored. -/
private theorem wp_rotate_staged (cfg : NodeConfig) :
    wp stageRules (fun g _ => g = .stored r) (rotateWalIfNeeded cfg)
      (.stored r) := by
  refine ⟨.quiet trivial, fun durable => ?_⟩
  cases durable with
  | false => exact rfl
  | true =>
      refine ⟨.quiet trivial, fun size => ?_⟩
      show wp _ _ (if _ then _ else _) _
      split
      · exact rfl
      · refine ⟨.flush, fun a => ?_⟩
        cases a with
        | error e => exact rfl
        | ok u => exact ⟨.rotate, fun b => by cases b <;> exact rfl⟩

/-- The end of every write. -/
theorem wp_settle_staged (plan : Option Accounting) (key value : Bytes)
    (kind : ChangeKind) (cfg : NodeConfig) :
    wp stageRules (fun g _ => g = .stored r)
      (ExceptT.run (do
        commitAccounting plan
        publishChange key kind value
        rotateWalIfNeeded cfg : NodeM Unit)) (.stored r) := by
  simp only [wp_bindE, wp_lift, onResult_ok]
  refine wp_mono ?_ (wp_commit_staged plan)
  rintro _ _ rfl
  refine wp_mono ?_ (wp_quiet_stage
    ((publishChange_uses key kind value).mono fun _ hp => hp.quiet))
  rintro _ _ rfl
  exact wp_rotate_staged cfg

/-- An early error leaves a write unlogged. -/
theorem settled_fresh (e : Error) : Settled .fresh (.done (.error e)) :=
  ⟨nofun, nofun⟩

theorem settled_stored (a : Answer) : Settled (.stored r) a :=
  ⟨nofun, fun _ => ⟨r, rfl⟩⟩

/-- A put goes through the stages in order, and is stored when it succeeds. -/
private theorem putWithTtl_staged (cfg : NodeConfig) {k v : Bytes} (ttlMs : Nat)
    (hk : k.length < 2 ^ 32) (hv : v.length + 9 < 2 ^ 32) :
    wp stageRules Settled ((Op.put k v ttlMs).prog cfg) .fresh := by
  refine (wp_map _ _ _).mpr ?_
  unfold putWithTtl
  rw [wp_bindE, wp_lift]
  refine wp_mono ?_ (wp_quiet_stage ((expiryStamp_uses ttlMs).mono ?_))
  swap
  · rintro _ rfl
    exact trivial
  rintro _ exp rfl
  rw [onResult_ok, wp_bindE]
  refine wp_mono ?_ (wp_quiet_stage
    ((planAccounting_uses k v.length).mono fun _ hp => hp.quiet))
  rintro _ (e | plan) rfl
  · exact settled_fresh e
  rw [onResult_ok, wp_bindE]
  refine wp_mono ?_ (wp_quiet_stage
    ((checkAccounting_uses plan).mono fun _ hp => hp.quiet))
  rintro _ (e | u) rfl
  · exact settled_fresh e
  rw [onResult_ok, wp_bindE]
  refine ⟨.append hk (ValueCodec.encode_length_lt hv exp), fun a => ?_⟩
  cases a with
  | error e => exact settled_fresh e
  | ok seq =>
      show wp _ _ (ExceptT.run (storagePut k _ >>= _)) _
      refine ⟨.store (r := ⟨seq, .put, k, _⟩), fun a => ?_⟩
      cases a with
      | error e => exact settled_stored _
      | ok u =>
          refine (wp_bindE _ _ _).mpr ((wp_lift _ _).mpr ?_)
          refine wp_mono ?_ (wp_quiet_stage
            ((scheduleExpiry_uses k exp).mono fun _ hp => hp.quiet))
          rintro _ _ rfl
          refine wp_mono ?_ (wp_settle_staged plan k v .put cfg)
          rintro _ a rfl
          exact settled_stored _

/-- So does a delete. -/
private theorem delete_staged (cfg : NodeConfig) {k : Bytes}
    (hk : k.length < 2 ^ 32) :
    wp stageRules Settled ((Op.delete k).prog cfg) .fresh := by
  refine (wp_map _ _ _).mpr ?_
  unfold delete
  rw [wp_bindE]
  refine wp_mono ?_ (wp_quiet_stage
    ((planDeleteAccounting_uses k).mono fun _ hp => hp.quiet))
  rintro _ (e | plan) rfl
  · exact settled_fresh e
  rw [onResult_ok, wp_bindE]
  refine ⟨.append hk (by decide), fun a => ?_⟩
  cases a with
  | error e => exact settled_fresh e
  | ok seq =>
      show wp _ _ (ExceptT.run (storageDelete k >>= _)) _
      refine ⟨.store (r := ⟨seq, .delete, k, []⟩), fun a => ?_⟩
      cases a with
      | error e => exact settled_stored _
      | ok u =>
          refine wp_mono ?_ (wp_settle_staged plan k [] .delete cfg)
          rintro _ a rfl
          exact settled_stored _

end Programs

-- ==================================================================== runs

/-- The record a step appended, and for which call. -/
def appendOf : NodeEvent → Option (Nat × WalRecord)
  | ⟨i, .wal (.append op key value), .ok seq⟩ => some (i, ⟨seq, op, key, value⟩)
  | _ => none

/-- The records appended, oldest first, each with its call. -/
def appends (log : List NodeEvent) : List (Nat × WalRecord) :=
  log.filterMap appendOf

/-- One more event adds the record it appends, if any. -/
theorem appends_snoc (log : List NodeEvent) (e : NodeEvent) :
    appends (log ++ [e]) = appends log ++ (appendOf e).toList := by
  rw [appends, List.filterMap_append]
  rfl

/-- Most events append none. -/
theorem appends_snoc_of_none {log : List NodeEvent} {e : NodeEvent}
    (h : appendOf e = none) : appends (log ++ [e]) = appends log := by
  rw [appends_snoc, h]
  exact List.append_nil _

/-- What was appended stays so. -/
theorem mem_appends_snoc {log : List NodeEvent} {a : Nat × WalRecord}
    (h : a ∈ appends log) (e : NodeEvent) : a ∈ appends (log ++ [e]) := by
  rw [appends_snoc]
  exact List.mem_append_left _ h

/-- An append is among the appends. -/
theorem mem_appends_of_some {log : List NodeEvent} {e : NodeEvent}
    {a : Nat × WalRecord} (h : appendOf e = some a) :
    a ∈ appends (log ++ [e]) := by
  rw [appends_snoc, h]
  exact List.mem_append_right _ (List.mem_singleton_self a)

/-- A quiet step appends nothing. -/
theorem Prim.Quiet.appendOf {p : Prim} (h : p.Quiet) (i : Nat)
    (a : p.Resp) : appendOf ⟨i, p, a⟩ = none := by
  cases p with
  | wal q => cases q <;> first | rfl | exact h.elim
  | _ => rfl

/-- A put or a delete, of a size the log's length fields can hold. -/
def Op.Writes : Op → Prop
  | .put key value _ => key.length < 2 ^ 32 ∧ value.length + 9 < 2 ^ 32
  | .delete key => key.length < 2 ^ 32
  | _ => False

section Runs

variable {ext : Externals} {cfg : NodeConfig} {w : World} {ops : List Op}
  {allow : NodePool → Nat → Prim → Prop} {pool : NodePool}

/-- Both kinds of write go through the stages. -/
theorem Op.Writes.staged {op : Op} (h : op.Writes) (cfg : NodeConfig) :
    wp stageRules Settled (op.prog cfg) .fresh := by
  cases op with
  | put k v ttlMs => exact putWithTtl_staged cfg ttlMs h.1 h.2
  | delete k => exact delete_staged cfg h
  | get k => exact h.elim
  | scan pre => exact h.elim
  | scanRange start stop => exact h.elim
  | sweep => exact h.elim

/-- The segment of a node that has just come up is empty. -/
theorem holds_opened (cfg : NodeConfig) : (World.opened cfg).wal.Holds [] := by
  have hwal : (World.opened cfg).wal
      = ⟨encodeHeader 0, [], 0, headerLen⟩ := by
    unfold World.opened World.fresh
    cases cfg.backend <;> rfl
  rw [hwal]
  exact ⟨⟨0, by decide, rfl⟩, nofun, rfl, by decide⟩

/-- Every call keeps to its stages in every interleaving. -/
theorem NodePool.Run.staged (hops : ∀ op ∈ ops, op.Writes)
    (h : NodePool.Run ext allow (NodePool.calls cfg w ops) pool) {i : Nat}
    {x : NodeProg Answer} (hx : pool.threads[i]? = some x) :
    wp stageRules Settled x (pool.stage i) := by
  refine Pool.Run.discipline (Q := fun _ => Settled) ?_ h i x hx
  intro i x hx
  rw [List.getElem?_map, Option.map_eq_some_iff] at hx
  obtain ⟨op, hop, rfl⟩ := hx
  exact (hops op (List.mem_of_getElem? hop)).staged cfg

/-- Once all calls have returned, none waits for its storage write. -/
theorem NodePool.Run.all_settled (hops : ∀ op ∈ ops, op.Writes)
    (h : NodePool.Run ext allow (NodePool.calls cfg w ops) pool)
    (hdone : ∀ i < ops.length, ∃ a, pool.result i = some a) (i : Nat)
    (r : WalRecord) : pool.stage i ≠ .logged r := by
  intro hi
  by_cases hlt : i < ops.length
  · obtain ⟨a, ha⟩ := hdone i hlt
    exact (h.staged hops (Pool.result_eq_some.mp ha)).1 r hi
  · have hidle : ∀ e ∈ pool.log, e.tid ≠ i := by
      intro e he heq
      have := Pool.Run.tid_lt h e he
      rw [List.length_map] at this
      omega
    have hfresh : pool.stage i = .fresh := Pool.ghost_of_idle hidle
    rw [hfresh] at hi
    cases hi

variable {i j : Nat} {p : Prim} {k : p.Resp → NodeProg Answer}

/-- A step moves the stage of its own call. -/
theorem stage_fire_self :
    (pool.after ext i p k).stage i
      = (pool.stage i).advance p (p.exec ext none pool.world).1 :=
  Pool.ghost_snoc_self _ _ _ _

theorem stage_fire_ne (h : i ≠ j) :
    (pool.after ext i p k).stage j = pool.stage j :=
  Pool.ghost_snoc_ne _ h _ _

end Runs

end FerrisKv
