/-
When the log and the store disagree on the order of two writes.

A write goes to the log and to the store under two independent locks. If
two calls append on one key in one order and write to storage in the
other, the live value is not the one a replay ends with: the next restart
silently changes what the key reads as (`restart_changes_value`).

Runs in which the storage writes of a key come in the order of its
appends have no such key (`replay_agrees`): no call writes to storage
while another call that appended on the same key earlier is still to
write.
-/
import FerrisKv.Proofs.Concurrent.Stage

namespace FerrisKv

open Std Prog NodeService WriteLog

-- =============================================================== the appends

/-- Call `j` appended before call `i` did. -/
def AppendedBefore (log : List NodeEvent) (j i : Nat) : Prop :=
  ∃ r r', [(j, r), (i, r')].Sublist (appends log)

/-- The last append on a key, and whose it was. -/
def lastAppend (log : List NodeEvent) (k : Bytes) :
    Option (Nat × WalRecord) :=
  (appends log).reverse.find? fun a => a.2.key = k

/-- A storage write comes after those of all calls that appended on the
key earlier. -/
def InTurn (pool : NodePool) (i : Nat) (p : Prim) : Prop :=
  ∀ r, pool.stage i = .logged r → p = .storage r.store →
    ∀ j ≠ i, ∀ r', pool.stage j = .logged r' → r'.key = r.key →
      ¬ AppendedBefore pool.log j i

/-- The step drops the segment. -/
def Prim.isRotate : Prim → Bool
  | .wal .rotate => true
  | _ => false

section LastAppend

variable {log : List NodeEvent} {k : Bytes} {i : Nat} {r : WalRecord}

/-- An event that appends nothing is no last append. -/
private theorem lastAppend_snoc_none {e : NodeEvent} (h : appendOf e = none) :
    lastAppend (log ++ [e]) k = lastAppend log k := by
  rw [lastAppend, appends_snoc_of_none h, lastAppend]

/-- One that appends is the last for its key. -/
private theorem lastAppend_snoc_some {e : NodeEvent}
    (h : appendOf e = some (i, r)) : lastAppend (log ++ [e]) k
      = if r.key = k then some (i, r) else lastAppend log k := by
  rw [lastAppend, appends_snoc, h]
  show List.find? _ (appends log ++ [(i, r)]).reverse = _
  rw [List.reverse_append, List.reverse_singleton, List.singleton_append,
    List.find?_cons]
  by_cases hk : r.key = k <;> simp [hk, lastAppend]

/-- The last append for a key is of that key. -/
private theorem lastAppend_key (h : lastAppend log k = some (i, r)) :
    r.key = k := by
  simpa using List.find?_some h

/-- A key that was appended has a last append. -/
private theorem lastAppend_isSome (h : (i, r) ∈ appends log) (hk : r.key = k) :
    ∃ a, lastAppend log k = some a := by
  rw [← Option.isSome_iff_exists, lastAppend, List.find?_isSome]
  exact ⟨(i, r), List.mem_reverse.mpr h, by simpa using hk⟩

/-- Whoever else appended on the key did so before the last one. -/
theorem appendedBefore_last (h : lastAppend log k = some (i, r)) {j : Nat}
    {r' : WalRecord} (hj : (j, r') ∈ appends log) (hk : r'.key = k)
    (hne : j ≠ i) : AppendedBefore log j i := by
  obtain ⟨-, l₁, l₂, hsplit, hnone⟩ := List.find?_eq_some_iff_append.mp h
  have hlog : appends log = l₂.reverse ++ (i, r) :: l₁.reverse := by
    rw [← List.reverse_reverse (appends log), hsplit]
    simp
  have hmem : (j, r') ∈ l₂.reverse := by
    rw [hlog] at hj
    rcases List.mem_append.mp hj with hj | hj
    · exact hj
    · rcases List.mem_cons.mp hj with hj | hj
      · cases hj
        exact absurd rfl hne
      · have hno := hnone _ (List.mem_reverse.mp hj)
        simp [hk] at hno
  refine ⟨r', r, ?_⟩
  rw [hlog]
  exact (List.singleton_sublist.mpr hmem).append
    (List.Sublist.cons_cons _ (List.nil_sublist _))

end LastAppend

-- ============================================================ the invariant

/-- The segment ends each key with its last append; and unless that append
still waits for its storage write, nobody waits on the key and the store
has the same. -/
structure InOrder (pool : NodePool) : Prop where
  wal : ∃ records, pool.world.wal.Holds records
    ∧ ∀ k i r, lastAppend pool.log k = some (i, r) →
      lastWrite (records.map WalRecord.write) k = some r.write.value
  logged : ∀ i r, pool.stage i = .logged r → (i, r) ∈ appends pool.log
  store : ∀ k i r, IsData k → lastAppend pool.log k = some (i, r) →
    pool.stage i = .logged r
      ∨ (∀ j r', pool.stage j = .logged r' → r'.key ≠ k)
        ∧ pool.world.storage.contents[k]? = r.write.value

section Steps

variable {ext : Externals} {pool : NodePool} {i : Nat} {p : Prim}
  {k : p.Resp → NodeProg Answer}

/-- A step that is no append, after which the same calls wait and the data
is the same. -/
theorem InOrder.keep (h : InOrder pool)
    (hnone : ∀ a, appendOf ⟨i, p, a⟩ = none)
    (hwal : (p.exec ext none pool.world).2.wal = pool.world.wal)
    (hdata : ∀ key, IsData key →
      (p.exec ext none pool.world).2.storage.contents[key]?
        = pool.world.storage.contents[key]?)
    (hstage : ∀ j r, (pool.after ext i p k).stage j = .logged r
      ↔ pool.stage j = .logged r) :
    InOrder (pool.after ext i p k) := by
  obtain ⟨records, hholds, hlast⟩ := h.wal
  have hsame : ∀ key, lastAppend (pool.after ext i p k).log key
      = lastAppend pool.log key := fun _ => lastAppend_snoc_none (hnone _)
  refine ⟨⟨records, ?_, fun key j r hl => ?_⟩, fun j r hj => ?_,
    fun key j r hk hl => ?_⟩
  · show (p.exec ext none pool.world).2.wal.Holds records
    rw [hwal]
    exact hholds
  · rw [hsame] at hl
    exact hlast key j r hl
  · show (j, r) ∈ appends (pool.log ++ [_])
    rw [appends_snoc_of_none (hnone _)]
    exact h.logged j r ((hstage j r).mp hj)
  · rw [hsame] at hl
    refine (h.store key j r hk hl).imp (hstage j r).mpr ?_
    rintro ⟨hfree, hval⟩
    exact ⟨fun j' r' hj' => hfree j' r' ((hstage j' r').mp hj'),
      (hdata key hk).trans hval⟩

/-- The stage of call `i` moves between two that do not wait. -/
theorem stage_logged_iff {s : Stage} (hs : pool.stage i = s)
    (hfree : ∀ r, s ≠ .logged r)
    (hfree' : ∀ r, s.advance p (p.exec ext none pool.world).1 ≠ .logged r)
    (j : Nat) (r : WalRecord) :
    (pool.after ext i p k).stage j = .logged r
      ↔ pool.stage j = .logged r := by
  by_cases hij : i = j
  · subst hij
    rw [stage_fire_self, hs, iff_false_left (hfree' r)]
    exact hfree r
  · rw [stage_fire_ne hij]

/-- A new record is to be stored, and the last for its key. -/
theorem InOrder.append (h : InOrder pool) {op : WalOp} {key value : Bytes}
    (hk : key.length < 2 ^ 32) (hv : value.length < 2 ^ 32)
    (hs : pool.stage i = .fresh)
    {k : (Prim.wal (.append op key value)).Resp → NodeProg Answer} :
    InOrder (pool.after ext i (.wal (.append op key value)) k) := by
  obtain ⟨records, hholds, hlast⟩ := h.wal
  have hself : (pool.after ext i (.wal (.append op key value)) k).stage i
      = .logged (pool.world.wal.nextRecord op key value) := by
    rw [stage_fire_self, hs]
    rfl
  have hnew : ∀ k', lastAppend
        (pool.after ext i (.wal (.append op key value)) k).log k'
      = if (pool.world.wal.nextRecord op key value).key = k' then
          some (i, pool.world.wal.nextRecord op key value)
        else lastAppend pool.log k' := fun _ => lastAppend_snoc_some rfl
  refine ⟨⟨_, (hholds.append op hk hv).2, fun k' j r hl => ?_⟩,
    fun j r hj => ?_, fun k' j r hd hl => ?_⟩
  · rw [List.map_append, List.map_singleton, lastWrite_snoc,
      WalRecord.write_key]
    rw [hnew] at hl
    split at hl
    · next hkey =>
        cases hl
        rw [if_pos hkey]
    · next hkey =>
        rw [if_neg hkey]
        exact hlast k' j r hl
  · by_cases hij : i = j
    · subst hij
      rw [hself] at hj
      cases hj
      exact mem_appends_of_some rfl
    · rw [stage_fire_ne hij] at hj
      exact mem_appends_snoc (h.logged j r hj) _
  · rw [hnew] at hl
    split at hl
    · cases hl
      exact .inl hself
    · next hkey =>
        -- another key: whoever waited on it still does, and nobody new
        refine (h.store k' j r hd hl).imp (fun hj => ?_) fun hfree => ?_
        · have hij : i ≠ j := by
            rintro rfl
            rw [hs] at hj
            cases hj
          rw [stage_fire_ne hij]
          exact hj
        · refine ⟨fun j' r' hj' => ?_, hfree.2⟩
          by_cases hij : i = j'
          · subst hij
            rw [hself] at hj'
            cases hj'
            exact hkey
          · rw [stage_fire_ne hij] at hj'
            exact hfree.1 j' r' hj'

/-- A record stored in its turn is the last for its key in the log and in the
store. -/
theorem InOrder.stored (h : InOrder pool) {r : WalRecord}
    (hs : pool.stage i = .logged r) (hturn : InTurn pool i (.storage r.store))
    {k : (Prim.storage r.store).Resp → NodeProg Answer} :
    InOrder (pool.after ext i (.storage r.store) k) := by
  obtain ⟨records, hholds, hlast⟩ := h.wal
  have hself : (pool.after ext i (.storage r.store) k).stage i
      = .stored r := by
    rw [stage_fire_self, hs, Stage.advance_store]
  have hworld : (pool.after ext i (.storage r.store) k).world
      = { pool.world with storage := pool.world.storage.write r.write } :=
    exec_store ext r pool.world
  have hsame : ∀ key, lastAppend (pool.after ext i (.storage r.store) k).log key
      = lastAppend pool.log key := fun _ => lastAppend_snoc_none rfl
  -- who waits afterwards waited before, and is not this call
  have hwait : ∀ j r', (pool.after ext i (.storage r.store) k).stage j
      = .logged r' → i ≠ j ∧ pool.stage j = .logged r' := by
    intro j r' hj
    by_cases hij : i = j
    · subst hij
      rw [hself] at hj
      cases hj
    · rw [stage_fire_ne hij] at hj
      exact ⟨hij, hj⟩
  refine ⟨⟨records, ?_, fun key j r' hl => ?_⟩, fun j r' hj => ?_,
    fun key j r' hd hl => ?_⟩
  · rw [hworld]
    exact hholds
  · rw [hsame] at hl
    exact hlast key j r' hl
  · exact mem_appends_snoc (h.logged j r' (hwait j r' hj).2) _
  · rw [hsame] at hl
    have hkey := lastAppend_key hl
    rw [hworld]
    show _ ∨ _ ∧ (pool.world.storage.write r.write).contents[key]? = _
    rw [StorageBackend.contents_write, getElem?_apply, WalRecord.write_key]
    obtain hj | ⟨hfree, hval⟩ := h.store key j r' hd hl
    · by_cases hij : i = j
      · -- the last append on its key gets to storage: nobody waits behind it
        subst hij
        rw [hs] at hj
        cases hj
        refine .inr ⟨fun j' r'' hj' hk' => ?_, if_pos hkey⟩
        obtain ⟨hne, hj'⟩ := hwait j' r'' hj'
        refine hturn r hs rfl j' hne.symm r'' hj' (hk'.trans hkey.symm) ?_
        exact appendedBefore_last hl (h.logged j' r'' hj') hk' hne.symm
      · rw [stage_fire_ne hij]
        exact .inl hj
    · have hne : r.key ≠ key := hfree i r hs
      rw [if_neg hne]
      exact .inr ⟨fun j' r'' hj' => hfree j' r'' (hwait j' r'' hj').2, hval⟩

/-- A step keeps log and store in one order, if stores take turns. -/
private theorem inOrder_step (h : InOrder pool) (hok : (pool.stage i).Ok p)
    (hrot : p.isRotate = false) (hturn : InTurn pool i p) :
    InOrder (pool.after ext i p k) := by
  generalize hs : pool.stage i = s at hok
  cases hok with
  | append hk hv => exact h.append hk hv hs
  | store => exact h.stored hs hturn
  | @usage r key value hk =>
      exact h.keep (fun _ => rfl) rfl
        (fun _ hd => getElem?_write_aside _ (.put key value) hk hd)
        (stage_logged_iff hs nofun nofun)
  | flush =>
      refine h.keep (fun _ => rfl) rfl (fun key _ => ?_)
        (stage_logged_iff hs nofun nofun)
      show pool.world.storage.flush.contents[key]? = _
      rw [StorageBackend.contents_flush]
  | rotate => cases hrot
  | quiet hp =>
      obtain ⟨hwal, hstorage⟩ := hp.exec ext pool.world
      refine h.keep (hp.appendOf i) hwal (fun key _ => ?_) fun j r => ?_
      · rw [hstorage]
      · by_cases hij : i = j
        · subst hij
          rw [stage_fire_self, hp.advance]
        · rw [stage_fire_ne hij]

end Steps

/-- So they are in one order over a run in which all stores take turns. The
induction is on the steps, by `inOrder_step`. -/
private theorem inOrder_run {ext : Externals} {cfg : NodeConfig} {w : World}
    {ops : List Op} {pool : NodePool} (hops : ∀ op ∈ ops, op.Writes)
    (hwal : ∃ records, w.wal.Holds records)
    (h : NodePool.Run ext InTurn (NodePool.calls cfg w ops) pool)
    (hrot : ∀ e ∈ pool.log, e.prim.isRotate = false) : InOrder pool := by
  induction h with
  | start =>
      obtain ⟨records, hholds⟩ := hwal
      exact ⟨⟨records, hholds, nofun⟩, nofun, nofun⟩
  | step hrun hi hc ih =>
      refine inOrder_step
        (ih fun e he => hrot e (List.mem_append_left _ he))
        (NodePool.Run.staged hops hrun hi).1 ?_ hc
      exact hrot _ (List.mem_append_right _ (List.mem_singleton_self _))
  | env _ he ih =>
      obtain ⟨now, instant, -, rfl⟩ := he
      obtain ⟨hw, hl, hst⟩ := ih hrot
      exact ⟨hw, hl, hst⟩

/-- The condition, checked on the calls that have moved. -/
def inTurnCheck (pool : NodePool) (i : Nat) (p : Prim) : Bool :=
  match pool.stage i, p with
  | .logged r, .storage _ => pool.log.all fun e =>
      e.tid == i || match pool.stage e.tid with
        | .logged r' => r'.key != r.key
          || !([e.tid, i].isSublist ((appends pool.log).map Prod.fst))
        | _ => true
  | _, _ => true

/-- The check is the condition. -/
private theorem inTurnCheck_sound {pool : NodePool} {i : Nat} {p : Prim}
    (h : inTurnCheck pool i p = true) : InTurn pool i p := by
  intro r hr hp j hj r' hj' hkey hbefore
  subst hp
  unfold inTurnCheck at h
  rw [hr] at h
  -- the earlier call's append stands before that of call `i`
  have hsub : [j, i].isSublist ((appends pool.log).map Prod.fst) = true := by
    obtain ⟨_, _, hpair⟩ := hbefore
    exact List.isSublist_iff_sublist.mpr (hpair.map Prod.fst)
  have hothers : ∀ j ≠ i, ∀ r', pool.stage j = .logged r' → r'.key = r.key →
      [j, i].isSublist ((appends pool.log).map Prod.fst) = false := by
    refine NodePool.forall_stage (fun j s => ∀ r', s = .logged r' →
      r'.key = r.key → [j, i].isSublist ((appends pool.log).map Prod.fst)
        = false) (fun _ _ hs => by cases hs) fun e he hne r' hs hk => ?_
    have hall := List.all_eq_true.mp h e he
    rw [hs] at hall
    simpa [hne, hk] using hall
  rw [hothers j hj r' hj' hkey] at hsub
  cases hsub

-- ================================================================= the law

/-- Once all calls have returned, replaying the segment over the storage
contents from before the calls gives the live contents of every data key
they wrote, as long as every storage write came in its turn. -/
theorem replay_agrees (ext : Externals) (cfg : NodeConfig) {w : World}
    {ops : List Op} (hops : ∀ op ∈ ops, op.Writes)
    (hwal : ∃ records, w.wal.Holds records) {pool : NodePool}
    (h : NodePool.Run ext InTurn (NodePool.calls cfg w ops) pool)
    (hrot : ∀ e ∈ pool.log, e.prim.isRotate = false)
    (hdone : ∀ i < ops.length, ∃ a, pool.result i = some a)
    {k : Bytes} (hk : IsData k)
    (hwritten : ∃ i r, (i, r) ∈ appends pool.log ∧ r.key = k) :
    (applyAll (pool.world.wal.records.map WalRecord.write)
        w.storage.contents)[k]?
      = pool.world.storage.contents[k]? := by
  have hinv := inOrder_run hops hwal h hrot
  obtain ⟨records, hholds, hlast⟩ := hinv.wal
  obtain ⟨i, r, hmem, hkey⟩ := hwritten
  obtain ⟨⟨j, r'⟩, hl⟩ := lastAppend_isSome hmem hkey
  rw [hholds.records_eq, getElem?_applyAll, hlast k j r' hl, Option.getD_some]
  obtain hj | ⟨-, hval⟩ := hinv.store k j r' hk hl
  · exact absurd hj (NodePool.Run.all_settled hops h hdone j r')
  · exact hval.symm

/-- Two puts on one key. -/
def sameKeyPuts : List Op :=
  [.put (KeyCodec.bytesOf "a" .data [1]) [2] 0,
    .put (KeyCodec.bytesOf "a" .data [1]) [3] 0]

/-- Both append before either writes to storage; they then write in the
order of their records. -/
def inOrderPuts : NodePool :=
  Pool.play (Prim.exec .plain none)
    (List.replicate 3 0 ++ List.replicate 3 1 ++ [0, 1]
      ++ List.replicate 5 0 ++ List.replicate 5 1)
    (NodePool.calls {} (.opened {}) sameKeyPuts)

/-- The replay ends with the second value, as the store has. -/
theorem replay_agrees_two_puts :
    NodePool.Run .plain InTurn (NodePool.calls {} (.opened {}) sameKeyPuts)
        inOrderPuts
      ∧ inOrderPuts.result 0 = some (.done (.ok ()))
      ∧ inOrderPuts.result 1 = some (.done (.ok ()))
      ∧ inOrderPuts.world.storage.contents[KeyCodec.bytesOf "a" .data [1]]?
        = some (ValueCodec.encode [3] none)
      ∧ (applyAll (inOrderPuts.world.wal.records.map WalRecord.write)
          (World.opened {}).storage.contents)[
            KeyCodec.bytesOf "a" .data [1]]?
        = inOrderPuts.world.storage.contents[
            KeyCodec.bytesOf "a" .data [1]]? := by
  have hturn : Pool.Allowed (Prim.exec .plain none)
      (fun pool i p => inTurnCheck pool i p = true)
      (List.replicate 3 0 ++ List.replicate 3 1 ++ [0, 1]
        ++ List.replicate 5 0 ++ List.replicate 5 1)
      (NodePool.calls {} (.opened {}) sameKeyPuts) := by
    decide +kernel
  have hrun : NodePool.Run .plain InTurn
      (NodePool.calls {} (.opened {}) sameKeyPuts) inOrderPuts :=
    (Pool.run_play _ hturn).mono fun _ _ _ h => inTurnCheck_sound h
  have hops : ∀ op ∈ sameKeyPuts, op.Writes := by
    intro op hop
    rcases List.mem_pair.mp hop with rfl | rfl
    · exact ⟨by decide, by decide⟩
    · exact ⟨by decide, by decide⟩
  have hret : ∀ i < 2, inOrderPuts.result i = some (.done (.ok ())) := by
    decide +kernel
  refine ⟨hrun, hret 0 (by decide), hret 1 (by decide), by decide +kernel, ?_⟩
  exact replay_agrees .plain {} hops ⟨[], holds_opened _⟩ hrun
    (by decide +kernel) (fun i hi => ⟨_, hret i hi⟩)
    ⟨"a", [1], KeyCodec.decode_bytesOf (by decide) .data [1]⟩
    ⟨0, ⟨0, .put, KeyCodec.bytesOf "a" .data [1], [0, 2]⟩,
      by decide +kernel, rfl⟩

-- ======================================================== a changed value

/-- The first appends; the second runs from start to end; then the first
goes on. -/
def orderRace : NodePool :=
  Pool.play (Prim.exec .plain none)
    (List.replicate 3 0 ++ List.replicate 9 1 ++ List.replicate 6 0)
    (NodePool.calls {} (.opened {}) sameKeyPuts)

/-- The log and the store can disagree: both calls have returned, nothing
was rotated, the live value is that of the first call, and a replay ends
with that of the second. -/
theorem restart_changes_value :
    NodePool.Run .plain NodePool.anyStep
        (NodePool.calls {} (.opened {}) sameKeyPuts) orderRace
      ∧ (∀ e ∈ orderRace.log, e.prim.isRotate = false)
      ∧ orderRace.result 0 = some (.done (.ok ()))
      ∧ orderRace.result 1 = some (.done (.ok ()))
      ∧ orderRace.world.storage.contents[KeyCodec.bytesOf "a" .data [1]]?
        = some (ValueCodec.encode [2] none)
      ∧ (applyAll (orderRace.world.wal.records.map WalRecord.write)
          (World.opened {}).storage.contents)[
            KeyCodec.bytesOf "a" .data [1]]?
        = some (ValueCodec.encode [3] none) :=
  ⟨Pool.run_play _ (Pool.allowed_of_forall (fun _ _ _ => trivial) _ _),
    by decide +kernel, by decide +kernel, by decide +kernel,
    by decide +kernel, by decide +kernel⟩

end FerrisKv
