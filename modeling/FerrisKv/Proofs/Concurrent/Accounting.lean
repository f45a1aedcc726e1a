/-
When concurrent calls make a usage counter drift, and when they cannot.

Each call reads the old entry, writes the new one and pays the
difference, in three steps. Two calls on one key that both read before
either writes pay twice for one entry (`usage_drifts`). A counter that is
asked below zero saturates, and what it swallows is lost for good.

The books of a whole pool balance as long as neither happens: at every
storage write the entry still counts for what the call's own read said,
and no counter is asked below zero (`usage_exact_undisturbed`). The
invariant is that the counter and all that is due to it make the count.
-/
import FerrisKv.Node.Concurrent
import FerrisKv.Proofs.Node.Usage

namespace FerrisKv

open Prog NodeService WriteLog

-- =========================================================== the condition

/-- Where call `i` is with its accounting. -/
def NodePool.ledger (pool : NodePool) (i : Nat) : Ledger :=
  Pool.ghost Ledger.advance (fun _ => .settled) pool.log i

/-- What is stored under `key` counts for what call `i` read there. -/
def StillCounts (t : String) (pool : NodePool) (i : Nat) (key : Bytes) :
    Prop :=
  match pool.ledger i with
  | .saw key' entry => key' = key →
      share t key pool.world.storage.contents[key]? = share t key entry
  | _ => True

/-- The step does not build on an entry that has changed since it was
read, nor ask `t`'s counter below zero. -/
def Undisturbed (t : String) (pool : NodePool) (i : Nat) : Prim → Prop
  | .storage (.put key _) => StillCounts t pool i key
  | .storage (.delete key) => StillCounts t pool i key
  | .quota (.adjust tenant delta) => tenant = t →
      0 ≤ (pool.world.quotas.usedBytes t : Int) + delta
  | _ => True

instance (t : String) (pool : NodePool) (i : Nat) (key : Bytes) :
    Decidable (StillCounts t pool i key) := by
  unfold StillCounts
  split <;> infer_instance

instance (t : String) (pool : NodePool) (i : Nat) (p : Prim) :
    Decidable (Undisturbed t pool i p) := by
  cases p with
  | storage q =>
      cases q with
      | put key value => exact inferInstanceAs (Decidable (StillCounts t pool i key))
      | delete key => exact inferInstanceAs (Decidable (StillCounts t pool i key))
      | _ => exact instDecidableTrue
  | quota q =>
      cases q with
      | adjust tenant delta => exact inferInstanceAs (Decidable (tenant = t → _))
      | _ => exact instDecidableTrue
  | _ => exact instDecidableTrue

-- =========================================================== the invariant

/-- What is due to `t`'s counter, over the first `n` calls. -/
def NodePool.due (pool : NodePool) (t : String) (n : Nat) : Int :=
  ∑ j ∈ Finset.range n, (pool.ledger j).debt t

/-- The counter and what is due to it make the count. -/
def Balanced (t : String) (n : Nat) (pool : NodePool) : Prop :=
  (pool.world.quotas.usedBytes t : Int) + pool.due t n
    = storedBytes t pool.world.storage.contents

section Steps

variable {ext : Externals} {t : String} {n : Nat} {pool : NodePool}
  {i : Nat} {p : Prim} {k : p.Resp → NodeProg Answer}

/-- A step changes what is due by what it changes in its own ledger. -/
private theorem due_after (hi : i < n) :
    (pool.after ext i p k).due t n = pool.due t n
      + (((pool.ledger i).advance p (p.exec ext none pool.world).1).debt t
        - (pool.ledger i).debt t) :=
  Pool.sum_ghost_snoc (Ledger.debt t) pool.log hi p _

/-- A step moves the balance by what it does to its own ledger, to the
counter and to the count. -/
theorem Balanced.after (h : Balanced t n pool) (hi : i < n)
    (hmove : ((p.exec ext none pool.world).2.quotas.usedBytes t : Int)
        + ((pool.ledger i).advance p (p.exec ext none pool.world).1).debt t
        + storedBytes t pool.world.storage.contents
      = pool.world.quotas.usedBytes t + (pool.ledger i).debt t
        + storedBytes t (p.exec ext none pool.world).2.storage.contents) :
    Balanced t n (pool.after ext i p k) := by
  have hdue : (pool.after ext i p k).due t n = _ := due_after hi
  unfold Balanced at *
  show ((p.exec ext none pool.world).2.quotas.usedBytes t : Int) + _
    = storedBytes t (p.exec ext none pool.world).2.storage.contents
  rw [hdue]
  omega

/-- A write of data over the entry that was read. -/
theorem move_write {key : Bytes} {entry : Option Bytes}
    (hl : pool.ledger i = .saw key entry) (hc : StillCounts t pool i key)
    (wr : Write Bytes Bytes) (hkey : wr.key = key) :
    (pool.world.quotas.usedBytes t : Int)
        + ((pool.ledger i).write key wr.value).debt t
        + storedBytes t pool.world.storage.contents
      = pool.world.quotas.usedBytes t + (pool.ledger i).debt t
        + storedBytes t (pool.world.storage.write wr).contents := by
  subst hkey
  have hmove := storedBytes_apply t pool.world.storage.contents wr
  unfold StillCounts at hc
  rw [hl] at hc ⊢
  have hsame := hc rfl
  rw [Ledger.debt_write, StorageBackend.contents_write]
  show _ = (pool.world.quotas.usedBytes t : Int) + 0 + _
  omega

/-- A write of no data. -/
theorem move_aside (wr : Write Bytes Bytes) (hd : ¬ IsData wr.key) :
    (pool.world.quotas.usedBytes t : Int)
        + ((pool.ledger i).write wr.key wr.value).debt t
        + storedBytes t pool.world.storage.contents
      = pool.world.quotas.usedBytes t + (pool.ledger i).debt t
        + storedBytes t (pool.world.storage.write wr).contents := by
  rw [Ledger.write_of_not_data hd, StorageBackend.contents_write,
    storedBytes_apply_of_not_data hd]

/-- A step keeps counter and debts balanced with the data, if nobody comes
between a look and a write. -/
theorem balanced_step (h : Balanced t n pool) (hi : i < n)
    (hok : (pool.ledger i).Ok p) (hc : Undisturbed t pool i p) :
    Balanced t n (pool.after ext i p k) := by
  refine h.after hi ?_
  generalize hl : pool.ledger i = g at hok
  cases hok with
  | get hg => rw [hg t]; rfl
  | @put key value entry =>
      rw [← hl]
      exact move_write hl hc (.put key value) rfl
  | @delete key entry =>
      rw [← hl]
      exact move_write hl hc (.delete key) rfl
  | @putAside _ key value hd =>
      rw [← hl]
      exact move_aside (.put key value) hd
  | @deleteAside _ key hd =>
      rw [← hl]
      exact move_aside (.delete key) hd
  | @adjust tenant delta =>
      -- the counter and what is due to it change by the same amount
      show (((pool.world.quotas.adjust tenant delta).2.usedBytes t : Nat) : Int)
        + 0 + _ = _ + (if tenant = t then delta else 0) + _
      rw [usedBytes_adjust]
      by_cases ht : tenant = t
      · subst ht
        rw [if_pos rfl, if_pos rfl, applyDelta_eq (hc rfl)]
        show _ = _ + _ + (storedBytes _ pool.world.storage.contents : Int)
        omega
      · rw [if_neg ht, if_neg ht]
        rfl
  | other hp =>
      have hs := hp.exec ext none pool.world
      have hused : (p.exec ext none pool.world).2.quotas.usedBytes t
          = pool.world.quotas.usedBytes t := by
        unfold QuotaStore.usedBytes
        rw [hs.usage]
      rw [hp.advance, hused, hs.contents]

end Steps

section Runs

variable {ext : Externals} {cfg : NodeConfig} {w : World} {ops : List Op}
  {allow : NodePool → Nat → Prim → Prop} {pool : NodePool}

/-- Every call keeps the books in every interleaving. -/
theorem NodePool.Run.ledger
    (h : NodePool.Run ext allow (NodePool.calls cfg w ops) pool) {i : Nat}
    {x : NodeProg Answer} (hx : pool.threads[i]? = some x) :
    wp ledgerRules (fun g _ => g.Clear) x (pool.ledger i) := by
  refine Pool.Run.discipline (Q := fun _ (g : Ledger) _ => g.Clear) ?_ h
    i x hx
  intro i x hx
  rw [List.getElem?_map, Option.map_eq_some_iff] at hx
  obtain ⟨op, -, rfl⟩ := hx
  exact prog_ledger cfg op

/-- The threads of a pool are its calls. -/
theorem NodePool.Run.lt_length
    (h : NodePool.Run ext allow (NodePool.calls cfg w ops) pool) {i : Nat}
    {x : NodeProg Answer} (hx : pool.threads[i]? = some x) :
    i < ops.length := by
  have hlt := (List.getElem?_eq_some_iff.mp hx).1
  have hlen : pool.threads.length = (ops.map (Op.prog cfg)).length := h.length
  rwa [hlen, List.length_map] at hlt

/-- So they are balanced over a whole run. -/
private theorem balanced_run {t : String}
    (hw : w.quotas.usedBytes t = storedBytes t w.storage.contents)
    (h : NodePool.Run ext (Undisturbed t) (NodePool.calls cfg w ops) pool) :
    Balanced t ops.length pool := by
  induction h with
  | start =>
      have hdue : (NodePool.calls cfg w ops).due t ops.length = 0 :=
        Finset.sum_eq_zero fun _ _ => rfl
      show (w.quotas.usedBytes t : Int) + _ = _
      rw [hdue, hw, add_zero]
      rfl
  | step hrun hi hc ih =>
      exact balanced_step ih (NodePool.Run.lt_length hrun hi)
        (NodePool.Run.ledger hrun hi).1 hc
  | env _ he ih =>
      obtain ⟨now, instant, -, rfl⟩ := he
      exact ih

end Runs

-- ================================================================= the law

/-- Usage does not drift under concurrency, as long as no call builds on an
entry that has changed since it read it and no counter is asked below
zero. -/
theorem usage_exact_undisturbed (ext : Externals) (cfg : NodeConfig)
    (t : String) {w : World} {ops : List Op} {pool : NodePool}
    (hw : w.quotas.usedBytes t = storedBytes t w.storage.contents)
    (h : NodePool.Run ext (Undisturbed t) (NodePool.calls cfg w ops) pool)
    (hdone : ∀ i < ops.length, ∃ a, pool.result i = some a) :
    pool.world.quotas.usedBytes t
      = storedBytes t pool.world.storage.contents := by
  have hbal := balanced_run hw h
  have hdue : pool.due t ops.length = 0 := by
    refine Finset.sum_eq_zero fun j hj => ?_
    obtain ⟨a, ha⟩ := hdone j (Finset.mem_range.mp hj)
    exact NodePool.Run.ledger h (Pool.result_eq_some.mp ha) t
  unfold Balanced at hbal
  rw [hdue, add_zero] at hbal
  exact_mod_cast hbal

/-- A put and a delete of two keys, interleaved step by step. -/
theorem usage_exact_undisturbed_pair :
    ∃ pool, NodePool.Run .plain (Undisturbed "a")
        (NodePool.calls {} (.opened {})
          [.put (KeyCodec.bytesOf "a" .data [1]) [2] 0,
            .delete (KeyCodec.bytesOf "a" .data [3])]) pool
      ∧ pool.world.quotas.usedBytes "a" = 2
      ∧ pool.world.quotas.usedBytes "a"
        = storedBytes "a" pool.world.storage.contents := by
  have hrun : NodePool.Run .plain (Undisturbed "a")
      (NodePool.calls {} (.opened {})
        [.put (KeyCodec.bytesOf "a" .data [1]) [2] 0,
          .delete (KeyCodec.bytesOf "a" .data [3])]) _ :=
    Pool.run_play [0, 1, 0, 1, 0, 1, 0, 1, 0, 1, 0, 1, 0, 0, 0]
      (by decide +kernel)
  refine ⟨_, hrun, by decide +kernel,
    usage_exact_undisturbed .plain {} "a" (by decide +kernel) hrun ?_⟩
  intro i hi
  match i, hi with
  | 0, _ => exact ⟨.done (.ok ()), by decide +kernel⟩
  | 1, _ => exact ⟨.done (.ok ()), by decide +kernel⟩

-- ================================================================ a drift

/-- Two puts of one new key: both plan before either writes. -/
def usageRace : NodePool :=
  Pool.play (Prim.exec .plain none)
    ([0, 1] ++ List.replicate 8 0 ++ List.replicate 8 1)
    (NodePool.calls {} (.opened {})
      [.put (KeyCodec.bytesOf "a" .data [1]) [2] 0,
        .put (KeyCodec.bytesOf "a" .data [1]) [3] 0])

/-- Usage can drift: both calls have returned, the tenant stores two bytes
and its counter says four. -/
theorem usage_drifts :
    NodePool.Run .plain NodePool.anyStep (NodePool.calls {} (.opened {})
        [.put (KeyCodec.bytesOf "a" .data [1]) [2] 0,
          .put (KeyCodec.bytesOf "a" .data [1]) [3] 0]) usageRace
      ∧ usageRace.result 0 = some (.done (.ok ()))
      ∧ usageRace.result 1 = some (.done (.ok ()))
      ∧ storedBytes "a" usageRace.world.storage.contents = 2
      ∧ usageRace.world.quotas.usedBytes "a" = 4 :=
  ⟨Pool.run_play _ (Pool.allowed_of_forall (fun _ _ _ => trivial) _ _),
    by decide +kernel, by decide +kernel, by decide +kernel,
    by decide +kernel⟩

end FerrisKv
