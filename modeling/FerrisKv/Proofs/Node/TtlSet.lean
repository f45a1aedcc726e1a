/-
The expiration index is a finite set of pairs of an expiry and a key.

`Represents g s` says so of one index: a key is in the bucket of an expiry
exactly when the pair is in `s`, no bucket is empty, and the running total
is the number of pairs. `schedule` inserts a pair and `drain_due` removes
the pairs that are due. The total moves by what the insertion found and by
the length of what was drained; it stays right because a bucket lists each
key once, so that a drain returns one key for each pair it removes.

Every step of a node is one of these or leaves the index alone, so the
index of a running node represents a set at every moment, however the
calls interleave.
-/
import FerrisKv.Node.Concurrent
import FerrisKv.Proofs.Node.TtlIndex

namespace FerrisKv

open Std OrderedScan

/-- The index holds the pairs `s`. -/
structure TtlIndex.Represents (g : TtlIndex) (s : Finset (Nat × Bytes)) :
    Prop where
  scheduled : ∀ k e, g.Scheduled k e ↔ (e, k) ∈ s
  occupied : ∀ (e : Nat) keys, g.byExpiry[e]? = some keys → keys ≠ ∅
  total : g.total = s.card

section Steps

variable {g : TtlIndex} {s : Finset (Nat × Bytes)}

/-- A new index is the empty set. -/
theorem represents_new : TtlIndex.new.Represents ∅ := by
  refine ⟨fun k e => ?_, fun e keys h => ?_, rfl⟩
  · rw [TtlIndex.scheduled_iff]
    simp [TtlIndex.new, members]
  · simp [TtlIndex.new] at h

/-- The pairs of the index are those of the set. -/
theorem TtlIndex.Represents.mem_members (h : g.Represents s)
    {p : Nat × Bytes} : p ∈ members g.byExpiry ↔ p ∈ s :=
  TtlIndex.scheduled_iff.symm.trans (h.scheduled p.2 p.1)

/-- The total is raised when the pair was not there. -/
theorem TtlIndex.Represents.insert (h : g.Represents s) (key : Bytes)
    (exp : Nat) : (g.insert key exp).2.Represents (Insert.insert (exp, key) s) := by
  refine ⟨fun k e => ?_, fun e keys hkeys => ?_, ?_⟩
  · rw [scheduled_insert, h.scheduled, Finset.mem_insert, Prod.mk.injEq,
      eq_comm (a := e), eq_comm (a := k), and_comm]
  · unfold TtlIndex.insert at hkeys
    simp only [ExtTreeMap.getElem?_insert, Std.compare_eq_iff_eq] at hkeys
    split at hkeys
    · cases hkeys
      exact ExtTreeSet.insert_ne_empty
    · exact h.occupied e keys hkeys
  · have hmem : key ∈ g.bucket exp ↔ (exp, key) ∈ s := h.scheduled key exp
    show (if !(g.bucket exp).contains key then g.total + 1 else g.total) = _
    rw [h.total]
    by_cases hin : (exp, key) ∈ s
    · rw [Finset.insert_eq_of_mem hin]
      simp [ExtTreeSet.contains_iff_mem, hmem.mpr hin]
    · rw [Finset.card_insert_of_notMem hin]
      simp [ExtTreeSet.contains_iff_mem, hmem, hin]

/-- What a drain takes out, pair by pair in the order it does. -/
theorem TtlIndex.Represents.due (h : g.Represents s) (now : Nat) :
    ∃ due : List (Nat × Bytes), due.Nodup
      ∧ due.toFinset = s.filter (fun p => p.1 ≤ now)
      ∧ due.Pairwise (fun p q => p.1 ≤ q.1)
      ∧ (g.drainDue now).1 = due.map Prod.snd := by
  refine ⟨(members g.byExpiry).filter fun p => p.1 ≤ now,
    (nodup_members _).filter _, ?_, ?_, drainDue_fst g now⟩
  · ext p
    rw [List.mem_toFinset, List.mem_filter, h.mem_members, Finset.mem_filter,
      decide_eq_true_eq]
  · refine ((pairwise_members g.byExpiry).filter _).imp ?_
    rintro p q (hlt | ⟨heq, -⟩)
    · exact (Nat.compare_eq_lt.mp hlt).le
    · exact heq.le

/-- One key for each pair that is due. -/
theorem TtlIndex.Represents.length_drainDue (h : g.Represents s) (now : Nat) :
    (g.drainDue now).1.length = (s.filter fun p => p.1 ≤ now).card := by
  obtain ⟨due, hnodup, hset, -, hout⟩ := h.due now
  rw [hout, List.length_map, ← hset, List.toFinset_card_of_nodup hnodup]

/-- A drain removes the pairs that are due. -/
theorem TtlIndex.Represents.drainDue (h : g.Represents s) (now : Nat) :
    (g.drainDue now).2.Represents (s.filter fun p => ¬ p.1 ≤ now) := by
  refine ⟨fun k e => ?_, fun e keys hkeys => ?_, ?_⟩
  · rw [scheduled_drainDue, h.scheduled, Finset.mem_filter, Nat.not_le]
  · rw [getElem?_drainDue] at hkeys
    split at hkeys
    · cases hkeys
    · exact h.occupied e keys hkeys
  · show g.total - (g.drainDue now).1.length = _
    have hsplit := Finset.card_filter_add_card_filter_not (s := s)
      fun p => p.1 ≤ now
    rw [h.total, h.length_drainDue]
    omega

/-- An expiry has a bucket when it has a key. -/
theorem TtlIndex.Represents.holds_iff (h : g.Represents s) {e : Nat} :
    g.Holds e ↔ ∃ k, (e, k) ∈ s := by
  simp only [← h.scheduled, TtlIndex.Holds, TtlIndex.Scheduled,
    TtlIndex.bucket]
  cases hb : g.byExpiry[e]? with
  | none => simp
  | some keys =>
      have hne := h.occupied e keys hb
      rw [ne_eq, ExtTreeSet.eq_empty_iff_forall_not_mem, not_forall_not] at hne
      simp [hne]

/-- Nothing is due next exactly if the set is empty. -/
private theorem TtlIndex.Represents.nextDueMs_eq_none (h : g.Represents s) :
    g.nextDueMs = none ↔ s = ∅ := by
  constructor
  · intro hnone
    rw [Finset.eq_empty_iff_forall_notMem]
    intro p hp
    exact TtlIndex.not_holds_of_nextDueMs hnone p.1
      (h.holds_iff.mpr ⟨p.2, hp⟩)
  · rintro rfl
    rw [Option.eq_none_iff_forall_ne_some]
    intro e he
    obtain ⟨k, hk⟩ := h.holds_iff.mp (TtlIndex.holds_nextDueMs he)
    exact absurd hk (Finset.notMem_empty _)

/-- `next_due_ms` is the least expiry. -/
theorem TtlIndex.Represents.nextDueMs_eq_some (h : g.Represents s) (e : Nat) :
    g.nextDueMs = some e ↔ IsLeast {e | ∃ k, (e, k) ∈ s} e := by
  have hleast : ∀ {e}, g.nextDueMs = some e →
      IsLeast {e | ∃ k, (e, k) ∈ s} e := fun he =>
    ⟨h.holds_iff.mp (TtlIndex.holds_nextDueMs he),
      fun _ ht => TtlIndex.nextDueMs_le he (h.holds_iff.mpr ht)⟩
  refine ⟨hleast, fun he => ?_⟩
  cases hd : g.nextDueMs with
  | none =>
      obtain ⟨k, hk⟩ := he.1
      rw [h.nextDueMs_eq_none.mp hd] at hk
      exact absurd hk (Finset.notMem_empty _)
  | some e' => rw [(hleast hd).unique he]

end Steps

-- ==================================================================== calls

/-- A call on the index. -/
inductive TtlCall where
  | schedule (key : Bytes) (expiresAtMs : Nat)
  | drainDue (nowMs : Nat)
  deriving DecidableEq, Repr

/-- The index after the call. -/
def TtlCall.perform (g : TtlIndex) : TtlCall → TtlIndex
  | .schedule key expiresAtMs => g.schedule key expiresAtMs
  | .drainDue nowMs => (g.drainDue nowMs).2

/-- What the call does to a set of pairs. -/
def TtlCall.onPairs (s : Finset (Nat × Bytes)) :
    TtlCall → Finset (Nat × Bytes)
  | .schedule key expiresAtMs => insert (expiresAtMs, key) s
  | .drainDue nowMs => s.filter fun p => ¬ p.1 ≤ nowMs

/-- The wake-up does not touch the pairs. -/
theorem TtlIndex.Represents.notify {g : TtlIndex} {s : Finset (Nat × Bytes)}
    (h : g.Represents s) : { g with permit := true }.Represents s :=
  ⟨h.scheduled, h.occupied, h.total⟩

/-- Every call is an operation on the set. -/
theorem TtlIndex.Represents.perform {g : TtlIndex}
    {s : Finset (Nat × Bytes)} (h : g.Represents s) (c : TtlCall) :
    (c.perform g).Represents (c.onPairs s) := by
  cases c with
  | schedule key exp =>
      have hi := h.insert key exp
      show (if (g.insert key exp).1 then _ else _ : TtlIndex).Represents _
      split
      · exact hi.notify
      · exact hi
  | drainDue now => exact h.drainDue now

/-- From one call to a run of them. -/
theorem TtlIndex.Represents.foldl {g : TtlIndex} {s : Finset (Nat × Bytes)}
    (h : g.Represents s) (calls : List TtlCall) :
    (calls.foldl TtlCall.perform g).Represents
      (calls.foldl TtlCall.onPairs s) := by
  induction calls generalizing g s with
  | nil => exact h
  | cons c calls ih => exact ih (h.perform c)

/-- After any calls the index holds exactly the pairs that were scheduled
and not drained since. `len` counts them, `next_due_ms` is the least expiry
among them and no bucket is empty. The next `drain_due` returns the keys of
the pairs that are due, one for each, by expiry, and never more than the
total it is subtracted from. -/
theorem index_is_finset (calls : List TtlCall) :
    let g := calls.foldl TtlCall.perform .new
    let s := calls.foldl TtlCall.onPairs ∅
    (∀ k e, g.Scheduled k e ↔ (e, k) ∈ s)
      ∧ g.len = s.card
      ∧ (g.isEmpty = true ↔ s = ∅)
      ∧ (g.nextDueMs = none ↔ s = ∅)
      ∧ (∀ e, g.nextDueMs = some e ↔ IsLeast {e | ∃ k, (e, k) ∈ s} e)
      ∧ (∀ (e : Nat) keys, g.byExpiry[e]? = some keys → keys ≠ ∅)
      ∧ ∀ now, (∃ due : List (Nat × Bytes), due.Nodup
            ∧ due.toFinset = s.filter (fun p => p.1 ≤ now)
            ∧ due.Pairwise (fun p q => p.1 ≤ q.1)
            ∧ (g.drainDue now).1 = due.map Prod.snd)
          ∧ (g.drainDue now).1.length ≤ g.total := by
  intro g s
  have h : g.Represents s := represents_new.foldl calls
  refine ⟨h.scheduled, h.total, ?_, h.nextDueMs_eq_none, h.nextDueMs_eq_some,
    h.occupied, fun now => ⟨h.due now, ?_⟩⟩
  · rw [← Finset.card_eq_zero, ← h.total]
    exact beq_iff_eq
  · rw [h.length_drainDue, h.total]
    exact Finset.card_filter_le _ _

/-- One key under two stamps, one of them shared, and a pair given twice. -/
def sharedStamp : List TtlCall :=
  [.schedule [97] 200, .schedule [98] 100, .schedule [98] 100,
    .schedule [97] 100]

/-- Two keys under one stamp, drained together. -/
theorem index_is_finset_shared :
    let g := sharedStamp.foldl TtlCall.perform .new
    g.len = 3 ∧ g.nextDueMs = some 100 ∧ (g.drainDue 150).1 = [[97], [98]]
      ∧ ∃ keys, g.byExpiry[100]? = some keys ∧ keys ≠ ∅ := by
  intro g
  have hsome : g.byExpiry[100]?.isSome := by decide +kernel
  obtain ⟨keys, hkeys⟩ := Option.isSome_iff_exists.mp hsome
  obtain ⟨-, -, -, -, -, hoccupied, -⟩ := index_is_finset sharedStamp
  exact ⟨by decide +kernel, by decide +kernel, by decide +kernel, keys, hkeys,
    hoccupied 100 keys hkeys⟩

-- ================================================================= the node

/-- The index of the node represents a set. -/
def World.IndexSound (w : World) : Prop := ∃ s, w.ttl.Represents s

/-- No step of the node takes the index out of step with its total. -/
theorem World.IndexSound.exec {ext : Externals} {w : World}
    (h : w.IndexSound) (fault : Option Fault) (p : Prim) :
    (p.exec ext fault w).2.IndexSound := by
  obtain ⟨s, hs⟩ := h
  cases p with
  | ttl p =>
      cases p with
      | insert key exp => exact ⟨_, hs.insert key exp⟩
      | notifyOne => exact ⟨s, hs.notify⟩
      | drainDue now => exact ⟨_, hs.drainDue now⟩
  | now => exact ⟨s, hs⟩
  | instant => exact ⟨s, hs⟩
  | storage p => exact ⟨s, hs⟩
  | wal p => exact ⟨s, hs⟩
  | quota p => exact ⟨s, hs⟩
  | throttle p => exact ⟨s, hs⟩
  | watch p => exact ⟨s, hs⟩

/-- Calls, failures, crashes and restarts: the index is sound at every
moment of a node's life. -/
theorem reachable_indexSound {S : Setting} {m : Machine}
    (hm : (node S).Reachable m) : m.world.IndexSound := by
  refine hm.induction (I := fun m => m.world.IndexSound) ?_
    fun m l m' h hs => ?_
  · rintro _ ⟨now, instant, rfl⟩
    exact ⟨∅, represents_new⟩
  · cases hs with
    | call _ => exact h
    | act _ => exact h.exec _ _
    | ret => exact h
    | openAct _ => exact h.exec _ _
    | opened => exact h
    | refused => exact h
    | tick _ _ => exact h
    | crash _ => exact ⟨∅, represents_new⟩
    | crashInside _ _ _ => exact ⟨∅, represents_new⟩

/-- So it is between any two steps of concurrent calls. -/
theorem pool_indexSound {ext : Externals}
    {allow : NodePool → Nat → Prim → Prop} {init pool : NodePool}
    (h : init.world.IndexSound) (hrun : NodePool.Run ext allow init pool) :
    pool.world.IndexSound := by
  induction hrun with
  | start => exact h
  | step _ _ _ ih => exact ih.exec none _
  | env _ he ih =>
      obtain ⟨now, instant, -, rfl⟩ := he
      exact ih

end FerrisKv
