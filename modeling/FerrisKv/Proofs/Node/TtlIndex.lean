/-
What the expiration index holds.

`drain_due` takes buckets off the front of the map until the first that is
not due; it returns the scheduled keys that are due and keeps the others
(`drainDue_fst`, `scheduled_drainDue`), whatever else is scheduled.
`next_due_ms` is the expiry of the first bucket, which is the earliest.
-/
import FerrisKv.Lib.OrderedScan
import FerrisKv.Node.Ttl

namespace FerrisKv

open Std OrderedScan

namespace TtlIndex

/-- Membership, seen from the keys and from the pairs. -/
theorem scheduled_iff {g : TtlIndex} {k : Bytes} {e : Nat} :
    g.Scheduled k e ↔ (e, k) ∈ members g.byExpiry := by
  rw [mem_members]
  unfold Scheduled bucket
  cases g.byExpiry[e]? with
  | none => simp
  | some s => simp

/-- An insertion adds one pair. -/
theorem scheduled_insert {g : TtlIndex} {key k : Bytes} {exp e : Nat} :
    (g.insert key exp).2.Scheduled k e
      ↔ (key = k ∧ exp = e) ∨ g.Scheduled k e := by
  unfold Scheduled insert bucket
  simp only [ExtTreeMap.getElem?_insert, Std.compare_eq_iff_eq]
  by_cases he : exp = e
  · subst he
    rw [if_pos rfl, Option.getD_some, ExtTreeSet.mem_insert,
      Std.compare_eq_iff_eq]
    simp
  · rw [if_neg he]
    simp [he]

/-- The bucket listed first is the earliest. -/
theorem le_of_toList_cons {m : ExtTreeMap Nat (ExtTreeSet Bytes)}
    {ts ts' : Nat} {keys s : ExtTreeSet Bytes}
    {rest : List (Nat × ExtTreeSet Bytes)} (h : m.toList = (ts, keys) :: rest)
    (hs : m[ts']? = some s) : ts ≤ ts' := by
  have hord := m.ordered_keys_toList
  have hmem := ExtTreeMap.mem_toList_iff_getElem?_eq_some.mpr hs
  rw [h] at hord hmem
  rcases List.mem_cons.mp hmem with heq | hrest
  · cases heq
    exact le_rfl
  · have hlt : compare ts ts' = .lt := List.rel_of_pairwise_cons hord hrest
    exact (Nat.compare_eq_lt.mp hlt).le

/-- The loop of `drain_due`: the members that are due, in order, and the
buckets that are not. -/
theorem drainLoop_eq (now : Nat) :
    ∀ (fuel : Nat) (m : ExtTreeMap Nat (ExtTreeSet Bytes)), m.size ≤ fuel →
      (drainLoop now fuel m).1
          = ((members m).filter fun e => e.1 ≤ now).map Prod.snd
        ∧ ∀ ts : Nat, (drainLoop now fuel m).2[ts]?
          = if ts ≤ now then none else m[ts]? := by
  -- the fuel is the number of buckets, and every turn removes one
  intro fuel
  induction fuel with
  | zero =>
      intro m hm
      have hnil : m.toList = [] := by
        rw [← List.length_eq_zero_iff, ExtTreeMap.length_toList]
        omega
      rw [ExtTreeMap.toList_eq_nil_iff.mp hnil]
      exact ⟨rfl, fun ts => by simp [drainLoop]⟩
  | succ fuel ih =>
      intro m hm
      rw [drainLoop]
      cases hl : m.toList with
      | nil =>
          rw [ExtTreeMap.toList_eq_nil_iff.mp hl]
          exact ⟨rfl, fun ts => by simp⟩
      | cons e rest =>
          obtain ⟨ts, keys⟩ := e
          simp only
          split
          · -- the first bucket is not due, so none is
            next hlate =>
            refine ⟨?_, fun ts' => ?_⟩
            · rw [List.filter_eq_nil_iff.mpr, List.map_nil]
              rintro ⟨ts', k⟩ he
              obtain ⟨s, hs, -⟩ := mem_members.mp he
              have hle := le_of_toList_cons hl hs
              simp only [decide_eq_true_eq]
              omega
            · split
              · next hdue =>
                cases hs : m[ts']? with
                | none => rfl
                | some s =>
                    have hle := le_of_toList_cons hl hs
                    omega
              · rfl
          · next hdue =>
            -- the first bucket is due: it is drained, and the rest is the
            -- same loop over the rest
            have hget : m[ts]? = some keys :=
              ExtTreeMap.mem_toList_iff_getElem?_eq_some.mp
                (by rw [hl]; exact List.mem_cons_self)
            have hsize : (m.erase ts).size ≤ fuel := by
              rw [ExtTreeMap.size_erase, if_pos (by
                rw [ExtTreeMap.contains_eq_isSome_getElem?, hget]; rfl)]
              omega
            have hmembers : members m = (keys.toList.map fun k => (ts, k))
                ++ members (m.erase ts) := by
              rw [members, hl, List.flatMap_cons, members,
                toList_erase_head hl]
            have hfirst : ((keys.toList.map fun k => (ts, k)).filter
                fun e => e.1 ≤ now).map Prod.snd = keys.toList := by
              rw [List.filter_eq_self.mpr, List.map_map]
              · exact List.map_id _
              · intro e he
                obtain ⟨k, -, rfl⟩ := List.mem_map.mp he
                simp only [decide_eq_true_eq]
                omega
            obtain ⟨hout, hrest⟩ := ih (m.erase ts) hsize
            refine ⟨?_, fun ts' => ?_⟩
            · rw [hmembers, List.filter_append, List.map_append, hfirst,
                ← hout]
            · rw [hrest ts', ExtTreeMap.getElem?_erase]
              split
              · rfl
              · rw [if_neg (by rw [Std.compare_eq_iff_eq]; omega)]

/-- A drain answers with the keys of the pairs that are due. -/
theorem drainDue_fst (g : TtlIndex) (now : Nat) :
    (g.drainDue now).1
      = ((members g.byExpiry).filter fun e => e.1 ≤ now).map Prod.snd :=
  (drainLoop_eq now _ g.byExpiry le_rfl).1

/-- The buckets that are due go, the others stay as they are. -/
theorem getElem?_drainDue (g : TtlIndex) (now ts : Nat) :
    (g.drainDue now).2.byExpiry[ts]?
      = if ts ≤ now then none else g.byExpiry[ts]? :=
  (drainLoop_eq now _ g.byExpiry le_rfl).2 ts

/-- What is left is what is not due. -/
theorem scheduled_drainDue {g : TtlIndex} {now : Nat} {k : Bytes} {e : Nat} :
    (g.drainDue now).2.Scheduled k e ↔ g.Scheduled k e ∧ now < e := by
  unfold Scheduled bucket
  rw [getElem?_drainDue]
  by_cases he : e ≤ now
  · rw [if_pos he]
    simp [Nat.not_lt.mpr he]
  · rw [if_neg he]
    simp [Nat.lt_of_not_le he]

/-- Two indexes that schedule the same keys with a property drain the same
of them, in the same order. -/
theorem drainDue_filter_congr {g g' : TtlIndex} {p : Bytes → Bool}
    (h : ∀ k e, p k = true → (g.Scheduled k e ↔ g'.Scheduled k e))
    (now : Nat) :
    (g.drainDue now).1.filter p = (g'.drainDue now).1.filter p := by
  rw [drainDue_fst, drainDue_fst, List.filter_map, List.filter_map,
    List.filter_filter, List.filter_filter]
  congr 1
  refine filter_members_congr fun e he => ?_
  obtain ⟨hp, -⟩ := Bool.and_eq_true_iff.mp he
  rw [← scheduled_iff, ← scheduled_iff]
  exact h e.2 e.1 hp

-- ============================================================ the earliest

/-- Some key is scheduled for `ts`. -/
def Holds (g : TtlIndex) (ts : Nat) : Prop := g.byExpiry[ts]?.isSome

/-- An insertion adds at most one stamp. -/
theorem holds_insert {g : TtlIndex} {key : Bytes} {exp ts : Nat} :
    (g.insert key exp).2.Holds ts ↔ exp = ts ∨ g.Holds ts := by
  unfold Holds insert
  simp only [ExtTreeMap.getElem?_insert, Std.compare_eq_iff_eq]
  by_cases h : exp = ts
  · simp [h]
  · simp [h]

/-- A drain adds none. -/
theorem Holds.of_drainDue {g : TtlIndex} {now ts : Nat}
    (h : (g.drainDue now).2.Holds ts) : g.Holds ts := by
  unfold Holds at h
  rw [getElem?_drainDue] at h
  split at h
  · cases h
  · exact h

/-- The next due stamp is the first of the map. -/
theorem nextDueMs_eq (g : TtlIndex) :
    g.nextDueMs = g.byExpiry.toList.head?.map Prod.fst := by
  unfold nextDueMs
  rw [← ExtTreeMap.map_fst_toList_eq_keys, List.head?_map]

/-- Nothing is due when nothing is scheduled. -/
theorem not_holds_of_nextDueMs {g : TtlIndex} (h : g.nextDueMs = none)
    (ts : Nat) : ¬ g.Holds ts := by
  rw [nextDueMs_eq, Option.map_eq_none_iff, List.head?_eq_none_iff,
    ExtTreeMap.toList_eq_nil_iff] at h
  unfold Holds
  rw [h]
  simp

/-- `next_due_ms` is the earliest expiry. -/
theorem nextDueMs_le {g : TtlIndex} {due ts : Nat}
    (h : g.nextDueMs = some due) (hts : g.Holds ts) : due ≤ ts := by
  rw [nextDueMs_eq] at h
  cases hl : g.byExpiry.toList with
  | nil => rw [hl] at h; cases h
  | cons e rest =>
      obtain ⟨ts', keys⟩ := e
      rw [hl] at h
      cases h
      obtain ⟨s, hs⟩ := Option.isSome_iff_exists.mp hts
      exact le_of_toList_cons hl hs

/-- It is one the index holds. -/
theorem holds_nextDueMs {g : TtlIndex} {due : Nat}
    (h : g.nextDueMs = some due) : g.Holds due := by
  rw [nextDueMs_eq] at h
  cases hl : g.byExpiry.toList with
  | nil => rw [hl] at h; cases h
  | cons e rest =>
      obtain ⟨ts, keys⟩ := e
      rw [hl] at h
      cases h
      have hget : g.byExpiry[ts]? = some keys :=
        ExtTreeMap.mem_toList_iff_getElem?_eq_some.mp
          (hl ▸ List.mem_cons_self)
      unfold Holds
      rw [hget]
      rfl

/-- An insertion that wakes nobody is no earlier than an entry that was
there. -/
theorem le_of_insert {g : TtlIndex} {key : Bytes} {exp : Nat}
    (h : (g.insert key exp).1 = false) : ∃ prev, g.Holds prev ∧ prev ≤ exp := by
  unfold insert at h
  cases hd : g.nextDueMs with
  | none => rw [hd] at h; cases h
  | some prev =>
      rw [hd] at h
      exact ⟨prev, holds_nextDueMs hd, Nat.le_of_not_lt (of_decide_eq_false h)⟩

end TtlIndex

end FerrisKv
