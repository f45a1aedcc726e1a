/-
Sums over the entries of an ordered map, and how they move when one
entry is written or removed. The map's own `toList` is what is summed;
the point update lemmas go through its permutation class, since where a
new entry lands in key order does not matter to a sum.
-/
import FerrisKv.Lib.OrderedScan

namespace TreeMapSum

open Std

variable {K V : Type} [Ord K] [TransOrd K] [LawfulEqOrd K]

/-- The sum of `f` over all entries. -/
def sumBy (f : K → V → Nat) (m : ExtTreeMap K V) : Nat :=
  (m.toList.map fun e => f e.1 e.2).sum

/-- An entry list has no duplicates. -/
theorem nodup_toList (m : ExtTreeMap K V) : m.toList.Nodup := by
  refine m.distinct_keys_toList.imp ?_
  intro a b hab he
  exact hab (by rw [he, Std.compare_eq_iff_eq])

variable [DecidableEq K]

/-- Removing a key filters it out of the entries. -/
theorem toList_erase_perm (m : ExtTreeMap K V) (k : K) :
    (m.erase k).toList.Perm (m.toList.filter fun e => e.1 ≠ k) := by
  rw [List.perm_ext_iff_of_nodup (nodup_toList _) ((nodup_toList m).filter _)]
  rintro ⟨k', v⟩
  rw [ExtTreeMap.mem_toList_iff_getElem?_eq_some, List.mem_filter,
    ExtTreeMap.mem_toList_iff_getElem?_eq_some, ExtTreeMap.getElem?_erase]
  by_cases hk : k' = k
  · simp [hk]
  · have hk' : ¬ compare k k' = .eq := by
      rw [Std.compare_eq_iff_eq]
      exact fun he => hk he.symm
    simp [hk, hk']

/-- Writing a key filters its old entry out and adds the new one. -/
theorem toList_insert_perm (m : ExtTreeMap K V) (k : K) (v : V) :
    (m.insert k v).toList.Perm
      ((k, v) :: m.toList.filter fun e => e.1 ≠ k) := by
  have hnd : ((k, v) :: m.toList.filter fun e => e.1 ≠ k).Nodup :=
    List.nodup_cons.mpr ⟨by simp, (nodup_toList m).filter _⟩
  rw [List.perm_ext_iff_of_nodup (nodup_toList _) hnd]
  rintro ⟨k', v'⟩
  rw [ExtTreeMap.mem_toList_iff_getElem?_eq_some, List.mem_cons,
    List.mem_filter, ExtTreeMap.mem_toList_iff_getElem?_eq_some,
    ExtTreeMap.getElem?_insert]
  by_cases hk : k' = k
  · subst hk
    simp [eq_comm]
  · have hk' : ¬ compare k k' = .eq := by
      rw [Std.compare_eq_iff_eq]
      exact fun he => hk he.symm
    simp [hk, hk']

/-- A sum splits into one key's share and the rest. -/
theorem sumBy_split (f : K → V → Nat) (m : ExtTreeMap K V) (k : K) :
    sumBy f m = (m[k]?).elim 0 (f k) + sumBy f (m.erase k) := by
  have herase : sumBy f (m.erase k)
      = ((m.toList.filter fun e => e.1 ≠ k).map fun e => f e.1 e.2).sum :=
    ((toList_erase_perm m k).map _).sum_eq
  have hfilter : ((m.toList.filter fun e => e.1 = k).map
      fun e => f e.1 e.2).sum = (m[k]?).elim 0 (f k) := by
    cases hv : m[k]? with
    | none =>
        have hnil : (m.toList.filter fun e => e.1 = k) = [] := by
          rw [List.filter_eq_nil_iff]
          rintro ⟨k', v⟩ hmem hk
          rw [ExtTreeMap.mem_toList_iff_getElem?_eq_some] at hmem
          rw [decide_eq_true_eq] at hk
          change k' = k at hk
          rw [hk, hv] at hmem
          cases hmem
        rw [hnil]
        rfl
    | some v =>
        have hone : (m.toList.filter fun e => e.1 = k).Perm [(k, v)] := by
          rw [List.perm_ext_iff_of_nodup ((nodup_toList m).filter _)
            (List.nodup_singleton _)]
          rintro ⟨k', v'⟩
          rw [List.mem_filter, ExtTreeMap.mem_toList_iff_getElem?_eq_some,
            List.mem_singleton]
          constructor
          · rintro ⟨hmem, hk⟩
            have hk' : k' = k := by simpa using hk
            subst hk'
            rw [hv, Option.some.injEq] at hmem
            rw [hmem]
          · intro he
            cases he
            exact ⟨hv, by simp⟩
        rw [(hone.map _).sum_eq]
        simp
  have hperm := List.filter_append_perm (fun e : K × V => decide (e.1 = k))
    m.toList
  have hsum := (hperm.map fun e => f e.1 e.2).sum_eq
  rw [List.map_append, List.sum_append, hfilter] at hsum
  rw [sumBy, ← hsum, herase]
  simp only [ne_eq, decide_not]

/-- Writing an entry replaces the key's share. -/
theorem sumBy_insert (f : K → V → Nat) (m : ExtTreeMap K V) (k : K) (v : V) :
    sumBy f (m.insert k v) = f k v + sumBy f (m.erase k) := by
  rw [sumBy, sumBy, ((toList_insert_perm m k v).map _).sum_eq,
    List.map_cons, List.sum_cons, ((toList_erase_perm m k).map _).sum_eq]

omit [DecidableEq K] in
/-- Only what `f` makes of each key matters. -/
theorem sumBy_congr {V' : Type} {f : K → V → Nat} {f' : K → V' → Nat}
    {m : ExtTreeMap K V} {m' : ExtTreeMap K V'}
    (h : ∀ k, m[k]?.elim 0 (f k) = m'[k]?.elim 0 (f' k)) :
    sumBy f m = sumBy f' m' := by
  have hlisting : ∀ {U : Type} (g : K → U → Nat) (n : ExtTreeMap K U),
      sumBy g n = ((OrderedScan.listing (fun k u =>
        if g k u = 0 then none else some (g k u)) n).map Prod.snd).sum := by
    intro U g n
    unfold sumBy OrderedScan.listing
    induction n.toList with
    | nil => rfl
    | cons e rest ih =>
        rw [List.map_cons, List.sum_cons, ih, List.filterMap_cons]
        by_cases hz : g e.1 e.2 = 0
        · simp only [hz, if_true, Option.map_none, Nat.zero_add]
        · simp only [hz, if_false, Option.map_some, List.map_cons,
            List.sum_cons]
  rw [hlisting f m, hlisting f' m']
  congr 2
  refine OrderedScan.listing_congr fun k => ?_
  have hk := h k
  cases hm : m[k]? with
  | none =>
      cases hm' : m'[k]? with
      | none => rfl
      | some v' =>
          rw [hm, hm'] at hk
          exact (if_pos hk.symm).symm
  | some v =>
      cases hm' : m'[k]? with
      | none =>
          rw [hm, hm'] at hk
          exact if_pos hk
      | some v' =>
          rw [hm, hm'] at hk
          simp only [Option.elim_some] at hk
          simp only [Option.bind_some, hk]

omit [LawfulEqOrd K] [DecidableEq K] in
/-- Sums by several weights are one sum by their total. -/
theorem sum_sumBy {I : Type} (names : List I) (f : I → K → V → Nat)
    (m : ExtTreeMap K V) :
    (names.map fun i => sumBy (f i) m).sum
      = sumBy (fun k v => (names.map fun i => f i k v).sum) m := by
  induction names with
  | nil => simp [sumBy]
  | cons i rest ih =>
      simp only [List.map_cons, List.sum_cons, ih]
      exact List.sum_map_add.symm

end TreeMapSum
