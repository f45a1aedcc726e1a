/-
What the operator is shown of the tenants.

`QuotaStore::list` walks the usage map, adds the tenants that only the
override map knows, and sorts by name. The walk has no order of its own
and the sort is not stable, and neither shows: a tenant has one row, its
name decides where the row stands, and its maps what it says
(`mem_list`, `list_unique`).

Between the calls of a node that is given one call at a time and meets no
I/O error, the rows are true of the data: each tenant's bytes are those it
has stored, nobody who stores anything is missing, and the column adds up to
all of the data (`quota_list_true`). What the calls carry does not matter.
-/
import FerrisKv.Node.Grpc
import FerrisKv.Proofs.Node.QuotaLaw

namespace FerrisKv

open Std Prog NodeService TreeMapSum

-- ================================================================= the rows

namespace QuotaStore

variable {q : QuotaStore} (iter : q.Iteration) (sorter : NameSort)

/-- The tenants listed, in the order the maps give them. -/
def Iteration.names {q : QuotaStore} (iter : q.Iteration) : List String :=
  iter.usage ++ iter.quotas.filter fun tenant => !q.usage.contains tenant

/-- The tenants listed are those of either map. -/
theorem Iteration.mem_names {t : String} :
    t ∈ iter.names ↔ t ∈ q.usage ∨ t ∈ q.quotas := by
  rw [Iteration.names, List.mem_append, List.mem_filter, iter.usage_perm.mem_iff,
    iter.quotas_perm.mem_iff, ExtTreeMap.mem_keys, ExtTreeMap.mem_keys]
  rw [Bool.not_eq_true', Bool.eq_false_iff, ne_eq, ← ExtTreeMap.mem_iff_contains]
  by_cases ht : t ∈ q.usage
  · simp [ht]
  · simp [ht]

/-- None is listed twice. -/
theorem Iteration.nodup_names : iter.names.Nodup := by
  have hkeys : ∀ {V : Type} (m : ExtTreeMap String V), m.keys.Nodup := by
    intro V m
    refine m.distinct_keys.imp ?_
    intro a b hab he
    exact hab (by rw [he, Std.compare_eq_iff_eq])
  refine List.nodup_append'.mpr ⟨iter.usage_perm.nodup_iff.mpr (hkeys _),
    (iter.quotas_perm.nodup_iff.mpr (hkeys _)).filter _, ?_⟩
  intro t hu hq
  rw [iter.usage_perm.mem_iff, ExtTreeMap.mem_keys] at hu
  have hnot := (List.mem_filter.mp hq).2
  rw [ExtTreeMap.mem_iff_contains.mp hu] at hnot
  cases hnot

/-- The rows are theirs, in some order. -/
theorem list_perm : (q.list iter sorter).Perm
    (iter.names.map fun t => (t, q.usageOf t)) := by
  rw [Iteration.names, List.map_append]
  exact sorter.perm _

/-- A row says what `usage_of` says. -/
private theorem mem_list {t : String} {u : TenantUsage} :
    (t, u) ∈ q.list iter sorter
    ↔ (t ∈ q.usage ∨ t ∈ q.quotas) ∧ u = q.usageOf t := by
  rw [(list_perm iter sorter).mem_iff, List.mem_map, ← iter.mem_names]
  constructor
  · intro h
    obtain ⟨t', ht, he⟩ := h
    cases he
    exact ⟨ht, rfl⟩
  · intro h
    exact ⟨t, h.1, by rw [h.2]⟩

/-- The names go up, and none comes twice. -/
theorem list_sorted : (q.list iter sorter).Pairwise fun a b =>
    compare (asBytes a.1) (asBytes b.1) = .lt := by
  have hdistinct : (q.list iter sorter).Pairwise fun a b => a.1 ≠ b.1 := by
    rw [← List.pairwise_map (f := Prod.fst) (R := fun a b => a ≠ b)]
    have hnames : ((q.list iter sorter).map Prod.fst).Perm iter.names := by
      refine ((list_perm iter sorter).map _).trans ?_
      rw [List.map_map]
      simp [Function.comp_def]
    exact hnames.nodup_iff.mpr iter.nodup_names
  refine (hdistinct.and (sorter.sorted _)).imp ?_
  intro a b h
  cases hc : compare (asBytes a.1) (asBytes b.1) with
  | lt => rfl
  | eq => exact absurd (asBytes_inj (Std.compare_eq_iff_eq.mp hc)) h.1
  | gt => exact absurd hc h.2

/-- Neither the order of the walk nor the sort shows. -/
theorem list_unique (iter' : q.Iteration) (sorter' : NameSort) :
    q.list iter' sorter' = q.list iter sorter := by
  have hnames : iter'.names.Perm iter.names := by
    refine (List.perm_ext_iff_of_nodup iter'.nodup_names iter.nodup_names).mpr ?_
    intro t
    rw [iter'.mem_names, iter.mem_names]
  have hperm := (list_perm iter' sorter').trans
    ((hnames.map _).trans (list_perm iter sorter).symm)
  refine hperm.eq_of_pairwise ?_ (list_sorted iter' sorter')
    (list_sorted iter sorter)
  intro a b _ _ hab hba
  rw [Std.OrientedOrd.eq_swap, hba] at hab
  cases hab

end QuotaStore

-- ================================================================= the sums

/-- The bytes one stored entry counts for, whosever it is. -/
def dataCount (k v : Bytes) : Nat :=
  match KeyCodec.decode k with
  | .ok (tenant, _, _) => entryCount tenant k v
  | .error _ => 0

/-- The bytes of all stored data, keys plus values. -/
def dataBytes (m : Table) : Nat := sumBy dataCount m

/-- An entry counts towards one tenant at most. -/
theorem entryCount_of_decode {k v payload : Bytes} {tenant t : String}
    {subspace : Subspace}
    (hd : KeyCodec.decode k = .ok (tenant, subspace, payload)) (hne : tenant ≠ t) :
    entryCount t k v = 0 := by
  unfold entryCount
  rw [hd]
  cases subspace <;> simp [hne]

/-- Over names that include everyone an entry counts for, what it counts
towards each adds up to what it counts for. -/
theorem sum_entryCount {names : List String} (hnodup : names.Nodup)
    {k v : Bytes} (hall : ∀ t, t ∉ names → entryCount t k v = 0) :
    (names.map fun t => entryCount t k v).sum = dataCount k v := by
  cases hd : KeyCodec.decode k with
  | error e =>
      have hzero : ∀ t, entryCount t k v = 0 := by
        intro t
        unfold entryCount
        rw [hd]
      simp [dataCount, hd, hzero]
  | ok parts =>
      obtain ⟨tenant, subspace, payload⟩ := parts
      have hcount : dataCount k v = entryCount tenant k v := by
        simp only [dataCount, hd]
      rw [hcount]
      by_cases hmem : tenant ∈ names
      · have hperm := List.perm_cons_erase hmem
        rw [(hperm.map _).sum_eq, List.map_cons, List.sum_cons]
        have hrest : ((names.erase tenant).map fun t => entryCount t k v).sum
            = 0 := by
          refine List.sum_eq_zero fun n hn => ?_
          obtain ⟨t, ht, rfl⟩ := List.mem_map.mp hn
          refine entryCount_of_decode hd fun he => ?_
          rw [he] at ht
          exact hnodup.not_mem_erase ht
        omega
      · rw [hall tenant hmem]
        refine List.sum_eq_zero fun n hn => ?_
        obtain ⟨t, ht, rfl⟩ := List.mem_map.mp hn
        refine entryCount_of_decode hd fun he => ?_
        rw [he] at hmem
        exact hmem ht

/-- Over names that include everyone with data, the stored bytes add up to
all of the data. -/
theorem sum_storedBytes {names : List String} (hnodup : names.Nodup) {m : Table}
    (hall : ∀ t, t ∉ names → storedBytes t m = 0) :
    (names.map fun t => storedBytes t m).sum = dataBytes m := by
  have hswap : (names.map fun t => storedBytes t m).sum
      = sumBy (fun k v => (names.map fun t => entryCount t k v).sum) m :=
    sum_sumBy names entryCount m
  rw [hswap]
  refine sumBy_congr fun k => ?_
  cases hv : m[k]? with
  | none => rfl
  | some v =>
      refine sum_entryCount hnodup fun t ht => ?_
      have hle := share_le_storedBytes t m k
      rw [hall t ht, hv] at hle
      exact Nat.le_zero.mp hle

-- ================================================================== results

section Runs

variable {ext : Externals} {cfg : NodeConfig} {w : World} {t : String}

/-- `GET /quotas/t` answers with the row the tenant has or would have. -/
theorem adminGetQuota_run (ht : KeyCodec.ValidTenant t) :
    (adminGetQuota t).run.run (Prim.exec ext none) w
      = (.ok (w.quotas.usageOf t), w) := by
  have hvalid : ¬ ((asBytes t).length = 0 ∨ (asBytes t).length > 255) := by
    obtain ⟨hpos, hle⟩ := ht
    unfold maxTenantLen at hle
    omega
  unfold adminGetQuota validateTenant
  rw [if_neg hvalid]
  rfl

/-- A tenant with data has a counter. -/
theorem mem_usage_of_stored (hexact : Exact w) (hs : 0 < w.stored t) :
    t ∈ w.quotas.usage := by
  by_contra hmem
  have hnone : w.quotas.usage[t]? = none := ExtTreeMap.getElem?_eq_none hmem
  have hused : w.quotas.usedBytes t = w.stored t := hexact t
  rw [QuotaStore.usedBytes, hnone, Option.getD_none] at hused
  omega

/-- The list is true of the data. Between the calls of a node that is given
one call at a time and meets no I/O error, restarts included,
`QuotaStore::list` has one row a tenant in
the order of the names, and every row says what the tenant has stored and
what `GET /quotas/t` says; nobody with data or limits of their own is
missing, and the rows add up to all of the data. The iterators' order and
the sort do not show. -/
theorem quota_list_true (ext : Externals) (cfg : NodeConfig)
    {calls : Op → Prop} {w : World} (h : QuotaReached ext cfg calls w)
    (iter : w.quotas.Iteration) (sorter : NameSort) :
    ((w.quotas.list iter sorter).Pairwise fun a b =>
        compare (asBytes a.1) (asBytes b.1) = .lt)
      ∧ (∀ t u, (t, u) ∈ w.quotas.list iter sorter →
        u.usedBytes = w.stored t ∧ u.maxBytes = w.limit t
          ∧ (KeyCodec.ValidTenant t →
            ((adminGetQuota t).run.run (Prim.exec ext none) w).1 = .ok u))
      ∧ (∀ t, 0 < w.stored t ∨ t ∈ w.quotas.quotas →
        (t, w.quotas.usageOf t) ∈ w.quotas.list iter sorter)
      ∧ ((w.quotas.list iter sorter).map fun row => row.2.usedBytes).sum
        = dataBytes w.storage.contents
      ∧ ∀ iter' sorter', w.quotas.list iter' sorter'
        = w.quotas.list iter sorter := by
  have hexact : Exact w := h.exact
  refine ⟨QuotaStore.list_sorted iter sorter, fun t u hrow => ?_, fun t ht => ?_,
    ?_, QuotaStore.list_unique iter sorter⟩
  · obtain ⟨-, hu⟩ := (QuotaStore.mem_list iter sorter).mp hrow
    rw [hu]
    exact ⟨hexact t, rfl, fun ht => congrArg Prod.fst (adminGetQuota_run ht)⟩
  · refine (QuotaStore.mem_list iter sorter).mpr ⟨?_, rfl⟩
    rcases ht with hs | hq
    · exact .inl (mem_usage_of_stored hexact hs)
    · exact .inr hq
  · have hrows : ((w.quotas.list iter sorter).map fun row =>
        row.2.usedBytes).sum
          = (iter.names.map fun t => w.stored t).sum := by
      rw [((QuotaStore.list_perm iter sorter).map _).sum_eq, List.map_map]
      exact congrArg List.sum (List.map_congr_left fun t _ => hexact t)
    rw [hrows]
    refine sum_storedBytes iter.nodup_names fun t ht => ?_
    by_contra hne
    exact ht (iter.mem_names.mpr
      (.inl (mem_usage_of_stored hexact (Nat.pos_of_ne_zero hne))))

/-- Sorting by insertion. -/
def NameSort.insertion : NameSort where
  sort := List.insertionSort fun a b =>
    compare (asBytes a.1) (asBytes b.1) ≠ .gt
  perm := List.perm_insertionSort _
  sorted l := by
    have : Std.Total fun a b : String × TenantUsage =>
        compare (asBytes a.1) (asBytes b.1) ≠ .gt := by
      refine ⟨fun a b => ?_⟩
      rw [Std.OrientedOrd.eq_swap (a := asBytes b.1)]
      cases compare (asBytes a.1) (asBytes b.1) <;> simp
    have : IsTrans (String × TenantUsage) fun a b =>
        compare (asBytes a.1) (asBytes b.1) ≠ .gt := by
      refine ⟨fun a b c hab hbc => ?_⟩
      exact Ordering.isLE_iff_ne_gt.mp (Std.TransCmp.isLE_trans
        (Ordering.isLE_iff_ne_gt.mpr hab) (Ordering.isLE_iff_ne_gt.mpr hbc))
    exact List.pairwise_insertionSort _ l

/-- The maps walked in the order of their keys. -/
def QuotaStore.inOrder (q : QuotaStore) : q.Iteration :=
  ⟨q.usage.keys, q.quotas.keys, .refl _, .refl _⟩

/-- Tenant "b" stores a byte under a one-byte key. -/
def stocked (w : World) : World :=
  ((Op.put (KeyCodec.bytesOf "b" .data [1]) [2] 0).prog {}).run
    (Prim.exec .json none) w |>.2

/-- Tenant "a" has limits and no data, tenant "b" data and no limits. -/
theorem quota_list_true_two :
    (stocked (limited (idleNode .fjall))).quotas.list
        (QuotaStore.inOrder _) .insertion
      = [("a", ⟨0, 1, 0⟩), ("b", ⟨2, 0, 0⟩)]
    ∧ dataBytes (stocked (limited (idleNode .fjall))).storage.contents = 2 := by
  have hput : QuotaEvent .json {} (fun _ => True) (limited (idleNode .fjall))
      (stocked (limited (idleNode .fjall))) :=
    .call trivial (ends_run (goes_exec .json) _ _)
  have hreach : QuotaReached .json {} (fun _ => True)
      (stocked (limited (idleNode .fjall))) :=
    ⟨_, idleNode_started .fjall, .tail (.single (limited_event _ _ _)) hput⟩
  have hlist : (stocked (limited (idleNode .fjall))).quotas.list
      (QuotaStore.inOrder _) .insertion
        = [("a", ⟨0, 1, 0⟩), ("b", ⟨2, 0, 0⟩)] := by decide +kernel
  obtain ⟨-, -, -, hsum, -⟩ := quota_list_true .json {} hreach
    (QuotaStore.inOrder _) .insertion
  rw [hlist] at hsum
  exact ⟨hlist, hsum.symm⟩

end Runs

end FerrisKv
