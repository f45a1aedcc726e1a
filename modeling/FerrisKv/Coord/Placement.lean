/-
Which shard a key belongs to (`ferriskv-coord/src/placement.rs`).

A `RangeMap` is a vector of half-open key ranges. `insert` puts an entry
after those that start no later, `lookup` takes the last entry that starts
no later than the key and asks it whether it contains the key. Both find
their place by `partition_point`, which is right on a vector sorted by
start; every vector `insert` builds is (`RangeMap.Sorted.insert`).

That one candidate is enough when the ranges are disjoint: an entry that
contains the key and starts before the candidate would contain the
candidate's start as well (`candidate_of_contains`).
-/
import FerrisKv.Core.Error
import FerrisKv.Lib.PartitionPoint

namespace FerrisKv

open PartitionPoint

-- ================================================================ the model

/-- `RangeEntry`. -/
structure RangeEntry where
  shardId : UInt64
  start : Bytes
  «end» : Option Bytes
  primary : String
  replicas : List String
  deriving DecidableEq, Repr

/-- `RangeEntry::contains`. -/
def RangeEntry.contains (e : RangeEntry) (key : Bytes) : Bool :=
  if key < e.start then false
  else
    match e.end with
    | some stop => decide (key < stop)
    | none => true

/-- `RangeMap`. -/
structure RangeMap where
  inner : List RangeEntry
  deriving DecidableEq, Repr

namespace RangeMap

/-- `RangeMap::new`. -/
def new : RangeMap := ⟨[]⟩

/-- `RangeMap::insert`. -/
def insert (m : RangeMap) (entry : RangeEntry) : RangeMap :=
  let pos := partitionPoint (fun e => decide (e.start ≤ entry.start)) m.inner
  ⟨m.inner.insertIdx pos entry⟩

/-- `RangeMap::lookup`. -/
def lookup (m : RangeMap) (key : Bytes) : Option RangeEntry :=
  let before := fun e : RangeEntry => decide (e.start ≤ key)
  let idx := partitionPoint before m.inner
  if h : idx = 0 then none
  else
    have hidx : idx - 1 < m.inner.length := by
      have := partitionPoint_le before m.inner
      omega
    let candidate := m.inner.get ⟨idx - 1, hidx⟩
    if candidate.contains key then some candidate else none

/-- The map after inserting the entries, in that order. -/
def ofInserts (entries : List RangeEntry) : RangeMap :=
  entries.foldl insert new

end RangeMap

-- ================================================================ the ranges

/-- Some key is in the range. -/
def RangeEntry.Nonempty (e : RangeEntry) : Prop :=
  ∃ key, e.contains key = true

/-- No key is in both ranges. -/
def RangeEntry.Disjoint (e e' : RangeEntry) : Prop :=
  ∀ key, ¬ (e.contains key = true ∧ e'.contains key = true)

namespace RangeEntry

variable {e e' : RangeEntry} {key key' : Bytes}

theorem contains_iff : e.contains key = true
    ↔ e.start ≤ key ∧ ∀ stop, e.end = some stop → key < stop := by
  unfold contains
  split
  · next hlt =>
      refine ⟨(fun h => nomatch h), fun h => ?_⟩
      exact absurd hlt (Std.not_lt.mpr h.1)
  · next hlt =>
      have hle := Std.not_lt.mp hlt
      cases e.end with
      | none => simp [hle]
      | some stop => simp [hle]

/-- A range is convex. -/
theorem contains_of_between (h : e.contains key' = true)
    (hle : e.start ≤ key) (hle' : key ≤ key') : e.contains key = true := by
  obtain ⟨-, hstop⟩ := contains_iff.mp h
  exact contains_iff.mpr
    ⟨hle, fun stop hs => Std.lt_of_le_of_lt hle' (hstop stop hs)⟩

/-- A range with a key in it begins in itself. -/
theorem Nonempty.contains_start (h : e.Nonempty) :
    e.contains e.start = true := by
  obtain ⟨key, hkey⟩ := h
  exact contains_of_between hkey (Std.le_refl _) (contains_iff.mp hkey).1

theorem Disjoint.symm (h : e.Disjoint e') : e'.Disjoint e :=
  fun key hk => h key hk.symm

theorem disjoint_of_end_le {stop : Bytes} (h : e.end = some stop)
    (hle : stop ≤ e'.start) : e.Disjoint e' := by
  rintro key ⟨hk, hk'⟩
  have hlt := (contains_iff.mp hk).2 stop h
  have hge := Std.le_trans hle (contains_iff.mp hk').1
  exact absurd hlt (Std.not_lt.mpr hge)

/-- A range that contains a key leaves no room for another to start between
its start and the key. -/
theorem Disjoint.not_between (h : e.Disjoint e') (hne : e'.Nonempty)
    (hkey : e.contains key = true) (hle : e.start ≤ e'.start)
    (hle' : e'.start ≤ key) : False :=
  h e'.start ⟨contains_of_between hkey hle hle', hne.contains_start⟩

end RangeEntry

-- =============================================================== the vector

namespace RangeMap

variable {m : RangeMap} {key : Bytes}

/-- The vector is sorted by start. -/
def Sorted (m : RangeMap) : Prop :=
  m.inner.Pairwise fun a b => a.start ≤ b.start

/-- What starts no later than a key comes first. -/
theorem Sorted.partitioned (h : m.Sorted) (key : Bytes) :
    m.inner.Pairwise fun a b =>
      decide (b.start ≤ key) = true → decide (a.start ≤ key) = true := by
  refine h.imp fun hab hb => ?_
  rw [decide_eq_true_eq] at hb ⊢
  exact Std.le_trans hab hb

/-- A sorted vector is cut at a key: what starts no later, and the rest. -/
theorem Sorted.split (h : m.Sorted) (key : Bytes) :
    ∃ pre post, m.inner = pre ++ post
      ∧ partitionPoint (fun e => decide (e.start ≤ key)) m.inner = pre.length
      ∧ (∀ e ∈ pre, e.start ≤ key) ∧ ∀ e ∈ post, key < e.start := by
  obtain ⟨pre, post, hl, hpoint, hpre, hpost⟩ :=
    partitionPoint_split (h.partitioned key)
  exact ⟨pre, post, hl, hpoint, fun e he => of_decide_eq_true (hpre e he),
    fun e he => Std.not_le.mp (of_decide_eq_false (hpost e he))⟩

/-- The entry goes between those that start no later and the others. -/
theorem Sorted.insert_eq (h : m.Sorted) (entry : RangeEntry) :
    ∃ pre post, m.inner = pre ++ post
      ∧ (m.insert entry).inner = pre ++ entry :: post
      ∧ (∀ e ∈ pre, e.start ≤ entry.start)
      ∧ ∀ e ∈ post, entry.start < e.start := by
  obtain ⟨pre, post, hl, hpoint, hpre, hpost⟩ := h.split entry.start
  refine ⟨pre, post, hl, ?_, hpre, hpost⟩
  show m.inner.insertIdx _ entry = _
  rw [hpoint, hl, insertIdx_length_append]

theorem Sorted.insert (h : m.Sorted) (entry : RangeEntry) :
    (m.insert entry).Sorted := by
  obtain ⟨pre, post, hl, hins, hpre, hpost⟩ := h.insert_eq entry
  unfold Sorted at h ⊢
  rw [hl, List.pairwise_append] at h
  obtain ⟨hp, hq, hpq⟩ := h
  rw [hins, List.pairwise_append, List.pairwise_cons]
  refine ⟨hp, ⟨fun e he => Std.le_of_lt (hpost e he), hq⟩, fun a ha b hb => ?_⟩
  rcases List.mem_cons.mp hb with rfl | hb
  · exact hpre a ha
  · exact hpq a ha b hb

theorem Sorted.insert_perm (h : m.Sorted) (entry : RangeEntry) :
    (m.insert entry).inner.Perm (entry :: m.inner) := by
  obtain ⟨pre, post, hl, hins, -⟩ := h.insert_eq entry
  rw [hins, hl]
  exact List.perm_middle

/-- A run of insertions. -/
theorem Sorted.inserts (entries : List RangeEntry) (h : m.Sorted) :
    (entries.foldl RangeMap.insert m).Sorted
      ∧ (entries.foldl RangeMap.insert m).inner.Perm (m.inner ++ entries) := by
  induction entries generalizing m with
  | nil => exact ⟨h, by simp⟩
  | cons e rest ih =>
      obtain ⟨hs, hp⟩ := ih (h.insert e)
      refine ⟨hs, hp.trans ?_⟩
      refine ((h.insert_perm e).append_right rest).trans ?_
      exact List.perm_middle.symm

theorem sorted_ofInserts (entries : List RangeEntry) :
    (ofInserts entries).Sorted
      ∧ (ofInserts entries).inner.Perm entries :=
  Sorted.inserts entries (m := new) List.Pairwise.nil

-- =============================================================== the lookup

/-- What a lookup tries: the last entry that starts no later than the key. -/
theorem Sorted.lookup_eq (h : m.Sorted) (key : Bytes) :
    ∃ pre post, m.inner = pre ++ post
      ∧ (∀ e ∈ pre, e.start ≤ key) ∧ (∀ e ∈ post, key < e.start)
      ∧ m.lookup key = pre.getLast?.filter fun e => e.contains key := by
  obtain ⟨pre, post, hl, hpoint, hpre, hpost⟩ := h.split key
  refine ⟨pre, post, hl, hpre, hpost, ?_⟩
  unfold lookup
  dsimp only
  split
  · next hzero =>
      rw [hpoint] at hzero
      rw [List.length_eq_zero_iff.mp hzero]
      rfl
  · next hpos =>
      have hlast : pre.getLast? = some (m.inner.get ⟨partitionPoint
          (fun e => decide (e.start ≤ key)) m.inner - 1, by
            have := partitionPoint_le
              (fun e : RangeEntry => decide (e.start ≤ key)) m.inner
            omega⟩) := by
        rw [List.get_eq_getElem, ← List.getElem?_eq_getElem]
        show _ = m.inner[partitionPoint _ m.inner - 1]?
        rw [hpoint] at hpos ⊢
        rw [List.getLast?_eq_getElem?, hl, List.getElem?_append_left (by omega)]
      rw [hlast]
      rfl

/-- Whatever is found is stored and contains the key. -/
theorem Sorted.of_lookup (h : m.Sorted) {e : RangeEntry}
    (hf : m.lookup key = some e) : e ∈ m.inner ∧ e.contains key = true := by
  obtain ⟨pre, post, hl, -, -, heq⟩ := h.lookup_eq key
  rw [heq, Option.filter_eq_some_iff] at hf
  refine ⟨?_, hf.2⟩
  rw [hl]
  exact List.mem_append_left _ (List.mem_of_getLast? hf.1)

/-- Among disjoint ranges the entry that contains the key is the one that
is tried. -/
theorem Sorted.candidate_of_contains (h : m.Sorted)
    (hne : ∀ e ∈ m.inner, e.Nonempty)
    (hdis : m.inner.Pairwise RangeEntry.Disjoint) {e : RangeEntry}
    (he : e ∈ m.inner) (hk : e.contains key = true) :
    m.lookup key = some e := by
  obtain ⟨pre, post, hl, hpre, hpost, heq⟩ := h.lookup_eq key
  have hstart := (RangeEntry.contains_iff.mp hk).1
  have hin : e ∈ pre := by
    rw [hl] at he
    refine (List.mem_append.mp he).resolve_right fun hp => ?_
    exact absurd hstart (Std.not_le.mpr (hpost e hp))
  rw [heq, Option.filter_eq_some_iff]
  refine ⟨?_, hk⟩
  -- nothing in `pre` comes after `e`
  obtain ⟨pre', last, rfl⟩ : ∃ pre' last, pre = pre' ++ [last] :=
    ⟨_, _, (List.dropLast_append_getLast (List.ne_nil_of_mem hin)).symm⟩
  rw [List.getLast?_concat]
  rcases List.mem_append.mp hin with hin' | hin'
  · exfalso
    have hmem : last ∈ pre' ++ [last] := List.mem_append_right _ List.mem_cons_self
    have hsub : (pre' ++ [last]).Sublist m.inner :=
      hl ▸ List.sublist_append_left _ _
    have hord := (List.pairwise_append.mp (h.sublist hsub)).2.2 e hin' last
      List.mem_cons_self
    have hd := (List.pairwise_append.mp (hdis.sublist hsub)).2.2 e hin' last
      List.mem_cons_self
    exact hd.not_between (hne last (hsub.subset hmem)) hk hord (hpre last hmem)
  · rw [List.mem_singleton.mp hin']

end RangeMap

-- =================================================================== results

/-- Whatever is inserted, and in whatever order: the vector is sorted and
holds exactly the inserted entries, a lookup finds only an inserted entry
that contains the key, and among disjoint nonempty ranges it finds it
whenever there is one. -/
theorem placement_exact (entries : List RangeEntry) :
    (RangeMap.ofInserts entries).Sorted
    ∧ (RangeMap.ofInserts entries).inner.Perm entries
    ∧ (∀ key e, (RangeMap.ofInserts entries).lookup key = some e →
        e ∈ entries ∧ e.contains key = true)
    ∧ ((∀ e ∈ entries, e.Nonempty) → entries.Pairwise RangeEntry.Disjoint →
      ∀ key, (∀ e, (RangeMap.ofInserts entries).lookup key = some e
          ↔ e ∈ entries ∧ e.contains key = true)
        ∧ ((RangeMap.ofInserts entries).lookup key = none
          ↔ ∀ e ∈ entries, e.contains key = false)) := by
  obtain ⟨hsorted, hperm⟩ := RangeMap.sorted_ofInserts entries
  have hfound : ∀ key e, (RangeMap.ofInserts entries).lookup key = some e →
      e ∈ entries ∧ e.contains key = true := by
    intro key e hf
    obtain ⟨hmem, hk⟩ := hsorted.of_lookup hf
    exact ⟨hperm.mem_iff.mp hmem, hk⟩
  refine ⟨hsorted, hperm, hfound, fun hne hdis key => ?_⟩
  have hfinds : ∀ e ∈ entries, e.contains key = true →
      (RangeMap.ofInserts entries).lookup key = some e := by
    intro e he hk
    refine hsorted.candidate_of_contains
      (fun e' he' => hne e' (hperm.mem_iff.mp he')) ?_
      (hperm.mem_iff.mpr he) hk
    exact hdis.perm hperm.symm fun h => h.symm
  refine ⟨fun e => ⟨hfound key e, fun ⟨he, hk⟩ => hfinds e he hk⟩,
    fun hnone e he => ?_, fun hno => ?_⟩
  · refine Bool.eq_false_iff.mpr fun hk => ?_
    rw [hfinds e he hk] at hnone
    cases hnone
  · refine Option.eq_none_iff_forall_ne_some.mpr fun e hf => ?_
    obtain ⟨he, hk⟩ := hfound key e hf
    rw [hno e he] at hk
    cases hk

/-- The ranges `["", "m")`, `["m", "z")` and `["z", ∞)`. -/
def thirds : List RangeEntry :=
  [⟨2, [109], some [122], "n0", ["n0"]⟩, ⟨3, [122], none, "n0", ["n0"]⟩,
    ⟨1, [], some [109], "n0", ["n0"]⟩]

/-- A boundary belongs to the range it starts. -/
theorem placement_exact_thirds :
    (RangeMap.ofInserts thirds).lookup [109]
      = some ⟨2, [109], some [122], "n0", ["n0"]⟩ := by
  have hne : ∀ e ∈ thirds, e.Nonempty := by
    intro e he
    refine ⟨e.start, ?_⟩
    revert e
    decide +kernel
  have hdis : thirds.Pairwise RangeEntry.Disjoint := by
    refine .cons (fun e he => ?_) (.cons (fun e he => ?_)
      (List.pairwise_singleton _ _))
    · rcases List.mem_cons.mp he with rfl | he
      · exact RangeEntry.disjoint_of_end_le rfl (by decide +kernel)
      · rw [List.mem_singleton.mp he]
        exact (RangeEntry.disjoint_of_end_le rfl (by decide +kernel)).symm
    · rw [List.mem_singleton.mp he]
      exact (RangeEntry.disjoint_of_end_le rfl (by decide +kernel)).symm
  exact (((placement_exact thirds).2.2.2 hne hdis [109]).1 _).mpr
    ⟨List.mem_cons_self, by decide +kernel⟩

end FerrisKv
