/-
Rendezvous hashing (`ferriskv-core/src/hashing.rs`).

`hrw_select` scores every node against the key and takes the `n` best.
The hash is third-party code and a parameter here. So is the sort, of
which the standard library promises the order and nothing about ties.

Where no two nodes score the same there is one ranking, and the selection
is the beginning of it (`hrwSelect_ranked`); what it does when nodes come
and go is then a fact about rankings.
-/
import FerrisKv.Core.Key
import FerrisKv.Lib.LittleEndian
import FerrisKv.Lib.Ranking

namespace FerrisKv

open LittleEndian Ranking

-- ================================================================ the model

/-- `sort_unstable_by_key` with the reversed score as key. -/
structure UnstableSort where
  sort : List (Nat × String) → List (Nat × String)
  perm : ∀ l, (sort l).Perm l
  sorted : ∀ l, (sort l).Pairwise fun a b => b.1 ≤ a.1

/-- `hrw_score`: the first eight bytes of the hash, as a `u64`. -/
def hrwScore (blake3 : Bytes → Vector UInt8 32) (key : Bytes)
    (node : String) : Nat :=
  ofLe ((blake3 (key ++ asBytes node)).toList.take 8)

/-- `hrw_select`. -/
def hrwSelect (blake3 : Bytes → Vector UInt8 32) (sorter : UnstableSort)
    (key : Bytes) (nodes : List String) (n : Nat) : List String :=
  if nodes.isEmpty || n == 0 then []
  else
    let scored := nodes.map fun node => (hrwScore blake3 key node, node)
    ((sorter.sort scored).take n).map Prod.snd

-- ============================================================== the ranking

section Selection

variable (blake3 : Bytes → Vector UInt8 32) (sorter : UnstableSort)
  (key : Bytes)

/-- The selection is the beginning of a ranking of the nodes. -/
theorem hrwSelect_ranked (nodes : List String) :
    ∃ s, Ranked (hrwScore blake3 key) nodes s
      ∧ ∀ n, hrwSelect blake3 sorter key nodes n = s.take n := by
  have hperm := sorter.perm
    (nodes.map fun node => (hrwScore blake3 key node, node))
  have hsorted := sorter.sorted
    (nodes.map fun node => (hrwScore blake3 key node, node))
  have hscore : ∀ p ∈ sorter.sort (nodes.map fun node =>
      (hrwScore blake3 key node, node)), p.1 = hrwScore blake3 key p.2 := by
    intro p hp
    obtain ⟨node, -, rfl⟩ := List.mem_map.mp (hperm.mem_iff.mp hp)
    rfl
  have hnodes := hperm.map Prod.snd
  rw [List.map_map, show (Prod.snd ∘ fun node => (hrwScore blake3 key node,
    node)) = id from rfl, List.map_id] at hnodes
  refine ⟨_, ⟨hnodes, ?_⟩, fun n => ?_⟩
  · refine List.pairwise_map.mpr (hsorted.imp_of_mem fun ha hb hab => ?_)
    rw [← hscore _ ha, ← hscore _ hb]
    exact hab
  · unfold hrwSelect
    split
    · next hnone =>
        rcases Bool.or_eq_true_iff.mp hnone with hempty | hzero
        · rw [List.isEmpty_iff.mp hempty] at hnodes ⊢
          rw [hnodes.eq_nil, List.take_nil]
        · rw [beq_iff_eq.mp hzero, List.take_zero]
    · exact List.map_take

/-- The nodes selected are the `n` best, in order. -/
theorem hrwSelect_best {nodes : List String}
    (hd : Distinct (hrwScore blake3 key) nodes) (n : Nat) :
    let picked := hrwSelect blake3 sorter key nodes n
    picked.length = min n nodes.length ∧ picked.Nodup ∧ picked ⊆ nodes
      ∧ (picked.Pairwise fun a b =>
        hrwScore blake3 key b < hrwScore blake3 key a)
      ∧ ∀ a ∈ picked, ∀ b ∈ nodes, b ∉ picked →
        hrwScore blake3 key b < hrwScore blake3 key a := by
  intro picked
  obtain ⟨s, hs, hsel⟩ := hrwSelect_ranked blake3 sorter key nodes
  have hpicked : picked = s.take n := hsel n
  rw [hpicked]
  have hsub : (s.take n).Sublist s := List.take_sublist n s
  refine ⟨?_, ?_, ?_, ?_, ?_⟩
  · rw [List.length_take, hs.perm.length_eq]
  · exact (hs.perm.nodup_iff.mpr hd.nodup).sublist hsub
  · exact fun a ha => hs.perm.mem_iff.mp (hsub.subset ha)
  · exact (hs.strict hd).sublist hsub
  · exact fun a ha b hb hout => hs.take_above hd ha hb hout

theorem hrwSelect_perm {nodes nodes' : List String}
    (hd : Distinct (hrwScore blake3 key) nodes) (hp : nodes'.Perm nodes)
    (n : Nat) :
    hrwSelect blake3 sorter key nodes' n
      = hrwSelect blake3 sorter key nodes n := by
  obtain ⟨s, hs, hsel⟩ := hrwSelect_ranked blake3 sorter key nodes
  obtain ⟨s', hs', hsel'⟩ := hrwSelect_ranked blake3 sorter key nodes'
  rw [hsel, hsel', hs.unique hs' hd hp.symm]

theorem hrwSelect_prefix (nodes : List String) (n : Nat) :
    hrwSelect blake3 sorter key nodes n
      <+: hrwSelect blake3 sorter key nodes (n + 1) := by
  obtain ⟨s, -, hsel⟩ := hrwSelect_ranked blake3 sorter key nodes
  rw [hsel, hsel]
  exact List.take_prefix_take_left n.le_succ

/-- A new node takes at most one place. -/
theorem hrwSelect_cons {nodes : List String} {x : String}
    (hd : Distinct (hrwScore blake3 key) (x :: nodes)) (n : Nat) :
    hrwSelect blake3 sorter key (x :: nodes) n
        ⊆ x :: hrwSelect blake3 sorter key nodes n
      ∧ (x ∉ hrwSelect blake3 sorter key (x :: nodes) n →
        hrwSelect blake3 sorter key (x :: nodes) n
          = hrwSelect blake3 sorter key nodes n) := by
  obtain ⟨s, hs, hsel⟩ := hrwSelect_ranked blake3 sorter key (x :: nodes)
  obtain ⟨s', hs', hsel'⟩ := hrwSelect_ranked blake3 sorter key nodes
  obtain ⟨pre, post, rfl, hrest⟩ := hs.of_cons
  have hold : Distinct (hrwScore blake3 key) nodes :=
    (List.nodup_cons.mp hd).2
  rw [hsel, hsel', hs'.unique hrest hold (.refl _)]
  exact ⟨take_middle_subset pre post x n, take_middle_of_not_mem⟩

end Selection

-- =================================================================== results

/-- Where no two nodes score the same, `hrw_select` picks the `n` best in
order, whatever the order they are listed in; asking for one more adds one
at the end; and a new node takes at most one place. -/
theorem hrw_moves_little (blake3 : Bytes → Vector UInt8 32)
    (sorter : UnstableSort) (key : Bytes) (nodes : List String) (n : Nat)
    (hd : Distinct (hrwScore blake3 key) nodes) :
    let score := hrwScore blake3 key
    let select := hrwSelect blake3 sorter key
    ((select nodes n).length = min n nodes.length ∧ (select nodes n).Nodup
      ∧ select nodes n ⊆ nodes
      ∧ ((select nodes n).Pairwise fun a b => score b < score a)
      ∧ ∀ a ∈ select nodes n, ∀ b ∈ nodes, b ∉ select nodes n →
        score b < score a)
    ∧ (∀ nodes', nodes'.Perm nodes → select nodes' n = select nodes n)
    ∧ select nodes n <+: select nodes (n + 1)
    ∧ ∀ x nodes', nodes'.Perm (x :: nodes) → Distinct score nodes' →
      select nodes' n ⊆ x :: select nodes n
        ∧ (x ∉ select nodes' n → select nodes' n = select nodes n) := by
  intro score select
  refine ⟨hrwSelect_best blake3 sorter key hd n,
    fun nodes' hp => hrwSelect_perm blake3 sorter key hd hp n,
    hrwSelect_prefix blake3 sorter key nodes n, fun x nodes' hp hd' => ?_⟩
  have hx : Distinct score (x :: nodes) := hd'.perm hp
  have hsame : select nodes' n = select (x :: nodes) n :=
    hrwSelect_perm blake3 sorter key hx hp n
  rw [hsame]
  exact hrwSelect_cons blake3 sorter key hx n

/-- A sort that keeps ties in order. -/
def UnstableSort.insertion : UnstableSort where
  sort := List.insertionSort fun a b => b.1 ≤ a.1
  perm := List.perm_insertionSort _
  sorted l := by
    have : Std.Total fun a b : Nat × String => b.1 ≤ a.1 :=
      ⟨fun a b => Nat.le_total b.1 a.1⟩
    have : IsTrans (Nat × String) fun a b => b.1 ≤ a.1 :=
      ⟨fun _ _ _ hab hbc => Nat.le_trans hbc hab⟩
    exact List.pairwise_insertionSort _ l

/-- A few messages and their BLAKE3 digests, as hexadecimal numbers. -/
def digests : List (Bytes × Nat) :=
  [(asBytes "ka",
      0x0f87ae7956b212bf636e5e8687b2cdc71915bd8d7695c0012a69ebdff5e16120),
   (asBytes "kb",
      0xc5d8c3ee045a3078cd55d2269f8c6296aae268824eb0c9dd32b89803686a77f6),
   (asBytes "kc",
      0xf00f90fc1a5c6464def47c4d5faf579e2edf64ad01323b55e4ec635f49dfd68b),
   (asBytes "kd",
      0x388487ea254015306455fb1c8155e6429ec2855f504eacce6c006e36b83c63b8),
   ([1],
      0x48fc721fbbc172e0925fa27af1671de225ba927134802998b10a1568a188652b)]

/-- BLAKE3, on those messages. -/
def digest (message : Bytes) : Vector UInt8 32 :=
  ⟨(beBytes 32 ((digests.lookup message).getD 0)).toArray, by
    rw [List.size_toArray, length_beBytes]⟩

/-- Under the key "k" the nodes rank "a", "b", "c", "d". The first two of the
last three are picked, and when "a" joins it takes the place of one. -/
theorem hrw_moves_little_joined :
    (hrwSelect digest .insertion (asBytes "k") ["b", "c", "d"] 2 = ["b", "c"]
      ∧ hrwSelect digest .insertion (asBytes "k") ["d", "a", "b", "c"] 2
        = ["a", "b"])
    ∧ (hrwSelect digest .insertion (asBytes "k") ["b", "c", "d"] 2).length = 2
    ∧ hrwSelect digest .insertion (asBytes "k") ["d", "a", "b", "c"] 2
      ⊆ "a" :: hrwSelect digest .insertion (asBytes "k") ["b", "c", "d"] 2 := by
  obtain ⟨⟨hlength, -⟩, -, -, hadd⟩ := hrw_moves_little digest .insertion
    (asBytes "k") ["b", "c", "d"] 2 (by unfold Distinct; decide +kernel)
  exact ⟨⟨by decide +kernel, by decide +kernel⟩, hlength,
    (hadd "a" ["d", "a", "b", "c"] (by decide)
      (by unfold Distinct; decide +kernel)).1⟩

end FerrisKv
