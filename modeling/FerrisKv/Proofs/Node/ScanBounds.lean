/-
The range a prefix scan asks for holds exactly the keys with the prefix.

`next_prefix_bound` drops trailing `FF`s and increments the byte before
them. It finds one in every range the node asks for, because the prefix
contains a subspace byte; on a prefix of only `FF`s the bound would be
empty and so would be the scan.
-/
import FerrisKv.Lib.OrderedScan
import FerrisKv.Node.Grpc
import FerrisKv.Proofs.Node.StoredBytes

namespace FerrisKv

open OrderedScan

/-- The bound's last byte that can be is raised, and what is behind it
dropped. -/
private theorem bumpLast_replicate (j : Nat) {b : UInt8} (hb : b ≠ 255)
    (r : Bytes) :
    bumpLast (List.replicate j 255 ++ b :: r) = (b + 1) :: r := by
  induction j with
  | zero => exact if_neg hb
  | succ j ih => exact ih

/-- The shape of a reversed prefix that can be incremented. -/
theorem eq_replicate_append {l : Bytes} (h : ∃ x ∈ l, x ≠ 255) :
    ∃ j b r, b ≠ 255 ∧ l = List.replicate j 255 ++ b :: r := by
  induction l with
  | nil =>
      obtain ⟨x, hx, -⟩ := h
      cases hx
  | cons a l ih =>
      by_cases ha : a = 255
      · obtain ⟨x, hx, hne⟩ := h
        rcases List.mem_cons.mp hx with rfl | hx
        · exact absurd ha hne
        · obtain ⟨j, b, r, hb, rfl⟩ := ih ⟨x, hx, hne⟩
          exact ⟨j + 1, b, r, hb, by rw [ha, List.replicate_succ]; rfl⟩
      · exact ⟨0, a, l, ha, rfl⟩

/-- Between a prefix and its bound lie the keys that start with it. -/
theorem between_nextPrefixBound {pre : Bytes} (h : ∃ x ∈ pre, x ≠ 255)
    (k : Bytes) :
    (compare pre k ≠ .gt ∧ compare k (nextPrefixBound pre) = .lt)
      ↔ pre <+: k := by
  obtain ⟨x, hx, hne⟩ := h
  obtain ⟨j, b, r, hb, hrev⟩ :=
    eq_replicate_append ⟨x, List.mem_reverse.mpr hx, hne⟩
  have hpre : pre = r.reverse ++ b :: List.replicate j 255 := by
    rw [← List.reverse_reverse pre, hrev]
    simp
  have hbound : nextPrefixBound pre = r.reverse ++ [b + 1] := by
    rw [nextPrefixBound, hrev, bumpLast_replicate j hb, List.reverse_cons]
  rw [hbound, hpre]
  exact between_iff_prefix r.reverse hb j k

/-- A tenant's data prefix can always be incremented. -/
theorem bytesOf_data_bounded (t : String) (p : Bytes) :
    ∃ x ∈ KeyCodec.bytesOf t .data p, x ≠ 255 := by
  refine ⟨Subspace.data.toU8, ?_, by decide⟩
  simp [KeyCodec.bytesOf]

/-- What extends a tenant's data prefix is that tenant's data. -/
theorem decode_of_data_prefix {t : String} {p k : Bytes}
    (ht : KeyCodec.ValidTenant t) (h : KeyCodec.bytesOf t .data p <+: k) :
    ∃ rest, KeyCodec.decode k = .ok (t, .data, p ++ rest) := by
  obtain ⟨rest, rfl⟩ := h
  refine ⟨rest, ?_⟩
  rw [← KeyCodec.decode_bytesOf ht .data (p ++ rest), KeyCodec.bytesOf,
    KeyCodec.bytesOf, ← List.append_assoc]

end FerrisKv
