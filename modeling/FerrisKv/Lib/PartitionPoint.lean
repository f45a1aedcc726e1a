/-
Finding where a predicate stops holding, by bisection.

A list is partitioned by `p` if no element that satisfies it comes after
one that does not. `partitionPoint` then is the number of elements that
do (`partitionPoint_split`). On a list that is not partitioned it is some
index of the list or its length (`partitionPoint_le`).
-/
import Mathlib

namespace PartitionPoint

variable {α : Type}

/-- The predicate at an index; `false` past the end. -/
def holdsAt (p : α → Bool) (l : List α) (i : Nat) : Bool := l[i]?.any p

/-- Halve the window of `size` indices from `base` on, keeping the half the
answer is in. -/
def bisect (p : α → Bool) (l : List α) (base size : Nat) : Nat :=
  if 1 < size then
    let half := size / 2
    let mid := base + half
    bisect p l (if holdsAt p l mid then mid else base) (size - half)
  else base
termination_by size

/-- The index of the first element that does not satisfy `p`. -/
def partitionPoint (p : α → Bool) (l : List α) : Nat :=
  if l.length = 0 then 0
  else
    let base := bisect p l 0 l.length
    if holdsAt p l base then base + 1 else base

section Bounds

variable {p : α → Bool} {l : List α}

/-- The bisection does not leave its window. -/
theorem bisect_lt {base size n : Nat} (hsize : 0 < size)
    (h : base + size ≤ n) : bisect p l base size < n := by
  fun_induction bisect p l base size with
  | case1 base size hlt half mid ih =>
      refine ih (by omega) ?_
      split <;> omega
  | case2 base size hge => omega

theorem partitionPoint_le (p : α → Bool) (l : List α) :
    partitionPoint p l ≤ l.length := by
  unfold partitionPoint
  split
  · omega
  · next hpos =>
      have hlt : bisect p l 0 l.length < l.length :=
        bisect_lt (by omega) (by omega)
      dsimp only
      split <;> omega

/-- The invariant of the bisection: the predicate holds at `base`, unless
nothing has been found yet, and the answer is no further than the end of
the window. -/
theorem bisect_spec {k base size : Nat}
    (hk : ∀ i, holdsAt p l i = true ↔ i < k) (hsize : 0 < size)
    (hbase : base = 0 ∨ base < k) (hend : k ≤ base + size) :
    (bisect p l base size = 0 ∨ bisect p l base size < k)
      ∧ k ≤ bisect p l base size + 1 := by
  fun_induction bisect p l base size with
  | case1 base size hlt half mid ih =>
      refine ih (by omega) ?_ ?_
      · split
        · next hmid => exact .inr ((hk mid).mp hmid)
        · exact hbase
      · split
        · omega
        · next hmid =>
            have := mt (hk mid).mpr hmid
            omega
  | case2 base size hge => exact ⟨hbase, by omega⟩

theorem partitionPoint_eq {k : Nat}
    (hk : ∀ i, holdsAt p l i = true ↔ i < k) : partitionPoint p l = k := by
  have hlen : k ≤ l.length := by
    by_contra hlt
    have hat := (hk l.length).mpr (by omega)
    rw [holdsAt, List.getElem?_eq_none (Nat.le_refl _)] at hat
    cases hat
  unfold partitionPoint
  split
  · omega
  · next hpos =>
      obtain ⟨hbase, hend⟩ := bisect_spec hk (Nat.pos_of_ne_zero hpos)
        (.inl rfl) (by omega : k ≤ 0 + l.length)
      dsimp only
      split
      · next hat =>
          have := (hk _).mp hat
          omega
      · next hat =>
          have := mt (hk _).mpr hat
          omega

/-- A partitioned list is cut in two: before the partition point all
satisfy the predicate, after it none does. -/
theorem partitionPoint_split
    (h : l.Pairwise fun a b => p b = true → p a = true) :
    ∃ pre post, l = pre ++ post ∧ partitionPoint p l = pre.length
      ∧ (∀ a ∈ pre, p a = true) ∧ ∀ b ∈ post, p b = false := by
  have hpre : ∀ a ∈ l.takeWhile p, p a = true :=
    fun a ha => List.mem_takeWhile_imp ha
  have hpost : ∀ b ∈ l.dropWhile p, p b = false := by
    intro b hb
    cases hd : l.dropWhile p with
    | nil =>
        rw [hd] at hb
        cases hb
    | cons c rest =>
        have hne : l.dropWhile p ≠ [] := by simp [hd]
        have hc : ¬ p c = true := by
          simpa [hd] using List.head_dropWhile_not p hne
        have hsub : (l.dropWhile p).Sublist l := List.dropWhile_sublist p
        have hpair := h.sublist hsub
        rw [hd] at hpair hb
        rcases List.mem_cons.mp hb with rfl | hb
        · exact Bool.eq_false_iff.mpr hc
        · exact Bool.eq_false_iff.mpr fun hpb =>
            hc (List.rel_of_pairwise_cons hpair hb hpb)
  refine ⟨l.takeWhile p, l.dropWhile p, List.takeWhile_append_dropWhile.symm,
    partitionPoint_eq fun i => ?_, hpre, hpost⟩
  have hsplit : l[i]? = (l.takeWhile p ++ l.dropWhile p)[i]? := by
    rw [List.takeWhile_append_dropWhile]
  unfold holdsAt
  rw [hsplit]
  by_cases hi : i < (l.takeWhile p).length
  · rw [List.getElem?_append_left hi, List.getElem?_eq_getElem hi]
    exact ⟨fun _ => hi, fun _ => hpre _ (List.getElem_mem hi)⟩
  · refine ⟨fun hat => ?_, fun hlt => absurd hlt hi⟩
    rw [List.getElem?_append_right (Nat.le_of_not_lt hi),
      Option.any_eq_true] at hat
    obtain ⟨b, hb, hpb⟩ := hat
    rw [hpost b (List.mem_of_getElem? hb)] at hpb
    cases hpb

end Bounds

theorem insertIdx_length_append (pre post : List α) (a : α) :
    (pre ++ post).insertIdx pre.length a = pre ++ a :: post := by
  induction pre with
  | nil => rfl
  | cons b pre ih => simp [ih]

end PartitionPoint
