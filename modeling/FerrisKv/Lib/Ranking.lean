/-
Ranking a list by a score, and its best entries.

`Ranked f l s` says that `s` is `l` in order of decreasing score. Where no
two entries score the same there is one ranking (`Ranked.unique`), the
first `n` of it score above all others (`Ranked.take_above`), and a new
entry is put somewhere into it without moving the rest
(`Ranked.of_cons`).
-/
import Mathlib

namespace Ranking

variable {α κ : Type} {f : α → κ} {l l' s s' : List α}

/-- No two entries score the same. -/
def Distinct (f : α → κ) (l : List α) : Prop := (l.map f).Nodup

theorem Distinct.perm (h : Distinct f l) (hp : l.Perm l') : Distinct f l' :=
  (hp.map f).nodup_iff.mp h

theorem Distinct.nodup (h : Distinct f l) : l.Nodup := .of_map f h

theorem Distinct.inj (h : Distinct f l) {a b : α} (ha : a ∈ l) (hb : b ∈ l)
    (hab : f a = f b) : a = b := List.inj_on_of_nodup_map h ha hb hab

variable [LinearOrder κ]

/-- `s` is `l`, the highest score first. -/
structure Ranked (f : α → κ) (l s : List α) : Prop where
  perm : s.Perm l
  sorted : s.Pairwise fun a b => f b ≤ f a

theorem Ranked.strict (h : Ranked f l s) (hd : Distinct f l) :
    s.Pairwise fun a b => f b < f a := by
  have hne : s.Pairwise fun a b => f a ≠ f b :=
    List.pairwise_map.mp (hd.perm h.perm.symm)
  exact (h.sorted.and hne).imp fun hab => lt_of_le_of_ne hab.1 hab.2.symm

/-- There is one ranking. -/
theorem Ranked.unique (h : Ranked f l s) (h' : Ranked f l' s')
    (hd : Distinct f l) (hp : l.Perm l') : s = s' := by
  refine List.Perm.eq_of_pairwise ?_ h.sorted h'.sorted
    (h.perm.trans (hp.trans h'.perm.symm))
  intro a b ha hb hab hba
  exact hd.inj (h.perm.mem_iff.mp ha) (hp.mem_iff.mpr (h'.perm.mem_iff.mp hb))
    (le_antisymm hba hab)

/-- The best `n` score above the others. -/
theorem Ranked.take_above (h : Ranked f l s) (hd : Distinct f l) {n : Nat}
    {a b : α} (ha : a ∈ s.take n) (hb : b ∈ l) (hout : b ∉ s.take n) :
    f b < f a := by
  have hstrict := h.strict hd
  rw [← List.take_append_drop n s, List.pairwise_append] at hstrict
  have hbs : b ∈ s.take n ++ s.drop n := by
    rw [List.take_append_drop]
    exact h.perm.mem_iff.mpr hb
  exact hstrict.2.2 a ha b ((List.mem_append.mp hbs).resolve_left hout)

/-- Without one entry the ranking is the same. -/
theorem Ranked.of_cons {x : α} (h : Ranked f (x :: l) s) :
    ∃ pre post, s = pre ++ x :: post ∧ Ranked f l (pre ++ post) := by
  obtain ⟨pre, post, rfl⟩ :=
    List.append_of_mem (h.perm.mem_iff.mpr List.mem_cons_self)
  refine ⟨pre, post, rfl, ?_, ?_⟩
  · exact (List.perm_middle.symm.trans h.perm).cons_inv
  · exact h.sorted.sublist
      ((List.Sublist.refl pre).append (List.sublist_cons_self x post))

/-- One more entry takes the place of at most one. -/
theorem take_middle_subset (pre post : List α) (x : α) (n : Nat) :
    (pre ++ x :: post).take n ⊆ x :: (pre ++ post).take n := by
  intro a ha
  rw [List.take_append, List.mem_append] at ha
  rw [List.mem_cons, List.take_append, List.mem_append]
  rcases ha with ha | ha
  · exact .inr (.inl ha)
  · cases hk : n - pre.length with
    | zero =>
        rw [hk] at ha
        cases ha
    | succ k =>
        rw [hk, List.take_succ_cons] at ha
        rcases List.mem_cons.mp ha with rfl | ha
        · exact .inl rfl
        · exact .inr (.inr (List.take_subset_take_left post k.le_succ ha))

/-- One more entry that is not among the best changes nothing. -/
theorem take_middle_of_not_mem {pre post : List α} {x : α} {n : Nat}
    (h : x ∉ (pre ++ x :: post).take n) :
    (pre ++ x :: post).take n = (pre ++ post).take n := by
  have hle : n ≤ pre.length := by
    by_contra hlt
    refine h ?_
    rw [List.take_append, show n - pre.length = n - pre.length - 1 + 1 by omega,
      List.take_succ_cons]
    exact List.mem_append_right _ List.mem_cons_self
  rw [List.take_append_of_le_length hle, List.take_append_of_le_length hle]

end Ranking
