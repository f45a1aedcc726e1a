/-
Reading an ordered map in key order, and prefixes as key ranges.

A filtered listing of an ordered map is determined by what it keeps of
each key: two maps, even of different value types, that keep the same of
every key list the same (`listing_congr`), and likewise the members of a
map of sets (`filter_members_congr`). On byte strings the keys that start
with a given prefix are a half-open range (`between_iff_prefix`), as long
as the prefix has a byte to increment.
-/
import Mathlib

namespace OrderedScan

open Std

section Listing

variable {K V V' B : Type} [Ord K] [TransOrd K]

/-- The kept entries of a map, in key order. -/
def listing (f : K → V → Option B) (m : ExtTreeMap K V) : List (K × B) :=
  m.toList.filterMap fun e => (f e.1 e.2).map fun b => (e.1, b)

theorem mem_listing [LawfulEqOrd K] {f : K → V → Option B}
    {m : ExtTreeMap K V} {k : K}
    {b : B} : (k, b) ∈ listing f m ↔ m[k]?.bind (f k) = some b := by
  rw [listing, List.mem_filterMap]
  constructor
  · rintro ⟨⟨k', v⟩, hmem, he⟩
    rw [ExtTreeMap.mem_toList_iff_getElem?_eq_some] at hmem
    obtain ⟨b', hb', heq⟩ := Option.map_eq_some_iff.mp he
    cases heq
    rw [hmem, Option.bind_some]
    exact hb'
  · intro h
    obtain ⟨v, hv, hf⟩ := Option.bind_eq_some_iff.mp h
    exact ⟨(k, v), ExtTreeMap.mem_toList_iff_getElem?_eq_some.mpr hv,
      by rw [hf]; rfl⟩

/-- A listing is strictly increasing in its keys. -/
theorem pairwise_listing (f : K → V → Option B) (m : ExtTreeMap K V) :
    (listing f m).Pairwise fun a b => compare a.1 b.1 = .lt := by
  refine List.Pairwise.filterMap _ ?_ m.ordered_keys_toList
  intro a a' h b hb b' hb'
  obtain ⟨_, _, rfl⟩ := Option.map_eq_some_iff.mp hb
  obtain ⟨_, _, rfl⟩ := Option.map_eq_some_iff.mp hb'
  exact h

theorem nodup_listing (f : K → V → Option B) (m : ExtTreeMap K V) :
    (listing f m).Nodup := by
  refine (pairwise_listing f m).imp ?_
  rintro a b hlt rfl
  rw [ReflOrd.compare_self] at hlt
  cases hlt

/-- What is kept of each key decides the listing. -/
theorem listing_congr [LawfulEqOrd K] {f : K → V → Option B}
    {f' : K → V' → Option B} {m : ExtTreeMap K V} {m' : ExtTreeMap K V'}
    (h : ∀ k, m[k]?.bind (f k) = m'[k]?.bind (f' k)) :
    listing f m = listing f' m' := by
  refine List.Perm.eq_of_pairwise ?_ (pairwise_listing f m)
    (pairwise_listing f' m') ?_
  · intro a b _ _ hab hba
    exact absurd hba (OrientedCmp.not_lt_of_lt hab)
  · rw [List.perm_ext_iff_of_nodup (nodup_listing f m) (nodup_listing f' m')]
    rintro ⟨k, b⟩
    rw [mem_listing, mem_listing, h k]

/-- Removing the first key leaves the other entries. -/
theorem toList_erase_head [LawfulEqOrd K] {m : ExtTreeMap K V} {k : K}
    {v : V} {rest : List (K × V)} (h : m.toList = (k, v) :: rest) :
    (m.erase k).toList = rest := by
  have hord := m.ordered_keys_toList
  rw [h, List.pairwise_cons] at hord
  have hnd : ∀ {l : List (K × V)},
      l.Pairwise (fun a b => compare a.1 b.1 = .lt) → l.Nodup := by
    intro l hl
    refine hl.imp ?_
    rintro a b hlt rfl
    rw [ReflOrd.compare_self] at hlt
    cases hlt
  refine List.Perm.eq_of_pairwise ?_ (m.erase k).ordered_keys_toList hord.2 ?_
  · intro a b _ _ hab hba
    exact absurd hba (OrientedCmp.not_lt_of_lt hab)
  · rw [List.perm_ext_iff_of_nodup (hnd (m.erase k).ordered_keys_toList)
      (hnd hord.2)]
    rintro ⟨k', v'⟩
    rw [ExtTreeMap.mem_toList_iff_getElem?_eq_some, ExtTreeMap.getElem?_erase]
    have hmem := ExtTreeMap.mem_toList_iff_getElem?_eq_some (t := m)
      (k := k') (v := v')
    rw [h, List.mem_cons] at hmem
    by_cases hk : compare k k' = .eq
    · rw [if_pos hk]
      refine ⟨fun hf => (nomatch hf), fun hr => ?_⟩
      have hlt : compare k k' = .lt := hord.1 _ hr
      rw [hk] at hlt
      cases hlt
    · rw [if_neg hk, ← hmem]
      refine ⟨fun ho => ho.resolve_left ?_, fun hr => .inr hr⟩
      rintro ⟨rfl, -⟩
      exact hk ReflOrd.compare_self

end Listing

section Members

variable {K V : Type} [Ord K] [TransOrd K] [Ord V] [TransOrd V]

/-- The members of a map of sets, by key and then by member. -/
def members (m : ExtTreeMap K (ExtTreeSet V)) : List (K × V) :=
  m.toList.flatMap fun e => e.2.toList.map fun v => (e.1, v)

theorem mem_members [LawfulEqOrd K] [LawfulEqOrd V]
    {m : ExtTreeMap K (ExtTreeSet V)} {k : K} {v : V} :
    (k, v) ∈ members m ↔ ∃ s, m[k]? = some s ∧ v ∈ s := by
  rw [members, List.mem_flatMap]
  constructor
  · rintro ⟨⟨k', s⟩, he, hv⟩
    obtain ⟨v', hv', heq⟩ := List.mem_map.mp hv
    cases heq
    exact ⟨s, ExtTreeMap.mem_toList_iff_getElem?_eq_some.mp he,
      ExtTreeSet.mem_toList.mp hv'⟩
  · rintro ⟨s, hs, hv⟩
    exact ⟨(k, s), ExtTreeMap.mem_toList_iff_getElem?_eq_some.mpr hs,
      List.mem_map.mpr ⟨v, ExtTreeSet.mem_toList.mpr hv, rfl⟩⟩

/-- Members are listed in strictly increasing order. -/
theorem pairwise_members (m : ExtTreeMap K (ExtTreeSet V)) :
    (members m).Pairwise fun a b =>
      compare a.1 b.1 = .lt ∨ a.1 = b.1 ∧ compare a.2 b.2 = .lt := by
  rw [members, List.pairwise_flatMap]
  constructor
  · intro e _
    rw [List.pairwise_map]
    exact e.2.ordered_toList.imp fun h => .inr ⟨rfl, h⟩
  · refine m.ordered_keys_toList.imp fun {e e'} h a ha a' ha' => ?_
    obtain ⟨v, -, rfl⟩ := List.mem_map.mp ha
    obtain ⟨v', -, rfl⟩ := List.mem_map.mp ha'
    exact .inl h

/-- The order members are listed in is strict. -/
theorem members_order_asymm {a b : K × V}
    (hab : compare a.1 b.1 = .lt ∨ a.1 = b.1 ∧ compare a.2 b.2 = .lt) :
    ¬ (compare b.1 a.1 = .lt ∨ b.1 = a.1 ∧ compare b.2 a.2 = .lt) := by
  obtain ⟨k, v⟩ := a
  obtain ⟨k', v'⟩ := b
  rcases hab with hk | ⟨rfl, hv⟩
  · rintro (hk' | ⟨he, hv'⟩)
    · exact OrientedCmp.not_lt_of_lt hk hk'
    · cases he
      simp only [ReflOrd.compare_self] at hk
      cases hk
  · rintro (hk' | ⟨he, hv'⟩)
    · simp only [ReflOrd.compare_self] at hk'
      cases hk'
    · exact OrientedCmp.not_lt_of_lt hv hv'

theorem nodup_members (m : ExtTreeMap K (ExtTreeSet V)) :
    (members m).Nodup := by
  refine (pairwise_members m).imp ?_
  rintro a b hlt rfl
  exact members_order_asymm hlt hlt

/-- The members with a property decide their listing. -/
theorem filter_members_congr {m m' : ExtTreeMap K (ExtTreeSet V)}
    {p : K × V → Bool}
    (h : ∀ e, p e = true → (e ∈ members m ↔ e ∈ members m')) :
    (members m).filter p = (members m').filter p := by
  refine List.Perm.eq_of_pairwise ?_ ((pairwise_members m).filter p)
    ((pairwise_members m').filter p) ?_
  · intro a b _ _ hab hba
    exact absurd hba (members_order_asymm hab)
  · rw [List.perm_ext_iff_of_nodup ((nodup_members m).filter p)
      ((nodup_members m').filter p)]
    intro e
    rw [List.mem_filter, List.mem_filter]
    exact and_congr_left (h e)

end Members

section Prefixes

variable {A : Type} [Ord A] [LawfulEqOrd A]

/-- A common prefix does not matter to the order. -/
theorem compare_append_left (pre a b : List A) :
    compare (pre ++ a) (pre ++ b) = compare a b := by
  induction pre with
  | nil => rfl
  | cons x pre ih =>
      rw [List.cons_append, List.cons_append, List.compare_eq_compareLex,
        List.compareLex_cons_cons, ReflOrd.compare_self, Ordering.eq_then,
        ← List.compare_eq_compareLex, ih]

/-- What lies between two strings with a common prefix has the prefix. -/
theorem prefix_of_between [TransOrd A] {pre a b k : List A} (ha : pre <+: a)
    (hb : pre <+: b) (hak : compare a k ≠ .gt) (hkb : compare k b ≠ .gt) :
    pre <+: k := by
  induction pre generalizing a b k with
  | nil => exact List.nil_prefix
  | cons x pre ih =>
      obtain ⟨a, rfl⟩ := ha
      obtain ⟨b, rfl⟩ := hb
      rw [List.cons_append] at hak hkb
      cases k with
      | nil => exact absurd rfl hak
      | cons y k =>
          rw [List.compare_eq_compareLex, List.compareLex_cons_cons,
            ← List.compare_eq_compareLex] at hak hkb
          -- the first byte is squeezed between `x` and `x`
          have hxy : compare x y = .eq := by
            cases hc : compare x y with
            | lt =>
                rw [OrientedCmp.gt_of_lt hc] at hkb
                exact absurd rfl hkb
            | eq => rfl
            | gt =>
                rw [hc] at hak
                exact absurd rfl hak
          have hyx : compare y x = .eq := OrientedCmp.eq_symm hxy
          rw [hxy, Ordering.eq_then] at hak
          rw [hyx, Ordering.eq_then] at hkb
          rw [Std.compare_eq_iff_eq.mp hxy, List.cons_prefix_cons]
          exact ⟨rfl, ih ⟨a, rfl⟩ ⟨b, rfl⟩ hak hkb⟩

end Prefixes

section Bytes

theorem compare_byte_lt {a b : UInt8} :
    compare a b = .lt ↔ a.toNat < b.toNat := by
  rw [← UInt8.lt_iff_toNat_lt]
  exact compareOfLessAndEq_eq_lt

theorem compare_byte_gt {a b : UInt8} :
    compare a b = .gt ↔ b.toNat < a.toNat := by
  rw [OrientedCmp.gt_iff_lt, compare_byte_lt]

/-- The keys from `FF FF … FF` on are the ones that start with it. -/
theorem le_iff_prefix_replicate (j : Nat) (k : List UInt8) :
    compare (List.replicate j 255) k ≠ .gt ↔ List.replicate j 255 <+: k := by
  induction j generalizing k with
  | zero => cases k <;> simp
  | succ j ih =>
      cases k with
      | nil => simp [List.replicate_succ]
      | cons c ks =>
          rw [List.replicate_succ, List.compare_eq_compareLex,
            List.compareLex_cons_cons, ← List.compare_eq_compareLex,
            List.cons_prefix_cons, ← ih ks]
          have hc : c.toNat < 256 := c.toNat_lt
          rcases Nat.lt_or_ge c.toNat 255 with hlt | hge
          · have hgt : compare (255 : UInt8) c = .gt :=
              compare_byte_gt.mpr hlt
            have hne : (255 : UInt8) ≠ c := by
              rintro rfl
              exact absurd hlt (by decide)
            simp [hgt, hne]
          · have heq : (255 : UInt8) = c := by
              apply UInt8.toNat_inj.mp
              show 255 = c.toNat
              omega
            simp [← heq]

/-- A prefix and its bumped form bound exactly the keys that start with
it. `b` is the last byte that can be incremented. -/
theorem between_iff_prefix (r : List UInt8) {b : UInt8} (hb : b ≠ 255)
    (j : Nat) (k : List UInt8) :
    (compare (r ++ b :: List.replicate j 255) k ≠ .gt
        ∧ compare k (r ++ [b + 1]) = .lt)
      ↔ (r ++ b :: List.replicate j 255) <+: k := by
  induction r generalizing k with
  | nil =>
      cases k with
      | nil => simp
      | cons c ks =>
          have hbt : b.toNat < 255 := by
            have := b.toNat_lt
            have hne : b.toNat ≠ 255 := fun h => hb (UInt8.toNat_inj.mp h)
            omega
          have hb1 : (b + 1).toNat = b.toNat + 1 := by
            rw [UInt8.toNat_add]
            show (b.toNat + 1) % 256 = _
            omega
          have hup : compare (c :: ks) [b + 1] = .lt ↔ c.toNat ≤ b.toNat := by
            rw [List.compare_eq_compareLex, List.compareLex_cons_cons]
            rcases Nat.lt_trichotomy c.toNat (b + 1).toNat with h | h | h
            · have hle : c.toNat ≤ b.toNat := by omega
              simp [compare_byte_lt.mpr h, hle]
            · have hnle : ¬ c.toNat ≤ b.toNat := by omega
              have heq : c = b + 1 := UInt8.toNat_inj.mp h
              rw [iff_false_right hnle, heq, ReflOrd.compare_self,
                Ordering.eq_then]
              cases ks with
              | nil => rw [List.compareLex_nil_nil]; decide
              | cons d ds => rw [List.compareLex_cons_nil]; decide
            · have hnle : ¬ c.toNat ≤ b.toNat := by omega
              simp [compare_byte_gt.mpr h, hnle]
          simp only [List.nil_append]
          rw [hup, List.compare_eq_compareLex, List.compareLex_cons_cons,
            ← List.compare_eq_compareLex, List.cons_prefix_cons,
            ← le_iff_prefix_replicate]
          rcases Nat.lt_trichotomy b.toNat c.toNat with h | h | h
          · have hne : b ≠ c := by
              rintro rfl
              omega
            simp [hne]
            omega
          · have heq : b = c := UInt8.toNat_inj.mp h
            subst heq
            simp
          · have hgt : compare b c = .gt := compare_byte_gt.mpr h
            have hne : b ≠ c := by
              rintro rfl
              omega
            simp [hgt, hne]
  | cons a r ih =>
      cases k with
      | nil => simp
      | cons c ks =>
          have hrec := ih ks
          rw [List.cons_append, List.cons_append, List.cons_prefix_cons,
            ← hrec]
          simp only [List.compare_eq_compareLex, List.compareLex_cons_cons]
          by_cases hac : a = c
          · subst hac
            simp
          · simp only [hac, false_and, iff_false, not_and]
            intro hle hlt
            cases hcmp : compare a c with
            | lt =>
                rw [OrientedCmp.gt_of_lt hcmp] at hlt
                cases hlt
            | eq => exact hac (Std.compare_eq_iff_eq.mp hcmp)
            | gt =>
                rw [hcmp] at hle
                exact hle rfl

end Bytes

end OrderedScan
