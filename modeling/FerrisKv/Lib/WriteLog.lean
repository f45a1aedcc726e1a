/-
Logs of point writes over an ordered map: what a log does to one key is
decided by the last write to that key, and by nothing else.

`lastWrite log k` is that write (`none` when the log never touches `k`,
`some none` when it ends by deleting it), and `getElem?_applyAll` is the
whole theory: a key the log mentions ends with the logged value whatever
the map held, any other key keeps what it had. Replaying over a map that
already holds part of the log is an instance
(`getElem?_applyAll_of_agree`, `applyAll_congr`).
-/
import Mathlib

namespace WriteLog

open Std

variable {K V : Type}

/-- One point write. -/
inductive Write (K V : Type) where
  | put (k : K) (v : V)
  | delete (k : K)
  deriving DecidableEq, Repr

/-- The key a write touches. -/
def Write.key : Write K V → K
  | .put k _ => k
  | .delete k => k

/-- What the key holds after the write. -/
def Write.value : Write K V → Option V
  | .put _ v => some v
  | .delete _ => none

section Replay

variable [Ord K] [TransOrd K]

/-- Perform one write. -/
def apply (m : ExtTreeMap K V) : Write K V → ExtTreeMap K V
  | .put k v => m.insert k v
  | .delete k => m.erase k

/-- Perform a log of writes, oldest first. -/
def applyAll (log : List (Write K V)) (m : ExtTreeMap K V) : ExtTreeMap K V :=
  log.foldl apply m

@[simp] theorem applyAll_nil (m : ExtTreeMap K V) :
    applyAll [] m = m := rfl

@[simp] theorem applyAll_cons (w : Write K V) (log : List (Write K V))
    (m : ExtTreeMap K V) :
    applyAll (w :: log) m = applyAll log (apply m w) := rfl

@[simp] theorem applyAll_append (l₁ l₂ : List (Write K V))
    (m : ExtTreeMap K V) :
    applyAll (l₁ ++ l₂) m = applyAll l₂ (applyAll l₁ m) :=
  List.foldl_append

end Replay

section Lookup

variable [DecidableEq K]

/-- What the log's last write to `k` leaves there, if it writes `k`. -/
def lastWrite (log : List (Write K V)) (k : K) : Option (Option V) :=
  (log.reverse.find? fun w => w.key = k).map Write.value

@[simp] theorem lastWrite_nil (k : K) :
    lastWrite ([] : List (Write K V)) k = none := rfl

theorem lastWrite_snoc (log : List (Write K V)) (w : Write K V) (k : K) :
    lastWrite (log ++ [w]) k
      = if w.key = k then some w.value else lastWrite log k := by
  unfold lastWrite
  rw [List.reverse_append, List.reverse_singleton, List.singleton_append,
    List.find?_cons]
  by_cases hk : w.key = k <;> simp [hk]

/-- A log decides exactly the keys it mentions. -/
theorem lastWrite_isSome {log : List (Write K V)} {k : K} :
    (lastWrite log k).isSome ↔ ∃ w ∈ log, w.key = k := by
  unfold lastWrite
  rw [Option.isSome_map, List.find?_isSome]
  simp

variable [Ord K] [TransOrd K] [LawfulEqOrd K]

/-- A write changes its own key and no other. -/
theorem getElem?_apply (m : ExtTreeMap K V) (w : Write K V) (k : K) :
    (apply m w)[k]? = if w.key = k then w.value else m[k]? := by
  cases w with
  | put k' v =>
      rw [apply, ExtTreeMap.getElem?_insert]
      by_cases hk : k' = k <;> simp [Write.key, Write.value, hk]
  | delete k' =>
      rw [apply, ExtTreeMap.getElem?_erase]
      by_cases hk : k' = k <;> simp [Write.key, Write.value, hk]

/-- The last write wins; without one the map keeps its entry. -/
theorem getElem?_applyAll (log : List (Write K V)) (m : ExtTreeMap K V)
    (k : K) : (applyAll log m)[k]? = (lastWrite log k).getD m[k]? := by
  -- from the back: the last write of the log is the one that can win
  induction log using List.reverseRecOn with
  | nil => rfl
  | append_singleton log w ih =>
      rw [applyAll_append, applyAll_cons, applyAll_nil, getElem?_apply,
        lastWrite_snoc]
      by_cases hk : w.key = k
      · rw [if_pos hk, if_pos hk, Option.getD_some]
      · rw [if_neg hk, if_neg hk, ih]

/-- Replay converges: over maps that agree wherever the log is silent, a
log leaves the same entry. -/
theorem getElem?_applyAll_of_agree {log : List (Write K V)}
    {m m' : ExtTreeMap K V} {k : K}
    (h : lastWrite log k = none → m[k]? = m'[k]?) :
    (applyAll log m)[k]? = (applyAll log m')[k]? := by
  rw [getElem?_applyAll, getElem?_applyAll]
  cases hl : lastWrite log k with
  | none => exact h hl
  | some v => rfl

/-- What a map holds at the keys of a log does not matter to the log. -/
theorem applyAll_congr {log : List (Write K V)} {m m' : ExtTreeMap K V}
    (h : ∀ k, (∀ w ∈ log, w.key ≠ k) → m[k]? = m'[k]?) :
    applyAll log m = applyAll log m' := by
  refine ExtTreeMap.ext_getElem? fun {k} => getElem?_applyAll_of_agree ?_
  intro hl
  refine h k fun w hw hk => ?_
  have hsome := lastWrite_isSome.mpr ⟨w, hw, hk⟩
  rw [hl] at hsome
  cases hsome

/-- Writes to other keys leave a key's entry alone. -/
theorem getElem?_applyAll_of_notMem {log : List (Write K V)}
    (m : ExtTreeMap K V) {k : K} (h : ∀ w ∈ log, w.key ≠ k) :
    (applyAll log m)[k]? = m[k]? := by
  have hl : lastWrite log k = none := by
    rw [← Option.not_isSome_iff_eq_none, lastWrite_isSome]
    rintro ⟨w, hw, hk⟩
    exact h w hw hk
  rw [getElem?_applyAll, hl, Option.getD_none]

end Lookup

end WriteLog
