/-
Labelled transition systems, their traces, and forward simulation.

A step carries a label or none; a trace is the labels of a run. One
system refines another when every trace of the first is a trace of the
second, and a forward simulation is the usual way to see it: each step of
the concrete system is matched by any number of steps of the abstract one
with the same label among them.
-/
import Mathlib

/-- A labelled transition system; the label `none` is an internal step. -/
structure Lts (S Label : Type) where
  init : S → Prop
  step : S → Option Label → S → Prop

namespace Lts

variable {S S' Label : Type}

/-- `M.Trace τ s`: some run with the labels `τ`, in order, ends in `s`. -/
inductive Trace (M : Lts S Label) : List Label → S → Prop where
  | start {s : S} (h : M.init s) : Trace M [] s
  | internal {τ : List Label} {s s' : S} (h : Trace M τ s)
      (hs : M.step s none s') : Trace M τ s'
  | visible {τ : List Label} {s s' : S} {l : Label} (h : Trace M τ s)
      (hs : M.step s (some l) s') : Trace M (τ ++ [l]) s'

/-- A state some run ends in. -/
def Reachable (M : Lts S Label) (s : S) : Prop := ∃ τ, M.Trace τ s

theorem Reachable.step {M : Lts S Label} {s s' : S} {l : Option Label}
    (h : M.Reachable s) (hs : M.step s l s') : M.Reachable s' := by
  obtain ⟨τ, h⟩ := h
  cases l with
  | none => exact ⟨τ, .internal h hs⟩
  | some l => exact ⟨_, .visible h hs⟩

/-- What holds initially and is kept by every step holds of every
reachable state. -/
theorem Reachable.induction {M : Lts S Label} {I : S → Prop}
    (hinit : ∀ s, M.init s → I s)
    (hstep : ∀ s l s', I s → M.step s l s' → I s') {s : S}
    (h : M.Reachable s) : I s := by
  obtain ⟨τ, h⟩ := h
  induction h with
  | start h => exact hinit _ h
  | internal _ hs ih => exact hstep _ _ _ ih hs
  | visible _ hs ih => exact hstep _ _ _ ih hs

/-- Any number of internal steps. -/
inductive Silent (M : Lts S Label) : S → S → Prop where
  | refl (s : S) : Silent M s s
  | tail {s s' s'' : S} (h : Silent M s s') (hs : M.step s' none s'') :
      Silent M s s''

theorem Silent.trace {M : Lts S Label} {τ : List Label} {s s' : S}
    (h : M.Silent s s') (ht : M.Trace τ s) : M.Trace τ s' := by
  induction h with
  | refl => exact ht
  | tail _ hs ih => exact .internal ih hs

theorem Silent.single {M : Lts S Label} {s s' : S}
    (hs : M.step s none s') : M.Silent s s' := .tail (.refl s) hs

theorem Silent.trans {M : Lts S Label} {s s' s'' : S}
    (h : M.Silent s s') (h' : M.Silent s' s'') : M.Silent s s'' := by
  induction h' with
  | refl => exact h
  | tail _ hs ih => exact .tail ih hs

/-- What an abstract system does to match one label: internal steps, then
the label's own step if there is one. -/
def Matches (M : Lts S Label) (s : S) : Option Label → S → Prop
  | none, s' => M.Silent s s'
  | some l, s' => ∃ mid, M.Silent s mid ∧ M.step mid (some l) s'

/-- A forward simulation from `M` to `N`. -/
structure Simulation (M : Lts S Label) (N : Lts S' Label)
    (Rel : S → S' → Prop) : Prop where
  init : ∀ s, M.init s → ∃ a, N.init a ∧ Rel s a
  step : ∀ s l s' a, Rel s a → M.step s l s' →
    ∃ a', N.Matches a l a' ∧ Rel s' a'

/-- A simulation carries every trace over. -/
theorem Simulation.trace {M : Lts S Label} {N : Lts S' Label}
    {Rel : S → S' → Prop} (h : Simulation M N Rel) {τ : List Label} {s : S}
    (ht : M.Trace τ s) : ∃ a, N.Trace τ a ∧ Rel s a := by
  induction ht with
  | start hi =>
      obtain ⟨a, ha, hr⟩ := h.init _ hi
      exact ⟨a, .start ha, hr⟩
  | internal _ hs ih =>
      obtain ⟨a, ha, hr⟩ := ih
      obtain ⟨a', hm, hr'⟩ := h.step _ _ _ _ hr hs
      exact ⟨a', hm.trace ha, hr'⟩
  | visible _ hs ih =>
      obtain ⟨a, ha, hr⟩ := ih
      obtain ⟨a', ⟨mid, hm, hl⟩, hr'⟩ := h.step _ _ _ _ hr hs
      exact ⟨a', .visible (hm.trace ha) hl, hr'⟩

end Lts
