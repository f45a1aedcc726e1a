/-
Two runs side by side.

A relation on states says what some observer cannot tell apart. A step is
`Hidden` from the observer if it never changes what they see, and `Local`
to them if it answers by what they see and moves only that. A program that
answers by it is `Steady`; the rules below put such programs together from
local steps and from parts that are hidden, whose own answers may then not
matter.

`Unwinds.purge` is the classical unwinding theorem for a machine whose
actions are served one at a time: if every action outside `kept` is hidden
and every other one is local, a run shows the observer what it would show
with the actions outside `kept` left out.
-/
import FerrisKv.Lib.Prog

namespace Prog

variable {P : Type} {R : P → Type} {α β ε W : Type}

section Observer

variable (E : W → W → Prop) (exec : (p : P) → W → R p × W)

/-- The step changes nothing the observer sees. -/
def Hidden (p : P) : Prop := ∀ w, E w (exec p w).2

/-- The step answers by what the observer sees, and moves it alike. -/
def Local (p : P) : Prop := ∀ w w', E w w' →
  (exec p w).1 = (exec p w').1 ∧ E (exec p w).2 (exec p w').2

/-- So does the program. -/
def Steady (x : Prog P R α) : Prop := ∀ w w', E w w' →
  (run exec x w).1 = (run exec x w').1
    ∧ E (run exec x w).2 (run exec x w').2

end Observer

variable {E : W → W → Prop} {exec : (p : P) → W → R p × W}

/-- A program of hidden steps is hidden. -/
theorem run_hidden (hE : Equivalence E) {x : Prog P R α}
    (hx : x.Uses (Hidden E exec)) (w : W) : E w (run exec x w).2 := by
  refine run_post (Q := fun w' _ => E w w') (wp_of_uses (I := fun w' => E w w')
    ?_ (fun _ _ h => h) hx (hE.refl w))
  exact fun w' p h hp => hE.trans h (hp w')

/-- A program of local steps is steady. -/
theorem steady_of_local {x : Prog P R α} (hx : x.Uses (Local E exec)) :
    Steady E exec x := by
  induction x with
  | ret a => exact fun w w' h => ⟨rfl, h⟩
  | act p k ih =>
      intro w w' h
      obtain ⟨hr, hE⟩ := hx.1 w w' h
      rw [run_act, run_act, ← hr]
      exact ih _ (hx.2 _) _ _ hE

theorem steady_ret (a : α) : Steady E exec (.ret a : Prog P R α) :=
  fun _ _ h => ⟨rfl, h⟩

theorem steady_bind {x : Prog P R α} {f : α → Prog P R β}
    (hx : Steady E exec x) (hf : ∀ a, Steady E exec (f a)) :
    Steady E exec (x >>= f) := by
  intro w w' h
  obtain ⟨hr, hE⟩ := hx w w' h
  rw [run_bind, run_bind, ← hr]
  exact hf _ _ _ hE

theorem steady_map {x : Prog P R α} (f : α → β) (hx : Steady E exec x) :
    Steady E exec (f <$> x) := by
  intro w w' h
  obtain ⟨hr, hE⟩ := hx w w' h
  rw [run_map, run_map, hr]
  exact ⟨rfl, hE⟩

/-- The rest need only be steady after the answers the first part can
give. -/
theorem steady_bindE {x : Fallible P R ε α} {f : α → Fallible P R ε β}
    (hx : Steady E exec x.run)
    (hf : ∀ a, (∃ w, (run exec x.run w).1 = .ok a) →
      Steady E exec (f a).run) :
    Steady E exec (ExceptT.run (x >>= f)) := by
  intro w w' h
  obtain ⟨hr, hE⟩ := hx w w' h
  rw [ExceptT.run_bind, run_bind, run_bind, ← hr]
  cases ha : (run exec x.run w).1 with
  | ok a => exact hf a ⟨w, ha⟩ _ _ hE
  | error e => exact ⟨rfl, hE⟩

theorem steady_lift {x : Prog P R α} (hx : Steady E exec x) :
    Steady E exec (ExceptT.run (liftM x : Fallible P R ε α)) :=
  steady_map Except.ok hx

/-- Two worlds that looked alike still do after a hidden part. -/
theorem hidden_both (hE : Equivalence E) {x : Prog P R α}
    (hx : x.Uses (Hidden E exec)) {w w' : W} (h : E w w') :
    E (run exec x w).2 (run exec x w').2 :=
  hE.trans (hE.symm (run_hidden hE hx w)) (hE.trans h (run_hidden hE hx w'))

/-- A hidden program without an answer is steady. -/
theorem steady_of_hidden (hE : Equivalence E) {x : Prog P R Unit}
    (hx : x.Uses (Hidden E exec)) : Steady E exec x :=
  fun _ _ h => ⟨rfl, hidden_both hE hx h⟩

/-- A hidden part that succeeds and whose answer is not used. -/
theorem steady_skip (hE : Equivalence E) {x : Fallible P R ε α}
    {y : Fallible P R ε β} (hx : x.run.Uses (Hidden E exec))
    (hok : ∀ w, ∃ a, (run exec x.run w).1 = .ok a)
    (hy : Steady E exec y.run) :
    Steady E exec (ExceptT.run (x >>= fun _ => y)) := by
  intro w w' h
  have hafter := hidden_both hE hx h
  obtain ⟨a, ha⟩ := hok w
  obtain ⟨a', ha'⟩ := hok w'
  rw [ExceptT.run_bind, run_bind, run_bind, ha, ha']
  exact hy _ _ hafter

end Prog

-- =============================================================== unwinding

namespace Unwinding

variable {S A O : Type}

/-- The actions of a run with their outputs. -/
def trace (step : S → A → S × O) : S → List A → List (A × O)
  | _, [] => []
  | s, a :: rest => (a, (step s a).2) :: trace step (step s a).1 rest

/-- Where a run ends. -/
def final (step : S → A → S × O) : S → List A → S
  | s, [] => s
  | s, a :: rest => final step (step s a).1 rest

/-- The actions outside `kept` do not change what `E` relates, the others
keep states related, and of these the ones in `seen` answer alike. -/
structure Unwinds (step : S → A → S × O) (E : S → S → Prop)
    (kept seen : A → Bool) : Prop where
  kept_of_seen : ∀ a, seen a = true → kept a = true
  skip : ∀ s s' a, E s s' → kept a = false → E (step s a).1 s'
  both : ∀ s s' a, E s s' → kept a = true → E (step s a).1 (step s' a).1
  alike : ∀ s s' a, E s s' → seen a = true → (step s a).2 = (step s' a).2

/-- Leaving out the actions outside `kept` changes no output of an action
in `seen`, and nothing that `E` sees of the state. -/
theorem Unwinds.purge {step : S → A → S × O} {E : S → S → Prop}
    {kept seen : A → Bool} (h : Unwinds step E kept seen)
    (as : List A) {s s' : S} (hE : E s s') :
    (trace step s as).filter (fun e => seen e.1)
        = (trace step s' (as.filter kept)).filter (fun e => seen e.1)
      ∧ E (final step s as) (final step s' (as.filter kept)) := by
  induction as generalizing s s' with
  | nil => exact ⟨rfl, hE⟩
  | cons a rest ih =>
      cases hk : kept a with
      | false =>
          have hs : seen a = false := by
            cases hs : seen a with
            | false => rfl
            | true => exact absurd (h.kept_of_seen a hs) (by rw [hk]; decide)
          rw [List.filter_cons_of_neg (by rw [hk]; decide), trace,
            List.filter_cons_of_neg (by rw [hs]; decide)]
          exact ih (h.skip s s' a hE hk)
      | true =>
          obtain ⟨htrace, hfinal⟩ := ih (h.both s s' a hE hk)
          rw [List.filter_cons_of_pos hk]
          refine ⟨?_, hfinal⟩
          rw [trace, trace]
          cases hs : seen a with
          | false =>
              rw [List.filter_cons_of_neg (by rw [hs]; decide),
                List.filter_cons_of_neg (by rw [hs]; decide)]
              exact htrace
          | true =>
              rw [List.filter_cons_of_pos (by exact hs),
                List.filter_cons_of_pos (by exact hs),
                h.alike s s' a hE hs, htrace]

end Unwinding
