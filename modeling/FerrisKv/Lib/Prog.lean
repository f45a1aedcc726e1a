/-
Programs as trees of atomic steps, and a weakest precondition for them.

A `Prog` names the primitive it wants to run next and continues with
whatever that primitive answers. What a primitive DOES is no part of the
program: one tree is run to completion by a handler (`run`), cut after
any number of steps by a crash, or interleaved with other trees
(Pool.lean), and all of these read the same definition of the code.

# One weakest precondition, several readings

`wp L Q` walks the tree and asks the rules `L`, a predicate transformer
for each primitive over states `G`, to carry the postcondition across
every step. With `G` the shared world it is ordinary partial
correctness, and what a rule demands before the step is what must hold
wherever the program can be interrupted. With `G` a private ghost state
that only records what the program itself has done (`Rules.ghost`), `wp`
is a typestate discipline: it says in which order the program uses its
primitives, whatever they answer. With `G` the world and a state of a
specification, a rule may choose the specification's move, and `wp` is a
refinement.
-/
import Mathlib

/-- A program over the primitives `P`; primitive `p` answers with an
element of `R p`. -/
inductive Prog (P : Type) (R : P → Type) (α : Type) where
  | ret (a : α)
  | act (p : P) (k : R p → Prog P R α)

namespace Prog

variable {P : Type} {R : P → Type} {α β : Type}

-- ============================================================ the monad

/-- Graft `f` onto every leaf. -/
protected def bind : Prog P R α → (α → Prog P R β) → Prog P R β
  | .ret a, f => f a
  | .act p k, f => .act p fun r => (k r).bind f

instance : Monad (Prog P R) where
  pure := .ret
  bind := Prog.bind

/-- The program that runs one primitive and returns its answer. -/
def step (p : P) : Prog P R (R p) := .act p .ret

@[simp] theorem pure_def (a : α) : (pure a : Prog P R α) = .ret a := rfl

@[simp] theorem ret_bind (a : α) (f : α → Prog P R β) :
    (Prog.ret a >>= f) = f a := rfl

@[simp] theorem act_bind (p : P) (k : R p → Prog P R α)
    (f : α → Prog P R β) :
    (Prog.act p k >>= f) = .act p fun r => k r >>= f := rfl

@[simp] theorem bind_ret (x : Prog P R α) : (x >>= Prog.ret) = x := by
  induction x with
  | ret a => rfl
  | act p k ih =>
      rw [act_bind]
      exact congrArg _ (funext ih)

theorem bind_assoc {γ : Type} (x : Prog P R α) (f : α → Prog P R β)
    (g : β → Prog P R γ) : (x >>= f >>= g) = (x >>= fun a => f a >>= g) := by
  induction x with
  | ret a => rfl
  | act p k ih =>
      simp only [act_bind]
      exact congrArg _ (funext ih)

instance : LawfulMonad (Prog P R) :=
  LawfulMonad.mk' _ bind_ret (fun _ _ => rfl) bind_assoc

-- ====================================================== the logic's rules

/-- A predicate transformer for each primitive: when running `p` at `g` is
in order and every way it can go on satisfies the continuation. -/
structure Rules (G : Type) (P : Type) (R : P → Type) where
  post : G → (p : P) → (R p → G → Prop) → Prop
  mono : ∀ {g : G} {p : P} {K K' : R p → G → Prop},
    (∀ r g', K r g' → K' r g') → post g p K → post g p K'

variable {G : Type}

/-- The rules of a transition system: `allow` must hold before a step, and
the continuation after every one that `next` permits. -/
def Rules.steps (allow : G → P → Prop)
    (next : G → (p : P) → R p → G → Prop) : Rules G P R where
  post g p K := allow g p ∧ ∀ r g', next g p r g' → K r g'
  mono hK h := ⟨h.1, fun r g' hn => hK r g' (h.2 r g' hn)⟩

/-- The rules of a ghost automaton, which every answer moves. -/
def Rules.ghost (allow : G → P → Prop) (advance : G → (p : P) → R p → G) :
    Rules G P R where
  post g p K := allow g p ∧ ∀ r, K r (advance g p r)
  mono hK h := ⟨h.1, fun r => hK r _ (h.2 r)⟩

/-- Every run of the program from `g` keeps to the rules and ends in `Q`. -/
def wp (L : Rules G P R) (Q : G → α → Prop) : Prog P R α → G → Prop
  | .ret a, g => Q g a
  | .act p k, g => L.post g p fun r g' => wp L Q (k r) g'

variable {L : Rules G P R} {Q Q' : G → α → Prop}

@[simp] theorem wp_ret (a : α) (g : G) :
    wp L Q (.ret a : Prog P R α) g ↔ Q g a := Iff.rfl

@[simp] theorem wp_step {p : P} {Q : G → R p → Prop} (g : G) :
    wp L Q (step p) g ↔ L.post g p fun r g' => Q g' r := Iff.rfl

/-- A weaker postcondition is easier to reach. -/
theorem wp_mono (hQ : ∀ g a, Q g a → Q' g a) :
    ∀ {x : Prog P R α} {g : G}, wp L Q x g → wp L Q' x g := by
  intro x
  induction x with
  | ret a => intro g h; exact hQ g a h
  | act p k ih =>
      intro g h
      exact L.mono (fun r _ h' => ih r h') h

/-- Sequencing: the first part must end where the second can start. -/
theorem wp_bind {Q : G → β → Prop} (f : α → Prog P R β)
    (x : Prog P R α) (g : G) :
    wp L Q (x >>= f) g ↔ wp L (fun g' a => wp L Q (f a) g') x g := by
  induction x generalizing g with
  | ret a => rfl
  | act p k ih =>
      constructor
      · exact L.mono fun r g' h => (ih r g').mp h
      · exact L.mono fun r g' h => (ih r g').mpr h

@[simp] theorem wp_map {Q : G → β → Prop} (f : α → β) (x : Prog P R α)
    (g : G) : wp L Q (f <$> x) g ↔ wp L (fun g' a => Q g' (f a)) x g := by
  rw [map_eq_pure_bind, wp_bind]
  rfl

-- ====================================================== fallible programs

/-- A program that may fail with an `ε`. -/
abbrev Fallible (P : Type) (R : P → Type) (ε : Type) (α : Type) : Type :=
  ExceptT ε (Prog P R) α

variable {ε : Type}

/-- A postcondition of a fallible program, one half per outcome. -/
def onResult (ok : G → α → Prop) (err : G → ε → Prop) :
    G → Except ε α → Prop
  | g, .ok a => ok g a
  | g, .error e => err g e

@[simp] theorem onResult_ok (ok : G → α → Prop) (err : G → ε → Prop)
    (g : G) (a : α) : onResult ok err g (.ok a) ↔ ok g a := Iff.rfl

@[simp] theorem onResult_error (ok : G → α → Prop) (err : G → ε → Prop)
    (g : G) (e : ε) : onResult ok err g (.error e) ↔ err g e := Iff.rfl

/-- Sequencing under `ExceptT`: an error skips the rest. -/
theorem wp_bindE {Q : G → Except ε β → Prop} (x : Fallible P R ε α)
    (f : α → Fallible P R ε β) (g : G) :
    wp L Q (ExceptT.run (x >>= f)) g
      ↔ wp L (onResult (fun g' a => wp L Q (f a).run g')
          (fun g' e => Q g' (.error e))) x.run g := by
  rw [ExceptT.run_bind, wp_bind]
  constructor
  · refine wp_mono fun g' r h => ?_
    cases r with
    | ok a => exact h
    | error e => exact h
  · refine wp_mono fun g' r h => ?_
    cases r with
    | ok a => exact h
    | error e => exact h

/-- An infallible program inside a fallible one. -/
@[simp] theorem wp_lift {Q : G → Except ε α → Prop} (x : Prog P R α)
    (g : G) :
    wp L Q (ExceptT.run (liftM x : Fallible P R ε α)) g
      ↔ wp L (fun g' a => Q g' (.ok a)) x g := by
  show wp L Q (Except.ok <$> x) g ↔ _
  rw [wp_map]

@[simp] theorem wp_pureE {Q : G → Except ε α → Prop} (a : α) (g : G) :
    wp L Q (ExceptT.run (pure a : Fallible P R ε α)) g ↔ Q g (.ok a) :=
  Iff.rfl

@[simp] theorem wp_throw {Q : G → Except ε α → Prop} (e : ε) (g : G) :
    wp L Q (ExceptT.run (throw e : Fallible P R ε α)) g ↔ Q g (.error e) :=
  Iff.rfl

@[simp] theorem wp_mkE {Q : G → Except ε α → Prop}
    (x : Prog P R (Except ε α)) (g : G) :
    wp L Q (ExceptT.run (ExceptT.mk x)) g ↔ wp L Q x g := Iff.rfl

-- ==================================================== which steps are used

/-- Every step the program can take, whatever the answers, is in `S`. -/
def Uses (S : P → Prop) (x : Prog P R α) : Prop :=
  wp (.ghost (fun _ p => S p) fun _ _ _ => () : Rules Unit P R)
    (fun _ _ => True) x ()

/-- An invariant of all steps in `S` is kept by a program that uses no
others. -/
theorem wp_of_uses {S : P → Prop} {I : G → Prop}
    (hstep : ∀ g p, I g → S p → L.post g p fun _ g' => I g')
    (hQ : ∀ g a, I g → Q g a) :
    ∀ {x : Prog P R α}, x.Uses S → ∀ {g : G}, I g → wp L Q x g := by
  intro x
  induction x with
  | ret a => intro _ g hI; exact hQ g a hI
  | act p k ih =>
      intro hx g hI
      exact L.mono (fun r _ hI' => ih r (hx.2 r) hI') (hstep g p hI hx.1)

/-- What a program's typestate and its effects on the state keep between
them, the program keeps. -/
theorem wp_of_ghost {H : Type} {ok : H → P → Prop}
    {advance : H → (p : P) → R p → H} {J : H → G → Prop}
    {Qh : H → α → Prop}
    (hstep : ∀ h g p, J h g → ok h p →
      L.post g p fun r g' => J (advance h p r) g')
    (hQ : ∀ h g a, J h g → Qh h a → Q g a) :
    ∀ {x : Prog P R α} {h : H} {g : G},
      wp (.ghost ok advance) Qh x h → J h g → wp L Q x g := by
  intro x
  induction x with
  | ret a => exact fun hx hJ => hQ _ _ a hJ hx
  | act p k ih =>
      intro h g hx hJ
      exact L.mono (fun r _ hJ' => ih r (hx.2 r) hJ') (hstep h g p hJ hx.1)

theorem Uses.mono {S T : P → Prop} (hST : ∀ p, S p → T p)
    {x : Prog P R α} (hx : x.Uses S) : x.Uses T := by
  refine wp_of_uses (I := fun _ => True) ?_ (fun _ _ _ => trivial) hx trivial
  intro g p _ hp
  exact ⟨hST p hp, fun _ => trivial⟩

section Uses

variable {S : P → Prop}

theorem uses_bind {x : Prog P R α} {f : α → Prog P R β} (hx : x.Uses S)
    (hf : ∀ a, (f a).Uses S) : (x >>= f).Uses S :=
  (wp_bind _ _ _).mpr (wp_mono (fun _ a _ => hf a) hx)

theorem uses_map {x : Prog P R α} (f : α → β) (hx : x.Uses S) :
    (f <$> x).Uses S := (wp_map _ _ _).mpr hx

theorem uses_bindE {x : Fallible P R ε α} {f : α → Fallible P R ε β}
    (hx : x.run.Uses S) (hf : ∀ a, (f a).run.Uses S) :
    (ExceptT.run (x >>= f)).Uses S := by
  refine (wp_bindE _ _ _).mpr (wp_mono ?_ hx)
  rintro _ (e | a) _
  · exact trivial
  · exact hf a

theorem uses_lift {x : Prog P R α} (hx : x.Uses S) :
    (ExceptT.run (liftM x : Fallible P R ε α)).Uses S :=
  (wp_lift _ _).mpr hx

/-- Every step is in `S`, and every answer in `A`. -/
def Yields (S : P → Prop) (A : α → Prop) (x : Prog P R α) : Prop :=
  wp (.ghost (fun _ p => S p) fun _ _ _ => () : Rules Unit P R)
    (fun _ a => A a) x ()

variable {A : α → Prop}

theorem Yields.uses {x : Prog P R α} (h : x.Yields S A) : x.Uses S :=
  wp_mono (fun _ _ _ => trivial) h

theorem yields_any (x : Prog P R α) :
    x.Yields (fun _ => True) fun _ => True := by
  induction x with
  | ret a => exact trivial
  | act p k ih => exact ⟨trivial, ih⟩

/-- An invariant of all steps in `S` is kept, and the answer is in `A`. -/
theorem wp_of_yields {I : G → Prop}
    (hstep : ∀ g p, I g → S p → L.post g p fun _ g' => I g')
    (hQ : ∀ g a, I g → A a → Q g a) {x : Prog P R α} (hx : x.Yields S A)
    {g : G} (hI : I g) : wp L Q x g :=
  wp_of_ghost (J := fun _ g' => I g')
    (fun _ g' p hg hp => hstep g' p hg hp) (fun _ g' a hg ha => hQ g' a hg ha)
    hx hI

theorem Yields.mono {T : P → Prop} (hST : ∀ p, S p → T p)
    {x : Prog P R α} (h : x.Yields S A) : x.Yields T A := by
  induction x with
  | ret a => exact h
  | act p k ih => exact ⟨hST p h.1, fun r => ih r (h.2 r)⟩

/-- What two judgements say of one program. -/
theorem Yields.and {T : P → Prop} {B : α → Prop} {x : Prog P R α}
    (h : x.Yields S A) (h' : x.Yields T B) :
    x.Yields S fun a => A a ∧ B a := by
  induction x with
  | ret a => exact ⟨h, h'⟩
  | act p k ih => exact ⟨h.1, fun r => ih r (h.2 r) (h'.2 r)⟩

theorem Uses.yields {T : P → Prop} {x : Prog P R α} (h : x.Uses S)
    (h' : x.Yields T A) : x.Yields S A :=
  wp_mono (fun _ _ ha => ha.2) (Yields.and (A := fun _ => True) h h')

theorem Yields.bindE {A : Except ε α → Prop} {x : Fallible P R ε α}
    {f : α → Fallible P R ε β} (hx : x.run.Yields S A)
    (hf : ∀ a, A (.ok a) → (f a).run.Uses S) :
    (ExceptT.run (x >>= f)).Uses S := by
  refine (wp_bindE _ _ _).mpr (wp_mono ?_ hx)
  rintro _ (e | a) ha
  · exact trivial
  · exact hf a ha

end Uses

-- ======================================================= kept invariants

/-- Where the program starts in `I` it ends in `I`, whatever it answers. -/
def Preserves (L : Rules G P R) (I : G → Prop) (x : Prog P R α) : Prop :=
  ∀ g, I g → wp L (fun g' _ => I g') x g

section Preserves

variable {I : G → Prop}

theorem Uses.preserves {S : P → Prop} {x : Prog P R α} (hx : x.Uses S)
    (hstep : ∀ g p, I g → S p → L.post g p fun _ g' => I g') :
    x.Preserves L I :=
  fun _ hg => wp_of_uses hstep (fun _ _ h => h) hx hg

theorem preserves_ret (a : α) : (.ret a : Prog P R α).Preserves L I :=
  fun _ hg => hg

theorem preserves_bind {x : Prog P R α} {f : α → Prog P R β}
    (hx : x.Preserves L I) (hf : ∀ a, (f a).Preserves L I) :
    (x >>= f).Preserves L I :=
  fun g hg => (wp_bind _ _ _).mpr (wp_mono (fun g' a h => hf a g' h) (hx g hg))

theorem preserves_map {x : Prog P R α} (f : α → β) (hx : x.Preserves L I) :
    (f <$> x).Preserves L I := fun g hg => (wp_map _ _ _).mpr (hx g hg)

theorem preserves_lift {x : Prog P R α} (hx : x.Preserves L I) :
    (ExceptT.run (liftM x : Fallible P R ε α)).Preserves L I :=
  fun g hg => (wp_lift _ _).mpr (hx g hg)

theorem preserves_bindE {x : Fallible P R ε α} {f : α → Fallible P R ε β}
    (hx : x.run.Preserves L I) (hf : ∀ a, (f a).run.Preserves L I) :
    (ExceptT.run (x >>= f)).Preserves L I := by
  intro g hg
  refine (wp_bindE _ _ _).mpr (wp_mono ?_ (hx g hg))
  rintro g' (e | a) h
  · exact h
  · exact hf a g' h

end Preserves

-- ====================================================== running to the end

/-- Run a program to completion under a handler of its primitives. -/
def run {W : Type} (exec : (p : P) → W → R p × W) :
    Prog P R α → W → α × W
  | .ret a, w => (a, w)
  | .act p k, w => run exec (k (exec p w).1) (exec p w).2

section Run

variable {W : Type} {exec : (p : P) → W → R p × W}

@[simp] theorem run_ret (a : α) (w : W) :
    run exec (.ret a : Prog P R α) w = (a, w) := rfl

@[simp] theorem run_act (p : P) (k : R p → Prog P R α) (w : W) :
    run exec (.act p k) w = run exec (k (exec p w).1) (exec p w).2 := rfl

@[simp] theorem run_step (p : P) (w : W) :
    run exec (step p) w = exec p w := rfl

@[simp] theorem run_bind (f : α → Prog P R β) :
    ∀ (x : Prog P R α) (w : W),
      run exec (x >>= f) w = run exec (f (run exec x w).1) (run exec x w).2 := by
  intro x
  induction x with
  | ret a => intro w; rfl
  | act p k ih => intro w; exact ih _ _

@[simp] theorem run_map (f : α → β) (x : Prog P R α) (w : W) :
    run exec (f <$> x) w = (f (run exec x w).1, (run exec x w).2) := by
  rw [map_eq_pure_bind, run_bind]
  rfl

/-- The result of a fallible program under the handler. -/
theorem run_bindE (x : Fallible P R ε α) (f : α → Fallible P R ε β) (w : W) :
    run exec (ExceptT.run (x >>= f)) w
      = match run exec x.run w with
        | (.ok a, w') => run exec (f a).run w'
        | (.error e, w') => (.error e, w') := by
  rw [ExceptT.run_bind, run_bind]
  rcases run exec x.run w with ⟨_ | _, w'⟩ <;> rfl

@[simp] theorem run_lift (x : Prog P R α) (w : W) :
    run exec (ExceptT.run (liftM x : Fallible P R ε α)) w
      = (.ok (run exec x w).1, (run exec x w).2) := by
  show run exec (Except.ok <$> x) w = _
  rw [run_map]

/-- The rules of a handler. -/
def Rules.handler (exec : (p : P) → W → R p × W) : Rules W P R where
  post w p K := K (exec p w).1 (exec p w).2
  mono hK h := hK _ _ h

/-- A step, where it is known what it does. -/
theorem wp_handler_step {p : P} {Q : W → R p → Prop} {w w' : W} {r : R p}
    (h : exec p w = (r, w')) (hQ : Q w' r) :
    wp (.handler exec) Q (step p) w := by
  show Q (exec p w).2 (exec p w).1
  rw [h]
  exact hQ

theorem wp_handler_bind {Q : W → α → Prop} {p : P} {f : R p → Prog P R α}
    {w w' : W} {r : R p} (h : exec p w = (r, w'))
    (hf : wp (.handler exec) Q (f r) w') :
    wp (.handler exec) Q (step p >>= f) w :=
  (wp_bind _ _ _).mpr (wp_handler_step h hf)

/-- What `wp` promises of a handler holds where it ends. -/
theorem run_post {Q : W → α → Prop} :
    ∀ {x : Prog P R α} {w : W}, wp (.handler exec) Q x w →
      Q (run exec x w).2 (run exec x w).1 := by
  intro x
  induction x with
  | ret a => exact fun h => h
  | act p k ih => exact fun h => ih _ h

/-- A run answers what the program can. -/
theorem Yields.answer {S : P → Prop} {A : α → Prop} {x : Prog P R α}
    (h : x.Yields S A) (w : W) : A (run exec x w).1 := by
  induction x generalizing w with
  | ret a => exact h
  | act p k ih => exact ih _ (h.2 _) _

/-- A handler that also writes down the steps it performs. -/
def recording (exec : (p : P) → W → R p × W) (p : P) (g : W × List P) :
    R p × (W × List P) :=
  ((exec p g.1).1, (exec p g.1).2, g.2 ++ [p])

/-- The steps a run performs, in order. -/
def performed (exec : (p : P) → W → R p × W) (x : Prog P R α) (w : W) :
    List P := (run (recording exec) x (w, [])).2.2

/-- Writing the steps down changes nothing else. -/
theorem run_recording (x : Prog P R α) (w : W) (l : List P) :
    (run (recording exec) x (w, l)).1 = (run exec x w).1
      ∧ (run (recording exec) x (w, l)).2.1 = (run exec x w).2 := by
  induction x generalizing w l with
  | ret a => exact ⟨rfl, rfl⟩
  | act p k ih => exact ih _ _ _

theorem performed_post {Q : W × List P → α → Prop} {x : Prog P R α} {w : W}
    (h : wp (.handler (recording exec)) Q x (w, [])) :
    Q ((run exec x w).2, performed exec x w) (run exec x w).1 := by
  have hpost := run_post h
  obtain ⟨ha, hw⟩ : _ ∧ (run (recording exec) x (w, [])).2.1
      = (run exec x w).2 := run_recording x w []
  rw [ha] at hpost
  rw [← hw]
  exact hpost

end Run

-- =================================================== steps with a choice

/-- The program can end with `a`, each of its steps going some way that
`next` permits. -/
inductive Ends {W : Type} (next : W → (p : P) → R p → W → Prop) :
    Prog P R α → W → α → W → Prop where
  | ret (a : α) (w : W) : Ends next (.ret a) w a w
  | act {p : P} {k : R p → Prog P R α} {w w' w'' : W} {r : R p} {a : α}
      (hp : next w p r w') (h : Ends next (k r) w' a w'') :
      Ends next (.act p k) w a w''

/-- What `wp` promises holds wherever the program ends. -/
theorem Ends.post {next : G → (p : P) → R p → G → Prop}
    {x : Prog P R α} {w w' : G} {a : α} (h : Ends next x w a w')
    (hx : wp (.steps (fun _ _ => True) next) Q x w) : Q w' a := by
  induction h with
  | ret a w => exact hx
  | act hp _ ih => exact ih (hx.2 _ _ hp)

/-- Where every step is in order, a postcondition that always holds is
reached. -/
theorem wp_any {next : G → (p : P) → R p → G → Prop}
    (hQ : ∀ g a, Q g a) :
    ∀ {x : Prog P R α} {g : G},
      wp (.steps (fun _ _ => True) next) Q x g := by
  intro x
  induction x with
  | ret a => exact fun {g} => hQ g a
  | act p k ih => exact ⟨trivial, fun r g' _ => ih r⟩

/-- Rules with fewer ways for a step to go promise as much. -/
theorem wp_of_steps {allow : G → P → Prop}
    {next next' : G → (p : P) → R p → G → Prop}
    (hnext : ∀ g p r g', next' g p r g' → next g p r g') :
    ∀ {x : Prog P R α} {g : G}, wp (.steps allow next) Q x g →
      wp (.steps (fun _ _ => True) next') Q x g := by
  intro x
  induction x with
  | ret a => exact fun h => h
  | act p k ih =>
      intro g h
      exact ⟨trivial, fun r g' hp => ih r (h.2 r g' (hnext g p r g' hp))⟩

theorem Ends.of_map {W : Type} {next : W → (p : P) → R p → W → Prop}
    {f : α → β} :
    ∀ {x : Prog P R α} {w w' : W} {b : β}, Ends next (f <$> x) w b w' →
      ∃ a, Ends next x w a w' ∧ f a = b := by
  intro x
  induction x with
  | ret a =>
      intro w w' b h
      cases h
      exact ⟨a, .ret a w, rfl⟩
  | act p k ih =>
      intro w w' b h
      cases h with
      | act hp hk =>
          obtain ⟨a, ha, rfl⟩ := ih _ hk
          exact ⟨a, .act hp ha, rfl⟩

/-- A handler that only does what is permitted ends where it may. -/
theorem ends_run {W : Type} {next : W → (p : P) → R p → W → Prop}
    {exec : (p : P) → W → R p × W}
    (hexec : ∀ w p, next w p (exec p w).1 (exec p w).2) :
    ∀ (x : Prog P R α) (w : W),
      Ends next x w (run exec x w).1 (run exec x w).2 := by
  intro x
  induction x with
  | ret a => exact fun w => .ret a w
  | act p k ih => exact fun w => .act (hexec w p) (ih _ _)

end Prog
