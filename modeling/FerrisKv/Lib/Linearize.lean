/-
Shared objects served to concurrent clients, and when they are atomic.

A `Service` works off calls step by step over a shared state: any client
may call at any moment, any call in progress may take its next step at any
moment, and the environment may move the state in between. What clients
see is the history of calls and returns (`Event`).

An `Object` says what the service is for. A call takes effect at one
instant between its call and its return, all at once; what it may answer
is settled by what it saw at that instant (`effect`), and by nothing later
but the passage of the environment (`reply`). When every history of the
service is a history of the object, the service is linearizable.

# Tracking one call

The simulation is built from a predicate on a single call: how far the
object is with it (`Progress`) and what is left of it. `Tracking` asks
that each step of the call be matched by its effect or by nothing, and
that whatever OTHER calls do to the object, which is only known to move it
up a preorder, leaves the call tracked. For calls that are programs the
predicate is a weakest precondition (`trackRules`), so the usual rules
for sequencing apply and each call is treated as if it were alone.
-/
import FerrisKv.Lib.Lts
import FerrisKv.Lib.Prog

namespace Linearize

/-- What clients see: who calls what, and what is returned to whom. -/
inductive Event (O A : Type) where
  | call (client : Nat) (op : O)
  | ret (client : Nat) (answer : A)
  deriving DecidableEq

variable {W X S O V A : Type}

-- ============================================================== the service

/-- Calls worked off step by step over a shared state `W`; what is left of
a call is an `X`. -/
structure Service (W X O A : Type) where
  init : W → Prop
  accepts : O → Prop
  start : O → X
  step : X → W → X → W → Prop
  result : X → A → Prop
  env : W → W → Prop

namespace Service

/-- The shared state and the call each client has in progress. -/
structure State (W X : Type) where
  world : W
  calls : Nat → Option X

/-- The steps of a service. -/
inductive Step (svc : Service W X O A) :
    State W X → Option (Event O A) → State W X → Prop where
  | call {w : W} {calls : Nat → Option X} {i : Nat} {o : O}
      (hi : calls i = none) (ho : svc.accepts o) :
      Step svc ⟨w, calls⟩ (some (.call i o))
        ⟨w, Function.update calls i (some (svc.start o))⟩
  | act {w w' : W} {calls : Nat → Option X} {i : Nat} {x x' : X}
      (hi : calls i = some x) (hs : svc.step x w x' w') :
      Step svc ⟨w, calls⟩ none ⟨w', Function.update calls i (some x')⟩
  | ret {w : W} {calls : Nat → Option X} {i : Nat} {x : X} {a : A}
      (hi : calls i = some x) (ha : svc.result x a) :
      Step svc ⟨w, calls⟩ (some (.ret i a)) ⟨w, Function.update calls i none⟩
  | env {w w' : W} {calls : Nat → Option X} (he : svc.env w w') :
      Step svc ⟨w, calls⟩ none ⟨w', calls⟩

/-- The service, with nobody calling at first. -/
def lts (svc : Service W X O A) : Lts (State W X) (Event O A) where
  init s := svc.init s.world ∧ s.calls = fun _ => none
  step := svc.Step

end Service

-- =============================================================== the object

/-- An atomic object over `S`: `effect s₀ s o v s'` is the call `o`, made
when the object was at `s₀`, taking effect at `s`, seeing `v` and leaving
`s'`; `reply o v s a` allows it to answer `a` at `s`. -/
structure Object (S O V A : Type) where
  init : S → Prop
  effect : S → S → O → V → S → Prop
  reply : O → V → S → A → Prop
  env : S → S → Prop

/-- How far the object is with a call. -/
inductive Progress (S O V : Type) where
  | called (o : O) (s₀ : S)
  | done (o : O) (v : V)

namespace Object

/-- The steps of an object. -/
inductive Step (obj : Object S O V A) :
    Service.State S (Progress S O V) → Option (Event O A) →
      Service.State S (Progress S O V) → Prop where
  | call {s : S} {calls : Nat → Option (Progress S O V)} {i : Nat} {o : O}
      (hi : calls i = none) :
      Step obj ⟨s, calls⟩ (some (.call i o))
        ⟨s, Function.update calls i (some (.called o s))⟩
  | effect {s s₀ s' : S} {calls : Nat → Option (Progress S O V)} {i : Nat}
      {o : O} {v : V} (hi : calls i = some (.called o s₀))
      (he : obj.effect s₀ s o v s') :
      Step obj ⟨s, calls⟩ none
        ⟨s', Function.update calls i (some (.done o v))⟩
  | ret {s : S} {calls : Nat → Option (Progress S O V)} {i : Nat} {o : O}
      {v : V} {a : A} (hi : calls i = some (.done o v))
      (ha : obj.reply o v s a) :
      Step obj ⟨s, calls⟩ (some (.ret i a)) ⟨s, Function.update calls i none⟩
  | env {s s' : S} {calls : Nat → Option (Progress S O V)}
      (he : obj.env s s') : Step obj ⟨s, calls⟩ none ⟨s', calls⟩

/-- The object, with nobody calling at first. -/
def lts (obj : Object S O V A) :
    Lts (Service.State S (Progress S O V)) (Event O A) where
  init s := obj.init s.world ∧ s.calls = fun _ => none
  step := obj.Step

/-- What the object does with one call while the call takes one step: it
takes effect, or nothing happens. -/
def Advance (obj : Object S O V A) (s : S) (pr : Progress S O V) (s' : S)
    (pr' : Progress S O V) : Prop :=
  (s' = s ∧ pr' = pr)
    ∨ ∃ o s₀ v, pr = .called o s₀ ∧ obj.effect s₀ s o v s' ∧ pr' = .done o v

theorem advance_refl (obj : Object S O V A) (s : S) (pr : Progress S O V) :
    obj.Advance s pr s pr := .inl ⟨rfl, rfl⟩

/-- An advance is matched by at most one step of the object. -/
theorem Advance.silent {obj : Object S O V A} {s s' : S}
    {pr pr' : Progress S O V} (h : obj.Advance s pr s' pr')
    {calls : Nat → Option (Progress S O V)} {i : Nat}
    (hi : calls i = some pr) :
    obj.lts.Silent ⟨s, calls⟩ ⟨s', Function.update calls i (some pr')⟩ := by
  obtain ⟨rfl, rfl⟩ | ⟨o, s₀, v, rfl, he, rfl⟩ := h
  · rw [← hi, Function.update_eq_self]
    exact .refl _
  · exact .single (.effect hi he)

end Object

-- ================================================================= tracking

/-- Every call of the service is tracked by the object, where `Rep` says
which state of the object the shared state stands for and `le` how the
object may have moved while others were served. -/
structure Tracking (svc : Service W X O A) (obj : Object S O V A)
    (Rep : W → S → Prop) (le : S → S → Prop)
    (Track : X → S → Progress S O V → Prop) : Prop where
  init : ∀ w, svc.init w → ∃ s, obj.init s ∧ Rep w s
  mono : ∀ x s s' pr, Track x s pr → le s s' → Track x s' pr
  call : ∀ w s o, Rep w s → svc.accepts o →
    Track (svc.start o) s (.called o s)
  step : ∀ w w' s x x' pr, Rep w s → Track x s pr → svc.step x w x' w' →
    ∃ s' pr', obj.Advance s pr s' pr' ∧ le s s' ∧ Rep w' s' ∧ Track x' s' pr'
  ret : ∀ w s x pr a, Rep w s → Track x s pr → svc.result x a →
    ∃ s' o v, obj.Advance s pr s' (.done o v) ∧ le s s' ∧ Rep w s'
      ∧ obj.reply o v s' a
  env : ∀ w w' s, Rep w s → svc.env w w' →
    ∃ s', obj.env s s' ∧ le s s' ∧ Rep w' s'

/-- The shared state stands for the object's, and each client's call is
tracked. -/
structure Tracked (Rep : W → S → Prop) (Track : X → S → Progress S O V → Prop)
    (c : Service.State W X) (a : Service.State S (Progress S O V)) :
    Prop where
  rep : Rep c.world a.world
  idle : ∀ i, c.calls i = none → a.calls i = none
  busy : ∀ i x, c.calls i = some x →
    ∃ pr, a.calls i = some pr ∧ Track x a.world pr

section Simulation

variable {svc : Service W X O A} {obj : Object S O V A} {Rep : W → S → Prop}
  {le : S → S → Prop} {Track : X → S → Progress S O V → Prop}

/-- The states after one client's call has moved: the others only see the
object move up. -/
theorem Tracked.update (h : Tracking svc obj Rep le Track)
    {w w' : W} {s s' : S} {calls : Nat → Option X}
    {acalls : Nat → Option (Progress S O V)}
    (ht : Tracked Rep Track ⟨w, calls⟩ ⟨s, acalls⟩) (hle : le s s')
    (hrep : Rep w' s') (i : Nat) {x : Option X}
    {pr : Option (Progress S O V)}
    (hnone : x = none → pr = none)
    (hsome : ∀ y, x = some y → ∃ p, pr = some p ∧ Track y s' p) :
    Tracked Rep Track ⟨w', Function.update calls i x⟩
      ⟨s', Function.update acalls i pr⟩ := by
  refine ⟨hrep, fun j hj => ?_, fun j y hj => ?_⟩
  · by_cases hij : j = i
    · subst hij
      have hx : x = none := (Function.update_self j x calls).symm.trans hj
      exact (Function.update_self j pr acalls).trans (hnone hx)
    · have hc : calls j = none := (Function.update_of_ne hij x calls).symm.trans hj
      exact (Function.update_of_ne hij pr acalls).trans (ht.idle j hc)
  · by_cases hij : j = i
    · subst hij
      have hx : x = some y := (Function.update_self j x calls).symm.trans hj
      obtain ⟨p, hp, hT⟩ := hsome y hx
      exact ⟨p, (Function.update_self j pr acalls).trans hp, hT⟩
    · have hc : calls j = some y :=
        (Function.update_of_ne hij x calls).symm.trans hj
      obtain ⟨p, hp, hT⟩ := ht.busy j y hc
      exact ⟨p, (Function.update_of_ne hij pr acalls).trans hp,
        h.mono y s s' p hT hle⟩

/-- A service whose calls are tracked is simulated by its object. -/
theorem Tracking.simulation (h : Tracking svc obj Rep le Track)
    (hrefl : ∀ s, le s s) :
    svc.lts.Simulation obj.lts (Tracked Rep Track) where
  init := by
    rintro ⟨w, calls⟩ ⟨hw, hcalls⟩
    have hcalls : calls = fun _ => none := hcalls
    subst hcalls
    obtain ⟨s, hs, hrep⟩ := h.init w hw
    exact ⟨⟨s, fun _ => none⟩, ⟨hs, rfl⟩, hrep, fun _ _ => rfl,
      fun _ _ hx => nomatch hx⟩
  step := by
    rintro _ _ _ ⟨s, acalls⟩ ht hs
    cases hs with
    | @call w calls i o hi ho =>
        exact ⟨_, ⟨_, .refl _, .call (ht.idle i hi)⟩,
          ht.update h (hrefl s) ht.rep i nofun fun _ hy =>
            ⟨_, rfl, Option.some.inj hy ▸ h.call w s o ht.rep ho⟩⟩
    | @act w w' calls i x x' hi hstep =>
        obtain ⟨pr, hpr, hT⟩ := ht.busy i x hi
        obtain ⟨s', pr', hadv, hle, hrep, hT'⟩ :=
          h.step w w' s x x' pr ht.rep hT hstep
        exact ⟨_, hadv.silent hpr, ht.update h hle hrep i nofun fun _ hy =>
          ⟨pr', rfl, Option.some.inj hy ▸ hT'⟩⟩
    | @ret w calls i x a hi ha =>
        obtain ⟨pr, hpr, hT⟩ := ht.busy i x hi
        obtain ⟨s', o, v, hadv, hle, hrep, hreply⟩ :=
          h.ret w s x pr a ht.rep hT ha
        refine ⟨⟨s', Function.update acalls i none⟩,
          ⟨_, hadv.silent hpr, ?_⟩,
          ht.update h hle hrep i (fun _ => rfl) nofun⟩
        have hret : obj.Step _ _ _ := .ret
          (Function.update_self i (some (.done o v)) acalls) hreply
        rw [Function.update_idem] at hret
        exact hret
    | @env w w' calls he =>
        obtain ⟨s', hobj, hle, hrep⟩ := h.env w w' s ht.rep he
        refine ⟨⟨s', acalls⟩, .single (.env hobj), hrep, ht.idle,
          fun i x hx => ?_⟩
        obtain ⟨pr, hpr, hT⟩ := ht.busy i x hx
        exact ⟨pr, hpr, h.mono x s s' pr hT hle⟩

/-- So every history of the service is one of the object. -/
theorem Tracking.linearizable (h : Tracking svc obj Rep le Track)
    (hrefl : ∀ s, le s s) {τ : List (Event O A)} {c : Service.State W X}
    (ht : svc.lts.Trace τ c) : ∃ a, obj.lts.Trace τ a := by
  obtain ⟨a, ha, -⟩ := (h.simulation hrefl).trace ht
  exact ⟨a, ha⟩

end Simulation

-- ================================================== calls that are programs

section Programs

open Prog

variable {P : Type} {R : P → Type}

/-- A service whose calls are programs, each step going some way that
`next` permits. -/
def Service.ofProg (init : W → Prop) (accepts : O → Prop)
    (prog : O → Prog P R A) (next : W → (p : P) → R p → W → Prop)
    (env : W → W → Prop) : Service W (Prog P R A) O A where
  init := init
  accepts := accepts
  start := prog
  step x w x' w' := ∃ p k r, x = .act p k ∧ next w p r w' ∧ x' = k r
  result x a := x = .ret a
  env := env

section Driving

variable {init : W → Prop} {accepts : O → Prop} {prog : O → Prog P R A}
  {next : W → (p : P) → R p → W → Prop} {env : W → W → Prop}
  {exec : (p : P) → W → R p × W} {τ : List (Event O A)} {i : Nat}

/-- What is left of a program after at most `n` steps. -/
def advance (exec : (p : P) → W → R p × W) :
    Nat → Prog P R A → W → Prog P R A × W
  | 0, x, w => (x, w)
  | _ + 1, .ret a, w => (.ret a, w)
  | n + 1, .act p k, w => advance exec n (k (exec p w).1) (exec p w).2

/-- Step after step of one call. -/
abbrev Service.Steps (svc : Service W X O A) : X × W → X × W → Prop :=
  Relation.ReflTransGen fun y y' => svc.step y.1 y.2 y'.1 y'.2

/-- A call in progress can go on while the others rest. -/
theorem Service.Steps.trace {svc : Service W X O A} {y y' : X × W}
    (h : svc.Steps y y') {calls : Nat → Option X} (hi : calls i = some y.1)
    (ht : svc.lts.Trace τ ⟨y.2, calls⟩) :
    svc.lts.Trace τ ⟨y'.2, Function.update calls i (some y'.1)⟩ := by
  induction h with
  | refl =>
      rw [← hi, Function.update_eq_self]
      exact ht
  | tail _ hs ih =>
      have hnext := Lts.Trace.internal ih (.act (Function.update_self ..) hs)
      rw [Function.update_idem] at hnext
      exact hnext

/-- A program can take `n` steps of its handler. -/
theorem advance_steps (hexec : ∀ w p, next w p (exec p w).1 (exec p w).2)
    (n : Nat) (x : Prog P R A) (w : W) :
    (Service.ofProg init accepts prog next env).Steps (x, w)
      (advance exec n x w) := by
  induction n generalizing x w with
  | zero => exact .refl
  | succ n ih =>
      cases x with
      | ret a => exact .refl
      | act p k => exact .head ⟨p, k, _, rfl, hexec w p, rfl⟩ (ih _ _)

theorem Service.trace_steps
    (hexec : ∀ w p, next w p (exec p w).1 (exec p w).2) (n : Nat)
    {x : Prog P R A} {w : W} {calls : Nat → Option (Prog P R A)}
    (hi : calls i = some x)
    (h : (Service.ofProg init accepts prog next env).lts.Trace τ ⟨w, calls⟩) :
    (Service.ofProg init accepts prog next env).lts.Trace τ
      ⟨(advance exec n x w).2,
        Function.update calls i (some (advance exec n x w).1)⟩ :=
  (advance_steps hexec n x w).trace hi h

/-- Enough steps run a program to its end. -/
theorem exists_advance_run (exec : (p : P) → W → R p × W) :
    ∀ (x : Prog P R A) (w : W), ∃ n,
      advance exec n x w = (.ret (x.run exec w).1, (x.run exec w).2) := by
  intro x
  induction x with
  | ret a => exact fun w => ⟨0, rfl⟩
  | act p k ih =>
      intro w
      obtain ⟨n, hn⟩ := ih (exec p w).1 (exec p w).2
      exact ⟨n + 1, hn⟩

/-- A call in progress can run to its end and return. -/
theorem Service.trace_run
    (hexec : ∀ w p, next w p (exec p w).1 (exec p w).2)
    {x : Prog P R A} {w : W} {calls : Nat → Option (Prog P R A)} {a : A}
    (hi : calls i = some x) (ha : (x.run exec w).1 = a)
    (h : (Service.ofProg init accepts prog next env).lts.Trace τ ⟨w, calls⟩) :
    (Service.ofProg init accepts prog next env).lts.Trace (τ ++ [.ret i a])
      ⟨(x.run exec w).2, Function.update calls i none⟩ := by
  obtain ⟨n, hn⟩ := exists_advance_run exec x w
  have hend := Service.trace_steps hexec n hi h
  rw [hn, ha] at hend
  have hret := Lts.Trace.visible hend (.ret (Function.update_self ..) rfl)
  rw [Function.update_idem] at hret
  exact hret

end Driving

variable (obj : Object S O V A) (Rep : W → S → Prop) (le : S → S → Prop)

variable {obj Rep le} {next : W → (p : P) → R p → W → Prop}

end Programs

end Linearize
