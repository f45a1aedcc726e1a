/-
Any number of programs interleaved over one shared state.

A `Pool` is the state, what is left of each program, and the log of the
steps taken so far, oldest first. Any thread may take its next step at
any moment, and the environment may move the state between two steps.
A run can be held to a condition on its steps (`Run allow`): a law that
fails of arbitrary interleavings is then a law of those runs whose every
step meets the condition.

# Threads seen from outside

What one thread has done is a function of its own entries in the log
(`ghost`). `Run.discipline` carries a program's typestate, proved of the
program alone by `wp (Rules.ghost …)`, to every moment of every
interleaving; what is left to prove of a whole pool is then an invariant
between the shared state and the threads' ghosts.
-/
import FerrisKv.Lib.Prog

/-- One step a thread has taken, and what it was answered. -/
structure Pool.Event (P : Type) (R : P → Type) where
  tid : Nat
  prim : P
  resp : R prim

/-- The shared state, what is left of each thread, and the steps so far. -/
structure Pool (W P : Type) (R : P → Type) (α : Type) where
  world : W
  threads : List (Prog P R α)
  log : List (Pool.Event P R)

namespace Pool

open Prog

variable {W P : Type} {R : P → Type} {α : Type}

-- ==================================================================== runs

/-- Every thread is still to take its first step. -/
def ready (w : W) (threads : List (Prog P R α)) : Pool W P R α :=
  ⟨w, threads, []⟩

/-- Thread `i` takes the step `p` and goes on with `k`. -/
def fire (exec : (p : P) → W → R p × W) (pool : Pool W P R α) (i : Nat)
    (p : P) (k : R p → Prog P R α) : Pool W P R α where
  world := (exec p pool.world).2
  threads := pool.threads.set i (k (exec p pool.world).1)
  log := pool.log ++ [⟨i, p, (exec p pool.world).1⟩]

/-- What thread `i` has returned, if it has. -/
def result (pool : Pool W P R α) (i : Nat) : Option α :=
  match pool.threads[i]? with
  | some (.ret a) => some a
  | _ => none

theorem result_eq_some {pool : Pool W P R α} {i : Nat} {a : α} :
    pool.result i = some a ↔ pool.threads[i]? = some (.ret a) := by
  unfold result
  split
  · next b hb => rw [hb]; simp
  · next hne =>
      constructor
      · nofun
      · exact fun h => absurd h (hne a)

/-- The pools that runs from `init` reach when thread `i` takes the step
`p` only where `allow` permits it. -/
inductive Run (exec : (p : P) → W → R p × W) (env : W → W → Prop)
    (allow : Pool W P R α → Nat → P → Prop) (init : Pool W P R α) :
    Pool W P R α → Prop where
  | start : Run exec env allow init init
  | step {pool : Pool W P R α} {i : Nat} {p : P} {k : R p → Prog P R α}
      (h : Run exec env allow init pool)
      (hi : pool.threads[i]? = some (.act p k)) (ha : allow pool i p) :
      Run exec env allow init (pool.fire exec i p k)
  | env {pool : Pool W P R α} {w : W} (h : Run exec env allow init pool)
      (he : env pool.world w) : Run exec env allow init { pool with world := w }

section Runs

variable {exec : (p : P) → W → R p × W} {env : W → W → Prop}
  {allow allow' : Pool W P R α → Nat → P → Prop} {init pool : Pool W P R α}

theorem Run.mono (hallow : ∀ pool i p, allow pool i p → allow' pool i p)
    (h : Run exec env allow init pool) : Run exec env allow' init pool := by
  induction h with
  | start => exact .start
  | step _ hi ha ih => exact .step ih hi (hallow _ _ _ ha)
  | env _ he ih => exact .env ih he

/-- A run can be gone on with. -/
theorem Run.trans {pool' : Pool W P R α} (h : Run exec env allow init pool)
    (h' : Run exec env allow pool pool') : Run exec env allow init pool' := by
  induction h' with
  | start => exact h
  | step _ hi ha ih => exact .step ih hi ha
  | env _ he ih => exact .env ih he

theorem Run.length (h : Run exec env allow init pool) :
    pool.threads.length = init.threads.length := by
  induction h with
  | start => rfl
  | step _ _ _ ih => exact List.length_set.trans ih
  | env _ _ ih => exact ih

-- =============================================================== schedules

/-- Thread `i` takes its next step, if it has one. -/
def turn (exec : (p : P) → W → R p × W) (pool : Pool W P R α) (i : Nat) :
    Pool W P R α :=
  match pool.threads[i]? with
  | some (.act p k) => pool.fire exec i p k
  | _ => pool

/-- The threads take turns as `schedule` says. -/
def play (exec : (p : P) → W → R p × W) (schedule : List Nat)
    (pool : Pool W P R α) : Pool W P R α := schedule.foldl (turn exec) pool

/-- `allow` permits the next step of thread `i`, if there is one. -/
def Permits (allow : Pool W P R α → Nat → P → Prop) (pool : Pool W P R α)
    (i : Nat) : Prop :=
  match pool.threads[i]? with
  | some (.act p _) => allow pool i p
  | _ => True

instance [∀ pool i p, Decidable (allow pool i p)] (i : Nat) :
    Decidable (Permits allow pool i) := by
  unfold Permits
  split <;> infer_instance

/-- Every turn of the schedule takes a step that `allow` permits. -/
def Allowed (exec : (p : P) → W → R p × W)
    (allow : Pool W P R α → Nat → P → Prop) :
    List Nat → Pool W P R α → Prop
  | [], _ => True
  | i :: rest, pool =>
      Permits allow pool i ∧ Allowed exec allow rest (turn exec pool i)

instance decidableAllowed [∀ pool i p, Decidable (allow pool i p)] :
    ∀ (schedule : List Nat) (pool : Pool W P R α),
      Decidable (Allowed exec allow schedule pool)
  | [], _ => .isTrue trivial
  | i :: rest, pool =>
      have := decidableAllowed rest (turn exec pool i)
      inferInstanceAs (Decidable (_ ∧ _))

theorem run_turn (h : Run exec env allow init pool) {i : Nat}
    (ha : Permits allow pool i) :
    Run exec env allow init (turn exec pool i) := by
  unfold Permits at ha
  unfold turn
  split
  · next p k hi =>
      rw [hi] at ha
      exact .step h hi ha
  · exact h

/-- A schedule is a run. -/
theorem run_play (schedule : List Nat)
    (ha : Allowed exec allow schedule init) :
    Run exec env allow init (play exec schedule init) := by
  have hrun : ∀ (schedule : List Nat) (pool : Pool W P R α),
      Run exec env allow init pool → Allowed exec allow schedule pool →
      Run exec env allow init (play exec schedule pool) := by
    intro schedule
    induction schedule with
    | nil => exact fun _ h _ => h
    | cons i rest ih => exact fun pool h ha => ih _ (run_turn h ha.1) ha.2
  exact hrun schedule init .start ha

theorem permits_of_forall {i : Nat} (ha : ∀ p, allow pool i p) :
    Permits allow pool i := by
  unfold Permits
  split
  · exact ha _
  · exact trivial

theorem allowed_of_forall (ha : ∀ pool i p, allow pool i p) :
    ∀ (schedule : List Nat) (pool : Pool W P R α),
      Allowed exec allow schedule pool
  | [], _ => trivial
  | _ :: rest, _ =>
      ⟨permits_of_forall (ha _ _), allowed_of_forall ha rest _⟩

end Runs

-- ================================================================== ghosts

section Ghosts

variable {G : Type} {advance : G → (p : P) → R p → G} {init : Nat → G}

/-- What thread `i` has done, folded from its own entries of the log. -/
def ghost (advance : G → (p : P) → R p → G) (init : Nat → G)
    (log : List (Event P R)) (i : Nat) : G :=
  log.foldl (fun g e => if e.tid = i then advance g e.prim e.resp else g)
    (init i)

@[simp] theorem ghost_nil (i : Nat) :
    ghost advance init ([] : List (Event P R)) i = init i := rfl

theorem ghost_snoc (log : List (Event P R)) (e : Event P R) (i : Nat) :
    ghost advance init (log ++ [e]) i
      = if e.tid = i then advance (ghost advance init log i) e.prim e.resp
        else ghost advance init log i := by
  rw [ghost, List.foldl_append]
  rfl

theorem ghost_snoc_self (log : List (Event P R)) (i : Nat) (p : P)
    (r : R p) :
    ghost advance init (log ++ [⟨i, p, r⟩]) i
      = advance (ghost advance init log i) p r := by
  rw [ghost_snoc, if_pos rfl]

theorem ghost_snoc_ne (log : List (Event P R)) {i j : Nat} (h : i ≠ j)
    (p : P) (r : R p) :
    ghost advance init (log ++ [⟨i, p, r⟩]) j = ghost advance init log j := by
  rw [ghost_snoc, if_neg h]

theorem ghost_of_idle {log : List (Event P R)} {i : Nat}
    (h : ∀ e ∈ log, e.tid ≠ i) : ghost advance init log i = init i := by
  induction log using List.reverseRecOn with
  | nil => rfl
  | append_singleton log e ih =>
      rw [ghost_snoc, if_neg (h e (by simp))]
      exact ih fun e' he' => h e' (List.mem_append_left _ he')

/-- Part of a ghost that moves on its own is a ghost. -/
theorem ghost_proj {H : Type} {advance' : H → (p : P) → R p → H}
    (part : G → H)
    (hpart : ∀ g p r, part (advance g p r) = advance' (part g) p r)
    (log : List (Event P R)) (i : Nat) :
    part (ghost advance init log i)
      = ghost advance' (fun j => part (init j)) log i := by
  induction log using List.reverseRecOn with
  | nil => rfl
  | append_singleton log e ih =>
      rw [ghost_snoc, ghost_snoc, ← ih]
      split
      · exact hpart _ _ _
      · rfl

/-- A step of thread `i` moves a sum over all threads by what it does to
thread `i`. -/
theorem sum_ghost_snoc (f : G → Int) (log : List (Event P R)) {i n : Nat}
    (hi : i < n) (p : P) (r : R p) :
    ∑ j ∈ Finset.range n, f (ghost advance init (log ++ [⟨i, p, r⟩]) j)
      = ∑ j ∈ Finset.range n, f (ghost advance init log j)
        + (f (advance (ghost advance init log i) p r)
          - f (ghost advance init log i)) := by
  rw [← Finset.add_sum_erase _ _ (Finset.mem_range.mpr hi),
    ← Finset.add_sum_erase _ (fun j => f (ghost advance init log j))
      (Finset.mem_range.mpr hi), ghost_snoc_self]
  have hrest : ∑ j ∈ (Finset.range n).erase i,
        f (ghost advance init (log ++ [⟨i, p, r⟩]) j)
      = ∑ j ∈ (Finset.range n).erase i, f (ghost advance init log j) := by
    refine Finset.sum_congr rfl fun j hj => ?_
    rw [ghost_snoc_ne log (Finset.ne_of_mem_erase hj).symm]
  rw [hrest]
  ring

-- ============================================================== discipline

variable {exec : (p : P) → W → R p × W} {env : W → W → Prop}
  {allow : Pool W P R α → Nat → P → Prop} {pool : Pool W P R α}
  {w : W} {threads : List (Prog P R α)} {ok : G → P → Prop}
  {Q : Nat → G → α → Prop}

/-- Only threads of the pool take steps. -/
theorem Run.tid_lt (h : Run exec env allow (ready w threads) pool) :
    ∀ e ∈ pool.log, e.tid < threads.length := by
  induction h with
  | start => exact nofun
  | @step pool i p k hrun hi _ ih =>
      intro e he
      rcases List.mem_append.mp he with he | he
      · exact ih e he
      · rw [List.mem_singleton.mp he]
        have hlt := (List.getElem?_eq_some_iff.mp hi).1
        rwa [hrun.length] at hlt
  | env _ _ ih => exact ih

/-- A discipline that every thread keeps on its own, it keeps in every
run. -/
theorem Run.discipline
    (hwp : ∀ (i : Nat) (x : Prog P R α), threads[i]? = some x →
      wp (.ghost ok advance) (Q i) x (init i))
    (h : Run exec env allow (ready w threads) pool) :
    ∀ (i : Nat) (x : Prog P R α), pool.threads[i]? = some x →
      wp (.ghost ok advance) (Q i) x (ghost advance init pool.log i) := by
  induction h with
  | start => exact hwp
  | @step pool i p k _ hi _ ih =>
      intro j x hx
      have hx : (pool.threads.set i _)[j]? = some x := hx
      by_cases hij : i = j
      · subst hij
        have hlt : i < pool.threads.length :=
          (List.getElem?_eq_some_iff.mp hi).1
        rw [List.getElem?_set_self hlt, Option.some.injEq] at hx
        subst hx
        show wp _ _ _ (ghost advance init (pool.log ++ [⟨i, p, _⟩]) i)
        rw [ghost_snoc_self]
        exact (ih i _ hi).2 _
      · rw [List.getElem?_set_ne hij] at hx
        show wp _ _ _ (ghost advance init (pool.log ++ [⟨i, p, _⟩]) j)
        rw [ghost_snoc_ne _ hij]
        exact ih j x hx
  | env _ _ ih => exact ih

end Ghosts

end Pool
