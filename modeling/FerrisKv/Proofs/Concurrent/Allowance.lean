/-
One tenant's allowance, spent by concurrent calls.

`Throttle::entry` looks the limiter up and, if there is none, inserts one,
in two steps. Calls that all look before any of them inserts get a limiter
each, and each limiter hands out the whole allowance (`allowance_doubled`).
What the calls spend is at most one allowance per limiter built
(`spent_le_built`). If no call looks while another is between its lookup and
its insert, one limiter is built in all: `one_allowance`.
-/
import FerrisKv.Node.Concurrent
import FerrisKv.Proofs.Node.RateLimit

namespace FerrisKv

open Prog NodeService

-- ============================================================= the governor

/-- What a limiter of the given rate has admitted of the checks made on it,
oldest first. -/
def admittedCost (ext : Externals) (rate : Nat) (checks : List (Nat × Nat)) :
    Nat :=
  ∑ i ∈ Finset.range checks.length,
    let c := checks[i]?.getD (0, 0)
    if ext.governor rate (checks.take i) c.1 c.2 = .ok then c.2 else 0

/-- A fresh limiter admits at most its rate while no time passes. -/
def Governs (ext : Externals) : Prop :=
  ∀ (rate now : Nat) (checks : List (Nat × Nat)), (∀ c ∈ checks, c.1 = now) →
    admittedCost ext rate checks ≤ rate

/-- A check that is admitted adds its cost. -/
private theorem admittedCost_snoc (ext : Externals) (rate : Nat)
    (checks : List (Nat × Nat)) (now cost : Nat) :
    admittedCost ext rate (checks ++ [(now, cost)])
      = admittedCost ext rate checks
        + if ext.governor rate checks now cost = .ok then cost else 0 := by
  unfold admittedCost
  rw [List.length_append, List.length_singleton, Finset.sum_range_succ,
    List.take_left, List.getElem?_concat_length]
  congr 1
  refine Finset.sum_congr rfl fun i hi => ?_
  have hlt := Finset.mem_range.mp hi
  rw [List.getElem?_append_left hlt, List.take_append_of_le_length hlt.le]

-- ================================================================ the calls

/-- Where a call of `Throttle::check` is. -/
inductive Charge where
  | looking
  | missing
  | found (entry : Nat)
  | admitted (cost : Nat)
  | refused
  deriving DecidableEq, Repr

namespace Charge

/-- What a step tells the call. -/
def advance (rate : Nat) (g : Charge) : (p : Prim) → p.Resp → Charge
  | .throttle (.lookup _), some (entry, opsPerSec) =>
      if opsPerSec = rate then .found entry else .missing
  | .throttle (.lookup _), none => .missing
  | .throttle (.insert _ _), entry => .found entry
  | .throttle (.check _ _ cost), .ok => .admitted cost
  | .throttle (.check _ _ _), _ => .refused
  | _, _ => g

/-- The step the call takes next. -/
inductive Ok (t : String) (rate : Nat) : Charge → Prim → Prop where
  | look : Ok t rate .looking (.throttle (.lookup t))
  | insert : Ok t rate .missing (.throttle (.insert t rate))
  | check (entry cost : Nat) :
      Ok t rate (.found entry) (.throttle (.check t entry cost))

/-- What has been admitted to the call. -/
def spent : Charge → Int
  | .admitted cost => cost
  | _ => 0

/-- The call has found no limiter and is about to insert one. -/
def pending : Charge → Int
  | .missing => 1
  | _ => 0

end Charge

/-- A call ends up with a limiter of its rate. -/
private theorem throttleEntry_finds (t : String) (rate : Nat) :
    wp (.ghost (Charge.Ok t rate) (Charge.advance rate))
      (fun g entry => g = .found entry) (throttleEntry t rate) .looking := by
  have hinsert : wp (.ghost (Charge.Ok t rate) (Charge.advance rate))
      (fun g entry => g = .found entry)
      (ThrottlePrim.insert t rate).call .missing := ⟨.insert, fun _ => rfl⟩
  refine (wp_bind _ _ _).mpr ⟨.look, fun o => ?_⟩
  rcases o with _ | ⟨entry, ops⟩
  · exact hinsert
  · show wp _ _ (if ops = rate then _ else _)
      (if ops = rate then Charge.found entry else .missing)
    by_cases hops : ops = rate
    · rw [if_pos hops, if_pos hops]
      exact rfl
    · rw [if_neg hops, if_neg hops]
      exact hinsert

/-- A call that is let through was admitted at its cost, or had none. -/
private theorem throttleCheck_charges (cfg : NodeConfig) (t : String)
    {rate : Nat} (hrate : 0 < rate) (cost : Nat) :
    wp (.ghost (Charge.Ok t rate) (Charge.advance rate))
      (fun g a => a = .ok () → g = .admitted cost ∨ cost = 0)
      (throttleCheck cfg t rate cost).run .looking := by
  rw [throttleCheck_eq, if_pos hrate]
  by_cases hcost : cost = 0
  · rw [chargeAt_free (.inr hcost)]
    exact fun _ => .inr hcost
  · unfold chargeAt
    rw [if_neg (by omega)]
    refine (wp_bindE _ _ _).mpr ((wp_lift _ _).mpr (wp_mono ?_
      (throttleEntry_finds t rate)))
    rintro g entry rfl
    refine ⟨.check entry cost, fun v => ?_⟩
    cases v with
    | ok => exact fun _ => .inl rfl
    | notYet => exact nofun
    | never => exact nofun

-- ================================================================= the pool

/-- Concurrent calls of `Throttle::check`. -/
abbrev ThrottlePool := Pool World Prim Prim.Resp (Result Unit)

/-- One call for each cost, all for one tenant at one rate. -/
def ThrottlePool.calls (cfg : NodeConfig) (t : String) (rate : Nat)
    (costs : List Nat) (w : World) : ThrottlePool :=
  .ready w (costs.map fun cost => (throttleCheck cfg t rate cost).run)

/-- Their runs, while no time passes. -/
abbrev ThrottlePool.Run (ext : Externals)
    (allow : ThrottlePool → Nat → Prim → Prop) :=
  Pool.Run (Prim.exec ext none) (fun _ _ => False) allow

/-- The pool after call `i` took the step `p` and goes on with `k`. -/
abbrev ThrottlePool.after (ext : Externals) (pool : ThrottlePool) (i : Nat)
    (p : Prim) (k : p.Resp → NodeProg (Result Unit)) : ThrottlePool :=
  Pool.fire (Prim.exec ext none) pool i p k

/-- Where call `j` is. -/
def ThrottlePool.charge (pool : ThrottlePool) (rate j : Nat) : Charge :=
  Pool.ghost (Charge.advance rate) (fun _ => .looking) pool.log j

/-- The total cost of the calls that have returned `Ok`. -/
def ThrottlePool.spent (pool : ThrottlePool) (costs : List Nat) : Nat :=
  ∑ j ∈ Finset.range costs.length,
    if pool.result j = some (.ok ()) then costs[j]?.getD 0 else 0

/-- No call looks while another is about to insert what it did not find. -/
def NoneBetween (t : String) (rate : Nat) (pool : ThrottlePool) (_ : Nat)
    (p : Prim) : Prop :=
  match p with
  | .throttle (.lookup tenant) => tenant = t →
      ∀ j < pool.threads.length, pool.charge rate j ≠ .missing
  | _ => True

instance (t : String) (rate : Nat) (pool : ThrottlePool) (i : Nat)
    (p : Prim) : Decidable (NoneBetween t rate pool i p) :=
  match p with
  | .throttle (.lookup tenant) => inferInstanceAs (Decidable (tenant = t →
      ∀ j < pool.threads.length, pool.charge rate j ≠ .missing))
  | .throttle (.insert _ _) => instDecidableTrue
  | .throttle (.check _ _ _) => instDecidableTrue
  | .now => instDecidableTrue
  | .instant => instDecidableTrue
  | .storage _ => instDecidableTrue
  | .wal _ => instDecidableTrue
  | .ttl _ => instDecidableTrue
  | .quota _ => instDecidableTrue
  | .watch _ => instDecidableTrue

/-- The tenant's limiters. -/
abbrev ThrottlePool.built (pool : ThrottlePool) (t : String) :
    List Limiter := (pool.world.throttle.tenant t).entries

/-- The books of the limiters and of the calls agree. -/
structure Tallied (ext : Externals) (t : String) (rate n now : Nat)
    (pool : ThrottlePool) : Prop where
  instant : pool.world.instant = now
  limiters : ∀ l ∈ pool.built t,
    l.opsPerSec = rate ∧ ∀ c ∈ l.checks, c.1 = now
  total : ∑ j ∈ Finset.range n, (pool.charge rate j).spent
    = ((pool.built t).map fun l => (admittedCost ext rate l.checks : Int)).sum

/-- One limiter at most is there or on its way. -/
structure Single (t : String) (rate n : Nat) (pool : ThrottlePool) :
    Prop where
  one : ((pool.built t).length : Int)
    + ∑ j ∈ Finset.range n, (pool.charge rate j).pending ≤ 1
  current : pool.built t ≠ [] →
    (pool.world.throttle.tenant t).current = some 0

/-- Replacing an element moves a sum by the difference. -/
theorem sum_map_set {α : Type} (f : α → Int) {l : List α} {i : Nat} {a : α}
    (h : l[i]? = some a) (b : α) :
    ((l.set i b).map f).sum = (l.map f).sum + (f b - f a) := by
  induction l generalizing i with
  | nil => cases h
  | cons x rest ih =>
      cases i with
      | zero =>
          cases h
          simp only [List.set_cons_zero, List.map_cons, List.sum_cons]
          ring
      | succ i =>
          simp only [List.set_cons_succ, List.map_cons, List.sum_cons, ih h]
          ring

section Steps

variable {ext : Externals} {cfg : NodeConfig} {t : String}
  {rate n now i : Nat} {pool : ThrottlePool} {p : Prim}
  {k : p.Resp → NodeProg (Result Unit)}

/-- A step moves a sum over the calls by what it tells its own. -/
theorem sum_charge (f : Charge → Int) (hi : i < n) :
    ∑ j ∈ Finset.range n, f ((pool.after ext i p k).charge rate j)
      = ∑ j ∈ Finset.range n, f (pool.charge rate j)
        + (f ((pool.charge rate i).advance rate p
            (p.exec ext none pool.world).1) - f (pool.charge rate i)) :=
  Pool.sum_ghost_snoc f pool.log hi p _

/-- What a check does to the tenant's limiters. -/
theorem tenant_check {entry cost : Nat} {l : Limiter} (w : World)
    (hl : (w.throttle.tenant t).entries[entry]? = some l) :
    ((Prim.throttle (.check t entry cost)).exec ext none w).2.throttle.tenant t
      = ⟨(w.throttle.tenant t).current,
          (w.throttle.tenant t).entries.set entry
            ⟨l.opsPerSec, l.checks ++ [(w.instant, cost)]⟩⟩ := by
  show ((ThrottlePrim.check t entry cost).exec ext w.instant
    w.throttle).2.tenant t = _
  unfold ThrottlePrim.exec
  simp only [hl, Throttle.tenant_set, if_pos]

/-- The verdict is that of the limiter that was found. -/
private theorem verdict_check {entry cost : Nat} {l : Limiter} (w : World)
    (hl : (w.throttle.tenant t).entries[entry]? = some l) :
    ((Prim.throttle (.check t entry cost)).exec ext none w).1
      = ext.governor l.opsPerSec l.checks w.instant cost := by
  show ((ThrottlePrim.check t entry cost).exec ext w.instant w.throttle).1 = _
  unfold ThrottlePrim.exec
  simp only [hl]

private theorem exec_check_none {entry cost : Nat} {w : World}
    (hl : (w.throttle.tenant t).entries[entry]? = none) :
    (Prim.throttle (.check t entry cost)).exec ext none w = (.never, w) := by
  have hexec : (ThrottlePrim.check t entry cost).exec ext w.instant w.throttle
      = (.never, w.throttle) := by
    unfold ThrottlePrim.exec
    simp only [hl]
  simp only [Prim.exec, hexec]

private theorem tenant_insert (w : World) :
    ((Prim.throttle (.insert t rate)).exec ext none w).2.throttle.tenant t
      = ⟨some (w.throttle.tenant t).entries.length,
          (w.throttle.tenant t).entries ++ [⟨rate, []⟩]⟩ := by
  show (Throttle.set _ _ _).tenant t = _
  rw [Throttle.tenant_set, if_pos rfl]

/-- What the verdict is worth to the call. -/
theorem spent_check (g : Charge) (entry cost : Nat) (v : Verdict) :
    (g.advance rate (.throttle (.check t entry cost)) v).spent
      = if v = .ok then (cost : Int) else 0 := by
  cases v <;> rfl

private theorem spent_lookup (g : Charge) (o : Option (Nat × Nat)) :
    (g.advance rate (.throttle (.lookup t)) o).spent = 0 := by
  rcases o with _ | ⟨entry, ops⟩
  · rfl
  · show (if ops = rate then Charge.found entry else .missing).spent = 0
    split <;> rfl

/-- A step that leaves the limiters alone and admits nothing. -/
theorem Tallied.same (h : Tallied ext t rate n now pool) (hi : i < n)
    (hworld : (p.exec ext none pool.world).2 = pool.world)
    (hspent : ((pool.charge rate i).advance rate p
      (p.exec ext none pool.world).1).spent = (pool.charge rate i).spent) :
    Tallied ext t rate n now (pool.after ext i p k) := by
  have hw : (pool.after ext i p k).world = pool.world := hworld
  refine ⟨?_, ?_, ?_⟩
  · rw [hw]
    exact h.instant
  · unfold ThrottlePool.built
    rw [hw]
    exact h.limiters
  · have hsum : ∑ j ∈ Finset.range n,
        ((pool.after ext i p k).charge rate j).spent = _ :=
      sum_charge Charge.spent hi
    rw [hsum, hspent, sub_self, add_zero]
    unfold ThrottlePool.built
    rw [hw]
    exact h.total

/-- A new limiter has admitted nothing. -/
theorem Tallied.insert (h : Tallied ext t rate n now pool) (hi : i < n)
    (hmissing : pool.charge rate i = .missing)
    {k : Nat → NodeProg (Result Unit)} :
    Tallied ext t rate n now
      (pool.after ext i (.throttle (.insert t rate)) k) := by
  have hbuilt : (pool.after ext i (.throttle (.insert t rate)) k).built t
      = pool.built t ++ [⟨rate, []⟩] :=
    congrArg TenantLimiters.entries (tenant_insert pool.world)
  refine ⟨h.instant, ?_, ?_⟩
  · rw [hbuilt]
    intro l hl
    rcases List.mem_append.mp hl with hl | hl
    · exact h.limiters l hl
    · obtain rfl := List.mem_singleton.mp hl
      exact ⟨rfl, fun c hc => nomatch hc⟩
  · have hsum : ∑ j ∈ Finset.range n, ((pool.after ext i
        (.throttle (.insert t rate)) k).charge rate j).spent = _ :=
      sum_charge Charge.spent hi
    rw [hsum, hmissing, hbuilt, h.total, List.map_append, List.sum_append]
    rfl

/-- A check is tallied with its verdict. -/
theorem Tallied.check (h : Tallied ext t rate n now pool) (hi : i < n)
    {entry cost : Nat} (hfound : pool.charge rate i = .found entry)
    {k : Verdict → NodeProg (Result Unit)} :
    Tallied ext t rate n now
      (pool.after ext i (.throttle (.check t entry cost)) k) := by
  cases hl : (pool.built t)[entry]? with
  | none =>
      -- no such limiter: the check changes nothing and charges nothing
      have hexec := @exec_check_none ext t entry cost pool.world hl
      refine h.same hi (congrArg Prod.snd hexec) ?_
      rw [congrArg Prod.fst hexec, hfound]
      rfl
  | some l =>
      obtain ⟨hrate, hchecks⟩ := h.limiters l (List.mem_of_getElem? hl)
      have hbuilt : (pool.after ext i (.throttle (.check t entry cost)) k).built
          t = (pool.built t).set entry
            ⟨l.opsPerSec, l.checks ++ [(pool.world.instant, cost)]⟩ :=
        congrArg TenantLimiters.entries (tenant_check pool.world hl)
      refine ⟨h.instant, ?_, ?_⟩
      · rw [hbuilt]
        intro l' hl'
        rcases List.mem_or_eq_of_mem_set hl' with hl' | rfl
        · exact h.limiters l' hl'
        · refine ⟨hrate, fun c hc => ?_⟩
          rcases List.mem_append.mp hc with hc | hc
          · exact hchecks c hc
          · rw [List.mem_singleton.mp hc]
            exact h.instant
      · have hsum : ∑ j ∈ Finset.range n, ((pool.after ext i
            (.throttle (.check t entry cost)) k).charge rate j).spent = _ :=
          sum_charge Charge.spent hi
        have hverdict := @verdict_check ext t entry cost l pool.world hl
        rw [hrate] at hverdict
        rw [hsum, hbuilt, sum_map_set _ hl, h.total, spent_check, hverdict,
          admittedCost_snoc, hfound]
        show _ + ((if _ then (cost : Int) else 0) - 0) = _
        push_cast
        ring

/-- Every step keeps the tally. -/
theorem Tallied.step (h : Tallied ext t rate n now pool) (hi : i < n)
    (hok : Charge.Ok t rate (pool.charge rate i) p) :
    Tallied ext t rate n now (pool.after ext i p k) := by
  generalize hg : pool.charge rate i = g at hok
  cases hok with
  | look =>
      refine h.same hi rfl ?_
      rw [spent_lookup, hg]
      rfl
  | insert => exact h.insert hi hg
  | check entry cost => exact h.check hi hg

-- ============================================================ one limiter

private theorem pending_nonneg (g : Charge) : 0 ≤ g.pending := by
  cases g with
  | missing => decide
  | _ => exact le_rfl

/-- A look that finds nothing is the only one under way. -/
theorem Single.look (h : Single t rate n pool)
    (htally : Tallied ext t rate n now pool) (hi : i < n)
    (hlooking : pool.charge rate i = .looking)
    (hnone : ∀ j < n, pool.charge rate j ≠ .missing)
    {k : Option (Nat × Nat) → NodeProg (Result Unit)} :
    Single t rate n (pool.after ext i (.throttle (.lookup t)) k) := by
  have hbuilt : (pool.after ext i (.throttle (.lookup t)) k).built t
      = pool.built t := rfl
  have hidle : ∑ j ∈ Finset.range n, (pool.charge rate j).pending = 0 := by
    refine Finset.sum_eq_zero fun j hj => ?_
    cases hc : pool.charge rate j with
    | missing => exact absurd hc (hnone j (Finset.mem_range.mp hj))
    | _ => rfl
  have hsum : ∑ j ∈ Finset.range n, ((pool.after ext i
      (.throttle (.lookup t)) k).charge rate j).pending = _ :=
    sum_charge Charge.pending hi
  have hone := h.one
  rw [hidle, add_zero] at hone
  refine ⟨?_, h.current⟩
  rw [hsum, hidle, hbuilt, hlooking]
  -- the lookup finds the limiter if there is one
  have hanswer : ((Prim.throttle (.lookup t)).exec ext none pool.world).1
      = (pool.world.throttle.tenant t).current.bind fun j =>
        (pool.built t)[j]?.map fun l => (j, l.opsPerSec) := rfl
  cases hb : pool.built t with
  | nil =>
      have hmiss : ((Prim.throttle (.lookup t)).exec ext none pool.world).1
          = none := by
        rw [hanswer, hb]
        cases (pool.world.throttle.tenant t).current <;> rfl
      rw [hmiss]
      show (0 : Int) + (0 + (1 - 0)) ≤ 1
      decide
  | cons l rest =>
      have hhit : ((Prim.throttle (.lookup t)).exec ext none pool.world).1
          = some (0, rate) := by
        rw [hanswer, h.current (by rw [hb]; nofun), hb]
        have hrate := (htally.limiters l (by rw [hb]; exact List.mem_cons_self)).1
        simp [hrate]
      rw [hb] at hone
      have hfound : ((Charge.looking).advance rate (.throttle (.lookup t))
          (some (0, rate))).pending = 0 := by
        show (if rate = rate then Charge.found 0 else .missing).pending = 0
        rw [if_pos rfl]
        rfl
      rw [hhit, hfound]
      exact hone

/-- The insertion that follows is the only limiter. -/
theorem Single.insert (h : Single t rate n pool) (hi : i < n)
    (hmissing : pool.charge rate i = .missing)
    {k : Nat → NodeProg (Result Unit)} :
    Single t rate n (pool.after ext i (.throttle (.insert t rate)) k) := by
  have htenant : (pool.after ext i (.throttle (.insert t rate))
      k).world.throttle.tenant t = _ := tenant_insert pool.world
  have hpending : 1 ≤ ∑ j ∈ Finset.range n, (pool.charge rate j).pending := by
    have hle := Finset.single_le_sum
      (fun j _ => pending_nonneg (pool.charge rate j))
      (Finset.mem_range.mpr hi)
    rw [hmissing] at hle
    exact hle
  have hnil : (pool.world.throttle.tenant t).entries = [] := by
    have hone := h.one
    exact List.eq_nil_of_length_eq_zero (by unfold ThrottlePool.built at hone; omega)
  have hsum : ∑ j ∈ Finset.range n, ((pool.after ext i
      (.throttle (.insert t rate)) k).charge rate j).pending = _ :=
    sum_charge Charge.pending hi
  have hone := h.one
  constructor
  · unfold ThrottlePool.built at hone ⊢
    rw [htenant, hsum, hmissing, hnil]
    rw [hnil] at hone
    show ((1 : Nat) : Int) + (_ + (0 - 1)) ≤ 1
    simp only [List.length_nil, Nat.cast_zero, zero_add] at hone
    omega
  · intro _
    rw [htenant, hnil]
    rfl

/-- A check adds none. -/
theorem Single.check (h : Single t rate n pool) (hi : i < n)
    {entry cost : Nat} (hfound : pool.charge rate i = .found entry)
    {k : Verdict → NodeProg (Result Unit)} :
    Single t rate n (pool.after ext i (.throttle (.check t entry cost)) k) := by
  -- a check neither builds a limiter nor calls off one that is pending
  have hsum : ∑ j ∈ Finset.range n, ((pool.after ext i
      (.throttle (.check t entry cost)) k).charge rate j).pending
        = ∑ j ∈ Finset.range n, (pool.charge rate j).pending := by
    have hmove : ∑ j ∈ Finset.range n, ((pool.after ext i
        (.throttle (.check t entry cost)) k).charge rate j).pending = _ :=
      sum_charge Charge.pending hi
    rw [hmove, hfound]
    cases ((Prim.throttle (.check t entry cost)).exec ext none pool.world).1 <;>
      exact add_zero _
  cases hl : (pool.built t)[entry]? with
  | none =>
      have hexec := @exec_check_none ext t entry cost pool.world hl
      have hw : (pool.after ext i (.throttle (.check t entry cost)) k).world
          = pool.world := congrArg Prod.snd hexec
      constructor
      · unfold ThrottlePool.built
        rw [hsum, hw]
        exact h.one
      · unfold ThrottlePool.built
        rw [hw]
        exact h.current
  | some l =>
      have htenant : (pool.after ext i (.throttle (.check t entry cost))
          k).world.throttle.tenant t = _ := tenant_check pool.world hl
      constructor
      · unfold ThrottlePool.built
        rw [hsum, htenant, List.length_set]
        exact h.one
      · unfold ThrottlePool.built
        rw [htenant]
        intro hne
        refine h.current fun hnil => hne ?_
        show (pool.built t).set entry _ = []
        rw [hnil]
        rfl

/-- So there is one limiter at most, if nobody looks between a look and its
insertion. -/
theorem Single.step (h : Single t rate n pool)
    (htally : Tallied ext t rate n now pool) (hn : n = pool.threads.length)
    (hi : i < n) (hok : Charge.Ok t rate (pool.charge rate i) p)
    (hallow : NoneBetween t rate pool i p) :
    Single t rate n (pool.after ext i p k) := by
  generalize hg : pool.charge rate i = g at hok
  cases hok with
  | look => exact h.look htally hi hg (hn ▸ hallow rfl)
  | insert => exact h.insert hi hg
  | check entry cost => exact h.check hi hg

end Steps

-- ===================================================================== runs

section Runs

variable {ext : Externals} {cfg : NodeConfig} {t : String} {rate : Nat}
  {costs : List Nat} {w : World} {pool : ThrottlePool}
  {allow : ThrottlePool → Nat → Prim → Prop}

/-- Every call keeps to its own discipline. -/
theorem ThrottlePool.Run.charges (hrate : 0 < rate)
    (h : ThrottlePool.Run ext allow (ThrottlePool.calls cfg t rate costs w)
      pool)
    {j : Nat} {x : NodeProg (Result Unit)} (hx : pool.threads[j]? = some x) :
    wp (.ghost (Charge.Ok t rate) (Charge.advance rate))
      (fun g a => a = .ok () →
        g = .admitted (costs[j]?.getD 0) ∨ costs[j]?.getD 0 = 0)
      x (pool.charge rate j) := by
  refine Pool.Run.discipline (Q := fun j g a => a = .ok () →
    g = Charge.admitted (costs[j]?.getD 0) ∨ costs[j]?.getD 0 = 0) ?_ h j x hx
  intro i x hx
  rw [List.getElem?_map] at hx
  obtain ⟨cost, hcost, rfl⟩ := Option.map_eq_some_iff.mp hx
  rw [hcost]
  exact throttleCheck_charges cfg t hrate cost

/-- What a run without a limiter at the start keeps. -/
theorem ThrottlePool.Run.tallied (hrate : 0 < rate)
    (hw : w.throttle.tenant t = ⟨none, []⟩)
    (h : ThrottlePool.Run ext allow (ThrottlePool.calls cfg t rate costs w)
      pool) :
    Tallied ext t rate costs.length w.instant pool := by
  induction h with
  | start =>
      have hbuilt : (ThrottlePool.calls cfg t rate costs w).built t = [] :=
        congrArg TenantLimiters.entries hw
      refine ⟨rfl, ?_, ?_⟩
      · rw [hbuilt]
        exact fun l hl => nomatch hl
      · rw [hbuilt]
        exact Finset.sum_eq_zero fun j _ => rfl
  | @step pool i p k hrun hi _ ih =>
      have hlt : i < costs.length := by
        have := (List.getElem?_eq_some_iff.mp hi).1
        rwa [hrun.length, ThrottlePool.calls, Pool.ready, List.length_map]
          at this
      exact ih.step hlt (ThrottlePool.Run.charges hrate hrun hi).1
  | env _ he _ => exact he.elim

/-- There is one limiter at most over a whole run. -/
theorem ThrottlePool.Run.single (hrate : 0 < rate)
    (hw : w.throttle.tenant t = ⟨none, []⟩)
    (h : ThrottlePool.Run ext (NoneBetween t rate)
      (ThrottlePool.calls cfg t rate costs w) pool) :
    Single t rate costs.length pool := by
  induction h with
  | start =>
      have hbuilt : (ThrottlePool.calls cfg t rate costs w).built t = [] :=
        congrArg TenantLimiters.entries hw
      refine ⟨?_, fun hne => absurd hbuilt hne⟩
      rw [hbuilt]
      have hzero : ∑ j ∈ Finset.range costs.length,
          ((ThrottlePool.calls cfg t rate costs w).charge rate j).pending
            = 0 := Finset.sum_eq_zero fun j _ => rfl
      rw [hzero]
      decide
  | @step pool i p k hrun hi hallow ih =>
      have hn : costs.length = pool.threads.length := by
        rw [hrun.length, ThrottlePool.calls, Pool.ready, List.length_map]
      have hlt : i < costs.length := by
        rw [hn]
        exact (List.getElem?_eq_some_iff.mp hi).1
      exact ih.step (ThrottlePool.Run.tallied hrate hw hrun) hn hlt
        (ThrottlePool.Run.charges hrate hrun hi).1 hallow
  | env _ he _ => exact he.elim

/-- The calls spend at most one allowance per limiter built. -/
theorem spent_le_built (hgov : Governs ext) (hrate : 0 < rate)
    (hw : w.throttle.tenant t = ⟨none, []⟩)
    (h : ThrottlePool.Run ext allow (ThrottlePool.calls cfg t rate costs w)
      pool) :
    pool.spent costs ≤ rate * (pool.built t).length := by
  have htally := ThrottlePool.Run.tallied hrate hw h
  have hcalls : (pool.spent costs : Int)
      ≤ ∑ j ∈ Finset.range costs.length, (pool.charge rate j).spent := by
    unfold ThrottlePool.spent
    push_cast
    refine Finset.sum_le_sum fun j _ => ?_
    have hnonneg : 0 ≤ (pool.charge rate j).spent := by
      cases pool.charge rate j <;> simp [Charge.spent]
    split
    · next hres =>
      rcases ThrottlePool.Run.charges hrate h (Pool.result_eq_some.mp hres) rfl
        with hg | hz
      · rw [hg]
        exact le_rfl
      · rw [hz]
        exact hnonneg
    · exact hnonneg
  have hlimiters : ((pool.built t).map fun l =>
      (admittedCost ext rate l.checks : Int)).sum
        ≤ rate * (pool.built t).length := by
    have hle := List.sum_le_card_nsmul ((pool.built t).map fun l =>
      (admittedCost ext rate l.checks : Int)) rate ?_
    · rw [List.length_map, nsmul_eq_mul, mul_comm] at hle
      exact hle
    · intro x hx
      obtain ⟨l, hl, rfl⟩ := List.mem_map.mp hx
      exact_mod_cast hgov rate w.instant l.checks (htally.limiters l hl).2
  rw [htally.total] at hcalls
  exact_mod_cast hcalls.trans hlimiters

/-- One tenant has one allowance, in every run in which no call looks for
the limiter while another is about to insert it. -/
theorem one_allowance (ext : Externals) (hgov : Governs ext)
    (cfg : NodeConfig) (t : String) (rate : Nat) (hrate : 0 < rate)
    (costs : List Nat) (w : World) (hw : w.throttle.tenant t = ⟨none, []⟩)
    (pool : ThrottlePool)
    (h : ThrottlePool.Run ext (NoneBetween t rate)
      (ThrottlePool.calls cfg t rate costs w) pool) :
    pool.spent costs ≤ rate := by
  have hone := (ThrottlePool.Run.single hrate hw h).one
  have hpending : 0 ≤ ∑ j ∈ Finset.range costs.length,
      (pool.charge rate j).pending :=
    Finset.sum_nonneg fun j _ => pending_nonneg _
  have hbuilt : (pool.built t).length ≤ 1 := by omega
  calc pool.spent costs ≤ rate * (pool.built t).length :=
        spent_le_built hgov hrate hw h
    _ ≤ rate * 1 := Nat.mul_le_mul_left _ hbuilt
    _ = rate := Nat.mul_one _

end Runs

/-- The counting limiter keeps to its rate. -/
theorem counting_governs : Governs .counting := by
  intro rate now checks hnow
  suffices h : admittedCost .counting rate checks ≤ rate
      ∧ admittedCost .counting rate checks
        ≤ ((checks.filter (·.1 = now)).map (·.2)).sum from h.1
  induction checks using List.reverseRecOn with
  | nil => exact ⟨Nat.zero_le _, Nat.zero_le _⟩
  | append_singleton checks c ih =>
      obtain ⟨hle, htotal⟩ := ih fun c hc => hnow c (List.mem_append_left _ hc)
      have hc : c.1 = now := hnow c (List.mem_append_right _
        (List.mem_singleton.mpr rfl))
      have hsum : (((checks ++ [c]).filter (·.1 = now)).map (·.2)).sum
          = ((checks.filter (·.1 = now)).map (·.2)).sum + c.2 := by
        simp [List.filter_append, hc]
      rw [hsum, show [c] = [(c.1, c.2)] from rfl, admittedCost_snoc, hc]
      split
      · next hok =>
        -- admitted only where all that was asked for leaves room
        have hroom : ((checks.filter (·.1 = now)).map (·.2)).sum + c.2
            ≤ rate := by
          by_contra hno
          simp only [Externals.counting] at hok
          split at hok <;> cases hok
        omega
      · omega

/-- Two requests of one operation, one after the other, at one operation a
second. -/
theorem one_allowance_pair :
    ∃ pool : ThrottlePool, ThrottlePool.Run .counting (NoneBetween "a" 1)
        (ThrottlePool.calls {} "a" 1 [1, 1] (.opened {})) pool
      ∧ pool.result 0 = some (.ok ())
      ∧ pool.result 1 = some (.error (.rateLimited "a" 1))
      ∧ pool.spent [1, 1] ≤ 1 := by
  have hrun : ThrottlePool.Run .counting (NoneBetween "a" 1)
      (ThrottlePool.calls {} "a" 1 [1, 1] (.opened {})) _ :=
    Pool.run_play [0, 0, 0, 1, 1] (by decide +kernel)
  exact ⟨_, hrun, by decide +kernel, by decide +kernel,
    one_allowance .counting counting_governs {} "a" 1 (by decide) [1, 1]
      (.opened {}) (by decide +kernel) _ hrun⟩

/-- Both requests look before either inserts. -/
def allowanceRace : ThrottlePool :=
  Pool.play (Prim.exec .counting none) [0, 1, 0, 1, 0, 1]
    (ThrottlePool.calls {} "a" 1 [1, 1] (.opened {}))

/-- Two operations are admitted at one operation a second. -/
theorem allowance_doubled :
    Governs .counting
      ∧ (World.opened {}).throttle.tenant "a" = ⟨none, []⟩
      ∧ ThrottlePool.Run .counting (fun _ _ _ => True)
        (ThrottlePool.calls {} "a" 1 [1, 1] (.opened {})) allowanceRace
      ∧ allowanceRace.spent [1, 1] = 2 :=
  ⟨counting_governs, by decide +kernel,
    Pool.run_play _ (Pool.allowed_of_forall (fun _ _ _ => trivial) _ _),
    by decide +kernel⟩

end FerrisKv
