/-
When the sweeper deletes a live value, and when it cannot.

`sweep_once` re-checks the stored expiry of a drained key and then calls
`delete`, with no lock over the two. A put that lands between the check
and the storage delete, and returns `Ok`, is deleted with its own success
already reported (`sweep_deletes_live`).

A sweep removes only what is expired at its own `now_ms` in every run in
which nothing live is written under a key while a sweep holds it checked
(`sweep_spares_live`). The invariant is that a checked key stays absent
or expired until the sweep is done with it.
-/
import FerrisKv.Node.Concurrent
import FerrisKv.Proofs.Node.Footprint

namespace FerrisKv

open Prog NodeService WriteLog

-- ================================================================= the aim

/-- The entry is stored and expired at `now`. -/
def expiredAt (now : Nat) : Option Bytes → Bool
  | some raw => decide (ValueCodec.isExpired raw now = .ok true)
  | none => false

/-- Where a sweep is: before it reads the clock, between keys, or with a
key it has found expired. `other` is a call that is no sweep. -/
inductive Aim where
  | other
  | fresh
  | dated (now : Nat)
  | checked (now : Nat) (key : Bytes)

namespace Aim

/-- What reading an entry between keys comes to. -/
def check (now : Nat) (key : Bytes) (entry : Option Bytes) : Aim :=
  if expiredAt now entry then .checked now key else .dated now

/-- What reading an entry comes to: `delete` reads the checked key again,
and goes on whatever it finds. -/
def read (key : Bytes) (entry : Option Bytes) : Aim → Aim
  | .dated now => check now key entry
  | .checked now key' =>
      if key' = key then .checked now key else check now key entry
  | g => g

/-- A removed key is no longer aimed at. -/
def done : Aim → Aim
  | .checked now _ => .dated now
  | g => g

/-- What a step of the call does to its aim. -/
def advance (g : Aim) : (p : Prim) → p.Resp → Aim
  | .now, now => match g with
      | .fresh => .dated now
      | g => g
  | .storage (.get key), .ok entry => g.read key entry
  | .storage (.delete _), .ok () => g.done
  | _, _ => g

/-- The clock reading a sweep works with. -/
def now : Aim → Option Nat
  | .dated now => some now
  | .checked now _ => some now
  | _ => none

/-- A sweep deletes only the key it has checked. -/
def Ok (g : Aim) (p : Prim) : Prop :=
  ∀ key, p = .storage (.delete key) → g = .other ∨ ∃ now, g = .checked now key

end Aim

/-- The discipline's rules. -/
abbrev aimRules : Rules Aim Prim Prim.Resp := .ghost Aim.Ok Aim.advance

section Programs

variable {g : Aim} {α : Type} {now : Nat}

/-- Checking does not change the time a sweep works with. -/
private theorem now_check (key : Bytes) (entry : Option Bytes) :
    (Aim.check now key entry).now = some now := by
  unfold Aim.check
  split <;> rfl

/-- A checked key that is read again stays checked. -/
theorem read_checked (now : Nat) (key' key : Bytes)
    (entry : Option Bytes) :
    (Aim.checked now key').read key entry
      = if key' = key then .checked now key else .check now key entry := rfl

/-- Reading does not change the time a sweep works with. -/
theorem now_read (g : Aim) (key : Bytes) (entry : Option Bytes) :
    (g.read key entry).now = g.now := by
  cases g with
  | other => rfl
  | fresh => rfl
  | dated now => exact now_check key entry
  | checked now key' =>
      rw [read_checked]
      split
      · rfl
      · exact now_check key entry

private theorem now_done (g : Aim) : g.done.now = g.now := by cases g <;> rfl

/-- An entry found expired makes its key checked. -/
theorem read_expired (h : g.now = some now) {key raw : Bytes}
    (hexp : ValueCodec.isExpired raw now = .ok true) :
    g.read key (some raw) = .checked now key := by
  have hcheck : Aim.check now key (some raw) = .checked now key := by
    rw [Aim.check, expiredAt, if_pos (decide_eq_true hexp)]
  cases g with
  | other => cases h
  | fresh => cases h
  | dated now' =>
      cases h
      exact hcheck
  | checked now' key' =>
      cases h
      rw [read_checked, hcheck, ite_self]

/-- A key comes to be checked by being found expired. -/
theorem read_eq_checked {key key' : Bytes} {entry : Option Bytes}
    (h : g.read key' entry = .checked now key) :
    g = .checked now key ∨ (key' = key ∧ expiredAt now entry = true) := by
  have hcheck : ∀ now', Aim.check now' key' entry = .checked now key →
      key' = key ∧ expiredAt now entry = true := by
    intro now' hc
    unfold Aim.check at hc
    split at hc
    · next he =>
        cases hc
        exact ⟨rfl, he⟩
    · cases hc
  cases g with
  | other => cases h
  | fresh => cases h
  | dated now' => exact .inr (hcheck now' h)
  | checked now' key'' =>
      rw [read_checked] at h
      split at h
      · next hk =>
          cases h
          exact .inl (by rw [hk])
      · exact .inr (hcheck now' h)

/-- A step a sweep's aim does not depend on. -/
def Prim.Unaimed : Prim → Prop
  | .now => False
  | .storage (.get _) => False
  | .storage (.delete _) => False
  | _ => True

/-- Such a step does not change the aim. -/
theorem Prim.Unaimed.advance {p : Prim} (h : p.Unaimed) (r : p.Resp) :
    g.advance p r = g := by
  cases p with
  | now => exact h.elim
  | storage q => cases q <;> first | rfl | exact h.elim
  | _ => rfl

theorem Prim.Unaimed.ok {p : Prim} (h : p.Unaimed) : g.Ok p := by
  rintro key rfl
  exact h.elim

private theorem wp_unaimed {x : NodeProg α} (hx : x.Uses Prim.Unaimed) :
    wp aimRules (fun g' _ => g' = g) x g := by
  refine wp_of_uses (I := fun g' => g' = g) ?_ (fun _ _ hI => hI) hx rfl
  rintro _ p rfl hp
  exact ⟨hp.ok, hp.advance⟩

theorem Prim.Schedules.unaimed {p : Prim} (h : p.Schedules) :
    p.Unaimed := by
  obtain ⟨k, e, rfl⟩ | rfl := h
  · exact trivial
  · exact trivial

theorem Prim.Settles.unaimed {p : Prim} (h : p.Settles) : p.Unaimed := by
  obtain (⟨t, d, rfl⟩ | ⟨t, key, value, -, rfl⟩) | ⟨q, rfl⟩ | hr := h
  · exact trivial
  · exact trivial
  · exact trivial
  · obtain rfl | rfl | rfl | rfl := hr <;> exact trivial

-- ================================================================ the sweep

/-- Planning the delete reads the checked key again. -/
private theorem planDelete_aim (key : Bytes) :
    wp aimRules (fun g' _ => g' = .checked now key)
      (planDeleteAccounting key).run (.checked now key) := by
  have hread : ∀ entry, (Aim.checked now key).read key entry
      = .checked now key := fun _ => if_pos rfl
  refine wp_planDeleteAccounting_of (fun _ => rfl) fun t payload _ =>
    ⟨nofun, fun r => ?_⟩
  cases r with
  | error e => exact rfl
  | ok current => exact hread current

/-- The delete of a checked key removes that key only. -/
private theorem delete_aim (cfg : NodeConfig) (key : Bytes) :
    wp aimRules (fun g' _ => g'.now = some now) (delete cfg key).run
      (.checked now key) := by
  unfold delete
  rw [wp_bindE]
  refine wp_mono ?_ (planDelete_aim key)
  rintro _ (e | plan) rfl
  · exact rfl
  rw [onResult_ok, wp_bindE]
  refine ⟨nofun, fun r => ?_⟩
  cases r with
  | error e => exact rfl
  | ok seq =>
      show wp _ _ (ExceptT.run (storageDelete key >>= _)) _
      refine ⟨?_, fun r => ?_⟩
      · rintro _ ⟨⟩
        exact .inr ⟨now, rfl⟩
      · cases r with
        | error e => exact rfl
        | ok u =>
            refine wp_mono ?_ (wp_unaimed
              ((settle_uses plan key [] .delete cfg).mono
                fun _ hp => hp.unaimed))
            rintro _ _ rfl
            exact rfl

/-- A key is deleted only after it was found expired. -/
private theorem sweepKey_aim (cfg : NodeConfig) (key : Bytes)
    (hg : g.now = some now) :
    wp aimRules (fun g' _ => g'.now = some now) (sweepKey cfg now key) g := by
  refine ⟨nofun, fun r => ?_⟩
  rcases r with e | _ | raw
  · exact hg
  · exact (now_read g key none).trans hg
  · show wp aimRules _ (sweepFound cfg now key raw) (g.read key (some raw))
    unfold sweepFound
    rcases hexp : ValueCodec.isExpired raw now with e | _ | _
    · exact (now_read g key _).trans hg
    · refine (wp_bind _ _ _).mpr (wp_mono ?_ (wp_unaimed
        ((reschedule_uses key raw).mono fun _ hp => hp.unaimed)))
      rintro _ _ rfl
      exact (now_read g key _).trans hg
    · rw [read_expired hg hexp]
      refine (wp_bind _ _ _).mpr (wp_mono ?_ (delete_aim cfg key))
      rintro g₁ (e | u) h₁
      · exact h₁
      · exact h₁

private theorem sweepLoop_aim (cfg : NodeConfig) :
    ∀ (keys : List Bytes) (removed : Nat) {g : Aim}, g.now = some now →
      wp aimRules (fun g' _ => g'.now = some now)
        (sweepLoop cfg now keys removed) g
  | [], _, _, h => h
  | key :: rest, removed, _, h => by
      refine (wp_bind _ _ _).mpr (wp_mono ?_ (sweepKey_aim cfg key h))
      intro g₁ n h₁
      exact sweepLoop_aim cfg rest (removed + n) h₁

/-- A sweep reads the clock before anything else. -/
private theorem sweepOnce_aim (cfg : NodeConfig) :
    wp aimRules (fun _ _ => True) (sweepOnce cfg) .fresh := by
  refine ⟨nofun, fun now => ⟨nofun, fun keys => ?_⟩⟩
  have hdated : (Aim.dated now).now = some now := rfl
  exact wp_mono (fun _ _ _ => trivial) (sweepLoop_aim cfg keys 0 hdated)

/-- A call that is no sweep never aims. -/
private theorem advance_other {p : Prim} (r : p.Resp) :
    Aim.other.advance p r = .other := by
  unfold Aim.advance
  split <;> rfl

/-- A sweep that reads is a sweep. -/
private theorem read_ne_other (h : g ≠ .other) (key : Bytes)
    (entry : Option Bytes) : g.read key entry ≠ .other := by
  have hcheck : ∀ now, Aim.check now key entry ≠ .other := by
    intro now
    unfold Aim.check
    split <;> nofun
  cases g with
  | other => exact absurd rfl h
  | fresh => nofun
  | dated now => exact hcheck now
  | checked now key' =>
      rw [read_checked]
      split
      · nofun
      · exact hcheck now

/-- A sweep stays one. -/
private theorem advance_ne_other (h : g ≠ .other) {p : Prim} (r : p.Resp) :
    g.advance p r ≠ .other := by
  unfold Aim.advance
  split
  · cases g <;> first | exact absurd rfl h | nofun
  · exact read_ne_other h _ _
  · cases g <;> first | exact absurd rfl h | nofun
  · exact h

/-- The discipline asks nothing of other calls. -/
theorem wp_other (x : NodeProg α) : wp aimRules (fun _ _ => True) x .other := by
  induction x with
  | ret a => exact trivial
  | act p k ih =>
      refine ⟨fun _ _ => .inl rfl, fun r => ?_⟩
      rw [advance_other]
      exact ih r

end Programs

-- =========================================================== the condition

/-- Where call `i` is, if it is a sweep. -/
def NodePool.aim (pool : NodePool) (ops : List Op) (i : Nat) : Aim :=
  Pool.ghost Aim.advance
    (fun j => if ops[j]? = some .sweep then .fresh else .other) pool.log i

/-- Writing `value` under `key` puts nothing live in the way of the
sweep. -/
def Aim.Spares (key value : Bytes) : Aim → Prop
  | .checked now key' => key' = key → expiredAt now (some value) = true
  | _ => True

/-- Nothing live is written under a key that a sweep holds checked. -/
def SparesChecked (ops : List Op) (pool : NodePool) (_ : Nat) :
    Prim → Prop
  | .storage (.put key value) =>
      ∀ j < ops.length, (pool.aim ops j).Spares key value
  | _ => True

instance (key value : Bytes) (g : Aim) : Decidable (g.Spares key value) := by
  unfold Aim.Spares
  split <;> infer_instance

instance (ops : List Op) (pool : NodePool) (i : Nat) (p : Prim) :
    Decidable (SparesChecked ops pool i p) := by
  unfold SparesChecked
  split <;> infer_instance

-- =========================================================== the invariant

/-- What is stored under `key`, if anything, is expired at `now`. -/
def Spent (w : World) (now : Nat) (key : Bytes) : Prop :=
  ∀ raw, w.storage.contents[key]? = some raw → expiredAt now (some raw) = true

/-- What every checked key satisfies, and where a sweep's time is from. -/
structure Swept (ops : List Op) (pool : NodePool) : Prop where
  spent : ∀ j now key, pool.aim ops j = .checked now key →
    Spent pool.world now key
  dated : ∀ j now, (pool.aim ops j).now = some now →
    ⟨j, .now, now⟩ ∈ pool.log

section Steps

variable {ext : Externals} {ops : List Op} {pool : NodePool} {i j : Nat}
  {p : Prim} {k : p.Resp → NodeProg Answer} {now : Nat} {key : Bytes}

/-- A call that is no sweep has no aim. -/
private theorem aim_of_not_sweep (h : ops[j]? ≠ some .sweep) :
    pool.aim ops j = .other := by
  unfold NodePool.aim
  induction pool.log using List.reverseRecOn with
  | nil => exact if_neg h
  | append_singleton log e ih =>
      rw [Pool.ghost_snoc, ih]
      split
      · exact advance_other e.resp
      · rfl

/-- A sweep has one. -/
private theorem aim_of_sweep (h : ops[j]? = some .sweep) :
    pool.aim ops j ≠ .other := by
  unfold NodePool.aim
  induction pool.log using List.reverseRecOn with
  | nil =>
      rw [Pool.ghost_nil, if_pos h]
      nofun
  | append_singleton log e ih =>
      rw [Pool.ghost_snoc]
      split
      · exact advance_ne_other ih e.resp
      · exact ih

/-- Who has a key checked is one of the calls. -/
private theorem lt_of_checked (h : pool.aim ops j = .checked now key) :
    j < ops.length := by
  by_contra hj
  have hother : pool.aim ops j = .other :=
    aim_of_not_sweep (by rw [List.getElem?_eq_none (by omega)]; nofun)
  rw [hother] at h
  cases h

/-- A step moves its own aim. -/
private theorem aim_self : (pool.after ext i p k).aim ops i
    = (pool.aim ops i).advance p (p.exec ext none pool.world).1 :=
  Pool.ghost_snoc_self _ _ _ _

private theorem aim_ne (h : i ≠ j) :
    (pool.after ext i p k).aim ops j = pool.aim ops j :=
  Pool.ghost_snoc_ne _ h _ _

/-- A key is checked because it was, or because it was just read and found
expired. -/
private theorem advance_checked {g : Aim} {w : World}
    (h : g.advance p (p.exec ext none w).1 = .checked now key) :
    g = .checked now key
      ∨ (p = .storage (.get key)
        ∧ expiredAt now w.storage.contents[key]? = true) := by
  cases p with
  | now => cases g <;> first | exact .inl h | cases h
  | storage q =>
      cases q with
      | get key' =>
          obtain hg | ⟨rfl, he⟩ := read_eq_checked h
          · exact .inl hg
          · exact .inr ⟨rfl, he⟩
      | delete key' => cases g <;> first | exact .inl h | cases h
      | _ => exact .inl h
  | _ => exact .inl h

/-- A sweep's time is what it read from the clock. -/
theorem advance_now {g : Aim} {w : World}
    (h : (g.advance p (p.exec ext none w).1).now = some now) :
    g.now = some now ∨ (p = .now ∧ w.now = now) := by
  cases p with
  | now =>
      cases g with
      | fresh => exact .inr ⟨rfl, Option.some.inj h⟩
      | _ => exact .inl h
  | storage q =>
      cases q with
      | get key' => exact .inl ((now_read _ _ _).symm.trans h)
      | delete key' => exact .inl ((now_done _).symm.trans h)
      | _ => exact .inl h
  | _ => exact .inl h

/-- No step makes a checked key live. -/
theorem spent_exec (hs : Spent pool.world now key)
    (hj : pool.aim ops j = .checked now key)
    (hc : SparesChecked ops pool i p) :
    Spent (p.exec ext none pool.world).2 now key := by
  have hsame : (p.exec ext none pool.world).2.storage.contents
      = pool.world.storage.contents →
      Spent (p.exec ext none pool.world).2 now key := by
    intro heq
    unfold Spent
    rwa [heq]
  cases p with
  | storage q =>
      cases q with
      | put key' value =>
          intro raw hraw
          change (pool.world.storage.write (.put key' value)).contents[key]?
            = _ at hraw
          rw [StorageBackend.contents_write, getElem?_apply] at hraw
          split at hraw
          · next hk =>
              have hspare := hc j (lt_of_checked hj)
              rw [hj] at hspare
              cases hraw
              exact hspare hk.symm
          · exact hs raw hraw
      | delete key' =>
          intro raw hraw
          change (pool.world.storage.write (.delete key')).contents[key]?
            = _ at hraw
          rw [StorageBackend.contents_write, getElem?_apply] at hraw
          split at hraw
          · cases hraw
          · exact hs raw hraw
      | flush => exact hsame (StorageBackend.contents_flush _)
      | _ => exact hsame rfl
  | _ => exact hsame rfl

/-- A step keeps checked keys spent, if nothing live is written under them. -/
private theorem swept_step (h : Swept ops pool)
    (hc : SparesChecked ops pool i p) : Swept ops (pool.after ext i p k) := by
  refine ⟨fun j now key hj => ?_, fun j now hj => ?_⟩
  · by_cases hij : i = j
    · subst hij
      rw [aim_self] at hj
      obtain hg | ⟨rfl, he⟩ := advance_checked hj
      · exact spent_exec (h.spent i now key hg) hg hc
      · intro raw hraw
        change pool.world.storage.contents[key]? = _ at hraw
        rwa [hraw] at he
    · rw [aim_ne hij] at hj
      exact spent_exec (h.spent j now key hj) hj hc
  · show _ ∈ pool.log ++ [_]
    by_cases hij : i = j
    · subst hij
      rw [aim_self] at hj
      obtain hg | ⟨rfl, rfl⟩ := advance_now hj
      · exact List.mem_append_left _ (h.dated i now hg)
      · exact List.mem_append_right _ (List.mem_singleton_self _)
    · rw [aim_ne hij] at hj
      exact List.mem_append_left _ (h.dated j now hj)

end Steps

section Runs

variable {ext : Externals} {cfg : NodeConfig} {w : World} {ops : List Op}
  {pool : NodePool}

/-- Every sweep keeps to its aim in every interleaving. -/
theorem NodePool.Run.aim {allow : NodePool → Nat → Prim → Prop}
    (h : NodePool.Run ext allow (NodePool.calls cfg w ops) pool) {i : Nat}
    {x : NodeProg Answer} (hx : pool.threads[i]? = some x) :
    wp aimRules (fun _ _ => True) x (pool.aim ops i) := by
  refine Pool.Run.discipline (Q := fun _ (_ : Aim) _ => True) ?_ h i x hx
  intro i x hx
  rw [List.getElem?_map, Option.map_eq_some_iff] at hx
  obtain ⟨op, hop, rfl⟩ := hx
  by_cases hs : op = .sweep
  · subst hs
    rw [if_pos hop]
    exact (wp_map _ _ _).mpr (sweepOnce_aim cfg)
  · rw [if_neg (by rw [hop]; exact fun he => hs (Option.some.inj he))]
    exact wp_other _

/-- So they are spent over a whole run. -/
private theorem swept_run
    (h : NodePool.Run ext (SparesChecked ops) (NodePool.calls cfg w ops)
      pool) : Swept ops pool := by
  induction h with
  | start =>
      have hinit : ∀ j, (NodePool.calls cfg w ops).aim ops j = .fresh
          ∨ (NodePool.calls cfg w ops).aim ops j = .other := by
        intro j
        show (if _ then _ else _) = _ ∨ (if _ then _ else _) = _
        split
        · exact .inl rfl
        · exact .inr rfl
      refine ⟨fun j now key hj => ?_, fun j now hj => ?_⟩
      · obtain h | h := hinit j <;> rw [h] at hj <;> cases hj
      · obtain h | h := hinit j <;> rw [h] at hj <;> cases hj
  | step _ _ hc ih => exact swept_step ih hc
  | env _ he ih =>
      obtain ⟨now, instant, -, rfl⟩ := he
      exact ⟨ih.spent, ih.dated⟩

end Runs

-- ================================================================= the law

/-- A sweep about to remove a key finds it absent or expired at the time
the sweep read, as long as nothing live is written under a key that a
sweep holds checked. -/
theorem sweep_spares_live (ext : Externals) (cfg : NodeConfig) {w : World}
    {ops : List Op} {pool : NodePool} {i : Nat} {key : Bytes}
    {k : (Prim.storage (.delete key)).Resp → NodeProg Answer}
    (h : NodePool.Run ext (SparesChecked ops) (NodePool.calls cfg w ops)
      pool)
    (hsweep : ops[i]? = some .sweep)
    (hi : pool.threads[i]? = some (.act (.storage (.delete key)) k)) :
    ∃ now, ⟨i, .now, now⟩ ∈ pool.log
      ∧ ∀ raw, pool.world.storage.contents[key]? = some raw →
        ValueCodec.isExpired raw now = .ok true := by
  have hok := (NodePool.Run.aim h hi).1
  have hinv := swept_run h
  obtain hother | ⟨now, haim⟩ := hok key rfl
  · exact absurd hother (aim_of_sweep hsweep)
  · refine ⟨now, hinv.dated i now (by rw [haim]; rfl), fun raw hraw => ?_⟩
    exact of_decide_eq_true (hinv.spent i now key haim raw hraw)

/-- A node with one entry, expired for nine milliseconds. -/
def staleWorld : World :=
  ((Op.prog {} (.put (KeyCodec.bytesOf "a" .data [1]) [2] 1)).run
    (Prim.exec .plain none) (.opened {})).2.tick 10 10

/-- A sweep, and a put of a live value under the same key. -/
def sweepAndPut : List Op :=
  [.sweep, .put (KeyCodec.bytesOf "a" .data [1]) [3] 0]

/-- These, and a put under another key. -/
def sweepAndPuts : List Op :=
  sweepAndPut ++ [.put (KeyCodec.bytesOf "a" .data [9]) [4] 0]

/-- The sweep has found the key expired. The put under the other key runs to
its end, the put under this one up to its storage write, and the sweep goes
on until it is about to delete. -/
def sweepAmidPuts : NodePool :=
  Pool.play (Prim.exec .plain none)
    ([0, 0, 0] ++ List.replicate 9 2 ++ [1, 1, 1, 0, 0])
    (NodePool.calls {} staleWorld sweepAndPuts)

/-- What it is about to remove is expired. -/
theorem sweep_spares_live_puts :
    sweepAmidPuts.result 2 = some (.done (.ok ()))
      ∧ sweepAmidPuts.world.storage.contents[KeyCodec.bytesOf "a" .data [9]]?
        = some (ValueCodec.encode [4] none)
      ∧ sweepAmidPuts.world.storage.contents[KeyCodec.bytesOf "a" .data [1]]?
        = some (ValueCodec.encode [2] (some 1))
      ∧ ∃ now, ⟨0, .now, now⟩ ∈ sweepAmidPuts.log
        ∧ ∀ raw, sweepAmidPuts.world.storage.contents[
            KeyCodec.bytesOf "a" .data [1]]? = some raw →
          ValueCodec.isExpired raw now = .ok true := by
  have hrun : NodePool.Run .plain (SparesChecked sweepAndPuts)
      (NodePool.calls {} staleWorld sweepAndPuts) sweepAmidPuts :=
    Pool.run_play _ (by decide +kernel)
  exact ⟨by decide +kernel, by decide +kernel, by decide +kernel,
    sweep_spares_live .plain {} hrun rfl rfl⟩

-- ============================================================ a lost write

/-- The sweep has found the key expired; the put runs to its end. -/
def sweepRace : NodePool :=
  Pool.play (Prim.exec .plain none) ([0, 0, 0] ++ List.replicate 9 1)
    (NodePool.calls {} staleWorld sweepAndPut)

/-- Then the sweep runs to its end. -/
def sweepRaceEnd : NodePool :=
  Pool.play (Prim.exec .plain none)
    ([0, 0, 0] ++ List.replicate 9 1 ++ List.replicate 8 0)
    (NodePool.calls {} staleWorld sweepAndPut)

/-- The sweeper can delete a live value: the put has returned `Ok` with a
value that never expires, and the sweep removes it. -/
theorem sweep_deletes_live :
    NodePool.Run .plain NodePool.anyStep
        (NodePool.calls {} staleWorld sweepAndPut) sweepRace
      ∧ sweepRace.result 1 = some (.done (.ok ()))
      ∧ sweepRace.world.storage.contents[KeyCodec.bytesOf "a" .data [1]]?
        = some (ValueCodec.encode [3] none)
      ∧ NodePool.Run .plain NodePool.anyStep
        (NodePool.calls {} staleWorld sweepAndPut) sweepRaceEnd
      ∧ sweepRaceEnd.result 0 = some (.swept 1)
      ∧ sweepRaceEnd.world.storage.contents[KeyCodec.bytesOf "a" .data [1]]?
        = none :=
  ⟨Pool.run_play _ (Pool.allowed_of_forall (fun _ _ _ => trivial) _ _),
    by decide +kernel, by decide +kernel,
    Pool.run_play _ (Pool.allowed_of_forall (fun _ _ _ => trivial) _ _),
    by decide +kernel, by decide +kernel⟩

end FerrisKv
