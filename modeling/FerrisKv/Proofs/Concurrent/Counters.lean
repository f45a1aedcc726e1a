/-
The counters are atomic, and a call on them is held up by contention only.

`counters_linearizable`: however the steps of any number of `adjust` and
`used_bytes` calls interleave, what their callers see they could have seen
of a store on which each call is a single step. No update is lost, also
when several calls race to create a counter, and also when exchanges fail
for no reason. It is this that lets the rest of the development take a
counter update for one step.

`counter_call_steps_le`: an exchange that fails because the counter had
moved was beaten by a call that moved it, and each move beats a call at
most once. So the loop of `apply_delta` goes round only while others get
through. That is a bound on the steps a call takes, not a promise that it can
take its next one: the map's guards, which a call may have to wait for, are
no part of the model.
-/
import FerrisKv.Node.Counter

namespace FerrisKv

open Std Linearize

-- ================================================================ arithmetic

/-- `fetch_add` adds, and wraps. -/
private theorem toNat_add_ofNat (c : UInt64) {delta : Int} (hd : 0 ≤ delta) :
    (c + UInt64.ofNat delta.toNat).toNat = applyDelta c.toNat delta % 2 ^ 64 := by
  rw [UInt64.toNat_add, UInt64.toNat_ofNat', applyDelta, if_pos hd]
  omega

/-- `fetch_update` with `saturating_sub` subtracts, and stops at zero. -/
private theorem toNat_saturatingSub (c : UInt64) {delta : Int} (hd : delta < 0)
    (hi : -2 ^ 63 ≤ delta) :
    (saturatingSub c (.ofNat delta.natAbs)).toNat
      = applyDelta c.toNat delta % 2 ^ 64 := by
  have hmag : (UInt64.ofNat delta.natAbs).toNat = delta.natAbs := by
    rw [UInt64.toNat_ofNat']
    omega
  have hc := c.toNat_lt
  rw [applyDelta, if_neg (by omega), saturatingSub]
  split
  · next hle =>
      rw [UInt64.toNat_sub_of_le _ _ hle, hmag]
      omega
  · next hle =>
      rw [UInt64.le_iff_toNat_le, hmag] at hle
      show 0 = _
      omega

-- ============================================================= the tracking

/-- Every counter reads as in the store; a missing one as zero. -/
def Mirrors (m : Counters) (q : QuotaStore) : Prop :=
  ∀ t, (m[t]?.getD 0).toNat = q.usedBytes t

/-- A counter that is there holds the tenant's usage. -/
theorem Mirrors.some {m : Counters} {q : QuotaStore} (h : Mirrors m q)
    {t : String} {c : UInt64} (hc : m[t]? = some c) :
    q.usedBytes t = c.toNat := by
  rw [← h t, hc]
  rfl

/-- Writing a counter writes the usage. -/
theorem Mirrors.insert {m : Counters} {q : QuotaStore} (h : Mirrors m q)
    (t : String) {c : UInt64} {total : Nat} (hc : c.toNat = total) :
    Mirrors (m.insert t c) { q with usage := q.usage.insert t total } := by
  intro t'
  unfold QuotaStore.usedBytes
  rw [ExtTreeMap.getElem?_insert, ExtTreeMap.getElem?_insert]
  split
  · exact hc
  · exact h t'

/-- A counter that is created reads as it did. -/
theorem Mirrors.insertIfNew {m : Counters} {q : QuotaStore}
    (h : Mirrors m q) (t : String) : Mirrors (m.insertIfNew t 0) q := by
  intro t'
  rw [← h t', ExtTreeMap.getElem?_insertIfNew]
  split
  · next hnew =>
      have habsent : m[t']? = none := by
        rw [← Std.compare_eq_iff_eq.mp hnew.1]
        exact ExtTreeMap.getElem?_eq_none hnew.2
      rw [habsent]
      rfl
  · rfl

/-- What the store knows of a call. -/
def CounterTrack :
    CounterCall → QuotaStore → Progress QuotaStore CounterOp Nat → Prop
  | .looking t delta, _, pr | .entering t delta, _, pr
  | .applying t delta, _, pr =>
      -2 ^ 63 ≤ delta ∧ ∃ q₀, pr = .called (.adjust t delta) q₀
  | .exchanging t magnitude _, _, pr =>
      ∃ delta q₀, -2 ^ 63 ≤ delta ∧ delta < 0
        ∧ magnitude = .ofNat delta.natAbs ∧ pr = .called (.adjust t delta) q₀
  | .finding t, _, pr | .loading t, _, pr =>
      ∃ q₀, pr = .called (.usedBytes t) q₀
  | .returned v, _, pr => ∃ o, pr = .done o v.toNat

/-- The step that changes a counter is the one in which the call takes
effect. -/
theorem counter_effect {m : Counters} {q₀ q q₁ : QuotaStore} {t : String}
    {delta : Int} {c c' : UInt64} (h : Mirrors m q) (hc : m[t]? = some c)
    (hc' : c'.toNat = applyDelta c.toNat delta % 2 ^ 64) :
    ∃ q' pr',
      (atomicCounters q₀).Advance q (.called (.adjust t delta) q₁) q' pr'
        ∧ True ∧ Mirrors (m.insert t c') q'
        ∧ CounterTrack (.returned c') q' pr' := by
  have htotal : applyDelta (q.usedBytes t) delta % 2 ^ 64 = c'.toNat := by
    rw [h.some hc, hc']
  refine ⟨_, .done (.adjust t delta) c'.toNat,
    .inr ⟨_, q₁, _, rfl, ?_, rfl⟩, trivial, h.insert t htotal.symm, _, rfl⟩
  show _ = QuotaStore.wrappingAdjust _ _ _
  rw [QuotaStore.wrappingAdjust, htotal]

/-- So is the step that reads the counter for `used_bytes`. -/
theorem counter_read {m : Counters} {q₀ q q₁ : QuotaStore} {t : String}
    {c : UInt64} (h : Mirrors m q) (hc : m[t]?.getD 0 = c) :
    ∃ q' pr', (atomicCounters q₀).Advance q (.called (.usedBytes t) q₁) q' pr'
      ∧ True ∧ Mirrors m q' ∧ CounterTrack (.returned c) q' pr' := by
  refine ⟨q, .done (.usedBytes t) c.toNat, .inr ⟨_, q₁, _, rfl, ?_, rfl⟩,
    trivial, h, _, rfl⟩
  show (_, _) = (_, _)
  rw [← h t, hc]

/-- Every call can be tracked: its effect is its successful exchange, or its
read. -/
private theorem counters_tracking {m : Counters} {q : QuotaStore}
    (h : Mirrors m q) :
    Tracking (counters m) (atomicCounters q) Mirrors (fun _ _ => True)
      CounterTrack where
  init := by
    intro m' hm'
    obtain rfl : m' = m := hm'
    exact ⟨q, rfl, h⟩
  -- what is known of a call does not mention the store
  mono := by
    rintro (_ | _ | _ | _ | _ | _ | _) _ _ _ ht - <;> exact ht
  call := by
    rintro _ q' (⟨t, delta⟩ | t) - ho
    · exact ⟨ho.1, q', rfl⟩
    · exact ⟨q', rfl⟩
  step := by
    intro w w' q' x x' pr hrep ht hs
    cases hs with
    | found _ | missing _ =>
        exact ⟨q', pr, Object.advance_refl _ _ _, trivial, hrep, ht⟩
    | @enter m t delta =>
        exact ⟨q', pr, Object.advance_refl _ _ _, trivial,
          hrep.insertIfNew t, ht⟩
    | @fetchAdd m t delta c hd hc =>
        obtain ⟨-, q₁, rfl⟩ := ht
        exact counter_effect hrep hc (toNat_add_ofNat c hd)
    | load hd _ =>
        obtain ⟨hi, q₁, rfl⟩ := ht
        exact ⟨q', _, Object.advance_refl _ _ _, trivial, hrep,
          _, q₁, hi, hd, rfl, rfl⟩
    | @exchange m t magnitude current hc =>
        obtain ⟨delta, q₁, hi, hd, rfl, rfl⟩ := ht
        exact counter_effect hrep hc (toNat_saturatingSub current hd hi)
    | retry _ =>
        exact ⟨q', pr, Object.advance_refl _ _ _, trivial, hrep, ht⟩
    | absent hc =>
        obtain ⟨q₁, rfl⟩ := ht
        exact counter_read hrep (by rw [hc]; rfl)
    | present _ =>
        exact ⟨q', pr, Object.advance_refl _ _ _, trivial, hrep, ht⟩
    | read hc =>
        obtain ⟨q₁, rfl⟩ := ht
        exact counter_read hrep (by rw [hc]; rfl)
  ret := by
    rintro w q' _ _ a hrep ht ⟨v, rfl, rfl⟩
    obtain ⟨o, rfl⟩ := ht
    exact ⟨q', o, v.toNat, Object.advance_refl _ _ _, trivial, hrep, rfl⟩
  env := fun _ _ _ _ he => he.elim

/-- Whatever callers of the counters see, they could have seen of a store
on which each call is one step. -/
theorem counters_linearizable {m : Counters} {q : QuotaStore}
    (h : Mirrors m q) {τ : List (Event CounterOp Nat)}
    {c : Service.State Counters CounterCall}
    (ht : (counters m).lts.Trace τ c) :
    ∃ a, (atomicCounters q).lts.Trace τ a :=
  (counters_tracking h).linearizable (fun _ => trivial) ht

/-- One counter, at nine. -/
def nineBytes : Counters := (∅ : Counters).insert "a" 9

/-- Two clients shrink one counter at the same time. The second comes
between the first's load and its exchange, which fails and is repeated;
both are counted. -/
theorem counters_linearizable_beaten :
    ∃ a, (atomicCounters ⟨{}, ∅, (∅ : ExtTreeMap String Nat).insert "a" 9⟩).lts.Trace
      [.call 0 (.adjust "a" (-4)), .call 1 (.adjust "a" (-2)), .ret 1 7,
        .ret 0 3] a := by
  have hempty : Mirrors ∅ ⟨{}, ∅, ∅⟩ := by
    intro t
    unfold QuotaStore.usedBytes
    rw [ExtTreeMap.getElem?_empty, ExtTreeMap.getElem?_empty]
    rfl
  have h₀ : (counters nineBytes).lts.Trace [] ⟨nineBytes, fun _ => none⟩ :=
    .start ⟨rfl, rfl⟩
  have h₁ := Lts.Trace.visible h₀
    (.call (i := 0) (o := .adjust "a" (-4)) rfl
      (show CounterOp.Typed _ by decide))
  have h₂ := Lts.Trace.internal h₁
    (.act (i := 0) rfl (.found (c := 9) (by decide +kernel)))
  have h₃ := Lts.Trace.internal h₂
    (.act (i := 0) rfl (.load (c := 9) (by decide) (by decide +kernel)))
  have h₄ := Lts.Trace.visible h₃
    (.call (i := 1) (o := .adjust "a" (-2)) rfl
      (show CounterOp.Typed _ by decide))
  have h₅ := Lts.Trace.internal h₄
    (.act (i := 1) rfl (.found (c := 9) (by decide +kernel)))
  have h₆ := Lts.Trace.internal h₅
    (.act (i := 1) rfl (.load (c := 9) (by decide) (by decide +kernel)))
  have h₇ := Lts.Trace.internal h₆
    (.act (i := 1) rfl (.exchange (by decide +kernel)))
  have h₈ := Lts.Trace.visible h₇
    (.ret (i := 1) (a := 7) rfl ⟨7, by decide +kernel, rfl⟩)
  have h₉ := Lts.Trace.internal h₈
    (.act (i := 0) rfl (.retry (c := 7) (by decide +kernel)))
  have h₁₀ := Lts.Trace.internal h₉
    (.act (i := 0) rfl (.exchange (by decide +kernel)))
  exact counters_linearizable (hempty.insert "a" (c := 9) rfl)
    (.visible h₁₀ (.ret (i := 0) (a := 3) rfl ⟨3, by decide +kernel, rfl⟩))

-- ============================================================ how long it takes

namespace CounterCall

/-- The steps a call has left when nobody interferes. -/
def toGo : CounterCall → Nat
  | .looking _ _ => 4
  | .entering _ _ => 3
  | .applying _ _ => 2
  | .exchanging _ _ _ => 1
  | .finding _ => 2
  | .loading _ => 1
  | .returned _ => 0

/-- One if the exchange the call is about to make has to fail. -/
def missed (m : Counters) : CounterCall → Nat
  | .exchanging t _ current => if m[t]?.getD 0 = current then 0 else 1
  | _ => 0

/-- The call is on the counter of `t`. -/
def On (t : String) : CounterCall → Prop
  | .looking t' _ | .entering t' _ | .applying t' _ | .exchanging t' _ _
  | .finding t' | .loading t' => t' = t
  | .returned _ => True

end CounterCall

/-- Counters that read alike at `t`. -/
def SameAt (t : String) (m m' : Counters) : Prop :=
  m'[t]?.getD 0 = m[t]?.getD 0

instance (t : String) (m m' : Counters) : Decidable (SameAt t m m') :=
  inferInstanceAs (Decidable (_ = _))

/-- A run from `s` on during which client `i`'s call makes `own` steps,
`spurious` of them exchanges that fail though the counter was as expected,
and the other clients move the counter of `t` `moved` times. -/
inductive Contest (i : Nat) (t : String)
    (s : Service.State Counters CounterCall) :
    Nat → Nat → Nat → Service.State Counters CounterCall → Prop where
  | start : Contest i t s 0 0 0 s
  | own {own spurious moved : Nat} {m m' : Counters}
      {calls : Nat → Option CounterCall} {x x' : CounterCall}
      (h : Contest i t s own spurious moved ⟨m, calls⟩)
      (hi : calls i = some x) (hs : x.Step m x' m') (hne : x' ≠ x) :
      Contest i t s (own + 1) spurious moved
        ⟨m', Function.update calls i (some x')⟩
  | spurious {own spurious moved : Nat} {m m' : Counters}
      {calls : Nat → Option CounterCall} {x : CounterCall}
      (h : Contest i t s own spurious moved ⟨m, calls⟩)
      (hi : calls i = some x) (hs : x.Step m x m') :
      Contest i t s (own + 1) (spurious + 1) moved ⟨m', calls⟩
  | other {own spurious moved : Nat} {m m' : Counters}
      {calls : Nat → Option CounterCall} {j : Nat} {x x' : CounterCall}
      (h : Contest i t s own spurious moved ⟨m, calls⟩) (hj : j ≠ i)
      (hi : calls j = some x) (hs : x.Step m x' m') :
      Contest i t s own spurious (moved + if SameAt t m m' then 0 else 1)
        ⟨m', Function.update calls j (some x')⟩
  | call {own spurious moved : Nat} {m : Counters}
      {calls : Nat → Option CounterCall} {j : Nat} {o : CounterOp}
      (h : Contest i t s own spurious moved ⟨m, calls⟩) (hj : j ≠ i)
      (hi : calls j = none) (ho : o.Typed) :
      Contest i t s own spurious moved
        ⟨m, Function.update calls j (some (.start o))⟩
  | ret {own spurious moved : Nat} {m : Counters}
      {calls : Nat → Option CounterCall} {j : Nat} {v : UInt64}
      (h : Contest i t s own spurious moved ⟨m, calls⟩)
      (hj : j ≠ i) (hi : calls j = some (.returned v)) :
      Contest i t s own spurious moved ⟨m, Function.update calls j none⟩

/-- A call stays with its tenant. -/
private theorem CounterCall.Step.on {t : String} {x x' : CounterCall}
    {m m' : Counters} (hs : x.Step m x' m') (h : x.On t) : x'.On t := by
  cases hs <;> first | exact h | trivial

/-- A step of a call is paid for by a step less to go, by a failure it no
longer faces, or it was spurious. -/
theorem CounterCall.Step.pays {x x' : CounterCall} {m m' : Counters}
    (hs : x.Step m x' m') :
    x'.toGo + x'.missed m' + 1
      ≤ x.toGo + x.missed m + if x' = x then 1 else 0 := by
  cases hs with
  | found _ | missing _ | enter | fetchAdd _ _ | exchange _ | absent _
  | present _ | read _ =>
      simp [toGo, missed]
  | load _ hc => simp [toGo, missed, hc]
  | @retry _ t magnitude current observed hc =>
      by_cases h : observed = current
      · simp [toGo, missed, h]
      · simp [toGo, missed, hc, h]

/-- Another call's step costs at most one failure, and only if it moves
the counter. -/
theorem CounterCall.missed_le {t : String} {y : CounterCall} (h : y.On t)
    (m m' : Counters) :
    y.missed m' ≤ y.missed m + if SameAt t m m' then 0 else 1 := by
  cases y with
  | exchanging t' magnitude current =>
      obtain rfl : t' = t := h
      unfold missed SameAt
      split <;> split <;> split <;> simp_all
  | looking _ _ | entering _ _ | applying _ _ | finding _ | loading _
  | returned _ => exact Nat.zero_le _

/-- The account kept over a run. -/
theorem Contest.account {i : Nat} {t : String}
    {s s' : Service.State Counters CounterCall} {own spurious moved : Nat}
    (h : Contest i t s own spurious moved s') {x : CounterCall}
    (hx : s.calls i = some x) (hon : x.On t) :
    ∃ x', s'.calls i = some x' ∧ x'.On t
      ∧ own + x'.toGo + x'.missed s'.world
        ≤ x.toGo + x.missed s.world + spurious + moved := by
  induction h with
  | start => exact ⟨x, hx, hon, by omega⟩
  | @own own spurious moved m m' calls y y' _ hi hs hne ih =>
      obtain ⟨_, hy, hon', hle⟩ := ih
      obtain rfl := Option.some.inj (hi.symm.trans hy)
      have hpay := hs.pays
      rw [if_neg hne] at hpay
      exact ⟨y', Function.update_self .., hs.on hon', by dsimp only at hle ⊢; omega⟩
  | @spurious own spurious moved m m' calls y _ hi hs ih =>
      -- a spurious failure is paid for from its own budget, the other
      -- failures by the updates that caused them
      obtain ⟨_, hy, hon', hle⟩ := ih
      obtain rfl := Option.some.inj (hi.symm.trans hy)
      have hpay := hs.pays
      rw [if_pos rfl] at hpay
      exact ⟨y, hi, hon', by dsimp only at hle ⊢; omega⟩
  | @other own spurious moved m m' calls j y y' _ hj _ _ ih =>
      obtain ⟨z, hz, hon', hle⟩ := ih
      have hcost := CounterCall.missed_le hon' m m'
      exact ⟨z, (Function.update_of_ne hj.symm ..).trans hz, hon',
        by dsimp only at hle ⊢; omega⟩
  | call _ hj _ _ ih | ret _ hj _ ih =>
      obtain ⟨z, hz, hon', hle⟩ := ih
      exact ⟨z, (Function.update_of_ne hj.symm ..).trans hz, hon', hle⟩

/-- The tenant a call is for. -/
def CounterOp.tenant : CounterOp → String
  | .adjust tenant _ => tenant
  | .usedBytes tenant => tenant

/-- What a call has taken and has to go, if nothing disturbs it, is four
steps, plus one for each time another call moved its counter and for each
exchange that failed for no reason. -/
theorem counter_call_steps_le {i : Nat} {o : CounterOp}
    {s s' : Service.State Counters CounterCall} {own spurious moved : Nat}
    (hi : s.calls i = some (.start o))
    (h : Contest i o.tenant s own spurious moved s') :
    ∃ x, s'.calls i = some x ∧ own + x.toGo ≤ 4 + spurious + moved := by
  have hon : (CounterCall.start o).On o.tenant := by cases o <;> rfl
  have hfull : (CounterCall.start o).toGo + (CounterCall.start o).missed s.world
      ≤ 4 := by cases o <;> simp [CounterCall.start, CounterCall.toGo, CounterCall.missed]
  obtain ⟨x, hx, -, hle⟩ := h.account hi hon
  exact ⟨x, hx, by omega⟩

/-- Two clients that have just called, to shrink one counter. -/
def twoCalls : Service.State Counters CounterCall :=
  ⟨nineBytes, Function.update (Function.update (fun _ => none) 0
    (some (.looking "a" (-4)))) 1 (some (.looking "a" (-2)))⟩

/-- The first of them, beaten by the second, has made three steps, the
third an exchange that failed, and has one to go. -/
theorem counter_call_steps_le_beaten :
    ∃ s', Contest 0 "a" twoCalls 3 0 1 s'
      ∧ s'.calls 0 = some (.exchanging "a" 4 7)
      ∧ ∃ x, s'.calls 0 = some x ∧ 3 + x.toGo ≤ 4 + 0 + 1 := by
  have c₁ : Contest 0 "a" twoCalls 1 0 0 ⟨_, _⟩ := .own .start rfl
    (.found (c := 9) (by decide +kernel)) nofun
  have c₂ : Contest 0 "a" twoCalls 2 0 0 ⟨_, _⟩ := .own c₁ rfl
    (.load (c := 9) (by decide) (by decide +kernel)) nofun
  have c₃ : Contest 0 "a" twoCalls 2 0 0 ⟨_, _⟩ := .other (j := 1) c₂
    (by decide) rfl (.found (c := 9) (by decide +kernel))
  have c₄ : Contest 0 "a" twoCalls 2 0 0 ⟨_, _⟩ := .other (j := 1) c₃
    (by decide) rfl (.load (c := 9) (by decide) (by decide +kernel))
  have c₅ : Contest 0 "a" twoCalls 2 0 1 ⟨_, _⟩ := .other (j := 1) c₄
    (by decide) rfl (.exchange (by decide +kernel))
  have c₆ : Contest 0 "a" twoCalls 3 0 1 ⟨_, _⟩ := .own c₅ rfl
    (.retry (c := 7) (by decide +kernel)) (by decide)
  exact ⟨_, c₆, rfl, counter_call_steps_le (o := .adjust "a" (-4)) rfl c₆⟩

end FerrisKv
