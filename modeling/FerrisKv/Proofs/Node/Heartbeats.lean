/-
When a stream beats.

The next heartbeat of a `Watch` stream is due at a fixed moment, and only
an item delivered moves it. The loop also turns on changes outside the
subscriber's prefix, which deliver nothing: these must not put the
heartbeat off, or a tenant busy elsewhere would leave the subscriber in
the dark.

One turn is timed by `wp_watchPoll_timed`: a heartbeat is never early, an
item puts the next one off by the whole interval, and from the deadline on
the stream never just waits. What is left is the race of `select!`, which
may look at the channel first. A turn it loses to a foreign change has
taken that change off the channel for good (`late_reads`), so over any
stretch without an item the turns lost after the deadline are no more than
the changes read (`heartbeat_not_starved`).
-/
import FerrisKv.Proofs.Node.WatchView

namespace FerrisKv

open Prog NodeService TenantChannels

-- ================================================================= one turn

section Turns

variable {ext : Externals} {cfg : NodeConfig}

/-- A step that meets any fault, with the clocks where they are read. -/
theorem restless_timed {ok : Prim → Option Fault → Prop} {w : World} {p : Prim}
    {K : p.Resp → World → Prop}
    (h : ∀ now instant fault, w.instant ≤ instant →
      K (p.exec ext fault (w.tick now instant)).1
        (p.exec ext fault (w.tick now instant)).2) :
    (restless ext ok).post w p K := by
  refine ⟨trivial, fun r w' hp => ?_⟩
  obtain ⟨now, instant, fault, -, hinstant, -, he⟩ := hp
  have hk := h now instant fault hinstant
  rw [he] at hk
  exact hk

/-- What a turn that began at `w` can come to. -/
structure Timed (ext : Externals) (st : WatchState) (idleFirst : Bool)
    (w g : World) (turn : StreamTurn) : Prop where
  -- an item puts the next heartbeat off by the whole interval
  deferred : ∀ event st', turn = .item event st' →
    w.instant + st.heartbeat ≤ st'.nextBeat ∧ st'.heartbeat = st.heartbeat
  -- a heartbeat is not early
  due : ∀ st', turn = .item heartbeatEvent st' → st.nextBeat ≤ g.instant
  -- past the deadline the stream does not wait
  prompt : st.nextBeat ≤ w.instant → turn ≠ .pending
  -- and goes round again only if it took a change off the channel first
  taken : turn = .again → (st.nextBeat ≤ w.instant → idleFirst = false)
    ∧ g.watch = ((WatchPrim.recv st.tenant st.rx).exec ext w.watch).2
    ∧ ∃ change, ((WatchPrim.recv st.tenant st.rx).exec ext w.watch).1
      = .message change

/-- A delivered event sets the next beat, and a beat is delivered when it is
due. -/
theorem wp_deliver_timed {st : WatchState} {idleFirst : Bool} {w g : World}
    (event : WatchEvent) (hg : w.instant ≤ g.instant)
    (hdue : event = heartbeatEvent → st.nextBeat ≤ g.instant) :
    wp (restless ext fun _ _ => True) (Timed ext st idleFirst w)
      (deliver st event) g := by
  refine restless_timed fun now instant fault hinstant => ?_
  show Timed ext st idleFirst w (g.tick now instant)
    (.item event { st with nextBeat := instant + st.heartbeat })
  refine ⟨fun event' st' he => ?_, fun st' he => ?_, fun _ he => ?_, fun he => ?_⟩
  · cases he
    exact ⟨by show w.instant + st.heartbeat ≤ instant + st.heartbeat; omega, rfl⟩
  · cases he
    exact le_trans (hdue rfl) hinstant
  · cases he
  · cases he

/-- A turn that delivers nothing and does not go round again. -/
theorem timed_silent {st : WatchState} {idleFirst : Bool} {w g : World}
    {turn : StreamTurn} (hitem : ∀ event st', turn ≠ .item event st')
    (hagain : turn ≠ .again)
    (hpending : st.nextBeat ≤ w.instant → turn ≠ .pending) :
    Timed ext st idleFirst w g turn where
  deferred event st' he := absurd he (hitem event st')
  due st' he := absurd he (hitem _ st')
  prompt := hpending
  taken he := absurd he hagain

/-- A change is no heartbeat. -/
private theorem toWatchEvent_ne_heartbeat (change : KeyChange) :
    toWatchEvent change ≠ heartbeatEvent := by
  intro he
  have hkind : (toWatchEvent change).kind = .heartbeat := by rw [he]; rfl
  obtain ⟨kind, key, value⟩ := change
  cases kind <;> cases hkind

/-- Every turn is timed. -/
theorem wp_watchPoll_timed (st : WatchState) (idleFirst : Bool) (w : World) :
    wp (restless ext fun _ _ => True) (Timed ext st idleFirst w)
      (watchPoll st idleFirst) w := by
  refine restless_timed fun now instant fault hinstant => ?_
  show wp _ _ (if (idleFirst && decide (st.nextBeat ≤ instant)) = true then
    deliver st heartbeatEvent else _) (w.tick now instant)
  by_cases hidle : (idleFirst && decide (st.nextBeat ≤ instant)) = true
  · rw [if_pos hidle]
    refine wp_deliver_timed heartbeatEvent hinstant fun _ => ?_
    rw [Bool.and_eq_true, decide_eq_true_eq] at hidle
    exact hidle.2
  rw [if_neg hidle]
  refine restless_timed fun now' instant' fault' hinstant' => ?_
  show wp _ _ (onReceived st (decide (st.nextBeat ≤ instant))
    ((WatchPrim.recv st.tenant st.rx).exec ext w.watch).1)
    { (w.tick now instant).tick now' instant' with
      watch := ((WatchPrim.recv st.tenant st.rx).exec ext w.watch).2 }
  have hlater : w.instant ≤ instant' := le_trans hinstant hinstant'
  cases hout : ((WatchPrim.recv st.tenant st.rx).exec ext w.watch).1 with
  | message change =>
      rw [onReceived]
      by_cases hp : st.keyPrefix.isPrefixOf change.key = true
      · rw [if_pos hp]
        exact wp_deliver_timed _ hlater
          fun he => absurd he (toWatchEvent_ne_heartbeat change)
      · rw [if_neg hp]
        refine ⟨fun _ _ he => ?_, fun _ he => ?_, fun _ he => ?_,
          fun _ => ⟨fun hlate => ?_, rfl, change, hout⟩⟩
        · cases he
        · cases he
        · cases he
        -- polled first, the timer would have won
        have hdue : decide (st.nextBeat ≤ instant) = true :=
          decide_eq_true (le_trans hlate hinstant)
        rw [hdue, Bool.and_true, Bool.not_eq_true] at hidle
        exact hidle
  | lagged missed =>
      refine timed_silent (fun _ _ he => ?_) (fun he => ?_) fun _ he => ?_
      all_goals cases he
  | closed =>
      refine timed_silent (fun _ _ he => ?_) (fun he => ?_) fun _ he => ?_
      all_goals cases he
  | empty =>
      rw [onReceived]
      by_cases hdue : st.nextBeat ≤ instant
      · rw [if_pos (decide_eq_true hdue)]
        exact wp_deliver_timed _ hlater fun _ => le_trans hdue hinstant'
      · rw [if_neg (by rw [decide_eq_false hdue]; exact Bool.false_ne_true)]
        refine timed_silent (fun _ _ he => ?_) (fun he => ?_)
          fun hlate => absurd (le_trans hlate hinstant) hdue
        all_goals cases he

end Turns

-- =============================================================== the readers

/-- A receiver does not go back. -/
private theorem recv_next_ge {c : Channel} {r : Receiver} {buffer : Nat}
    {reg : Bool} : r.next ≤ (c.recv buffer reg r).2.next := by
  unfold Channel.recv
  by_cases hlag : r.next + buffer < c.sent.length
  · rw [if_pos hlag]
    show r.next ≤ c.sent.length - buffer
    omega
  · rw [if_neg hlag]
    cases c.sent[r.next]? with
    | some change => exact Nat.le_succ _
    | none => exact le_rfl

namespace TenantChannels

variable {tc : TenantChannels} {rx : Rx} {r : Receiver}

/-- Replacing a channel by one whose receivers have read on. -/
theorem receiver_onward {i : Nat} {c c' : Channel}
    (hc : tc.channels[i]? = some c)
    (hon : ∀ (slot : Nat) (r : Receiver), c.receivers[slot]? = some r →
      ∃ r', c'.receivers[slot]? = some r' ∧ r.next ≤ r'.next)
    (hr : tc.receiver rx = some r) :
    ∃ r', receiver { tc with channels := tc.channels.set i c' } rx = some r'
      ∧ r.next ≤ r'.next := by
  by_cases hi : i = rx.channel
  · subst hi
    rw [receiver_eq hc] at hr
    obtain ⟨r', hr', hle⟩ := hon _ r hr
    have hset : (tc.channels.set rx.channel c')[rx.channel]? = some c' :=
      List.getElem?_set_self (List.getElem?_eq_some_iff.mp hc).1
    exact ⟨r', (receiver_eq hset).trans hr', hle⟩
  · refine ⟨r, ?_, le_rfl⟩
    unfold receiver at hr ⊢
    rw [← hr]
    simp only [List.getElem?_set_ne hi]

/-- No step takes a reader back. -/
theorem receiver_execTenant (p : WatchPrim) (buffer : Nat)
    (hr : tc.receiver rx = some r) :
    ∃ r', (p.execTenant buffer tc).2.receiver rx = some r'
      ∧ r.next ≤ r'.next := by
  have hjoin : ∀ {i : Nat} {c : Channel}, tc.current = some (i, c) →
      ∃ r', receiver { tc with channels := tc.channels.set i c.subscribe } rx
        = some r' ∧ r.next ≤ r'.next := by
    intro i c hcur
    refine receiver_onward (current_eq_some.mp hcur).2 (fun slot r₀ hr₀ => ?_) hr
    exact ⟨r₀, (List.getElem?_append_left
      (List.getElem?_eq_some_iff.mp hr₀).1).trans hr₀, le_rfl⟩
  cases p with
  | isWatched t => exact ⟨r, hr, le_rfl⟩
  | send t change => exact ⟨r, (receiver_send tc rx change buffer).trans hr, le_rfl⟩
  | remove t => exact ⟨r, hr, le_rfl⟩
  | subscribeExisting t =>
      simp only [WatchPrim.execTenant]
      split
      · exact ⟨r, hr, le_rfl⟩
      · next i c hcur => exact hjoin hcur
  | subscribeOrInsert t =>
      simp only [WatchPrim.execTenant]
      split
      · next i c hcur => exact hjoin hcur
      -- a new channel goes to the end of the list, so the old ones keep their
      -- places
      · refine ⟨r, ?_, le_rfl⟩
        obtain ⟨c, hc, -⟩ := receiver_isSome.mp (by rw [hr]; rfl)
        rw [receiver_eq hc] at hr
        have hsame : (tc.channels ++ [Channel.subscribe ⟨[], []⟩])[rx.channel]?
            = some c := (List.getElem?_append_left
          (List.getElem?_eq_some_iff.mp hc).1).trans hc
        exact (receiver_eq hsame).trans hr
  | recv t rx' =>
      simp only [WatchPrim.execTenant]
      split
      · exact ⟨r, hr, le_rfl⟩
      · next c hc =>
          split
          · exact ⟨r, hr, le_rfl⟩
          · next r₀ hr₀ =>
              refine receiver_onward hc (fun slot r₁ hr₁ => ?_) hr
              -- only the receiver that reads moves, and it moves forward
              by_cases hslot : rx'.slot = slot
              · subst hslot
                rw [hr₀] at hr₁
                cases hr₁
                exact ⟨_, List.getElem?_set_self
                  (List.getElem?_eq_some_iff.mp hr₀).1, recv_next_ge⟩
              · exact ⟨r₁, (List.getElem?_set_ne hslot).trans hr₁, le_rfl⟩
  | drop t rx' =>
      simp only [WatchPrim.execTenant]
      split
      · exact ⟨r, hr, le_rfl⟩
      · next c hc =>
          refine receiver_onward hc (fun slot r₁ hr₁ => ?_) hr
          refine ⟨if rx'.slot = slot then { r₁ with live := false } else r₁, ?_, ?_⟩
          · show (c.receivers.modify rx'.slot _)[slot]? = _
            rw [List.getElem?_modify, hr₁]
            rfl
          · split <;> exact le_rfl

/-- A receive that answers a message has moved its receiver by one. -/
theorem receiver_of_message {t : String} {buffer : Nat} {change : KeyChange}
    (h : ((WatchPrim.recv t rx).execTenant buffer tc).1 = .message change)
    (hr : tc.receiver rx = some r) :
    ∃ r', ((WatchPrim.recv t rx).execTenant buffer tc).2.receiver rx = some r'
      ∧ r.next + 1 ≤ r'.next := by
  obtain ⟨c, hc, -⟩ := receiver_isSome.mp (by rw [hr]; rfl)
  rw [receiver_eq hc] at hr
  simp only [WatchPrim.execTenant, hc, hr] at h ⊢
  refine ⟨_, (receiver_eq (List.getElem?_set_self
    (List.getElem?_eq_some_iff.mp hc).1)).trans (List.getElem?_set_self
      (List.getElem?_eq_some_iff.mp hr).1), ?_⟩
  unfold Channel.recv at h ⊢
  by_cases hlag : r.next + buffer < c.sent.length
  · rw [if_pos hlag] at h
    cases h
  · rw [if_neg hlag] at h ⊢
    cases hm : c.sent[r.next]? with
    | some next => exact le_rfl
    | none =>
        rw [hm] at h
        generalize decide (tc.registered = some rx.channel) = registered at h
        cases registered <;> cases h

end TenantChannels

/-- Every reader is where it was, or further on. -/
def ReadsOn (w g : World) : Prop :=
  ∀ t rx r, (w.watch.tenant t).receiver rx = some r →
    ∃ r', (g.watch.tenant t).receiver rx = some r' ∧ r.next ≤ r'.next

section Readers

variable {ext : Externals} {cfg : NodeConfig} {s s' : Session}

theorem readsOn_refl (w : World) : ReadsOn w w :=
  fun _ _ r hr => ⟨r, hr, le_rfl⟩

theorem ReadsOn.trans {w g g' : World} (h : ReadsOn w g) (h' : ReadsOn g g') :
    ReadsOn w g' := by
  intro t rx r hr
  obtain ⟨r₁, hr₁, hle⟩ := h t rx r hr
  obtain ⟨r₂, hr₂, hle'⟩ := h' t rx r₁ hr₁
  exact ⟨r₂, hr₂, le_trans hle hle'⟩

/-- No step takes a receiver back. -/
private theorem readsOn_exec (p : Prim) (fault : Option Fault) (w : World) :
    ReadsOn w (p.exec ext fault w).2 := by
  intro t rx r hr
  cases p with
  | watch q =>
      show ∃ r', (((q.exec ext w.watch).2).tenant t).receiver rx = some r' ∧ _
      rw [tenant_exec]
      by_cases ht : q.tenant = t
      · rw [if_pos ht]
        exact receiver_execTenant q _ hr
      · rw [if_neg ht]
        exact ⟨r, hr, le_rfl⟩
  | _ => exact ⟨r, hr, le_rfl⟩

/-- No program does. -/
theorem served_readsOn {α : Type} {x : NodeProg α} {w w' : World} {a : α}
    (h : Session.Served ext x w a w') : ReadsOn w w' := by
  induction h with
  | ret a w => exact readsOn_refl w
  | @act p k w w₁ w₂ r a hp _ ih =>
      obtain ⟨now, instant, fault, -, -, -, he⟩ := hp
      have hstep : ReadsOn (w.tick now instant)
          (p.exec ext fault (w.tick now instant)).2 := readsOn_exec p fault _
      rw [he] at hstep
      exact ReadsOn.trans (w := w) hstep ih

/-- Dropping a stream does not. -/
theorem readsOn_dropStream (s : Session) (t : String) (i : Nat)
    (st : WatchState) : ReadsOn s.world (s.dropStream ext t i st).world :=
  readsOn_exec (.watch (.drop st.tenant st.rx)) none s.world

/-- No action does. -/
private theorem goes_readsOn {a : Action} {out : Output}
    (hgo : Session.Goes ext cfg s a out s') : ReadsOn s.world s'.world := by
  cases hgo with
  | @rpc principal tenant req r w hserved =>
      rw [Session.world_opened]
      exact served_readsOn hserved
  | pollNone hs => exact readsOn_refl _
  | @poll tenant j idleFirst st turn w hs hserved =>
      have hon := served_readsOn hserved
      cases turn with
      | failed status =>
          exact hon.trans (readsOn_dropStream { s with world := w } tenant j st)
      | ended =>
          exact hon.trans (readsOn_dropStream { s with world := w } tenant j st)
      | _ => exact hon
  | hangUpNone hs => exact readsOn_refl _
  | hangUp hs => exact readsOn_dropStream s _ _ _
  | setQuota hserved => exact served_readsOn hserved
  | clearQuota hserved => exact served_readsOn hserved
  | sweep hserved => exact served_readsOn hserved
  | tick => exact fun _ _ r hr => ⟨r, hr, le_rfl⟩

end Readers

-- ================================================================== waiting

/-- The turn of the stream at `(t, i)` that the action takes at or after the
deadline. -/
def lateTurn (t : String) (i deadline : Nat) (s : Session) : Action → Nat
  | .poll t' j _ => if t' = t ∧ j = i ∧ deadline ≤ s.world.instant then 1 else 0
  | _ => 0

/-- From `s` to `s'` nothing is delivered to the stream at `(t, i)`, which
takes `late` turns at or after the deadline. -/
inductive Waits (ext : Externals) (cfg : NodeConfig) (t : String)
    (i deadline : Nat) (s : Session) : Session → Nat → Prop where
  | refl : Waits ext cfg t i deadline s s 0
  | step {s' s'' : Session} {late : Nat} {a : Action} {out : Output}
      (h : Waits ext cfg t i deadline s s' late)
      (hgo : Session.Goes ext cfg s' a out s'')
      (hnone : deliveredBy t i (a, out) = []) :
      Waits ext cfg t i deadline s s'' (late + lateTurn t i deadline s' a)

section Waiting

variable {ext : Externals} {cfg : NodeConfig} {t : String} {i : Nat}
  {s s' : Session} {st : WatchState}

/-- An open stream has a place. -/
private theorem place_of_stream (hst : s.stream t i = some st) :
    i < (s.streams t).length := by
  by_contra hge
  rw [Session.stream, List.getElem?_eq_none (by omega)] at hst
  cases hst

/-- What becomes of a stream when another one, or the same, is set. -/
theorem stream_kept_set {t' : String} {j : Nat} {st₀ : WatchState} {w : World}
    {o : Option WatchState} (hst : s.stream t i = some st)
    (hj : s.stream t' j = some st₀) (ho : (t', j) = (t, i) → o = none)
    (hopen : Session.stream ({ s with world := w }.setStreams t'
      ((s.streams t').set j o)) t i ≠ none) :
    Session.stream ({ s with world := w }.setStreams t'
      ((s.streams t').set j o)) t i = some st := by
  have hset := stream_set (s := { s with world := w }) hj o t i
  rw [hset] at hopen ⊢
  by_cases hown : t = t' ∧ i = j
  · rw [if_pos hown] at hopen
    exact absurd (ho (by rw [hown.1, hown.2])) hopen
  · rw [if_neg hown]
    exact hst

/-- A stream that is delivered nothing keeps its deadline. -/
theorem stream_kept {a : Action} {out : Output}
    (hgo : Session.Goes ext cfg s a out s') (hst : s.stream t i = some st)
    (hnone : deliveredBy t i (a, out) = []) (hopen : s'.stream t i ≠ none) :
    s'.stream t i = some st := by
  cases hgo with
  | @rpc principal tenant req r w hserved =>
      cases r with
      | watching res =>
          cases res with
          | error e => exact hst
          | ok st' =>
              show Session.stream (Session.setStreams _ tenant _) t i = some st
              rw [Session.stream_setStreams]
              by_cases ht : t = tenant
              · subst ht
                rw [if_pos rfl, List.getElem?_append_left (place_of_stream hst)]
                exact hst
              · rw [if_neg ht]
                exact hst
      | _ => exact hst
  | pollNone hs => exact hst
  | @poll tenant j idleFirst st₀ turn w hs hserved =>
      cases turn with
      | item event st' =>
          refine stream_kept_set hst hs (fun hown => ?_) hopen
          cases hown
          rw [deliveredBy_item] at hnone
          cases hnone
      | failed status => exact stream_kept_set hst hs (fun _ => rfl) hopen
      | ended => exact stream_kept_set hst hs (fun _ => rfl) hopen
      | again => exact hst
      | pending => exact hst
  | hangUpNone hs => exact hst
  | hangUp hs => exact stream_kept_set hst hs (fun _ => rfl) hopen
  | setQuota hserved => exact hst
  | clearQuota hserved => exact hst
  | sweep hserved => exact hst
  | tick => exact hst

/-- A turn of the stream is timed. -/
theorem poll_timed {idleFirst : Bool} {turn : StreamTurn}
    (hst : s.stream t i = some st)
    (hgo : Session.Goes ext cfg s (.poll t i idleFirst) (.turn (some turn)) s') :
    ∃ w, Timed ext st idleFirst s.world w turn
      ∧ s' = { s with world := w }.turned ext t i st turn := by
  cases hgo with
  | @poll _ _ _ st₀ _ w hs hserved =>
      cases hst.symm.trans hs
      exact ⟨w, hserved.post (wp_watchPoll_timed st idleFirst _), rfl⟩

/-- A late turn that delivers nothing and leaves the stream open has read a
change. -/
theorem late_reads {idleFirst : Bool} {out : Output} {r : Receiver}
    (hgo : Session.Goes ext cfg s (.poll t i idleFirst) out s')
    (hst : s.stream t i = some st) (hlate : st.nextBeat ≤ s.world.instant)
    (hnone : deliveredBy t i (.poll t i idleFirst, out) = [])
    (hopen : s'.stream t i ≠ none)
    (hr : (s.world.watch.tenant st.tenant).receiver st.rx = some r) :
    ∃ r', (s'.world.watch.tenant st.tenant).receiver st.rx = some r'
      ∧ r.next + 1 ≤ r'.next := by
  obtain ⟨turn, hout⟩ : ∃ turn, out = .turn (some turn) := by
    cases hgo with
    | pollNone hs =>
        rw [hst] at hs
        cases hs
    | poll hs hserved => exact ⟨_, rfl⟩
  subst hout
  obtain ⟨w, htimed, hs'⟩ := poll_timed hst hgo
  cases turn with
  | item event st' =>
      rw [deliveredBy_item] at hnone
      cases hnone
  | failed status =>
      rw [hs'] at hopen
      exact absurd (dropStream_gone hst) hopen
  | ended =>
      rw [hs'] at hopen
      exact absurd (dropStream_gone hst) hopen
  -- a beat is due, so the turn does not wait for a message
  | pending => exact absurd rfl (htimed.prompt hlate)
  | again =>
      obtain ⟨-, hwatch, change, hmessage⟩ := htimed.taken rfl
      subst hs'
      have htenant : w.watch.tenant st.tenant
          = ((WatchPrim.recv st.tenant st.rx).execTenant
            (ext.broadcastBuffer s.world.watch.capacity)
            (s.world.watch.tenant st.tenant)).2 := by
        rw [hwatch]
        exact (tenant_exec _).trans (if_pos rfl)
      show ∃ r', (w.watch.tenant st.tenant).receiver st.rx = some r' ∧ _
      rw [htenant]
      exact receiver_of_message hmessage hr

theorem Waits.place {deadline late : Nat}
    (h : Waits ext cfg t i deadline s s' late)
    (hplace : i < (s.streams t).length) : i < (s'.streams t).length := by
  induction h with
  | refl => exact hplace
  | step _ hgo _ ih => exact Nat.lt_of_lt_of_le ih (goes_streams hgo t i).1

/-- Over a wait, the stream keeps its deadline and has read a change for
every late turn. -/
theorem Waits.reads {late : Nat} {r : Receiver}
    (h : Waits ext cfg t i st.nextBeat s s' late) (hst : s.stream t i = some st)
    (hr : (s.world.watch.tenant st.tenant).receiver st.rx = some r)
    (hopen : s'.stream t i ≠ none) :
    s'.stream t i = some st
      ∧ ∃ r', (s'.world.watch.tenant st.tenant).receiver st.rx = some r'
        ∧ r.next + late ≤ r'.next := by
  induction h with
  | refl => exact ⟨hst, r, hr, le_rfl⟩
  | @step s' s'' late a out hwaits hgo hnone ih =>
      have hplace := hwaits.place (place_of_stream hst)
      have hopen' : s'.stream t i ≠ none :=
        fun hgone => hopen (closed_step hplace hgone hgo).2.1
      obtain ⟨hst', r', hr', hle⟩ := ih hopen'
      refine ⟨stream_kept hgo hst' hnone hopen, ?_⟩
      -- a late turn reads a message, and no step moves the reader back
      by_cases hlate : ∃ idleFirst, a = .poll t i idleFirst
          ∧ st.nextBeat ≤ s'.world.instant
      · obtain ⟨idleFirst, ha, hdue⟩ := hlate
        subst ha
        obtain ⟨r'', hr'', hle'⟩ := late_reads hgo hst' hdue hnone hopen hr'
        have hone : lateTurn t i st.nextBeat s' (.poll t i idleFirst) = 1 :=
          if_pos ⟨rfl, rfl, hdue⟩
        exact ⟨r'', hr'', by omega⟩
      · have hzero : lateTurn t i st.nextBeat s' a = 0 := by
          cases a with
          | poll t' j idleFirst =>
              refine if_neg fun hand => hlate ?_
              obtain ⟨ht, hj, hdue⟩ := hand
              subst ht
              subst hj
              exact ⟨idleFirst, rfl, hdue⟩
          | _ => rfl
        obtain ⟨r'', hr'', hle'⟩ := goes_readsOn hgo _ _ r' hr'
        exact ⟨r'', hr'', by omega⟩

end Waiting

-- ================================================================== results

/-- What becomes of a stream after its turn takes no time. -/
private theorem world_turned_instant (ext : Externals) (s : Session)
    (t : String) (i : Nat) (st : WatchState) (turn : StreamTurn) :
    (s.turned ext t i st turn).world.instant = s.world.instant := by
  cases turn <;> rfl

/-- Heartbeats are not starved. Over any stretch of a run in which an open
stream is delivered nothing, whatever else is asked of the node and
whatever fails, the stream keeps its deadline, and the turns it takes at or
after it are no more than the changes it reads off its channel. Its next
turn puts the deadline off by the whole interval if it delivers anything,
is a heartbeat only once the deadline has come, and from then on does not
wait, nor goes round again if it looks at the timer first. -/
theorem heartbeat_not_starved (ext : Externals) (cfg : NodeConfig) (w : World)
    (st : WatchState) {before : List (Action × Output)} {s₁ s₂ : Session}
    {t : String} {i late : Nat}
    (hbefore : Session.Runs ext cfg ⟨w, fun _ => []⟩ before s₁)
    (hst : s₁.stream t i = some st)
    (hwaits : Waits ext cfg t i st.nextBeat s₁ s₂ late)
    (hopen : s₂.stream t i ≠ none) :
    s₂.stream t i = some st
      ∧ (∃ r r', (s₁.world.watch.tenant st.tenant).receiver st.rx = some r
        ∧ (s₂.world.watch.tenant st.tenant).receiver st.rx = some r'
        ∧ r.next + late ≤ r'.next)
      ∧ ∀ idleFirst turn s₃,
        Session.Goes ext cfg s₂ (.poll t i idleFirst) (.turn (some turn)) s₃ →
        (∀ event st', turn = .item event st' →
            s₂.world.instant + st.heartbeat ≤ st'.nextBeat)
          ∧ (∀ st', turn = .item heartbeatEvent st' →
            st.nextBeat ≤ s₃.world.instant)
          ∧ (st.nextBeat ≤ s₂.world.instant →
            turn ≠ .pending ∧ (turn = .again → idleFirst = false)) := by
  have hnamed : Named s₁ :=
    Named.runs (fun t j st hst => by cases hst) hbefore
  obtain ⟨r, hr⟩ := Option.isSome_iff_exists.mp (hnamed t i st hst)
  obtain ⟨hst₂, r', hr', hle⟩ := hwaits.reads hst hr hopen
  refine ⟨hst₂, ⟨r, r', hr, hr', hle⟩, fun idleFirst turn s₃ hgo => ?_⟩
  obtain ⟨g, htimed, hs₃⟩ := poll_timed hst₂ hgo
  refine ⟨fun event st' he => (htimed.deferred event st' he).1, fun st' he => ?_,
    fun hdue => ⟨htimed.prompt hdue, fun ha => (htimed.taken ha).1 hdue⟩⟩
  rw [hs₃, world_turned_instant]
  exact htimed.due st' he

/-- A subscriber to keys under `[9]`, and a change of another key. -/
def watchNine : Action := .rpc (some .anonymous) "a" (.watch [9])

def nineWatched : Session :=
  (Session.step .plain {} ⟨.opened {}, fun _ => []⟩ watchNine).1

/-- The change is made, and the heartbeat falls due. -/
def nineDue : Session :=
  ((nineWatched.step .plain {} (.rpc (some .anonymous) "a" (.put [1] [7] 0))).1.step
    .plain {} (.tick 40000 40000)).1

def nineSkipped : Session :=
  (nineDue.step .plain {} (.poll "a" 0 false)).1

/-- The late turn that looks at the channel first reads the change, and the
next one beats. -/
theorem heartbeat_not_starved_skipped :
    Waits .plain {} "a" 0 30000 nineWatched nineSkipped 1
      ∧ nineSkipped.stream "a" 0 = some ⟨⟨0, 0⟩, [9], 30000, 30000, "a"⟩
      ∧ (nineSkipped.step .plain {} (.poll "a" 0 false)).2
        = .turn (some (.item heartbeatEvent
          ⟨⟨0, 0⟩, [9], 30000, 70000, "a"⟩)) := by
  have hwaits : Waits .plain {} "a" 0 30000 nineWatched nineSkipped 1 :=
    .step (.step (.step .refl (Session.goes_step .plain {} nineWatched
        (.rpc (some .anonymous) "a" (.put [1] [7] 0))) rfl)
      (Session.goes_step .plain {} _ (.tick 40000 40000)) rfl)
      (Session.goes_step .plain {} nineDue (.poll "a" 0 false))
      (by decide +kernel)
  refine ⟨hwaits, ?_, by decide +kernel⟩
  exact (heartbeat_not_starved .plain {} (.opened {})
    ⟨⟨0, 0⟩, [9], 30000, 30000, "a"⟩
    (.snoc (.nil _) (Session.goes_step .plain {} _ watchNine))
    (by decide +kernel) hwaits (by decide +kernel)).1

end FerrisKv
