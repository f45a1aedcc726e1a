/-
A watcher's copy of the keyspace.

Once a `Watch` stream is open, every change of its tenant's data is a
message on its channel (Published), and the stream passes on those under
its prefix in the order they were sent. `Trails` says how far it has come:
the messages sent since it was opened account for all that has changed, and
the events delivered are those of the first `n` of them. It is kept by
whatever happens to the node. A stream that has read everything is an exact
copy; one that has fallen behind the buffer fails with `DataLoss` at its
next receive and is over, so nothing is delivered past the gap.
-/
import FerrisKv.Proofs.Node.Published
import FerrisKv.Proofs.Node.Refusal

namespace FerrisKv

open Prog NodeService TenantChannels

-- ============================================================== the streams

/-- What an action delivers on that stream. -/
def deliveredBy (t : String) (i : Nat) : Action × Output → List WatchEvent
  | (.poll t' j _, .turn (some (.item event _))) =>
      if t' = t ∧ j = i then [event] else []
  | _ => []

/-- A turn that yields an event delivers it. -/
theorem deliveredBy_item (t : String) (i : Nat) (idleFirst : Bool)
    (event : WatchEvent) (st : WatchState) :
    deliveredBy t i (.poll t i idleFirst, .turn (some (.item event st)))
      = [event] := if_pos ⟨rfl, rfl⟩

/-- What a run delivers on it. -/
def delivered (t : String) (i : Nat) (steps : List (Action × Output)) :
    List WatchEvent := steps.flatMap (deliveredBy t i)

/-- The stored data of `t` under a prefix. -/
def viewUnder (pre : Bytes) (w : World) (t : String) (u : Bytes) :
    Option Bytes := if pre.isPrefixOf u then storedValue w t u else none

section Streams

variable {ext : Externals} {cfg : NodeConfig} {t : String} {i n : Nat}
  {s s' : Session}

-- ============================================================== subscribing

/-- Subscribing joins the tenant's channel. -/
theorem wp_subscribe_joined (t : String) (w : World) :
    wp (restless ext fun _ _ => True) (fun g rx => g.storage = w.storage
        ∧ (∀ t', t' ≠ t → g.watch.tenant t' = w.watch.tenant t')
        ∧ Joined (w.watch.tenant t) rx (g.watch.tenant t))
      (subscribe t) w := by
  have hother : ∀ (p : WatchPrim) (hub : WatchHub) (t' : String),
      p.tenant = t → t' ≠ t →
      (p.exec ext hub).2.tenant t' = hub.tenant t' := by
    intro p hub t' hp hne
    rw [tenant_exec, if_neg (by rw [hp]; exact hne.symm)]
  have hself : ∀ (p : WatchPrim) (hub : WatchHub), p.tenant = t →
      (p.exec ext hub).2.tenant t = (p.execTenant
        (ext.broadcastBuffer hub.capacity) (hub.tenant t)).2 := by
    intro p hub hp
    rw [tenant_exec, if_pos hp]
  -- `subscribe` tries the read lock first, and inserts under the write lock
  -- if that finds no channel
  refine (wp_bind _ _ _).mpr (restless_post fun now instant fault _ => ?_)
  cases hcur : (w.watch.tenant t).current with
  | some ic =>
      obtain ⟨i, c⟩ := ic
      have hexec : (WatchPrim.subscribeExisting t).execTenant
          (ext.broadcastBuffer w.watch.capacity) (w.watch.tenant t)
          = (some ⟨i, c.receivers.length⟩, { w.watch.tenant t with
              channels := (w.watch.tenant t).channels.set i c.subscribe }) := by
        simp only [WatchPrim.execTenant, hcur]
      have hans : (Prim.exec ext fault (.watch (.subscribeExisting t))
          (w.tick now instant)).1 = some ⟨i, c.receivers.length⟩ :=
        congrArg Prod.fst hexec
      rw [hans]
      refine ⟨rfl, fun t' hne => hother _ _ t' rfl hne, ?_⟩
      show Joined _ _
        (((WatchPrim.subscribeExisting t).exec ext w.watch).2.tenant t)
      rw [hself _ _ rfl, hexec]
      exact joined_current hcur
  | none =>
      have hexec : (WatchPrim.subscribeExisting t).execTenant
          (ext.broadcastBuffer w.watch.capacity) (w.watch.tenant t)
          = (none, w.watch.tenant t) := by
        simp only [WatchPrim.execTenant, hcur]
      have hans : (Prim.exec ext fault (.watch (.subscribeExisting t))
          (w.tick now instant)).1 = none := congrArg Prod.fst hexec
      have hsame : ((WatchPrim.subscribeExisting t).exec ext w.watch).2.tenant t
          = w.watch.tenant t := by
        rw [hself _ _ rfl, hexec]
      rw [hans]
      show wp _ _ (WatchPrim.subscribeOrInsert t).call
        { w.tick now instant with
          watch := ((WatchPrim.subscribeExisting t).exec ext w.watch).2 }
      generalize hhub : ((WatchPrim.subscribeExisting t).exec ext w.watch).2
        = hub at hsame
      refine restless_post fun now' instant' fault' _ => ?_
      have hins : (WatchPrim.subscribeOrInsert t).execTenant
          (ext.broadcastBuffer hub.capacity) (hub.tenant t)
          = (⟨(w.watch.tenant t).channels.length, 0⟩,
            ⟨some (w.watch.tenant t).channels.length,
              (w.watch.tenant t).channels ++ [Channel.subscribe ⟨[], []⟩]⟩) := by
        rw [hsame]
        simp only [WatchPrim.execTenant, hcur]
      refine ⟨rfl, fun t' hne => ?_, ?_⟩
      · refine (hother (.subscribeOrInsert t) hub t' rfl hne).trans ?_
        rw [← hhub]
        exact hother (.subscribeExisting t) w.watch t' rfl hne
      · show Joined _ ((WatchPrim.subscribeOrInsert t).execTenant _ _).1
          (((WatchPrim.subscribeOrInsert t).exec ext hub).2.tenant t)
        rw [hself _ _ rfl]
        show Joined _ ((WatchPrim.subscribeOrInsert t).execTenant
          (ext.broadcastBuffer hub.capacity) (hub.tenant t)).1 _
        rw [hins]
        exact joined_insert hcur

/-- What a `Watch` leaves: a stream, or nothing. -/
structure StreamOpened (t : String) (pre : Bytes) (w g : World) (st : WatchState) :
    Prop where
  valid : KeyCodec.ValidTenant t
  tenant : st.tenant = t
  keyPrefix : st.keyPrefix = pre
  stored : ∀ t', KeyCodec.ValidTenant t' → storedValue g t' = storedValue w t'
  others : ∀ t', t' ≠ t → g.watch.tenant t' = w.watch.tenant t'
  joined : Joined (w.watch.tenant t) st.rx (g.watch.tenant t)

/-- A watch request opens a stream at the end of the tenant's channel, or
changes nothing. -/
theorem wp_watchImpl_opened (principal : Option Principal) (t : String)
    (pre : Bytes) (w : World) :
    wp (restless ext fun _ _ => True)
      (onResult (fun g st => StreamOpened t pre w g st) fun g _ => Idle w g)
      (watchImpl cfg principal t pre).run w := by
  have hcheck : wp (restless ext fun _ _ => True)
      (onResult (fun g _ => Idle w g ∧ KeyCodec.ValidTenant t)
        fun g _ => Idle w g) (enter cfg principal t permWatch).run w := by
    refine (wp_bindE _ _ _).mpr ?_
    show onResult _ _ _ (checkTenant t)
    cases hc : checkTenant t with
    | error e => exact .refl w
    | ok u =>
        have hrest : (ExceptT.run (ofCheck (authorize principal t permWatch)
            >>= fun _ => admitRpc cfg t 1)).Uses Prim.Inert :=
          uses_bindE trivial fun _ => admitRpc_inert 1
        refine wp_inert hrest ?_
        rintro g (e | u) hg -
        · exact hg
        · exact ⟨hg, validTenant_of_check hc⟩
  refine (wp_bindE _ _ _).mpr (wp_mono ?_ hcheck)
  rintro g₁ (e | u) h₁
  · exact h₁
  obtain ⟨h₁, ht⟩ : Idle w g₁ ∧ KeyCodec.ValidTenant t := h₁
  refine (wp_bindE _ _ _).mpr ?_
  show onResult _ _ _ (enforceKeySize cfg pre)
  cases enforceKeySize cfg pre with
  | error e => exact h₁
  | ok u =>
      refine (wp_bindE _ _ _).mpr ((wp_lift _ _).mpr (wp_mono ?_
        (wp_subscribe_joined t g₁)))
      rintro g₂ rx ⟨hs, hothers, hjoined⟩
      refine (wp_bindE _ _ _).mpr ((wp_lift _ _).mpr ?_)
      refine restless_post fun now instant fault _ => ?_
      refine ⟨ht, rfl, rfl, fun t' ht' => ?_, fun t' hne => ?_, ?_⟩
      · refine Eq.trans ?_ (h₁.storedValue ht')
        funext u
        show storedValue g₂ t' u = _
        unfold storedValue
        rw [hs]
      · refine (hothers t' hne).trans ?_
        rw [h₁.watch]
      · rw [← h₁.watch]
        exact hjoined

-- ================================================================== polling

/-- The state is of the same subscription. -/
def SameReader (st st₀ : WatchState) : Prop :=
  st.tenant = st₀.tenant ∧ st.keyPrefix = st₀.keyPrefix ∧ st.rx = st₀.rx

/-- The state goes on, its next heartbeat put off. -/
def Beats (st : WatchState) (event : WatchEvent) (turn : StreamTurn) : Prop :=
  ∃ nextBeat, turn = .item event { st with nextBeat := nextBeat }

/-- What a turn makes of what it receives. -/
def Received (st : WatchState) (turn : StreamTurn) : RecvOutcome → Prop
  | .message change =>
      if st.keyPrefix.isPrefixOf change.key then
        Beats st (toWatchEvent change) turn
      else turn = .again
  | .lagged _ => ∃ message, turn = .failed ⟨.dataLoss, message⟩
  | .closed => turn = .ended
  | .empty => Beats st heartbeatEvent turn ∨ turn = .pending

/-- Whatever is delivered, the stream goes on with its subscription. -/
theorem sameReader_of_turn {st st' : WatchState} {event : WatchEvent}
    {out : RecvOutcome}
    (h : Beats st heartbeatEvent (.item event st')
      ∨ Received st (.item event st') out) : SameReader st' st := by
  have hbeats : ∃ e, Beats st e (.item event st') := by
    rcases h with hb | hr
    · exact ⟨_, hb⟩
    · cases out with
      | message change =>
          rw [Received] at hr
          split at hr
          · exact ⟨_, hr⟩
          · cases hr
      | lagged missed =>
          obtain ⟨m, hm⟩ := hr
          cases hm
      | closed => cases hr
      | empty =>
          rcases hr with hb | hp
          · exact ⟨_, hb⟩
          · cases hp
  obtain ⟨e, nextBeat, he⟩ := hbeats
  cases he
  exact ⟨rfl, rfl, rfl⟩

/-- Delivering an event changes no data and no channel. -/
theorem wp_deliver (st : WatchState) (event : WatchEvent) (w : World) :
    wp (restless ext fun _ _ => True) (fun g turn => g.storage = w.storage
      ∧ g.watch = w.watch ∧ Beats st event turn) (deliver st event) w :=
  restless_post fun _ _ _ _ => ⟨rfl, rfl, _, rfl⟩

/-- A turn is a heartbeat, or a receive. -/
theorem wp_watchPoll (st : WatchState) (idleFirst : Bool) (w : World) :
    wp (restless ext fun _ _ => True) (fun g turn => g.storage = w.storage
        ∧ ((g.watch = w.watch ∧ Beats st heartbeatEvent turn)
          ∨ (g.watch = ((WatchPrim.recv st.tenant st.rx).exec ext w.watch).2
            ∧ Received st turn
              ((WatchPrim.recv st.tenant st.rx).exec ext w.watch).1)))
      (watchPoll st idleFirst) w := by
  refine restless_post fun now instant fault _ => ?_
  show wp _ _ (if _ then _ else _) (w.tick now instant)
  split
  · refine wp_mono ?_ (wp_deliver st heartbeatEvent (w.tick now instant))
    rintro g turn ⟨hs, hw, hb⟩
    exact ⟨hs, .inl ⟨hw, hb⟩⟩
  · refine restless_post fun now' instant' fault' _ => ?_
    show wp _ _ (onReceived st _
      ((WatchPrim.recv st.tenant st.rx).exec ext w.watch).1)
      { (w.tick now instant).tick now' instant' with
        watch := ((WatchPrim.recv st.tenant st.rx).exec ext w.watch).2 }
    generalize ((WatchPrim.recv st.tenant st.rx).exec ext w.watch).1 = out
    cases out with
    | message change =>
        rw [onReceived]
        split
        · next hp =>
          refine wp_mono ?_ (wp_deliver st (toWatchEvent change) _)
          rintro g turn ⟨hs, hw, hb⟩
          refine ⟨hs, .inr ⟨hw, ?_⟩⟩
          rw [Received, if_pos hp]
          exact hb
        · next hp =>
          refine ⟨rfl, .inr ⟨rfl, ?_⟩⟩
          rw [Received, if_neg hp]
    | lagged missed => exact ⟨rfl, .inr ⟨rfl, _, rfl⟩⟩
    | closed => exact ⟨rfl, .inr ⟨rfl, rfl⟩⟩
    | empty =>
        rw [onReceived]
        split
        · refine wp_mono ?_ (wp_deliver st heartbeatEvent _)
          rintro g turn ⟨hs, hw, hb⟩
          exact ⟨hs, .inr ⟨hw, .inl hb⟩⟩
        · exact ⟨rfl, .inr ⟨rfl, .inr rfl⟩⟩

-- ============================================================ every stream

/-- One stream goes on or ends. -/
theorem stream_set {t' : String} {j : Nat} {st₀ : WatchState}
    (hj : s.stream t' j = some st₀) (o : Option WatchState) (t : String)
    (i : Nat) :
    (s.setStreams t' ((s.streams t').set j o)).stream t i
      = if t = t' ∧ i = j then o else s.stream t i := by
  rw [Session.stream_setStreams]
  by_cases ht : t = t'
  · subst ht
    have hlt : j < (s.streams t).length := by
      by_contra hge
      rw [Session.stream, List.getElem?_eq_none (by omega)] at hj
      cases hj
    by_cases hi : i = j
    · subst hi
      rw [if_pos rfl, if_pos ⟨rfl, rfl⟩, List.getElem?_set_self hlt]
      rfl
    · rw [if_pos rfl, if_neg fun h => hi h.2,
        List.getElem?_set_ne fun h => hi h.symm]
      rfl
  · rw [if_neg ht, if_neg fun h => ht h.1]

/-- A closed stream keeps its place. -/
theorem length_set (t' : String) (j : Nat) (o : Option WatchState)
    (t : String) :
    ((s.setStreams t' ((s.streams t').set j o)).streams t).length
      = (s.streams t).length := by
  rw [Session.streams_setStreams]
  split
  · next h => rw [h, List.length_set]
  · rfl

/-- Streams go on with their subscription, end, or are opened in the next
place. -/
def StreamsFrom (s s' : Session) : Prop :=
  ∀ t j, (s.streams t).length ≤ (s'.streams t).length
    ∧ ∀ st, s'.stream t j = some st →
      (∃ st₀, s.stream t j = some st₀ ∧ SameReader st st₀)
        ∨ (j = (s.streams t).length
          ∧ ∃ pre, StreamOpened t pre s.world s'.world st)

/-- A step elsewhere leaves the streams. -/
theorem streamsFrom_same {w : World} : StreamsFrom s { s with world := w } :=
  fun _ _ => ⟨le_rfl, fun st hst => .inl ⟨st, hst, rfl, rfl, rfl⟩⟩

/-- A stream's own turn leaves the others. -/
theorem streamsFrom_set {t' : String} {j : Nat} {st₀ : WatchState}
    {o : Option WatchState} {w : World} (hj : s.stream t' j = some st₀)
    (ho : ∀ st ∈ o, SameReader st st₀) :
    StreamsFrom s ({ s with world := w }.setStreams t'
      ((s.streams t').set j o)) := by
  refine fun t k => ⟨(length_set (s := { s with world := w }) t' j o t).ge,
    fun st hst => .inl ?_⟩
  have hst := (stream_set (s := { s with world := w }) hj o t k).symm.trans hst
  split at hst
  · next heq =>
      rw [heq.1, heq.2]
      exact ⟨st₀, hj, ho st hst⟩
  · exact ⟨st, hst, rfl, rfl, rfl⟩

/-- A new stream comes behind the others. -/
theorem streamsFrom_opened {t' : String} {pre' : Bytes} {w : World}
    {st : WatchState} (hopened : StreamOpened t' pre' s.world w st) :
    StreamsFrom s
      ({ s with world := w }.setStreams t' (s.streams t' ++ [some st])) := by
  intro t k
  rw [Session.streams_setStreams, Session.stream_setStreams]
  by_cases ht : t = t'
  · subst ht
    rw [if_pos rfl, if_pos rfl]
    refine ⟨?_, fun st' hst' => ?_⟩
    · rw [List.length_append]
      exact Nat.le_add_right _ _
    rcases lt_trichotomy k (s.streams t).length with hk | hk | hk
    · rw [List.getElem?_append_left hk] at hst'
      exact .inl ⟨st', hst', rfl, rfl, rfl⟩
    · rw [hk, List.getElem?_concat_length] at hst'
      cases hst'
      exact .inr ⟨hk, pre', hopened⟩
    · rw [List.getElem?_eq_none (by rw [List.length_append]; exact hk)] at hst'
      cases hst'
  · rw [if_neg ht, if_neg ht]
    exact ⟨le_rfl, fun st' hst' => .inl ⟨st', hst', rfl, rfl, rfl⟩⟩

/-- Whatever its turn is, the stream keeps its reader. -/
private theorem streamsFrom_turned {t' : String} {j : Nat} {st₀ : WatchState}
    {turn : StreamTurn} {w : World} {out : RecvOutcome}
    (hj : s.stream t' j = some st₀)
    (hturn : Beats st₀ heartbeatEvent turn ∨ Received st₀ turn out) :
    StreamsFrom s ({ s with world := w }.turned ext t' j st₀ turn) := by
  cases turn with
  | item event st =>
      refine streamsFrom_set hj ?_
      rintro _ ⟨⟩
      exact sameReader_of_turn hturn
  | failed status => exact streamsFrom_set hj fun _ h => nomatch h
  | ended => exact streamsFrom_set hj fun _ h => nomatch h
  | again => exact streamsFrom_same
  | pending => exact streamsFrom_same

/-- So it is with every action of a session. -/
theorem goes_streams {a : Action} {out : Output}
    (hgo : Session.Goes ext cfg s a out s') : StreamsFrom s s' := by
  cases hgo with
  | @rpc principal tenant req r w hserved =>
      cases req with
      | watch pre' =>
          obtain ⟨res, hres, rfl⟩ := hserved.of_map
          have hpost := hres.post (wp_watchImpl_opened principal tenant pre' _)
          cases res with
          | error e => exact streamsFrom_same
          | ok st => exact streamsFrom_opened hpost
      | _ =>
          obtain ⟨res, -, rfl⟩ := hserved.of_map
          exact streamsFrom_same
  | pollNone hs => exact streamsFrom_same
  | @poll tenant j idleFirst st turn w hs hserved =>
      obtain ⟨-, hturn⟩ := hserved.post (wp_watchPoll st idleFirst _)
      exact streamsFrom_turned hs (hturn.imp And.right And.right)
  | hangUpNone hs => exact streamsFrom_same
  | hangUp hs => exact streamsFrom_set hs fun _ h => nomatch h
  | setQuota hserved => exact streamsFrom_same
  | clearQuota hserved => exact streamsFrom_same
  | sweep hserved => exact streamsFrom_same
  | tick => exact streamsFrom_same

/-- A stream that has ended stays so. -/
theorem closed_step {a : Action} {out : Output}
    (hplace : i < (s.streams t).length) (hgone : s.stream t i = none)
    (hgo : Session.Goes ext cfg s a out s') :
    i < (s'.streams t).length ∧ s'.stream t i = none
      ∧ deliveredBy t i (a, out) = [] := by
  obtain ⟨hlen, hstreams⟩ := goes_streams hgo t i
  refine ⟨Nat.lt_of_lt_of_le hplace hlen, ?_, ?_⟩
  · by_contra hne
    obtain ⟨st, hst⟩ := Option.ne_none_iff_exists'.mp hne
    rcases hstreams st hst with ⟨st₀, hst₀, -⟩ | ⟨hi, -⟩
    · rw [hgone] at hst₀
      cases hst₀
    · omega
  · cases hgo with
    | @poll tenant j idleFirst st turn w hs hserved =>
        cases turn with
        | item event st' =>
            refine if_neg ?_
            rintro ⟨rfl, rfl⟩
            rw [hgone] at hs
            cases hs
        | _ => rfl
    | _ => rfl

/-- A closed stream delivers nothing more. -/
private theorem closed_runs {steps : List (Action × Output)}
    (hplace : i < (s.streams t).length) (hgone : s.stream t i = none)
    (hrun : Session.Runs ext cfg s steps s') :
    i < (s'.streams t).length ∧ s'.stream t i = none
      ∧ delivered t i steps = [] := by
  induction hrun with
  | nil => exact ⟨hplace, hgone, rfl⟩
  | snoc hr hgo ih =>
      obtain ⟨hplace', hgone', hnone⟩ := ih
      obtain ⟨hplace'', hgone'', hnone'⟩ := closed_step hplace' hgone' hgo
      refine ⟨hplace'', hgone'', ?_⟩
      rw [delivered, List.flatMap_append, List.flatMap_singleton]
      exact List.append_eq_nil_iff.mpr ⟨hnone, hnone'⟩

-- ================================================================ the names

/-- Receivers keep their names. -/
def KeepsNames (w g : World) : Prop :=
  ∀ t rx, ((w.watch.tenant t).receiver rx).isSome →
    ((g.watch.tenant t).receiver rx).isSome

/-- No step brings a tenant into being whose name is not valid. -/
private theorem keepsNames_exec (p : Prim) (fault : Option Fault) (w : World) :
    KeepsNames w (p.exec ext fault w).2 := by
  intro t rx h
  cases p with
  | watch q =>
      show ((((q.exec ext w.watch).2).tenant t).receiver rx).isSome
      rw [tenant_exec]
      split
      · exact receiver_exec q _ h
      · exact h
  | _ => exact h

theorem served_keepsNames {α : Type} {x : NodeProg α} {w w' : World} {a : α}
    (h : Session.Served ext x w a w') : KeepsNames w w' := by
  refine h.post (wp_of_yields (I := KeepsNames w) ?_ (fun _ _ hg _ => hg)
    (yields_any x) fun _ _ h => h)
  intro g p hg _
  exact restless_post fun now instant fault _ t rx h =>
    keepsNames_exec p fault (g.tick now instant) t rx (hg t rx h)

/-- The open streams name receivers. -/
def Named (s : Session) : Prop :=
  ∀ t j st, s.stream t j = some st →
    ((s.world.watch.tenant st.tenant).receiver st.rx).isSome

/-- No action does. -/
private theorem goes_keepsNames {a : Action} {out : Output}
    (hgo : Session.Goes ext cfg s a out s') :
    KeepsNames s.world s'.world := by
  have hdrop : ∀ (s : Session) (t : String) (j : Nat) (st : WatchState),
      KeepsNames s.world (s.dropStream ext t j st).world := fun s _ _ st =>
    keepsNames_exec (.watch (.drop st.tenant st.rx)) none s.world
  cases hgo with
  | @rpc principal tenant req r w hserved =>
      have hkeeps := served_keepsNames hserved
      have hworld : (Session.opened { s with world := w } tenant r).world
          = w := by
        unfold Session.opened
        split <;> rfl
      rw [hworld]
      exact hkeeps
  | pollNone hs => exact fun _ _ h => h
  | @poll tenant j idleFirst st turn w hs hserved =>
      have hkeeps := served_keepsNames hserved
      cases turn with
      | failed status =>
          exact fun t rx h => hdrop { s with world := w } tenant j st t rx
            (hkeeps t rx h)
      | ended =>
          exact fun t rx h => hdrop { s with world := w } tenant j st t rx
            (hkeeps t rx h)
      | _ => exact hkeeps
  | hangUpNone hs => exact fun _ _ h => h
  | hangUp hs => exact hdrop s _ _ _
  | setQuota hserved => exact served_keepsNames hserved
  | clearQuota hserved => exact served_keepsNames hserved
  | sweep hserved => exact served_keepsNames hserved
  | tick => exact fun _ _ h => h

theorem Named.step {a : Action} {out : Output} (h : Named s)
    (hgo : Session.Goes ext cfg s a out s') : Named s' := by
  intro t j st hst
  rcases (goes_streams hgo t j).2 st hst with
    ⟨st₀, hst₀, htenant, -, hrx⟩ | ⟨-, pre, hopened⟩
  · rw [htenant, hrx]
    exact goes_keepsNames hgo _ _ (h t j st₀ hst₀)
  · obtain ⟨start, -, -, hr⟩ := hopened.joined.begins
    rw [hopened.tenant, hr]
    rfl

/-- The open streams name receivers throughout a session. -/
theorem Named.runs {steps : List (Action × Output)} (h : Named s)
    (hrun : Session.Runs ext cfg s steps s') : Named s' := by
  induction hrun with
  | nil => exact h
  | snoc hr hgo ih => exact ih.step hgo

end Streams

-- ================================================================ following

/-- The stream at `(t, i)` has been sent `sent` since the world was `w₀`,
and has read `n` of it. -/
structure Trails (t : String) (i : Nat) (pre : Bytes) (rx : Rx)
    (start : Nat) (w₀ : World) (events : List WatchEvent)
    (sent : List KeyChange) (n : Nat) (s : Session) : Prop where
  place : i < (s.streams t).length
  stored : storedValue s.world t
    = (sent.map toWatchEvent).foldl applyEvent (storedValue w₀ t)
  events : events.filter (fun e => e.kind ≠ .heartbeat)
    = ((sent.take n).filter fun c => pre.isPrefixOf c.key).map toWatchEvent
  within : n ≤ sent.length
  state : ∀ st, s.stream t i = some st →
    st.tenant = t ∧ st.keyPrefix = pre ∧ st.rx = rx
  reading : s.stream t i ≠ none →
    (s.world.watch.tenant t).Listening rx start
      ∧ (s.world.watch.tenant t).sentSince rx start = sent
      ∧ ∃ r, (s.world.watch.tenant t).receiver rx = some r
        ∧ r.next = start + n
  alone : s.stream t i ≠ none → ∀ t' j st, (t', j) ≠ (t, i) →
    s.stream t' j = some st → st.tenant = t → st.rx ≠ rx

section Following

variable {ext : Externals} {cfg : NodeConfig} {t : String} {i n : Nat}
  {pre : Bytes} {rx : Rx} {start : Nat} {w₀ : World}
  {events : List WatchEvent} {sent : List KeyChange} {s s' : Session}

/-- Messages are sent, and they are the changes. -/
theorem Trails.told {w : World}
    (h : Trails t i pre rx start w₀ events sent n s)
    (ht : KeyCodec.ValidTenant t) (hw : Tells s.world w) :
    ∃ sent', Trails t i pre rx start w₀ events sent' n
      { s with world := w } := by
  obtain ⟨ms, htold, hstored⟩ := hw
  refine ⟨sent ++ heardBy t ms, h.place, ?_, ?_, ?_, h.state, fun hs => ?_,
    h.alone⟩
  · show storedValue w t = _
    rw [hstored t ht, h.stored, List.map_append, List.foldl_append]
  · rw [List.take_append_of_le_length h.within]
    exact h.events
  · rw [List.length_append]
    exact Nat.le_add_right_of_le h.within
  · obtain ⟨hl, hsent, r, hr, hn⟩ := h.reading hs
    obtain ⟨hl', hsent', hr'⟩ := htold t rx start hl
    exact ⟨hl', by rw [hsent', hsent], r, hr'.trans hr, hn⟩

/-- Data and the reader's channel are as they were, and the streams have
moved on. -/
theorem Trails.moved (h : Trails t i pre rx start w₀ events sent n s)
    (hfrom : StreamsFrom s s')
    (hstored : storedValue s'.world t = storedValue s.world t)
    (hw : s'.stream t i ≠ none → (s.world.watch.tenant t).Listening rx start →
      (s'.world.watch.tenant t).Listening rx start
        ∧ (s'.world.watch.tenant t).sentSince rx start
          = (s.world.watch.tenant t).sentSince rx start
        ∧ (s'.world.watch.tenant t).receiver rx
          = (s.world.watch.tenant t).receiver rx) :
    Trails t i pre rx start w₀ events sent n s' := by
  have hplace := h.place
  have hown : ∀ st, s'.stream t i = some st →
      ∃ st₀, s.stream t i = some st₀ ∧ SameReader st st₀ := fun st hst =>
    ((hfrom t i).2 st hst).resolve_right fun hnew => by omega
  have hopen : s'.stream t i ≠ none → s.stream t i ≠ none := by
    intro hs
    obtain ⟨st, hst⟩ := Option.ne_none_iff_exists'.mp hs
    obtain ⟨st₀, hst₀, -⟩ := hown st hst
    rw [hst₀]
    exact nofun
  refine ⟨Nat.lt_of_lt_of_le hplace (hfrom t i).1, hstored.trans h.stored,
    h.events, h.within, fun st hst => ?_, fun hs => ?_,
    fun hs t' j st hne hst htenant => ?_⟩
  · obtain ⟨st₀, hst₀, htenant, hpre, hrx⟩ := hown st hst
    rw [htenant, hpre, hrx]
    exact h.state st₀ hst₀
  · obtain ⟨hl, hsent, r, hr, hn⟩ := h.reading (hopen hs)
    obtain ⟨hl', hsent', hr'⟩ := hw hs hl
    exact ⟨hl', hsent'.trans hsent, r, hr'.trans hr, hn⟩
  · rcases (hfrom t' j).2 st hst with ⟨st₀, hst₀, ht₀, -, hrx₀⟩ | ⟨-, pre', hnew⟩
    · rw [hrx₀]
      exact h.alone (hopen hs) t' j st₀ hne hst₀ (ht₀.symm.trans htenant)
    · -- a new subscription has a receiver of its own
      intro hrx
      obtain ⟨-, -, r, hr, -⟩ := h.reading (hopen hs)
      have hfresh := hnew.joined.fresh
      rw [← hnew.tenant, htenant, hrx, hr] at hfresh
      cases hfresh

/-- A receiver is dropped, and its stream with it. -/
theorem Trails.drop {t' : String} {j : Nat} {st₀ : WatchState}
    (h : Trails t i pre rx start w₀ events sent n s)
    (hj : s.stream t' j = some st₀) :
    Trails t i pre rx start w₀ events sent n
      (s.dropStream ext t' j st₀) := by
  refine h.moved (streamsFrom_set hj fun _ hst => nomatch hst) rfl
    fun hopen hl => ?_
  -- the followed stream is still open, so it is another one that ends
  have hopen := (stream_set (s := { s with world := _ }) hj none t
    i).symm.trans_ne hopen
  have htc : (s.dropStream ext t' j st₀).world.watch.tenant t = _ :=
    tenant_exec (p := .drop st₀.tenant st₀.rx) t
  rw [htc]
  split at hopen
  · exact absurd rfl hopen
  · next hne =>
      split
      · next htenant =>
          have hrx : st₀.rx ≠ rx := h.alone hopen t' j st₀
            (fun he => hne ⟨(congrArg Prod.fst he).symm,
              (congrArg Prod.snd he).symm⟩) hj htenant
          exact Listening.drop_other hl hrx _
      · exact ⟨hl, rfl, rfl⟩

/-- Another stream has its turn. -/
theorem Trails.turned_other {t' : String} {j : Nat} {st₀ : WatchState}
    {turn : StreamTurn} {w : World}
    (h : Trails t i pre rx start w₀ events sent n s)
    (hne : (t', j) ≠ (t, i)) (hj : s.stream t' j = some st₀)
    (hs : w.storage = s.world.storage)
    (hturn : (w.watch = s.world.watch ∧ Beats st₀ heartbeatEvent turn)
      ∨ (w.watch = ((WatchPrim.recv st₀.tenant st₀.rx).exec ext
          s.world.watch).2
        ∧ Received st₀ turn
          ((WatchPrim.recv st₀.tenant st₀.rx).exec ext s.world.watch).1)) :
    Trails t i pre rx start w₀ events sent n
      ({ s with world := w }.turned ext t' j st₀ turn) := by
  have hworld : Trails t i pre rx start w₀ events sent n
      { s with world := w } := by
    refine h.moved streamsFrom_same (by unfold storedValue; rw [hs])
      fun hopen hl => ?_
    rcases hturn with ⟨hw, -⟩ | ⟨hw, -⟩
    · rw [hw]
      exact ⟨hl, rfl, rfl⟩
    · rw [hw, tenant_exec]
      split
      · next htenant =>
          exact hl.recv_other (h.alone hopen t' j st₀ hne hj htenant) _
      · exact ⟨hl, rfl, rfl⟩
  cases turn with
  | item event st =>
      refine hworld.moved (streamsFrom_set hj ?_) rfl
        fun _ hl => ⟨hl, rfl, rfl⟩
      rintro _ ⟨⟩
      exact sameReader_of_turn (hturn.imp And.right And.right)
  | failed status => exact hworld.drop hj
  | ended => exact hworld.drop hj
  | again => exact hworld
  | pending => exact hworld

-- ========================================================== the stream's own

/-- Heartbeats are ignored. -/
theorem Trails.beat (h : Trails t i pre rx start w₀ events sent n s) :
    Trails t i pre rx start w₀ (events ++ [heartbeatEvent]) sent n s := by
  refine { h with events := ?_ }
  rw [List.filter_append, h.events]
  exact List.append_nil _

/-- The next message is read, and passed on if it is under the prefix. -/
theorem Trails.read {change : KeyChange} {w : World}
    (h : Trails t i pre rx start w₀ events sent n s)
    (hs : w.storage = s.world.storage) (hnext : sent[n]? = some change)
    (hl : (w.watch.tenant t).Listening rx start)
    (hsent : (w.watch.tenant t).sentSince rx start = sent)
    (hr : ∃ r, (w.watch.tenant t).receiver rx = some r
      ∧ r.next = start + (n + 1)) :
    Trails t i pre rx start w₀
      (events ++ if pre.isPrefixOf change.key then [toWatchEvent change]
        else []) sent (n + 1) { s with world := w } := by
  have hstored : storedValue w t = storedValue s.world t := by
    unfold storedValue
    rw [hs]
  refine ⟨h.place, hstored.trans h.stored, ?_,
    (List.getElem?_eq_some_iff.mp hnext).1, h.state, fun _ => ⟨hl, hsent, hr⟩,
    h.alone⟩
  have hkind : (toWatchEvent change).kind ≠ .heartbeat := by
    obtain ⟨kind, key, value⟩ := change
    cases kind <;> exact nofun
  rw [List.filter_append, h.events, List.take_add_one, hnext,
    List.filter_append, List.map_append]
  refine congrArg _ ?_
  by_cases hp : pre.isPrefixOf change.key = true
  · simp [hp, hkind]
  · simp [hp]

/-- A stream that has ended is told nothing more. -/
theorem Trails.closed (h : Trails t i pre rx start w₀ events sent n s)
    (hplace : (s.streams t).length ≤ (s'.streams t).length)
    (hstored : storedValue s'.world t = storedValue s.world t)
    (hgone : s'.stream t i = none) :
    Trails t i pre rx start w₀ events sent n s' where
  place := Nat.lt_of_lt_of_le h.place hplace
  stored := hstored.trans h.stored
  events := h.events
  within := h.within
  state st hst := by rw [hgone] at hst; cases hst
  reading hs := absurd hgone hs
  alone hs := absurd hgone hs

/-- A dropped stream is gone. -/
theorem dropStream_gone {w : World} {st : WatchState}
    (hst : s.stream t i = some st) :
    Session.stream ({ s with world := w }.dropStream ext t i st) t i = none :=
  (stream_set (s := { s with world := w }) hst none t i).trans
    (if_pos ⟨rfl, rfl⟩)

/-- What the stream's turns come to. -/
inductive OwnTurn (pre : Bytes) (sent : List KeyChange) (n buffer : Nat) :
    StreamTurn → Prop where
  | beat (st : WatchState) : OwnTurn pre sent n buffer (.item heartbeatEvent st)
  | event {change : KeyChange} (st : WatchState)
      (hbuffer : (sent.drop n).length ≤ buffer)
      (hnext : sent[n]? = some change)
      (hp : pre.isPrefixOf change.key = true) :
      OwnTurn pre sent n buffer (.item (toWatchEvent change) st)
  | again (hbuffer : (sent.drop n).length ≤ buffer) :
      OwnTurn pre sent n buffer .again
  | pending (hbuffer : (sent.drop n).length ≤ buffer) :
      OwnTurn pre sent n buffer .pending
  | lost (message : String) (hbuffer : buffer < (sent.drop n).length) :
      OwnTurn pre sent n buffer (.failed ⟨.dataLoss, message⟩)

/-- The stream has its turn. -/
theorem Trails.turned_own {st : WatchState} {turn : StreamTurn} {w : World}
    (h : Trails t i pre rx start w₀ events sent n s)
    (hst : s.stream t i = some st) (hs : w.storage = s.world.storage)
    (hturn : (w.watch = s.world.watch ∧ Beats st heartbeatEvent turn)
      ∨ (w.watch = ((WatchPrim.recv st.tenant st.rx).exec ext
          s.world.watch).2
        ∧ Received st turn
          ((WatchPrim.recv st.tenant st.rx).exec ext s.world.watch).1))
    (idleFirst : Bool) :
    OwnTurn pre sent n (ext.broadcastBuffer s.world.watch.capacity) turn
      ∧ ∃ n', Trails t i pre rx start w₀
        (events ++ deliveredBy t i
          (.poll t i idleFirst, .turn (some turn))) sent n'
        ({ s with world := w }.turned ext t i st turn) := by
  -- a turn is a heartbeat or a receive; only a receive can move the reader or
  -- close the stream
  have hopen : s.stream t i ≠ none := by
    rw [hst]
    exact nofun
  have hstored : storedValue w t = storedValue s.world t := by
    unfold storedValue
    rw [hs]
  obtain ⟨htenant, hpre, hrx⟩ := h.state st hst
  obtain ⟨hl, hsent, r, hr, hn⟩ := h.reading hopen
  have hgoes : ∀ {events' : List WatchEvent} {n' nextBeat : Nat},
      Trails t i pre rx start w₀ events' sent n' { s with world := w } →
      Trails t i pre rx start w₀ events' sent n'
        ({ s with world := w }.setStreams t ((s.streams t).set i
          (some { st with nextBeat := nextBeat }))) := by
    intro events' n' nextBeat hf
    refine hf.moved (streamsFrom_set hst ?_) rfl fun _ hl => ⟨hl, rfl, rfl⟩
    rintro _ ⟨⟩
    exact ⟨rfl, rfl, rfl⟩
  rcases hturn with ⟨hw, nextBeat, rfl⟩ | ⟨hw, hrecv⟩
  · refine ⟨.beat _, n, ?_⟩
    rw [deliveredBy_item]
    refine hgoes (Trails.beat (h.moved streamsFrom_same hstored fun _ hl' => ?_))
    rw [hw]
    exact ⟨hl', rfl, rfl⟩
  · rw [htenant, hrx] at hw hrecv
    obtain ⟨⟨out, tc'⟩, hout⟩ : ∃ o, (WatchPrim.recv t rx).execTenant
        (ext.broadcastBuffer s.world.watch.capacity)
        (s.world.watch.tenant t) = o := ⟨_, rfl⟩
    have hhub : w.watch.tenant t = tc' := by
      rw [hw, tenant_exec]
      exact (if_pos rfl).trans (congrArg Prod.snd hout)
    have hans : ((WatchPrim.recv t rx).exec ext s.world.watch).1 = out :=
      congrArg Prod.fst hout
    rw [hans] at hrecv
    rw [← hhub] at hout
    rcases hl.recv_self hr hn hsent hout with
      ⟨hlag, missed, rfl⟩ | ⟨hbuffer, hl', hsent', hread⟩
    · -- behind the buffer: an error, and the stream is dropped
      obtain ⟨message, rfl⟩ := hrecv
      refine ⟨.lost message hlag, n, ?_⟩
      rw [show deliveredBy t i (.poll t i idleFirst, .turn (some
        (.failed ⟨.dataLoss, message⟩))) = [] from rfl, List.append_nil]
      exact h.closed (length_set t i none t).ge hstored (dropStream_gone hst)
    rcases hread with ⟨change, hnext, rfl, hr'⟩ | ⟨rfl, hr'⟩
    -- a change was read; it is delivered if it is under the prefix, and
    -- passed over if not
    · have hf := h.read hs hnext hl' hsent' hr'
      rw [Received, hpre] at hrecv
      split at hrecv
      · next hp =>
          obtain ⟨nextBeat, rfl⟩ := hrecv
          refine ⟨.event _ hbuffer hnext hp, n + 1, ?_⟩
          rw [deliveredBy_item]
          rw [if_pos hp] at hf
          exact hgoes hf
      · next hp =>
          subst hrecv
          refine ⟨.again hbuffer, n + 1, ?_⟩
          rw [if_neg hp] at hf
          exact hf
    -- nothing was there to read
    · have hf : Trails t i pre rx start w₀ events sent n
          { s with world := w } := by
        refine h.moved streamsFrom_same hstored fun _ _ => ⟨hl', ?_, ?_⟩
        · rw [hsent', hsent]
        · rw [hr', hr]
      rcases hrecv with ⟨nextBeat, rfl⟩ | rfl
      · refine ⟨.beat _, n, ?_⟩
        rw [deliveredBy_item]
        exact hgoes hf.beat
      · refine ⟨.pending hbuffer, n, ?_⟩
        rw [show deliveredBy t i (.poll t i idleFirst, .turn (some .pending))
          = [] from rfl, List.append_nil]
        exact hf

-- ============================================================== whole runs

/-- Another stream is opened. -/
theorem Trails.opened {t' : String} {pre' : Bytes} {w : World}
    {st : WatchState} (h : Trails t i pre rx start w₀ events sent n s)
    (ht : KeyCodec.ValidTenant t) (hopened : StreamOpened t' pre' s.world w st) :
    Trails t i pre rx start w₀ events sent n
      ({ s with world := w }.setStreams t' (s.streams t' ++ [some st])) := by
  refine h.moved (streamsFrom_opened hopened) (hopened.stored t ht)
    fun _ hl => ?_
  by_cases htt : t = t'
  · subst htt
    exact hopened.joined.others rx start hl
  · have htc : (Session.setStreams { s with world := w } t'
        (s.streams t' ++ [some st])).world.watch.tenant t
        = s.world.watch.tenant t := hopened.others t htt
    rw [htc]
    exact ⟨hl, rfl, rfl⟩

/-- Whatever happens, the stream follows. -/
theorem Trails.step {a : Action} {out : Output}
    (h : Trails t i pre rx start w₀ events sent n s)
    (ht : KeyCodec.ValidTenant t) (hgo : Session.Goes ext cfg s a out s') :
    ∃ sent' n', Trails t i pre rx start w₀
      (events ++ deliveredBy t i (a, out)) sent' n' s' := by
  have hquiet : ∀ {w : World}, Tells s.world w → deliveredBy t i (a, out) = [] →
      ∃ sent' n', Trails t i pre rx start w₀
        (events ++ deliveredBy t i (a, out)) sent' n' { s with world := w } := by
    intro w hw hnone
    obtain ⟨sent', hf⟩ := h.told ht hw
    rw [hnone, List.append_nil]
    exact ⟨sent', n, hf⟩
  have hsame : deliveredBy t i (a, out) = [] →
      Trails t i pre rx start w₀ events sent n s' →
      ∃ sent' n', Trails t i pre rx start w₀
        (events ++ deliveredBy t i (a, out)) sent' n' s' := by
    intro hnone hf
    rw [hnone, List.append_nil]
    exact ⟨sent, n, hf⟩
  cases hgo with
  | @rpc principal tenant req r w hserved =>
      cases req with
      | watch pre' =>
          -- another watch of the tenant joins the channel and leaves this
          -- stream where it is
          obtain ⟨res, hres, rfl⟩ := hserved.of_map
          have hpost := hres.post (wp_watchImpl_opened principal tenant pre' _)
          cases res with
          | error e => exact hquiet (Idle.tells hpost) rfl
          | ok st => exact hsame rfl (h.opened ht hpost)
      | _ =>
          have htells : Tells s.world w :=
            hserved.post (request_tells principal _ (by exact nofun) _)
          obtain ⟨res, -, rfl⟩ := hserved.of_map
          exact hquiet htells rfl
  | pollNone hs => exact hsame rfl h
  | @poll tenant j idleFirst st turn w hs hserved =>
      obtain ⟨hstorage, hturn⟩ := hserved.post (wp_watchPoll st idleFirst _)
      -- only this stream's own turns deliver to it
      by_cases hown : (tenant, j) = (t, i)
      · cases hown
        obtain ⟨-, n', hf⟩ := h.turned_own hs hstorage hturn idleFirst
        exact ⟨sent, n', hf⟩
      · refine hsame ?_ (h.turned_other hown hs hstorage hturn)
        cases turn with
        | item event st' =>
            exact if_neg fun he => hown (by rw [he.1, he.2])
        | _ => rfl
  | hangUpNone hs => exact hsame rfl h
  | hangUp hs => exact hsame rfl (h.drop hs)
  | setQuota hserved =>
      exact hquiet (hserved.post (tellsAll_inert
        (adminSetQuota_inert _ _) _)) rfl
  | clearQuota hserved =>
      exact hquiet (hserved.post (tellsAll_inert adminClearQuota_inert _)) rfl
  | sweep hserved => exact hquiet (hserved.post (sweepOnce_tells _)) rfl
  | tick => exact hquiet (idle_tick _ _ _).tells rfl

/-- Over any run a stream trails the channel by what it has not been asked
for. -/
theorem Trails.runs {steps : List (Action × Output)}
    (hrun : Session.Runs ext cfg s steps s')
    (h : Trails t i pre rx start w₀ [] [] 0 s)
    (ht : KeyCodec.ValidTenant t) :
    ∃ sent n, Trails t i pre rx start w₀ (delivered t i steps) sent n s' := by
  induction hrun with
  | nil => exact ⟨[], 0, h⟩
  | snoc hr hgo ih =>
      obtain ⟨sent, n, hf⟩ := ih
      obtain ⟨sent', n', hf'⟩ := hf.step ht hgo
      refine ⟨sent', n', ?_⟩
      rw [delivered, List.flatMap_append, List.flatMap_singleton]
      exact hf'

/-- A new stream follows from where it was opened. -/
theorem trails_opened {principal : Option Principal} {st : WatchState}
    (hnamed : Named s)
    (hgo : Session.Goes ext cfg s (.rpc principal t (.watch pre))
      (.response (.watching (.ok st))) s') :
    KeyCodec.ValidTenant t ∧ ∃ start, Trails t (s.streams t).length pre st.rx
      start s'.world [] [] 0 s' := by
  cases hgo with
  | @rpc _ _ _ _ w hserved =>
      obtain ⟨res, hres, hok⟩ := hserved.of_map
      cases hok
      have hopened : StreamOpened t pre s.world w st :=
        hres.post (wp_watchImpl_opened principal t pre _)
      obtain ⟨start, hl, hsent, hr⟩ := hopened.joined.begins
      have hnew : Session.stream ({ s with world := w }.setStreams t
          (s.streams t ++ [some st])) t (s.streams t).length = some st := by
        rw [Session.stream_setStreams, if_pos rfl, List.getElem?_concat_length]
        rfl
      refine ⟨hopened.valid, start, ?_, rfl, rfl, le_rfl, fun st' hst' => ?_,
        fun _ => ⟨hl, hsent, _, hr, rfl⟩, fun _ t' j st' hne hst' htenant => ?_⟩
      · show (s.streams t).length < (Session.streams _ t).length
        rw [Session.opened, Session.streams_setStreams, if_pos rfl,
          List.length_append]
        exact Nat.lt_succ_self _
      · cases hnew.symm.trans hst'
        exact ⟨hopened.tenant, hopened.keyPrefix, rfl⟩
      · rcases (streamsFrom_opened hopened t' j).2 st' hst' with
          ⟨st₀, hst₀, ht₀, -, hrx₀⟩ | ⟨hj, pre', hnew'⟩
        · -- an older stream has a receiver already
          intro hrx
          have hsome := hnamed t' j st₀ hst₀
          rw [← ht₀, ← hrx₀, htenant, hrx, hopened.joined.fresh] at hsome
          cases hsome
        · refine absurd ?_ hne
          rw [hnew'.tenant] at htenant
          rw [htenant] at hj
          rw [hj, htenant]

/-- What a reader has left to read. -/
theorem Trails.pending (h : Trails t i pre rx start w₀ events sent n s)
    {st : WatchState} (hst : s.stream t i = some st) :
    (s.world.watch.tenant t).pending st.rx = sent.drop n := by
  obtain ⟨-, -, hrx⟩ := h.state st hst
  obtain ⟨hl, hsent, r, hr, hn⟩ := h.reading (by rw [hst]; exact nofun)
  obtain ⟨c, hc, -, -⟩ := hl.channel
  rw [receiver_eq hc] at hr
  rw [hrx, pending_eq hc hr, hn]
  simp only [sentSince, hc] at hsent
  rw [← hsent, List.drop_drop]

/-- Folding the events under a prefix over what is under it. -/
theorem foldl_under (pre : Bytes) :
    ∀ (sent : List KeyChange) (view : Bytes → Option Bytes),
      ((sent.filter fun c => pre.isPrefixOf c.key).map toWatchEvent).foldl
          applyEvent (fun u => if pre.isPrefixOf u then view u else none)
        = fun u => if pre.isPrefixOf u then
            (sent.map toWatchEvent).foldl applyEvent view u else none := by
  intro sent
  induction sent with
  | nil => exact fun view => rfl
  | cons change rest ih =>
      intro view
      rw [List.map_cons, List.foldl_cons, ← ih]
      by_cases hp : pre.isPrefixOf change.key = true
      · rw [List.filter_cons, if_pos hp, List.map_cons, List.foldl_cons]
        refine congrArg (fun v => List.foldl applyEvent v _) ?_
        funext u
        simp only [applyEvent_toWatchEvent]
        by_cases hu : u = change.key
        · rw [hu, if_pos rfl, if_pos hp, if_pos rfl]
        · rw [if_neg hu, if_neg hu]
      · rw [List.filter_cons, if_neg hp]
        refine congrArg (fun v => List.foldl applyEvent v _) ?_
        funext u
        simp only [applyEvent_toWatchEvent]
        by_cases hu : u = change.key
        · rw [hu, if_neg hp, if_neg hp]
        · rw [if_neg hu]

/-- Heartbeats do not change a view. -/
private theorem foldl_beats (events : List WatchEvent) :
    ∀ view : Bytes → Option Bytes, events.foldl applyEvent view
      = (events.filter fun e => e.kind ≠ .heartbeat).foldl applyEvent view := by
  induction events with
  | nil => exact fun view => rfl
  | cons e rest ih =>
      intro view
      rw [List.foldl_cons, ih]
      cases hk : e.kind with
      | heartbeat =>
          rw [List.filter_cons_of_neg (by simp [hk])]
          simp only [applyEvent, hk]
      | put => rw [List.filter_cons_of_pos (by simp [hk]), List.foldl_cons]
      | delete => rw [List.filter_cons_of_pos (by simp [hk]), List.foldl_cons]

/-- A stream that has read everything is a copy. -/
theorem Trails.view (h : Trails t i pre rx start w₀ events sent n s)
    (hn : sent.length ≤ n) :
    events.foldl applyEvent (viewUnder pre w₀ t) = viewUnder pre s.world t := by
  rw [foldl_beats, h.events, List.take_of_length_le hn]
  refine (foldl_under pre sent (storedValue w₀ t)).trans ?_
  rw [← h.stored]
  rfl

end Following

-- ================================================================== results

/-- More is waiting for the stream than its channel keeps. -/
def Behind (ext : Externals) (s : Session) (st : WatchState) : Prop :=
  ext.broadcastBuffer s.world.watch.capacity
    < ((s.world.watch.tenant st.tenant).pending st.rx).length

/-- What a client of the stream at `(t, i)` can rely on, once it has been
delivered `events` and the session is `s`. -/
structure Tracks (ext : Externals) (cfg : NodeConfig) (t : String) (i : Nat)
    (pre : Bytes) (w₀ : World) (events : List WatchEvent) (s : Session) :
    Prop where
  -- a stream that has read all it was sent is an exact copy
  copy : ∀ st, s.stream t i = some st →
    (s.world.watch.tenant t).pending st.rx = [] →
    events.foldl applyEvent (viewUnder pre w₀ t) = viewUnder pre s.world t
  -- the events delivered are the first of those that make the stored data
  -- what it is, and the others are left to read
  gapless : ∃ (sent : List KeyChange) (n : Nat), storedValue s.world t
      = (sent.map toWatchEvent).foldl applyEvent (storedValue w₀ t)
    ∧ events.filter (fun e => e.kind ≠ .heartbeat)
      = ((sent.take n).filter fun c => pre.isPrefixOf c.key).map toWatchEvent
    ∧ ∀ st, s.stream t i = some st →
      (s.world.watch.tenant t).pending st.rx = sent.drop n
  -- a stream that has fallen behind beats or fails, and fails for no other
  -- reason; the failure is its end
  lag : ∀ st idleFirst turn s', s.stream t i = some st →
    Session.Goes ext cfg s (.poll t i idleFirst) (.turn (some turn)) s' →
    (Behind ext s st → (∃ st', turn = .item heartbeatEvent st')
        ∨ ∃ message, turn = .failed ⟨.dataLoss, message⟩)
      ∧ (∀ status, turn = .failed status →
        Behind ext s st ∧ status.code = .dataLoss ∧ s'.stream t i = none)
      ∧ turn ≠ .ended
  -- and after its end nothing is delivered
  ended : s.stream t i = none → ∀ steps s', Session.Runs ext cfg s steps s' →
    s'.stream t i = none ∧ delivered t i steps = []

/-- From the moment a `Watch` succeeds, whatever is asked of the node and
whatever fails in it, its client's copy is exact once it has read all it was
sent, or the client is told. -/
theorem watcher_tracks (ext : Externals) (cfg : NodeConfig) (w : World)
    (before after : List (Action × Output)) (s₁ s₂ s₃ : Session)
    (principal : Option Principal) (t : String) (pre : Bytes)
    (state : WatchState)
    (hbefore : Session.Runs ext cfg ⟨w, fun _ => []⟩ before s₁)
    (hwatch : Session.Goes ext cfg s₁ (.rpc principal t (.watch pre))
      (.response (.watching (.ok state))) s₂)
    (hafter : Session.Runs ext cfg s₂ after s₃) :
    Tracks ext cfg t (s₁.streams t).length pre s₂.world
      (delivered t (s₁.streams t).length after) s₃ := by
  have hnamed : Named s₁ :=
    Named.runs (fun t j st hst => by cases hst) hbefore
  obtain ⟨ht, start, hstart⟩ := trails_opened hnamed hwatch
  obtain ⟨sent, n, h⟩ := hstart.runs hafter ht
  -- the parts in order: the view once nothing is pending, the events so far,
  -- what a turn does, and nothing after the end
  refine ⟨fun st hst hpending => ?_, ⟨sent, n, h.stored, h.events,
    fun st hst => h.pending hst⟩, fun st idleFirst turn s' hst hgo => ?_,
    fun hgone steps s' hrun => (closed_runs h.place hgone hrun).2⟩
  · rw [h.pending hst] at hpending
    exact h.view (List.drop_eq_nil_iff.mp hpending)
  · have hbehind : Behind ext s₃ st
        ↔ ext.broadcastBuffer s₃.world.watch.capacity
          < (sent.drop n).length := by
      rw [Behind, (h.state st hst).1, h.pending hst]
    rw [hbehind]
    cases hgo with
    | @poll _ _ _ st' _ w' hs hserved =>
        cases hst.symm.trans hs
        obtain ⟨hstorage, hturn⟩ := hserved.post (wp_watchPoll st idleFirst _)
        obtain ⟨hown, -⟩ := h.turned_own hst hstorage hturn idleFirst
        cases hown with
        | beat st' => exact ⟨fun _ => .inl ⟨st', rfl⟩, nofun, nofun⟩
        | event st' hbuffer hnext hp =>
            exact ⟨fun hlag => by omega, nofun, nofun⟩
        | again hbuffer => exact ⟨fun hlag => by omega, nofun, nofun⟩
        | pending hbuffer => exact ⟨fun hlag => by omega, nofun, nofun⟩
        | lost message hlag =>
            refine ⟨fun _ => .inr ⟨message, rfl⟩, ?_, nofun⟩
            rintro _ ⟨⟩
            exact ⟨hlag, rfl, dropStream_gone hst⟩

/-- A session of a fresh node, with nobody watching. -/
def unwatched : Session := ⟨.opened {}, fun _ => []⟩

/-- Tenant "a" watches all of its data. -/
def watchAll : Action := .rpc (some .anonymous) "a" (.watch [])

def watched : Session := (unwatched.step .plain {} watchAll).1

def putOne : Action := .rpc (some .anonymous) "a" (.put [1] [7] 0)

def changed : Session := (watched.step .plain {} putOne).1

/-- One put, one event, and the view is what is stored. -/
theorem watcher_tracks_put :
    delivered "a" 0 [(putOne, (watched.step .plain {} putOne).2),
        (.poll "a" 0 false, (changed.step .plain {} (.poll "a" 0 false)).2)]
      = [⟨.put, [1], [7]⟩]
    ∧ [⟨.put, [1], [7]⟩].foldl applyEvent (viewUnder [] watched.world "a")
      = viewUnder []
        (changed.step .plain {} (.poll "a" 0 false)).1.world "a" := by
  have hwatch := Session.goes_step .plain {} unwatched watchAll
  obtain ⟨state, hstate⟩ : ∃ state, (unwatched.step .plain {} watchAll).2
      = .response (.watching (.ok state)) := by
    refine ⟨⟨⟨0, 0⟩, [], 30000, 30000, "a"⟩, ?_⟩
    decide +kernel
  rw [hstate] at hwatch
  have hafter := Session.Runs.snoc
    (.snoc (.nil _) (Session.goes_step .plain {} watched putOne))
    (Session.goes_step .plain {} changed (.poll "a" 0 false))
  have htracks := watcher_tracks .plain {} (.opened {}) [] _ unwatched watched _
    (some .anonymous) "a" [] state (.nil _) hwatch hafter
  have hevents : delivered "a" 0 [(putOne, (watched.step .plain {} putOne).2),
      (.poll "a" 0 false, (changed.step .plain {} (.poll "a" 0 false)).2)]
        = [⟨.put, [1], [7]⟩] := by decide +kernel
  refine ⟨hevents, ?_⟩
  rw [← hevents]
  refine htracks.copy ⟨⟨0, 0⟩, [], 30000, 30000, "a"⟩ ?_ ?_
  · decide +kernel
  · decide +kernel

end FerrisKv
