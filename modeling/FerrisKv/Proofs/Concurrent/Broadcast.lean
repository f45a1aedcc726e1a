/-
What the subscribers of a tenant are told, and in which order.

`told t log` is every change sent to the tenant, in the order of the sends,
whoever's turn it was between them. A receiver reads it from where it
subscribed: `position` says how one answer moves it along, and an answer
that is not what stands at its position moves it nowhere. In every
interleaving in which no channel is removed under a listener, the answers
of every live receiver take it from the front of what was sent since it
subscribed to what is left to read (`subscribers_told_alike`). All of them
read the one list, so no two can disagree on the order of two changes, and
a lag counts exactly the changes it skips.

The step lemma is about one hub step and one receiver (`live_exec`); the
hub's soundness is what keeps a send from missing a receiver.
-/
import FerrisKv.Proofs.Concurrent.Subscribers

namespace FerrisKv

-- ============================================================ one hub step

namespace WatchPrim

/-- The change the step sent to the tenant. -/
def told (t : String) : (p : WatchPrim) → p.Resp → Option KeyChange
  | .send t' change, .sent => if t' = t then some change else none
  | _, _ => none

/-- What the step answered the receiver. -/
def heard (t : String) (rx : Rx) : (p : WatchPrim) → p.Resp → Option RecvOutcome
  | .recv t' rx', out => if t' = t ∧ rx' = rx then some out else none
  | _, _ => none

/-- The step made the receiver. -/
def Joins (t : String) (rx : Rx) : (p : WatchPrim) → p.Resp → Prop
  | .subscribeExisting t', r => t' = t ∧ r = some rx
  | .subscribeOrInsert t', r => t' = t ∧ r = rx
  | _, _ => False

variable {t : String} {rx : Rx} {p : WatchPrim}

private theorem told_of_ne (h : p.tenant ≠ t) (r : p.Resp) :
    p.told t r = none := by
  cases p with
  | send t' change => cases r <;> simp only [told, if_neg (show ¬ t' = t from h)]
  | _ => rfl

private theorem heard_of_ne (h : p.tenant ≠ t) (r : p.Resp) :
    p.heard t rx r = none := by
  cases p with
  | recv t' rx' => exact if_neg fun hand => h hand.1
  | _ => rfl

end WatchPrim

/-- One receive: it answers the first change left, or counts those it
skips, or finds nothing. -/
def Reads (left : List KeyChange) (out : RecvOutcome) (left' : List KeyChange) :
    Prop :=
  match out with
  | .message change => left = change :: left'
  | .lagged missed => missed ≤ left.length ∧ left' = left.drop missed
  | .empty => left = [] ∧ left' = []
  | .closed => False

/-- What a step that told the tenant `told` and answered the receiver `heard`
leaves the receiver to read. -/
def Leaves (heard : Option RecvOutcome) (told : Option KeyChange)
    (left left' : List KeyChange) : Prop :=
  match heard with
  | some out => Reads left out left'
  | none => left' = left ++ told.toList

theorem leaves_quiet (left : List KeyChange) : Leaves none none left left :=
  (List.append_nil left).symm

/-- Receiving answers from the front of what is left to read. -/
private theorem recv_reads {c : Channel} {r : Receiver}
    (h : r.next ≤ c.sent.length) (buffer : Nat) :
    Reads (c.sent.drop r.next) (c.recv buffer true r).1
      (c.sent.drop (c.recv buffer true r).2.next) := by
  unfold Channel.recv
  by_cases hlag : r.next + buffer < c.sent.length
  · rw [if_pos hlag]
    refine ⟨?_, ?_⟩
    · rw [List.length_drop]
      omega
    · rw [List.drop_drop]
      show c.sent.drop (c.sent.length - buffer) = _
      exact congrArg c.sent.drop (by omega)
  · rw [if_neg hlag]
    cases hm : c.sent[r.next]? with
    | some change =>
        obtain ⟨hlt, hget⟩ := List.getElem?_eq_some_iff.mp hm
        show c.sent.drop r.next = change :: c.sent.drop (r.next + 1)
        rw [List.drop_eq_getElem_cons hlt, hget]
    | none =>
        have hle := List.getElem?_eq_none_iff.mp hm
        exact ⟨List.drop_eq_nil_of_le hle, List.drop_eq_nil_of_le hle⟩

namespace TenantChannels

variable {tc : TenantChannels} {rx : Rx} {i : Nat} {c c' : Channel}

/-- Replacing a channel by one with the same messages and the same receiver
in that place. -/
theorem pending_set (hc : tc.channels[i]? = some c) (hsent : c'.sent = c.sent)
    (hrx : i = rx.channel → c'.receivers[rx.slot]? = c.receivers[rx.slot]?) :
    pending { tc with channels := tc.channels.set i c' } rx = tc.pending rx := by
  unfold pending
  by_cases hi : i = rx.channel
  · have hlt := (List.getElem?_eq_some_iff.mp hc).1
    have hrx := hrx hi
    subst hi
    simp only [List.getElem?_set_self hlt, hc, hrx, hsent]
  · simp only [List.getElem?_set_ne hi]

/-- A receiver that is live once someone joined the registered channel was
live before, or is the one that joined. -/
theorem Live.of_join (hcur : tc.current = some (i, c))
    (h : Live { tc with channels := tc.channels.set i c.subscribe } rx) :
    rx = ⟨i, c.receivers.length⟩
      ∨ tc.Live rx ∧ pending
        { tc with channels := tc.channels.set i c.subscribe } rx
          = tc.pending rx := by
  have hc := (current_eq_some.mp hcur).2
  obtain ⟨d, hd, r, hr, hl⟩ := h
  have hd : (tc.channels.set i c.subscribe)[rx.channel]? = some d := hd
  by_cases hi : i = rx.channel
  · subst hi
    rw [List.getElem?_set_self (List.getElem?_eq_some_iff.mp hc).1] at hd
    cases hd
    have hr : (c.receivers ++ [⟨c.sent.length, true⟩])[rx.slot]? = some r := hr
    by_cases hslot : rx.slot < c.receivers.length
    · refine .inr ⟨⟨c, hc, r, ?_, hl⟩, pending_set hc rfl fun _ => ?_⟩
      · rwa [List.getElem?_append_left hslot] at hr
      · exact List.getElem?_append_left hslot
    · left
      have hlen := (List.getElem?_eq_some_iff.mp hr).1
      rw [List.length_append, List.length_singleton] at hlen
      have heq : rx.slot = c.receivers.length := by omega
      rw [← heq]
  · rw [List.getElem?_set_ne hi] at hd
    exact .inr ⟨⟨d, hd, r, hr, hl⟩, pending_set hc rfl fun h => absurd h hi⟩

/-- A receiver that has just joined has nothing to read. -/
theorem pending_joined (hcur : tc.current = some (i, c)) :
    pending { tc with channels := tc.channels.set i c.subscribe }
      ⟨i, c.receivers.length⟩ = [] := by
  have hlt := (List.getElem?_eq_some_iff.mp (current_eq_some.mp hcur).2).1
  have hnew : c.subscribe.receivers[c.receivers.length]?
      = some ⟨c.sent.length, true⟩ := List.getElem?_concat_length
  exact (pending_eq (List.getElem?_set_self hlt) hnew).trans List.drop_length

/-- A receiver that is live once a channel was registered is its first. -/
theorem Live.of_insert (ha : tc.Anchored) (hcur : tc.current = none)
    (h : Live ⟨some tc.channels.length,
      tc.channels ++ [Channel.subscribe ⟨[], []⟩]⟩ rx) :
    rx = ⟨tc.channels.length, 0⟩ := by
  obtain ⟨d, hd, hl⟩ := h
  have hd : (tc.channels ++ [Channel.subscribe ⟨[], []⟩])[rx.channel]?
      = some d := hd
  by_cases hlt : rx.channel < tc.channels.length
  · rw [List.getElem?_append_left hlt] at hd
    obtain ⟨c, hc, -⟩ := ha.current ⟨d, hd, hl⟩
    rw [hcur] at hc
    cases hc
  · have hlen := (List.getElem?_eq_some_iff.mp hd).1
    rw [List.length_append, List.length_singleton] at hlen
    have hchannel : rx.channel = tc.channels.length := by omega
    rw [hchannel, List.getElem?_concat_length] at hd
    cases hd
    obtain ⟨r, hr, -⟩ := hl
    have hslot : rx.slot < 1 := (List.getElem?_eq_some_iff.mp hr).1
    obtain ⟨channel, slot⟩ := rx
    have hslot : slot = 0 := by
      have : slot < 1 := hslot
      omega
    rw [hslot, ← hchannel]

/-- A new receiver has nothing to read. -/
private theorem pending_inserted : pending ⟨some tc.channels.length,
    tc.channels ++ [Channel.subscribe ⟨[], []⟩]⟩ ⟨tc.channels.length, 0⟩ = [] := by
  unfold pending
  simp only [List.getElem?_concat_length]
  rfl

section Steps

variable {t : String} {buffer : Nat}

/-- A send reaches whoever is live. -/
theorem live_send (ha : tc.Anchored) (hs : tc.InStep) (change : KeyChange)
    (hlive : ((WatchPrim.send t change).execTenant buffer tc).2.Live rx) :
    tc.Live rx ∧ ((WatchPrim.send t change).execTenant buffer tc).2.pending rx
      = tc.pending rx ++ ((WatchPrim.send t change).told t
        ((WatchPrim.send t change).execTenant buffer tc).1).toList := by
  have hbefore : tc.Live rx := by
    simp only [WatchPrim.execTenant] at hlive
    split at hlive
    · exact hlive
    · next i c hcur =>
        split at hlive
        · exact hlive
        · refine Live.of_set (current_eq_some.mp hcur).2 ?_ hlive
          exact fun slot hl => hl
  obtain ⟨hsent, hpending⟩ := ha.send hs hbefore t change buffer
  refine ⟨hbefore, ?_⟩
  rw [hpending, hsent]
  simp [WatchPrim.told]

/-- A receive moves its own receiver, and nobody else. -/
theorem live_recv (ha : tc.Anchored) (hs : tc.InStep) (rx' : Rx)
    (hlive : ((WatchPrim.recv t rx').execTenant buffer tc).2.Live rx) :
    tc.Live rx ∧ Leaves ((WatchPrim.recv t rx').heard t rx
      ((WatchPrim.recv t rx').execTenant buffer tc).1) none (tc.pending rx)
      (((WatchPrim.recv t rx').execTenant buffer tc).2.pending rx) := by
  cases hc : tc.channels[rx'.channel]? with
  | none =>
      simp only [WatchPrim.execTenant, hc] at hlive ⊢
      -- a receive through a receiver that is not there answers nothing, and a
      -- live receiver is there
      have hne : rx' ≠ rx := by
        intro h
        obtain ⟨d, hd, -⟩ := hlive
        rw [h, hd] at hc
        cases hc
      refine ⟨hlive, ?_⟩
      rw [WatchPrim.heard, if_neg fun h => hne h.2]
      exact leaves_quiet _
  | some c =>
    cases hr : c.receivers[rx'.slot]? with
    | none =>
        simp only [WatchPrim.execTenant, hc, hr] at hlive ⊢
        have hne : rx' ≠ rx := by
          intro h
          obtain ⟨d, hd, r, hr', -⟩ := hlive
          rw [h, hd] at hc
          cases hc
          rw [h, hr'] at hr
          cases hr
        refine ⟨hlive, ?_⟩
        rw [WatchPrim.heard, if_neg fun h => hne h.2]
        exact leaves_quiet _
    | some r =>
        simp only [WatchPrim.execTenant, hc, hr] at hlive ⊢
        have hbefore : tc.Live rx :=
          Live.of_set hc (fun slot hl => listens_of_recv hr hl) hlive
        refine ⟨hbefore, ?_⟩
        -- the receiver itself takes the head of what is pending; for any
        -- other nothing moves
        by_cases hrx : rx' = rx
        · subst hrx
          have hlt := (List.getElem?_eq_some_iff.mp hc).1
          rw [WatchPrim.heard, if_pos ⟨rfl, rfl⟩, pending_eq hc hr,
            ha rx' hbefore, decide_eq_true rfl]
          have hset : (c.receivers.set rx'.slot
              (c.recv buffer true r).2)[rx'.slot]?
                = some (c.recv buffer true r).2 :=
            List.getElem?_set_self (List.getElem?_eq_some_iff.mp hr).1
          rw [pending_eq (List.getElem?_set_self hlt) hset]
          exact recv_reads (hs _ c hc _ r hr) buffer
        · rw [WatchPrim.heard, if_neg fun h => hrx h.2]
          refine (pending_set hc ?_ fun hchannel => ?_).trans
            (List.append_nil _).symm
          · rfl
          · refine List.getElem?_set_ne fun hslot => hrx ?_
            obtain ⟨channel, slot⟩ := rx
            obtain ⟨channel', slot'⟩ := rx'
            cases hchannel
            cases hslot
            rfl

/-- Dropping a receiver takes nothing from another. -/
theorem live_drop (rx' : Rx)
    (hlive : ((WatchPrim.drop t rx').execTenant buffer tc).2.Live rx) :
    tc.Live rx ∧ ((WatchPrim.drop t rx').execTenant buffer tc).2.pending rx
      = tc.pending rx := by
  simp only [WatchPrim.execTenant] at hlive ⊢
  split at hlive
  · exact ⟨hlive, rfl⟩
  · next c hc =>
      refine ⟨Live.of_set hc (fun slot hl => listens_of_drop hl) hlive,
        pending_set hc rfl fun hchannel => ?_⟩
      obtain ⟨d, hd, r, hr, hl⟩ := hlive
      have hd : (tc.channels.set rx'.channel _)[rx.channel]? = some d := hd
      rw [← hchannel, List.getElem?_set_self
        (List.getElem?_eq_some_iff.mp hc).1] at hd
      cases hd
      have hr : (c.receivers.modify rx'.slot
          fun r => { r with live := false })[rx.slot]? = some r := hr
      show (c.receivers.modify rx'.slot _)[rx.slot]? = _
      rw [List.getElem?_modify] at hr ⊢
      obtain ⟨r₀, hr₀, rfl⟩ := Option.map_eq_some_iff.mp hr
      by_cases hslot : rx'.slot = rx.slot
      · rw [if_pos hslot] at hl
        cases hl
      · rw [hr₀]
        exact congrArg some (if_neg hslot)

/-- Joining the registered channel is nothing to those who have joined. -/
theorem live_join {i : Nat} {c : Channel} (hcur : tc.current = some (i, c))
    (hlive : Live { tc with channels := tc.channels.set i c.subscribe } rx) :
    rx = ⟨i, c.receivers.length⟩
        ∧ pending { tc with channels := tc.channels.set i c.subscribe } rx = []
      ∨ tc.Live rx ∧ Leaves none none (tc.pending rx)
        (pending { tc with channels := tc.channels.set i c.subscribe } rx) := by
  rcases Live.of_join hcur hlive with hrx | ⟨hbefore, hsame⟩
  · rw [hrx]
    exact .inl ⟨rfl, pending_joined hcur⟩
  · rw [hsame]
    exact .inr ⟨hbefore, leaves_quiet _⟩

/-- What one step does to a receiver that is live after it, when everyone
is anchored and in step. -/
theorem live_execTenant (ha : tc.Anchored) (hs : tc.InStep) (p : WatchPrim)
    (buffer : Nat) (hlive : (p.execTenant buffer tc).2.Live rx) :
    p.Joins p.tenant rx (p.execTenant buffer tc).1
        ∧ (p.execTenant buffer tc).2.pending rx = []
      ∨ tc.Live rx
        ∧ Leaves (p.heard p.tenant rx (p.execTenant buffer tc).1)
          (p.told p.tenant (p.execTenant buffer tc).1)
          (tc.pending rx) ((p.execTenant buffer tc).2.pending rx) := by
  cases p with
  | isWatched t => exact .inr ⟨hlive, leaves_quiet _⟩
  | send t change => exact .inr (live_send ha hs change hlive)
  | remove t => exact .inr ⟨hlive, leaves_quiet _⟩
  | subscribeExisting t =>
      cases hcur : tc.current with
      | none =>
          simp only [WatchPrim.execTenant, hcur] at hlive ⊢
          exact .inr ⟨hlive, leaves_quiet _⟩
      | some at_ =>
          obtain ⟨i, c⟩ := at_
          simp only [WatchPrim.execTenant, hcur] at hlive ⊢
          refine (live_join hcur hlive).imp_left fun hnew => ?_
          exact ⟨⟨rfl, congrArg some hnew.1.symm⟩, hnew.2⟩
  | subscribeOrInsert t =>
      cases hcur : tc.current with
      | none =>
          simp only [WatchPrim.execTenant, hcur] at hlive ⊢
          rw [Live.of_insert ha hcur hlive]
          exact .inl ⟨⟨rfl, rfl⟩, pending_inserted⟩
      | some at_ =>
          obtain ⟨i, c⟩ := at_
          simp only [WatchPrim.execTenant, hcur] at hlive ⊢
          refine (live_join hcur hlive).imp_left fun hnew => ?_
          exact ⟨⟨rfl, hnew.1.symm⟩, hnew.2⟩
  | recv t rx' => exact .inr (live_recv ha hs rx' hlive)
  | drop t rx' =>
      obtain ⟨hbefore, hsame⟩ := live_drop rx' hlive
      rw [hsame]
      exact .inr ⟨hbefore, leaves_quiet _⟩

end Steps

end TenantChannels

-- ============================================================= one receiver

/-- Where an answer takes a receiver that stands at the `n`-th change of the
history. -/
def position (history : List KeyChange) (n : Nat) : RecvOutcome → Option Nat
  | .message change => if history[n]? = some change then some (n + 1) else none
  | .lagged missed => some (n + missed)
  | .empty => some n
  | .closed => none

/-- A receiver that started at `start` and was answered `outs` has `left` of
the history to read. -/
def UpTo (history : List KeyChange) (start : Nat) (outs : List RecvOutcome)
    (left : List KeyChange) : Prop :=
  ∃ n, n ≤ history.length ∧ outs.foldlM (position history) start = some n
    ∧ left = history.drop n

section Positions

variable {history more left left' : List KeyChange} {start n m : Nat}
  {outs : List RecvOutcome} {out : RecvOutcome}

/-- A receiver at the end has heard nothing yet. -/
private theorem upTo_end (history : List KeyChange) :
    UpTo history history.length [] [] :=
  ⟨_, le_rfl, rfl, List.drop_length.symm⟩

/-- An answer's position does not depend on what is sent later. -/
private theorem position_append (h : position history n out = some m) :
    position (history ++ more) n out = some m := by
  cases out with
  | message change =>
      by_cases hn : history[n]? = some change
      · have hlt := (List.getElem?_eq_some_iff.mp hn).1
        simp only [position, if_pos hn] at h
        simp only [position, List.getElem?_append_left hlt, if_pos hn, h]
      · simp only [position, if_neg hn] at h
        cases h
  | lagged missed => exact h
  | empty => exact h
  | closed => exact h

private theorem positions_append
    (h : outs.foldlM (position history) start = some n) :
    outs.foldlM (position (history ++ more)) start = some n := by
  induction outs generalizing start with
  | nil => exact h
  | cons out outs ih =>
      rw [List.foldlM_cons] at h ⊢
      obtain ⟨m, hm, hrest⟩ := Option.bind_eq_some_iff.mp h
      exact Option.bind_eq_some_iff.mpr ⟨m, position_append hm, ih hrest⟩

/-- More is sent: it is left to read. -/
theorem UpTo.send (h : UpTo history start outs left) :
    UpTo (history ++ more) start outs (left ++ more) := by
  obtain ⟨n, hn, houts, hleft⟩ := h
  refine ⟨n, ?_, positions_append houts, ?_⟩
  · rw [List.length_append]
    omega
  · rw [hleft, List.drop_append_of_le_length hn]

/-- The receiver reads on. -/
theorem UpTo.read (h : UpTo history start outs left)
    (hread : Reads left out left') :
    UpTo history start (outs ++ [out]) left' := by
  obtain ⟨n, hn, houts, hleft⟩ := h
  have hon : ∀ m, position history n out = some m →
      (outs ++ [out]).foldlM (position history) start = some m := by
    intro m hm
    rw [List.foldlM_append, houts]
    show [out].foldlM (position history) n = some m
    rw [List.foldlM_cons, hm]
    rfl
  cases out with
  | message change =>
      have hcons : history.drop n = change :: left' := hleft.symm.trans hread
      have hget : history[n]? = some change := by
        rw [← List.head?_drop, hcons]
        rfl
      refine ⟨n + 1, (List.getElem?_eq_some_iff.mp hget).1,
        hon _ (if_pos hget), ?_⟩
      rw [← List.drop_drop, hcons]
      rfl
  | lagged missed =>
      -- what was missed is skipped in the history as well
      obtain ⟨hle, hdrop⟩ := hread
      refine ⟨n + missed, ?_, hon _ rfl, ?_⟩
      · rw [hleft, List.length_drop] at hle
        omega
      · rw [hdrop, hleft, List.drop_drop]
  | empty =>
      obtain ⟨hnil, hnil'⟩ := hread
      exact ⟨n, hn, hon _ rfl, by rw [hnil', ← hnil, hleft]⟩
  | closed => exact hread.elim

/-- One more message or answer keeps a receiver up to its position. -/
theorem UpTo.leaves {heard : Option RecvOutcome} {told : Option KeyChange}
    (h : UpTo history start outs left) (hex : heard = none ∨ told = none)
    (hl : Leaves heard told left left') :
    UpTo (history ++ told.toList) start (outs ++ heard.toList) left' := by
  cases heard with
  | none =>
      have hl : left' = left ++ told.toList := hl
      rw [hl, Option.toList_none, List.append_nil]
      exact h.send
  | some out =>
      rcases hex with hnone | hnone
      · cases hnone
      · rw [hnone, Option.toList_none, List.append_nil, Option.toList_some]
        exact h.read hl

end Positions

-- ================================================================ the calls

/-- The change the event sent to the tenant. -/
def eventTold (t : String) : NodeEvent → Option KeyChange
  | ⟨_, .watch p, r⟩ => p.told t r
  | _ => none

/-- What the event answered the receiver. -/
def eventHeard (t : String) (rx : Rx) : NodeEvent → Option RecvOutcome
  | ⟨_, .watch p, r⟩ => p.heard t rx r
  | _ => none

/-- The event made the receiver. -/
def EventJoins (t : String) (rx : Rx) : NodeEvent → Prop
  | ⟨_, .watch p, r⟩ => p.Joins t rx r
  | _ => False

/-- Every change sent to the tenant, in the order of the sends. -/
def changesTold (t : String) (log : List NodeEvent) : List KeyChange :=
  log.filterMap (eventTold t)

/-- Every answer the receiver has had. -/
def answersTo (t : String) (rx : Rx) (log : List NodeEvent) :
    List RecvOutcome :=
  log.filterMap (eventHeard t rx)

/-- The receiver joined, and has read on from there. -/
def Attentive (t : String) (rx : Rx) (log : List NodeEvent)
    (left : List KeyChange) : Prop :=
  ∃ before joined since, log = before ++ joined :: since
    ∧ EventJoins t rx joined
    ∧ UpTo (changesTold t log) (changesTold t before).length
      (answersTo t rx since) left

section Steps

variable {ext : Externals} {t : String} {rx : Rx} {log : List NodeEvent}
  {e : NodeEvent} {left left' : List KeyChange}

private theorem changesTold_snoc :
    changesTold t (log ++ [e]) = changesTold t log ++ (eventTold t e).toList := by
  rw [changesTold, List.filterMap_append]
  cases h : eventTold t e <;> simp [changesTold, h]

private theorem answersTo_snoc : answersTo t rx (log ++ [e])
    = answersTo t rx log ++ (eventHeard t rx e).toList := by
  rw [answersTo, List.filterMap_append]
  cases h : eventHeard t rx e <;> simp [answersTo, h]

/-- A hub step tells the tenant or answers a receiver, never both. -/
theorem heard_or_told (t : String) (rx : Rx) (e : NodeEvent) :
    eventHeard t rx e = none ∨ eventTold t e = none := by
  obtain ⟨i, p, r⟩ := e
  cases p with
  | watch q => cases q <;> first | exact .inl rfl | exact .inr rfl
  | _ => exact .inl rfl

private theorem eventTold_of_joins (h : EventJoins t rx e) :
    eventTold t e = none := by
  obtain ⟨i, p, r⟩ := e
  cases p with
  | watch q => cases q <;> first | rfl | exact h.elim
  | _ => rfl

/-- Who joins is attentive from then on. -/
private theorem attentive_joined (h : EventJoins t rx e) :
    Attentive t rx (log ++ [e]) [] := by
  refine ⟨log, e, [], rfl, h, ?_⟩
  rw [changesTold_snoc, eventTold_of_joins h, Option.toList_none,
    List.append_nil]
  exact upTo_end _

/-- Who is attentive stays so. -/
theorem Attentive.leaves (h : Attentive t rx log left)
    (hl : Leaves (eventHeard t rx e) (eventTold t e) left left') :
    Attentive t rx (log ++ [e]) left' := by
  obtain ⟨before, joined, since, hlog, hjoins, hup⟩ := h
  refine ⟨before, joined, since ++ [e], ?_, hjoins, ?_⟩
  · rw [hlog, List.append_assoc, List.cons_append]
  · rw [changesTold_snoc, answersTo_snoc]
    exact hup.leaves (heard_or_told t rx e) hl

/-- What one step of the hub does to a receiver that is live after it. -/
theorem live_exec {h : WatchHub} (hs : HubSound h) (i : Nat) (p : WatchPrim)
    (hlive : ((p.exec ext h).2.tenant t).Live rx) :
    EventJoins t rx ⟨i, .watch p, (p.exec ext h).1⟩
        ∧ ((p.exec ext h).2.tenant t).pending rx = []
      ∨ (h.tenant t).Live rx
        ∧ Leaves (eventHeard t rx ⟨i, .watch p, (p.exec ext h).1⟩)
          (eventTold t ⟨i, .watch p, (p.exec ext h).1⟩)
          ((h.tenant t).pending rx) (((p.exec ext h).2.tenant t).pending rx) := by
  by_cases ht : p.tenant = t
  · subst ht
    have htenant : (p.exec ext h).2.tenant p.tenant = (p.execTenant
        (ext.broadcastBuffer h.capacity) (h.tenant p.tenant)).2 := by
      show (WatchHub.set _ _ _).tenant p.tenant = _
      rw [WatchHub.tenant_set, if_pos rfl]
    rw [htenant] at hlive ⊢
    exact TenantChannels.live_execTenant (hs.anchored _) (hs.inStep _) p _ hlive
  · have htenant : (p.exec ext h).2.tenant t = h.tenant t := by
      show (WatchHub.set _ _ _).tenant t = _
      rw [WatchHub.tenant_set, if_neg ht]
    rw [htenant] at hlive ⊢
    refine .inr ⟨hlive, ?_⟩
    show Leaves (p.heard t rx _) (p.told t _) _ _
    rw [WatchPrim.heard_of_ne ht, WatchPrim.told_of_ne ht]
    exact leaves_quiet _

end Steps

-- ================================================================== results

/-- All subscribers of a tenant are told the same changes in the same order.
In every state of a run in which channels are only removed while nobody
listens to them, the answers a live receiver has had since it joined take
it along the one list of the changes sent to its tenant, from the end of
what was sent before it joined to what it has left to read: each message
is the change at its position and each lag counts the changes it skips. -/
theorem subscribers_told_alike (ext : Externals) (w : World) (n : Nat)
    (hw : w.watch = .new n) (ops : List HubCall) {pool : HubPool}
    (h : HubPool.Run ext RemovesAbandoned (HubPool.calls w ops) pool)
    (t : String) (rx : Rx) (hlive : (pool.world.watch.tenant t).Live rx) :
    ∃ before joined since, pool.log = before ++ joined :: since
      ∧ EventJoins t rx joined
      ∧ ∃ m, m ≤ (changesTold t pool.log).length
        ∧ (answersTo t rx since).foldlM (position (changesTold t pool.log))
            (changesTold t before).length = some m
        ∧ (pool.world.watch.tenant t).pending rx
          = (changesTold t pool.log).drop m := by
  show Attentive t rx pool.log ((pool.world.watch.tenant t).pending rx)
  induction h with
  | start =>
      have hlive : (w.watch.tenant t).Live rx := hlive
      rw [hw] at hlive
      obtain ⟨c, hc, -⟩ := hlive
      simp [WatchHub.tenant, WatchHub.new] at hc
  | @step pool i p k hrun _ _ ih =>
      cases p with
      | watch q =>
          have hlive : ((q.exec ext pool.world.watch).2.tenant t).Live rx := hlive
          -- the receiver joined at this step, or was live before it
          rcases live_exec (hubSound_of_run hw hrun) i q hlive with
            ⟨hjoins, hleft⟩ | ⟨hbefore, hleaves⟩
          · show Attentive t rx _ (((q.exec ext pool.world.watch).2.tenant
              t).pending rx)
            rw [hleft]
            exact attentive_joined hjoins
          · exact (ih hbefore).leaves hleaves
      | _ => exact (ih hlive).leaves (leaves_quiet _)
  | env _ he ih =>
      obtain ⟨now, instant, -, rfl⟩ := he
      exact ih hlive

/-- Two subscribers and two publishers; the first reads once. -/
def audience : List HubCall :=
  [.subscribe "a", .subscribe "a", .publish "a" ⟨.put, [1], [1]⟩,
    .publish "a" ⟨.put, [1], [2]⟩, .recv "a" ⟨0, 0⟩]

/-- The second publisher sends first: both subscribers are told so. -/
theorem subscribers_told_alike_overtaken :
    ∃ pool, HubPool.Run .plain RemovesAbandoned
        (HubPool.calls (.fresh {} 0 0) audience) pool
      ∧ changesTold "a" pool.log = [⟨.put, [1], [2]⟩, ⟨.put, [1], [1]⟩]
      ∧ pool.result 4 = some (.received (.message ⟨.put, [1], [2]⟩))
      ∧ ∀ rx, rx = ⟨0, 0⟩ ∨ rx = ⟨0, 1⟩ →
        Attentive "a" rx pool.log
          ((pool.world.watch.tenant "a").pending rx) := by
  have hrun : HubPool.Run .plain RemovesAbandoned
      (HubPool.calls (.fresh {} 0 0) audience) _ :=
    Pool.run_play [0, 0, 1, 3, 2, 4] (by decide +kernel)
  refine ⟨_, hrun, by decide +kernel, by decide +kernel, fun rx hrx => ?_⟩
  refine subscribers_told_alike .plain (.fresh {} 0 0) 1024 rfl audience hrun
    "a" rx ?_
  refine ⟨⟨[⟨.put, [1], [2]⟩, ⟨.put, [1], [1]⟩], [⟨1, true⟩, ⟨0, true⟩]⟩, ?_⟩
  rcases hrx with hrx | hrx <;> rw [hrx]
  · exact ⟨by decide +kernel, ⟨1, true⟩, rfl, rfl⟩
  · exact ⟨by decide +kernel, ⟨0, true⟩, rfl, rfl⟩

end FerrisKv
