/-
The channels of one tenant.

A receiver listens if it has not been dropped. `Anchored` is what keeps a
listener on the registered channel: every live receiver is there. `Listening`
is one receiver's part of it, with the position it began at; what is sent
from there on (`sentSince`) only grows, by one message a send.
-/
import FerrisKv.Node.Watch

namespace FerrisKv

-- ================================================================ receivers

/-- The receiver in that place has not been dropped. -/
def Channel.Listens (c : Channel) (slot : Nat) : Prop :=
  ∃ r, c.receivers[slot]? = some r ∧ r.live = true

/-- A channel with a listener counts receivers. -/
theorem Channel.Listens.counted {c : Channel} {slot : Nat}
    (h : c.Listens slot) : 0 < c.receiverCount := by
  obtain ⟨r, hr, hl⟩ := h
  exact List.length_pos_of_mem
    (List.mem_filter.mpr ⟨List.mem_of_getElem? hr, hl⟩)

section Receiving

variable {c : Channel} {r : Receiver} {slot s buffer : Nat} {reg : Bool}

@[simp] theorem recv_live :
    (c.recv buffer reg r).2.live = r.live := by
  unfold Channel.recv
  split
  · rfl
  · split <;> rfl

/-- Receiving makes nobody live. -/
theorem listens_of_recv (hr : c.receivers[s]? = some r)
    (h : Channel.Listens
      { c with receivers := c.receivers.set s (c.recv buffer reg r).2 }
      slot) :
    c.Listens slot := by
  obtain ⟨r', hr', hl⟩ := h
  have hr' : (c.receivers.set s (c.recv buffer reg r).2)[slot]?
      = some r' := hr'
  by_cases hs : s = slot
  · subst hs
    rw [List.getElem?_set_self (List.getElem?_eq_some_iff.mp hr).1] at hr'
    cases hr'
    exact ⟨r, hr, recv_live.symm.trans hl⟩
  · rw [List.getElem?_set_ne hs] at hr'
    exact ⟨r', hr', hl⟩

/-- Nor does it take anybody's life. -/
theorem Channel.Listens.recv (h : c.Listens slot)
    (hr : c.receivers[s]? = some r) :
    Channel.Listens
      { c with receivers := c.receivers.set s (c.recv buffer reg r).2 }
      slot := by
  obtain ⟨r', hr', hl⟩ := h
  by_cases hs : s = slot
  · subst hs
    rw [hr] at hr'
    cases hr'
    exact ⟨_, List.getElem?_set_self (List.getElem?_eq_some_iff.mp hr).1,
      recv_live.trans hl⟩
  · exact ⟨r', (List.getElem?_set_ne hs).trans hr', hl⟩

/-- Dropping makes nobody live. -/
theorem listens_of_drop
    (h : Channel.Listens
      { c with
        receivers := c.receivers.modify s fun r => { r with live := false } }
      slot) :
    c.Listens slot := by
  obtain ⟨r', hr', hl⟩ := h
  have hr' : (c.receivers.modify s
      fun r => { r with live := false })[slot]? = some r' := hr'
  rw [List.getElem?_modify] at hr'
  obtain ⟨r, hr, rfl⟩ := Option.map_eq_some_iff.mp hr'
  by_cases hs : s = slot
  · rw [if_pos hs] at hl
    cases hl
  · rw [if_neg hs] at hl
    exact ⟨r, hr, hl⟩

/-- No receiver is past the end of the channel. -/
def Channel.InStep (c : Channel) : Prop :=
  ∀ (slot : Nat) (r : Receiver), c.receivers[slot]? = some r →
    r.next ≤ c.sent.length

/-- Sending puts no receiver ahead of the channel. -/
theorem Channel.InStep.send (h : c.InStep) (change : KeyChange) :
    Channel.InStep { c with sent := c.sent ++ [change] } := by
  intro slot r hr
  have hle := h slot r hr
  show r.next ≤ (c.sent ++ [change]).length
  rw [List.length_append]
  omega

/-- A new receiver starts at the end. -/
theorem Channel.InStep.subscribe (h : c.InStep) : c.subscribe.InStep := by
  intro slot r hr
  rcases List.mem_append.mp (List.mem_of_getElem? hr) with hm | hm
  · obtain ⟨k, hk⟩ := List.mem_iff_getElem?.mp hm
    exact h k r hk
  · rw [List.mem_singleton.mp hm]
    exact Nat.le_refl _

/-- A receiver does not read past the end. -/
private theorem recv_next_le (h : r.next ≤ c.sent.length) :
    (c.recv buffer reg r).2.next ≤ c.sent.length := by
  unfold Channel.recv
  split
  · exact Nat.sub_le _ _
  · split
    · next hm => exact (List.getElem?_eq_some_iff.mp hm).1
    · exact h

theorem Channel.InStep.recv (h : c.InStep) (hr : c.receivers[s]? = some r) :
    Channel.InStep
      { c with receivers := c.receivers.set s (c.recv buffer reg r).2 } := by
  intro slot r' hr'
  have hr' : (c.receivers.set s (c.recv buffer reg r).2)[slot]?
      = some r' := hr'
  rcases List.mem_or_eq_of_mem_set (List.mem_of_getElem? hr') with hm | rfl
  · obtain ⟨k, hk⟩ := List.mem_iff_getElem?.mp hm
    exact h k r' hk
  · exact recv_next_le (h s r hr)

/-- And so does dropping a receiver. -/
theorem Channel.InStep.drop (h : c.InStep) :
    Channel.InStep
      { c with
        receivers :=
          c.receivers.modify s fun r => { r with live := false } } := by
  intro slot r' hr'
  have hr' : (c.receivers.modify s
      fun r => { r with live := false })[slot]? = some r' := hr'
  rw [List.getElem?_modify] at hr'
  obtain ⟨r, hr, rfl⟩ := Option.map_eq_some_iff.mp hr'
  split
  · exact h slot r hr
  · exact h slot r hr

end Receiving

namespace TenantChannels

variable {tc : TenantChannels} {rx : Rx} {i : Nat} {c c' : Channel}

/-- The receiver has not been dropped. -/
def Live (tc : TenantChannels) (rx : Rx) : Prop :=
  ∃ c, tc.channels[rx.channel]? = some c ∧ c.Listens rx.slot

/-- Nobody listens to the registered channel. -/
def abandoned (tc : TenantChannels) : Bool :=
  match tc.current with
  | none => true
  | some (_, c) => c.receiverCount = 0

/-- The channel of every live receiver is the registered one. -/
def Anchored (tc : TenantChannels) : Prop :=
  ∀ rx, tc.Live rx → tc.registered = some rx.channel

/-- The registered channel, if it is there. -/
theorem current_eq_some :
    tc.current = some (i, c)
      ↔ tc.registered = some i ∧ tc.channels[i]? = some c := by
  unfold current
  constructor
  · intro h
    obtain ⟨j, hj, hm⟩ := Option.bind_eq_some_iff.mp h
    obtain ⟨d, hd, he⟩ := Option.map_eq_some_iff.mp hm
    cases he
    exact ⟨hj, hd⟩
  · rintro ⟨hr, hc⟩
    rw [hr, Option.bind_some, hc]
    rfl

/-- With everyone anchored, a live receiver listens to the registered
channel. -/
theorem Anchored.current (h : tc.Anchored) (hl : tc.Live rx) :
    ∃ c, tc.current = some (rx.channel, c) ∧ c.Listens rx.slot := by
  have hreg := h rx hl
  obtain ⟨c, hc, hlive⟩ := hl
  exact ⟨c, current_eq_some.mpr ⟨hreg, hc⟩, hlive⟩

/-- Replacing a channel by one with no new live receiver makes none. -/
theorem Live.of_set (hc : tc.channels[i]? = some c)
    (hsub : ∀ slot, c'.Listens slot → c.Listens slot)
    (h : Live { tc with channels := tc.channels.set i c' } rx) :
    tc.Live rx := by
  obtain ⟨d, hd, hl⟩ := h
  have hd : (tc.channels.set i c')[rx.channel]? = some d := hd
  by_cases hi : i = rx.channel
  · subst hi
    rw [List.getElem?_set_self (List.getElem?_eq_some_iff.mp hc).1] at hd
    cases hd
    exact ⟨c, hc, hsub _ hl⟩
  · rw [List.getElem?_set_ne hi] at hd
    exact ⟨d, hd, hl⟩

-- ==================================================== the steps of the hub

/-- A channel may be replaced by one with no new listeners. -/
theorem Anchored.set (h : tc.Anchored) (hc : tc.channels[i]? = some c)
    (hsub : ∀ slot, c'.Listens slot → c.Listens slot) :
    Anchored { tc with channels := tc.channels.set i c' } := by
  intro rx hl
  exact h rx (Live.of_set hc hsub hl)

/-- Whoever joins the registered channel is anchored. -/
theorem Anchored.join (h : tc.Anchored) (hcur : tc.current = some (i, c)) :
    Anchored { tc with channels := tc.channels.set i c' } := by
  intro rx ⟨d, hd, hl⟩
  have hd : (tc.channels.set i c')[rx.channel]? = some d := hd
  by_cases hi : i = rx.channel
  · subst hi
    exact (current_eq_some.mp hcur).1
  · rw [List.getElem?_set_ne hi] at hd
    exact h rx ⟨d, hd, hl⟩

/-- So is whoever opens a new channel when none is registered. -/
theorem Anchored.insert (h : tc.Anchored) (hcur : tc.current = none)
    (d : Channel) :
    Anchored ⟨some tc.channels.length, tc.channels ++ [d]⟩ := by
  intro rx ⟨e, he, hl⟩
  have he : (tc.channels ++ [d])[rx.channel]? = some e := he
  by_cases hlt : rx.channel < tc.channels.length
  · rw [List.getElem?_append_left hlt] at he
    obtain ⟨c, hc, -⟩ := h.current ⟨e, he, hl⟩
    rw [hcur] at hc
    cases hc
  · have hlen := (List.getElem?_eq_some_iff.mp he).1
    rw [List.length_append, List.length_singleton] at hlen
    have heq : rx.channel = tc.channels.length := by omega
    rw [heq]

/-- Nobody is orphaned by removing a channel without receivers. -/
theorem Anchored.remove (h : tc.Anchored) (ha : tc.abandoned = true) :
    Anchored { tc with registered := none } := by
  intro rx hl
  have hl : tc.Live rx := hl
  obtain ⟨c, hc, hlive⟩ := h.current hl
  rw [abandoned, hc] at ha
  have hzero : c.receiverCount = 0 := of_decide_eq_true ha
  have hpos := hlive.counted
  omega

/-- No step but `remove` can orphan a receiver. -/
theorem Anchored.exec (h : tc.Anchored) (p : WatchPrim) (buffer : Nat)
    (hp : ∀ t, p = .remove t → tc.abandoned = true) :
    (p.execTenant buffer tc).2.Anchored := by
  cases p with
  | isWatched t => exact h
  | send t change =>
      simp only [WatchPrim.execTenant]
      split
      · exact h
      · next i c hcur =>
          split
          · exact h
          · exact h.join hcur
  | remove t => exact h.remove (hp t rfl)
  | subscribeExisting t =>
      simp only [WatchPrim.execTenant]
      split
      · exact h
      · next i c hcur => exact h.join hcur
  | subscribeOrInsert t =>
      simp only [WatchPrim.execTenant]
      split
      · next i c hcur => exact h.join hcur
      · next hcur => exact h.insert hcur _
  | recv t rx =>
      simp only [WatchPrim.execTenant]
      split
      · exact h
      · next c hc =>
          split
          · exact h
          · next r hr =>
              exact h.set hc fun slot hl => listens_of_recv hr hl
  | drop t rx =>
      simp only [WatchPrim.execTenant]
      split
      · exact h
      · next c hc => exact h.set hc fun slot hl => listens_of_drop hl

-- ============================================================== positions

/-- No receiver is past the end of its channel. -/
def InStep (tc : TenantChannels) : Prop :=
  ∀ (i : Nat) (c : Channel), tc.channels[i]? = some c → c.InStep

/-- Or by any that is in step. -/
theorem InStep.set (h : tc.InStep) (hc' : c'.InStep) :
    InStep { tc with channels := tc.channels.set i c' } := by
  intro j d hd
  have hd : (tc.channels.set i c')[j]? = some d := hd
  by_cases hij : i = j
  · subst hij
    have hlt : i < tc.channels.length := by
      have := (List.getElem?_eq_some_iff.mp hd).1
      rwa [List.length_set] at this
    rw [List.getElem?_set_self hlt] at hd
    cases hd
    exact hc'
  · rw [List.getElem?_set_ne hij] at hd
    exact h j d hd

/-- No step on a tenant's channels puts a receiver ahead. -/
theorem InStep.exec (h : tc.InStep) (p : WatchPrim) (buffer : Nat) :
    (p.execTenant buffer tc).2.InStep := by
  cases p with
  | isWatched t => exact h
  | send t change =>
      simp only [WatchPrim.execTenant]
      split
      · exact h
      · next i c hcur =>
          split
          · exact h
          · exact h.set ((h i c (current_eq_some.mp hcur).2).send change)
  | remove t => exact h
  | subscribeExisting t =>
      simp only [WatchPrim.execTenant]
      split
      · exact h
      · next i c hcur =>
          exact h.set (h i c (current_eq_some.mp hcur).2).subscribe
  | subscribeOrInsert t =>
      simp only [WatchPrim.execTenant]
      split
      · next i c hcur =>
          exact h.set (h i c (current_eq_some.mp hcur).2).subscribe
      · intro j d hd
        have hd : (tc.channels ++ [Channel.subscribe ⟨[], []⟩])[j]?
            = some d := hd
        rcases List.mem_append.mp (List.mem_of_getElem? hd) with hm | hm
        · obtain ⟨k, hk⟩ := List.mem_iff_getElem?.mp hm
          exact h k d hk
        · rw [List.mem_singleton.mp hm]
          exact Channel.InStep.subscribe fun slot r hr => by cases hr
  | recv t rx =>
      simp only [WatchPrim.execTenant]
      split
      · exact h
      · next c hc =>
          split
          · exact h
          · next r hr => exact h.set ((h _ c hc).recv hr)
  | drop t rx =>
      simp only [WatchPrim.execTenant]
      split
      · exact h
      · next c hc => exact h.set (h _ c hc).drop

-- ============================================================== deliveries

/-- What the receiver has not read yet. -/
def pending (tc : TenantChannels) (rx : Rx) : List KeyChange :=
  match tc.channels[rx.channel]? with
  | none => []
  | some c =>
      match c.receivers[rx.slot]? with
      | none => []
      | some r => c.sent.drop r.next

/-- What a receiver has yet to read. -/
theorem pending_eq {r : Receiver} (hc : tc.channels[rx.channel]? = some c)
    (hr : c.receivers[rx.slot]? = some r) :
    tc.pending rx = c.sent.drop r.next := by
  unfold pending
  rw [hc]
  simp only [hr]

/-- A send reaches every live receiver. -/
theorem Anchored.send (h : tc.Anchored) (hs : tc.InStep)
    (hl : tc.Live rx) (t : String) (change : KeyChange) (buffer : Nat) :
    ((WatchPrim.send t change).execTenant buffer tc).1 = .sent
      ∧ ((WatchPrim.send t change).execTenant buffer tc).2.pending rx
        = tc.pending rx ++ [change] := by
  obtain ⟨c, hcur, hlive⟩ := h.current hl
  have hc := (current_eq_some.mp hcur).2
  have hpos : c.receiverCount ≠ 0 := by
    have := hlive.counted
    omega
  obtain ⟨r, hr, -⟩ := hlive
  have hexec : (WatchPrim.send t change).execTenant buffer tc
      = (.sent, { tc with
          channels := tc.channels.set rx.channel
            { c with sent := c.sent ++ [change] } }) := by
    simp only [WatchPrim.execTenant, hcur, hpos, if_false]
  rw [hexec]
  refine ⟨rfl, ?_⟩
  have hlt := (List.getElem?_eq_some_iff.mp hc).1
  have hnew : pending { tc with
      channels := tc.channels.set rx.channel
        { c with sent := c.sent ++ [change] } } rx
      = (c.sent ++ [change]).drop r.next :=
    pending_eq (c := { c with sent := c.sent ++ [change] })
      (List.getElem?_set_self hlt) hr
  rw [hnew, pending_eq hc hr,
    List.drop_append_of_le_length (hs _ c hc _ r hr)]

/-- A live receiver is not told that its channel is closed. -/
theorem Anchored.recv_ne_closed (h : tc.Anchored) (hl : tc.Live rx)
    (t : String) (buffer : Nat) :
    ((WatchPrim.recv t rx).execTenant buffer tc).1 ≠ .closed := by
  have hreg := h rx hl
  obtain ⟨c, hc, r, hr, -⟩ := hl
  simp only [WatchPrim.execTenant, hc, hr, hreg]
  unfold Channel.recv
  split
  · rintro ⟨⟩
  · split
    · rintro ⟨⟩
    · rintro ⟨⟩

end TenantChannels

-- ============================================================ the subscriber

namespace TenantChannels

variable {tc : TenantChannels} {rx : Rx} {start : Nat} {t : String}

/-- What is sent to the receiver from position `start` on: all of it is
received by one that does not lag. -/
def sentSince (tc : TenantChannels) (rx : Rx) (start : Nat) :
    List KeyChange :=
  match tc.channels[rx.channel]? with
  | none => []
  | some c => c.sent.drop start

/-- The receiver is live and on the registered channel, and was at `start`
once. -/
structure Listening (tc : TenantChannels) (rx : Rx) (start : Nat) : Prop where
  registered : tc.registered = some rx.channel
  channel : ∃ c, tc.channels[rx.channel]? = some c ∧ c.Listens rx.slot
    ∧ start ≤ c.sent.length

/-- Whoever listens, listens to the registered channel. -/
theorem Listening.current (h : tc.Listening rx start) :
    ∃ c, tc.current = some (rx.channel, c) ∧ c.receiverCount ≠ 0
      ∧ start ≤ c.sent.length ∧ c.Listens rx.slot := by
  obtain ⟨c, hc, hl, hs⟩ := h.channel
  have hpos := hl.counted
  exact ⟨c, current_eq_some.mpr ⟨h.registered, hc⟩, by omega, hs, hl⟩

/-- A tenant with a listener is watched. -/
theorem Listening.isWatched (h : tc.Listening rx start) (buffer : Nat) :
    (WatchPrim.isWatched t).execTenant buffer tc = (true, tc) := by
  obtain ⟨c, hcur, hpos, -⟩ := h.current
  simp only [WatchPrim.execTenant, hcur]
  rw [decide_eq_true (by omega)]

/-- A send is one more message for the subscriber. -/
theorem Listening.send (h : tc.Listening rx start) (change : KeyChange)
    (buffer : Nat) :
    ∃ tc', (WatchPrim.send t change).execTenant buffer tc = (.sent, tc')
      ∧ tc'.Listening rx start
      ∧ tc'.sentSince rx start = tc.sentSince rx start ++ [change] := by
  obtain ⟨c, hcur, hpos, hs, hl⟩ := h.current
  have hc := (current_eq_some.mp hcur).2
  have hset : (tc.channels.set rx.channel
      { c with sent := c.sent ++ [change] })[rx.channel]?
      = some { c with sent := c.sent ++ [change] } :=
    List.getElem?_set_self (List.getElem?_eq_some_iff.mp hc).1
  refine ⟨{ tc with
    channels := tc.channels.set rx.channel
      { c with sent := c.sent ++ [change] } }, ?_, ?_, ?_⟩
  · simp only [WatchPrim.execTenant, hcur, hpos, if_false]
  · refine ⟨h.registered, _, hset, hl, ?_⟩
    show start ≤ (c.sent ++ [change]).length
    rw [List.length_append]
    omega
  · unfold sentSince
    simp only [hset, hc]
    exact List.drop_append_of_le_length hs

/-- Reading takes nothing from anybody. -/
theorem Listening.recv (h : tc.Listening rx start) (rx' : Rx)
    (buffer : Nat) :
    ((WatchPrim.recv t rx').execTenant buffer tc).2.Listening rx start
      ∧ ((WatchPrim.recv t rx').execTenant buffer tc).2.sentSince rx start
        = tc.sentSince rx start := by
  obtain ⟨c, hc, hl, hs⟩ := h.channel
  simp only [WatchPrim.execTenant]
  split
  · exact ⟨h, rfl⟩
  · next d hd =>
      split
      · exact ⟨h, rfl⟩
      · next r hr =>
          by_cases hch : rx'.channel = rx.channel
          · rw [hch, hc] at hd
            cases hd
            have hset : ∀ c' : Channel, (tc.channels.set rx'.channel
                c')[rx.channel]? = some c' := by
              intro c'
              rw [hch]
              exact List.getElem?_set_self (List.getElem?_eq_some_iff.mp hc).1
            refine ⟨⟨h.registered, _, hset _, hl.recv hr, hs⟩, ?_⟩
            unfold sentSince
            simp only [hset, hc]
          · have hset : ∀ c' : Channel, (tc.channels.set rx'.channel
                c')[rx.channel]? = some c := fun c' =>
              (List.getElem?_set_ne hch).trans hc
            refine ⟨⟨h.registered, c, hset _, hl, hs⟩, ?_⟩
            unfold sentSince
            simp only [hset, hc]

-- ================================================================ positions

/-- The receiver of that name, if there is one. -/
def receiver (tc : TenantChannels) (rx : Rx) : Option Receiver :=
  tc.channels[rx.channel]?.bind fun c => c.receivers[rx.slot]?

/-- A receiver is looked up in its channel. -/
theorem receiver_eq {c : Channel} (hc : tc.channels[rx.channel]? = some c) :
    tc.receiver rx = c.receivers[rx.slot]? := by
  rw [receiver, hc]
  rfl

/-- Sending moves no receiver. -/
theorem receiver_send (tc : TenantChannels) (rx : Rx) (change : KeyChange)
    (buffer : Nat) :
    ((WatchPrim.send t change).execTenant buffer tc).2.receiver rx
      = tc.receiver rx := by
  simp only [WatchPrim.execTenant]
  split
  · rfl
  · next i c hcur =>
      split
      · rfl
      · have hc := (current_eq_some.mp hcur).2
        have hi := (List.getElem?_eq_some_iff.mp hc).1
        unfold receiver
        by_cases hch : i = rx.channel
        · rw [← hch, hc, List.getElem?_set_self hi]
          rfl
        · rw [List.getElem?_set_ne hch]

/-- A change to a channel's other receivers is nothing to a listener. -/
theorem Listening.of_set (h : tc.Listening rx start) {i : Nat}
    {c c' : Channel} (hc : tc.channels[i]? = some c) (hsent : c'.sent = c.sent)
    (hrx : i = rx.channel →
      c'.receivers[rx.slot]? = c.receivers[rx.slot]?) :
    let tc' := { tc with channels := tc.channels.set i c' }
    tc'.Listening rx start ∧ tc'.sentSince rx start = tc.sentSince rx start
      ∧ tc'.receiver rx = tc.receiver rx := by
  intro tc'
  have hi := (List.getElem?_eq_some_iff.mp hc).1
  by_cases hch : i = rx.channel
  · have hset : tc'.channels[rx.channel]? = some c' := by
      rw [← hch]
      exact List.getElem?_set_self hi
    have hslot := hrx hch
    rw [hch] at hc
    obtain ⟨d, hd, ⟨r, hr, hlive⟩, hs⟩ := h.channel
    rw [hc] at hd
    cases hd
    refine ⟨⟨h.registered, c', hset, ⟨r, hslot.trans hr, hlive⟩, ?_⟩, ?_, ?_⟩
    · rw [hsent]
      exact hs
    · simp only [sentSince, hset, hc, hsent]
    · rw [receiver_eq hset, receiver_eq hc, hslot]
  · have hset : tc'.channels[rx.channel]? = tc.channels[rx.channel]? :=
      List.getElem?_set_ne hch
    obtain ⟨d, hd, hl, hs⟩ := h.channel
    refine ⟨⟨h.registered, d, hset.trans hd, hl, hs⟩, ?_, ?_⟩
    · unfold sentSince
      rw [hset]
    · unfold receiver
      rw [hset]

/-- Another receiver reads. -/
theorem Listening.recv_other (h : tc.Listening rx start) {rx' : Rx}
    (hne : rx' ≠ rx) (buffer : Nat) :
    let tc' := ((WatchPrim.recv t rx').execTenant buffer tc).2
    tc'.Listening rx start ∧ tc'.sentSince rx start = tc.sentSince rx start
      ∧ tc'.receiver rx = tc.receiver rx := by
  simp only [WatchPrim.execTenant]
  split
  · exact ⟨h, rfl, rfl⟩
  · next c hc =>
      split
      · exact ⟨h, rfl, rfl⟩
      · next r hr =>
          refine h.of_set hc rfl fun hch => ?_
          have hslot : rx'.slot ≠ rx.slot := fun hs =>
            hne (by cases rx; cases rx'; cases hch; cases hs; rfl)
          exact List.getElem?_set_ne hslot

/-- Another receiver is dropped. -/
theorem Listening.drop_other (h : tc.Listening rx start) {rx' : Rx}
    (hne : rx' ≠ rx) (buffer : Nat) :
    let tc' := ((WatchPrim.drop t rx').execTenant buffer tc).2
    tc'.Listening rx start ∧ tc'.sentSince rx start = tc.sentSince rx start
      ∧ tc'.receiver rx = tc.receiver rx := by
  simp only [WatchPrim.execTenant]
  split
  · exact ⟨h, rfl, rfl⟩
  · next c hc =>
      refine h.of_set hc rfl fun hch => ?_
      have hslot : rx'.slot ≠ rx.slot := fun hs =>
        hne (by cases rx; cases rx'; cases hch; cases hs; rfl)
      simp [hslot]

/-- A receiver has joined: its name is new, it has missed nothing, and
nobody else notices. -/
structure Joined (tc : TenantChannels) (rx : Rx) (tc' : TenantChannels) :
    Prop where
  fresh : tc.receiver rx = none
  begins : ∃ start, tc'.Listening rx start ∧ tc'.sentSince rx start = []
    ∧ tc'.receiver rx = some ⟨start, true⟩
  others : ∀ rx' start, tc.Listening rx' start → tc'.Listening rx' start
    ∧ tc'.sentSince rx' start = tc.sentSince rx' start
    ∧ tc'.receiver rx' = tc.receiver rx'

/-- Subscribing to a registered channel adds a receiver to it. -/
theorem joined_current {i : Nat} {c : Channel}
    (hcur : tc.current = some (i, c)) :
    Joined tc ⟨i, c.receivers.length⟩
      { tc with channels := tc.channels.set i c.subscribe } := by
  obtain ⟨hreg, hc⟩ := current_eq_some.mp hcur
  have hset : (tc.channels.set i c.subscribe)[i]? = some c.subscribe :=
    List.getElem?_set_self (List.getElem?_eq_some_iff.mp hc).1
  have hnew : c.subscribe.receivers[c.receivers.length]?
      = some ⟨c.sent.length, true⟩ := List.getElem?_concat_length
  refine ⟨?_, ⟨c.sent.length, ⟨hreg, _, hset, ⟨_, hnew, rfl⟩, le_rfl⟩, ?_, ?_⟩,
    fun rx' start hl => ?_⟩
  · rw [receiver_eq hc]
    exact List.getElem?_eq_none le_rfl
  · simp only [sentSince, hset]
    exact List.drop_length
  · exact (receiver_eq hset).trans hnew
  · refine hl.of_set hc rfl fun hi => ?_
    obtain ⟨d, hd, ⟨r, hr, -⟩, -⟩ := hl.channel
    rw [← hi, hc] at hd
    cases hd
    exact List.getElem?_append_left (List.getElem?_eq_some_iff.mp hr).1

/-- Without one, it opens a channel with one receiver. -/
theorem joined_insert (hcur : tc.current = none) :
    Joined tc ⟨tc.channels.length, 0⟩ ⟨some tc.channels.length,
      tc.channels ++ [Channel.subscribe ⟨[], []⟩]⟩ := by
  have hlast : (tc.channels ++ [Channel.subscribe ⟨[], []⟩])[
      tc.channels.length]? = some (Channel.subscribe ⟨[], []⟩) :=
    List.getElem?_concat_length
  refine ⟨?_, ⟨0, ⟨rfl, _, hlast, ⟨⟨0, true⟩, rfl, rfl⟩, le_rfl⟩, ?_, ?_⟩,
    fun rx' start hl => ?_⟩
  · rw [receiver, List.getElem?_eq_none le_rfl]
    rfl
  · simp only [sentSince, hlast]
    rfl
  · rw [receiver_eq hlast]
    rfl
  · obtain ⟨c, hc, -⟩ := hl.current
    rw [hcur] at hc
    cases hc

/-- A listener reads: what is next, unless it has fallen behind by more
than the buffer holds. -/
theorem Listening.recv_self (h : tc.Listening rx start) {r : Receiver}
    (hr : tc.receiver rx = some r) {n : Nat} (hn : r.next = start + n)
    {sent : List KeyChange} (hsent : tc.sentSince rx start = sent)
    {buffer : Nat} {out : RecvOutcome} {tc' : TenantChannels}
    (hout : (WatchPrim.recv t rx).execTenant buffer tc = (out, tc')) :
    (buffer < (sent.drop n).length ∧ ∃ missed, out = .lagged missed)
      ∨ ((sent.drop n).length ≤ buffer ∧ tc'.Listening rx start
        ∧ tc'.sentSince rx start = sent
        ∧ ((∃ change, sent[n]? = some change ∧ out = .message change
            ∧ ∃ r', tc'.receiver rx = some r' ∧ r'.next = start + (n + 1))
          ∨ (out = .empty ∧ tc'.receiver rx = some r))) := by
  have hkept := h.recv (t := t) rx buffer
  rw [hout, hsent] at hkept
  obtain ⟨c, hc, -, hs⟩ := h.channel
  rw [receiver_eq hc] at hr
  simp only [sentSince, hc] at hsent
  subst hsent
  have hnext : c.sent[r.next]? = (c.sent.drop start)[n]? := by
    rw [List.getElem?_drop, hn]
  have hlag : buffer < ((c.sent.drop start).drop n).length
      ↔ r.next + buffer < c.sent.length := by
    rw [List.length_drop, List.length_drop]
    omega
  have hreg : decide (tc.registered = some rx.channel) = true :=
    decide_eq_true h.registered
  simp only [WatchPrim.execTenant, hc, hr, hreg, Prod.mk.injEq] at hout
  obtain ⟨hans, rfl⟩ := hout
  let c' := { c with
    receivers := c.receivers.set rx.slot (c.recv buffer true r).2 }
  have hset : (tc.channels.set rx.channel c')[rx.channel]? = some c' :=
    List.getElem?_set_self (List.getElem?_eq_some_iff.mp hc).1
  have hrx : receiver { tc with channels := tc.channels.set rx.channel c' } rx
      = some (c.recv buffer true r).2 :=
    (receiver_eq hset).trans
      (List.getElem?_set_self (List.getElem?_eq_some_iff.mp hr).1)
  -- behind by more than the buffer: the oldest unread changes have been
  -- overwritten
  by_cases hl : r.next + buffer < c.sent.length
  · refine .inl ⟨hlag.mpr hl, c.sent.length - buffer - r.next, ?_⟩
    rw [← hans, Channel.recv, if_pos hl]
  · refine .inr ⟨Nat.le_of_not_lt (hlag.not.mpr hl), hkept.1, hkept.2, ?_⟩
    rw [Channel.recv, if_neg hl, hnext] at hrx hans
    cases hm : (c.sent.drop start)[n]? with
    | some change =>
        rw [hm] at hrx hans
        exact .inl ⟨change, rfl, hans.symm, _, hrx, congrArg (· + 1) hn⟩
    | none =>
        rw [hm] at hrx hans
        exact .inr ⟨hans.symm, hrx⟩

/-- A handle stands for a receiver if its slot was handed out. -/
theorem receiver_isSome : (tc.receiver rx).isSome
    ↔ ∃ c, tc.channels[rx.channel]? = some c ∧ rx.slot < c.receivers.length := by
  unfold receiver
  cases tc.channels[rx.channel]? with
  | none => simp
  | some c => simp

/-- Channels only grow, and handles stay good. -/
theorem receiver_set {i : Nat} {c c' : Channel}
    (hc : tc.channels[i]? = some c)
    (hlen : c.receivers.length ≤ c'.receivers.length)
    (h : (tc.receiver rx).isSome) :
    (receiver { tc with channels := tc.channels.set i c' } rx).isSome := by
  obtain ⟨d, hd, hslot⟩ := receiver_isSome.mp h
  refine receiver_isSome.mpr ?_
  by_cases hi : i = rx.channel
  · rw [hi] at hc
    rw [hc] at hd
    cases hd
    rw [hi]
    exact ⟨c', List.getElem?_set_self (List.getElem?_eq_some_iff.mp hc).1,
      by omega⟩
  · exact ⟨d, (List.getElem?_set_ne hi).trans hd, hslot⟩

/-- A receiver keeps its name, dropped or not. -/
theorem receiver_exec (p : WatchPrim) (buffer : Nat)
    (h : (tc.receiver rx).isSome) :
    ((p.execTenant buffer tc).2.receiver rx).isSome := by
  cases p with
  | isWatched t => exact h
  | send t change =>
      rw [receiver_send]
      exact h
  | remove t => exact h
  | subscribeExisting t =>
      simp only [WatchPrim.execTenant]
      split
      · exact h
      · next i c hcur =>
          exact receiver_set (current_eq_some.mp hcur).2 (by
            simp [Channel.subscribe]) h
  | subscribeOrInsert t =>
      simp only [WatchPrim.execTenant]
      split
      · next i c hcur =>
          exact receiver_set (current_eq_some.mp hcur).2 (by
            simp [Channel.subscribe]) h
      · obtain ⟨c, hc, hslot⟩ := receiver_isSome.mp h
        exact receiver_isSome.mpr ⟨c, (List.getElem?_append_left
          (List.getElem?_eq_some_iff.mp hc).1).trans hc, hslot⟩
  | recv t rx' =>
      simp only [WatchPrim.execTenant]
      split
      · exact h
      · next c hc =>
          split
          · exact h
          · exact receiver_set hc (by simp) h
  | drop t rx' =>
      simp only [WatchPrim.execTenant]
      split
      · exact h
      · next c hc => exact receiver_set hc (by simp) h

end TenantChannels

end FerrisKv
