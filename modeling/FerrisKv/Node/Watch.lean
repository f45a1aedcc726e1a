/-
Change notification (`ferriskv-node/src/watch.rs`): one tokio broadcast
channel per watched tenant.

A receiver keeps its channel alive after the hub dropped the sender, so a
tenant keeps every channel ever made for it and the hub's map entry names
the registered one. A channel is the messages sent on it and its
receivers, each at its own position; `recv` answers the next message, a
lag once more than the buffer holds is outstanding, or — when the
channel is drained and no longer registered — that it is closed.
-/
import FerrisKv.Node.Config

namespace FerrisKv

open Std

/-- `ChangeKind`. -/
inductive ChangeKind where
  | put
  | delete
  deriving DecidableEq, Repr

/-- `KeyChange`. -/
structure KeyChange where
  kind : ChangeKind
  key : Bytes
  value : Bytes
  deriving DecidableEq, Repr

/-- A `broadcast::Receiver`: how far it has read, and whether it was
dropped. -/
structure Receiver where
  next : Nat
  live : Bool
  deriving DecidableEq, Repr

/-- A broadcast channel. -/
structure Channel where
  sent : List KeyChange
  receivers : List Receiver
  deriving DecidableEq, Repr

/-- `Sender::receiver_count`. -/
def Channel.receiverCount (c : Channel) : Nat :=
  (c.receivers.filter Receiver.live).length

/-- `Sender::subscribe`: the receiver sees what is sent from now on. -/
def Channel.subscribe (c : Channel) : Channel :=
  { c with receivers := c.receivers ++ [⟨c.sent.length, true⟩] }

/-- One tenant's channels, and which of them the hub has registered. -/
structure TenantChannels where
  registered : Option Nat
  channels : List Channel
  deriving DecidableEq, Repr

/-- The registered channel. -/
def TenantChannels.current (t : TenantChannels) : Option (Nat × Channel) :=
  t.registered.bind fun i => t.channels[i]?.map fun c => (i, c)

/-- `WatchHub`. -/
structure WatchHub where
  capacity : Nat
  tenants : ExtTreeMap String TenantChannels

namespace WatchHub

/-- `WatchHub::new`. -/
def new (capacity : Nat) : WatchHub := ⟨capacity, ∅⟩

/-- A tenant's channels; none before its first subscriber. -/
def tenant (h : WatchHub) (name : String) : TenantChannels :=
  h.tenants[name]?.getD ⟨none, []⟩

/-- Replace a tenant's channels. -/
def set (h : WatchHub) (name : String) (t : TenantChannels) : WatchHub :=
  { h with tenants := h.tenants.insert name t }

theorem tenant_set (h : WatchHub) (name name' : String)
    (t : TenantChannels) :
    (h.set name t).tenant name' = if name = name' then t else h.tenant name' := by
  unfold tenant set
  simp only [ExtTreeMap.getElem?_insert, Std.compare_eq_iff_eq]
  split <;> rfl

end WatchHub

-- ============================================================= primitives

/-- A receiver's name: its channel among the tenant's, and its place
there. -/
structure Rx where
  channel : Nat
  slot : Nat
  deriving DecidableEq, Repr

/-- What the lookup-count-and-send step of `publish` found. -/
inductive SendOutcome where
  | absent
  | abandoned
  | sent
  deriving DecidableEq, Repr

/-- What `Receiver::recv` answers; `empty` is a receive that stays
pending. -/
inductive RecvOutcome where
  | message (change : KeyChange)
  | lagged (missed : Nat)
  | closed
  | empty
  deriving DecidableEq, Repr

/-- The steps of the hub's functions and of a receiver. -/
inductive WatchPrim where
  | isWatched (tenant : String)
  | send (tenant : String) (change : KeyChange)
  | remove (tenant : String)
  | subscribeExisting (tenant : String)
  | subscribeOrInsert (tenant : String)
  | recv (tenant : String) (rx : Rx)
  | drop (tenant : String) (rx : Rx)
  deriving DecidableEq, Repr

/-- What a hub step answers. -/
@[reducible] def WatchPrim.Resp : WatchPrim → Type
  | .isWatched _ => Bool
  | .send _ _ => SendOutcome
  | .remove _ => Unit
  | .subscribeExisting _ => Option Rx
  | .subscribeOrInsert _ => Rx
  | .recv _ _ => RecvOutcome
  | .drop _ _ => Unit

/-- One receive of receiver `r` on channel `c`. -/
def Channel.recv (buffer : Nat) (registered : Bool) (c : Channel)
    (r : Receiver) : RecvOutcome × Receiver :=
  if r.next + buffer < c.sent.length then
    (.lagged (c.sent.length - buffer - r.next),
      { r with next := c.sent.length - buffer })
  else
    match c.sent[r.next]? with
    | some change => (.message change, { r with next := r.next + 1 })
    | none => (if registered then .empty else .closed, r)

/-- The steps on one tenant's channels. -/
def WatchPrim.execTenant (buffer : Nat) :
    (p : WatchPrim) → TenantChannels → p.Resp × TenantChannels
  | .isWatched _, t =>
      (match t.current with
        | none => false
        | some (_, c) => decide (c.receiverCount > 0), t)
  | .send _ change, t =>
      match t.current with
      | none => (.absent, t)
      | some (i, c) =>
          if c.receiverCount = 0 then (.abandoned, t)
          else
            let c' := { c with sent := c.sent ++ [change] }
            (.sent, { t with channels := t.channels.set i c' })
  | .remove _, t => ((), { t with registered := none })
  | .subscribeExisting _, t =>
      match t.current with
      | none => (none, t)
      | some (i, c) =>
          (some ⟨i, c.receivers.length⟩,
            { t with channels := t.channels.set i c.subscribe })
  | .subscribeOrInsert _, t =>
      match t.current with
      | some (i, c) =>
          (⟨i, c.receivers.length⟩,
            { t with channels := t.channels.set i c.subscribe })
      | none =>
          (⟨t.channels.length, 0⟩,
            ⟨some t.channels.length,
              t.channels ++ [Channel.subscribe ⟨[], []⟩]⟩)
  | .recv _ rx, t =>
      match t.channels[rx.channel]? with
      | none => (.closed, t)
      | some c =>
          match c.receivers[rx.slot]? with
          | none => (.closed, t)
          | some r =>
              let (out, r') :=
                c.recv buffer (decide (t.registered = some rx.channel)) r
              let c' := { c with receivers := c.receivers.set rx.slot r' }
              (out, { t with channels := t.channels.set rx.channel c' })
  | .drop _ rx, t =>
      match t.channels[rx.channel]? with
      | none => ((), t)
      | some c =>
          let c' := { c with receivers :=
            c.receivers.modify rx.slot fun r => { r with live := false } }
          ((), { t with channels := t.channels.set rx.channel c' })

/-- The tenant a hub step is about. -/
def WatchPrim.tenant : WatchPrim → String
  | .isWatched t => t
  | .send t _ => t
  | .remove t => t
  | .subscribeExisting t => t
  | .subscribeOrInsert t => t
  | .recv t _ => t
  | .drop t _ => t

/-- Perform a hub step. -/
def WatchPrim.exec (ext : Externals) (p : WatchPrim) (h : WatchHub) :
    p.Resp × WatchHub :=
  let out := p.execTenant (ext.broadcastBuffer h.capacity) (h.tenant p.tenant)
  (out.1, h.set p.tenant out.2)

end FerrisKv
