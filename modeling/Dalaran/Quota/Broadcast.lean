import Dalaran.Base.RingBuffer
import Dalaran.Quota.Sync

/-
  The broadcast quota channel: a ring that never overtakes its readers.

  A tokio broadcast channel keeps a value until each receiver has read it, and
  overwrites the oldest one when it is full. The quota channel counts the messages
  that are alive and sends only while there is room, so that it never is. A message
  is wrapped, and the wrapper's last clone to be dropped lowers the counters: the
  ring holds one until the last receiver has read the message, every receiver that
  is reading it holds another, and a sender holds it between reserving and sending.

  Assumed of tokio: the ring of `Base/RingBuffer.lean`, with room for at least the number
  of messages asked for. Sending, subscribing, reading one message and closing a
  receiver are atomic. A receiver that is dropped reads on up to where the ring was,
  and ignores that it was overtaken.

  Correspondence (Rust ↔ Lean):
    `channel`, and the panic of `broadcast::channel` on a capacity of 2^63 ↔ `BroadcastLimits`,
      `Broadcast.channel`
    `ChannelState`, `Locked` ↔ fields of `Broadcast`
    `TrackedMessage` ↔ `SizedMessage`
    `Drop for TrackedInner`, of the last clone ↔ `Broadcast.forget`, `letGo`
    `Sender::try_send`, up to the end of the lock ↔ `Broadcast.reserve`
    `self.inner.send` in it ↔ `Broadcast.sendInner`
    `Sender::send_async` ↔ `try_send` again and again
    `Sender::subscribe` ↔ `subscribe`, then `subscribeInner`
    `Receiver::recv`: reading, and dropping the clone ↔ `recv`, then `finishRecv`
    `Drop for Receiver`, then the drop of `inner` ↔ `dropReceiver`, then `dropInner` and `drain`
  `Handle.start` and `Handle.got` only record what happened: where a receiver joined
  and what it got.
-/

namespace Dalaran

/-- The limits a channel is made with. -/
structure BroadcastLimits where
  maxMessages : UInt64
  maxBytes : UInt64
  ringCapacity : Nat
  maxMessages_pos : 1 ≤ maxMessages.toNat
  maxMessages_lt : maxMessages.toNat < 2 ^ 63
  maxMessages_le : maxMessages.toNat ≤ ringCapacity

/-- One receiver: whether its `Drop` runs, the message it is reading, and what it got. -/
structure Handle (α : Type) where
  start : Nat
  dropping : Bool
  inHand : Option Nat
  got : List α

structure Broadcast (α : Type) where
  bytesInFlight : UInt64
  messagesInFlight : UInt64
  numReceivers : Nat
  reserved : List (SizedMessage α)
  subscribing : Nat
  ring : RingBuffer (SizedMessage α)
  handles : List (Handle α)
  lagged : Bool

/-- One atomic step of a sender or a receiver. -/
inductive BroadcastOp (α : Type) where
  | reserve (message : SizedMessage α)
  | sendInner (sender : Nat)
  | subscribe
  | subscribeInner
  | recv (receiver : Nat)
  | finishRecv (receiver : Nat)
  | dropReceiver (receiver : Nat)
  | dropInner (receiver : Nat)
  | drain (receiver : Nat)

namespace Broadcast

variable {α : Type}

def channel (limits : BroadcastLimits) : Broadcast α :=
  { bytesInFlight := 0, messagesInFlight := 0, numReceivers := 1, reserved := [], subscribing := 0,
    ring := { capacity := limits.ringCapacity, slots := [], cursors := [⟨0, none⟩] },
    handles := [⟨0, false, none, []⟩], lagged := false }

/-- Whether anything but a sender still holds the message at a position. -/
def isReferenced (ch : Broadcast α) (pos : Nat) : Bool :=
  ch.ring.holds pos || ch.handles.any (·.inHand == some pos)

def messageAt (ch : Broadcast α) (pos : Nat) : Option (SizedMessage α) := ch.ring.values[pos]?

/-- The last clone of a message is dropped. -/
def forget (ch : Broadcast α) (message : SizedMessage α) : Broadcast α :=
  { ch with
    bytesInFlight := ch.bytesInFlight - message.sizeBytes
    messagesInFlight := ch.messagesInFlight - 1 }

/-- A clone of the message at a position was dropped. -/
def letGo (ch : Broadcast α) (pos : Nat) : Broadcast α :=
  if ch.isReferenced pos then ch
  else
    match ch.messageAt pos with
    | some message => ch.forget message
    | none => ch

/-- Whether a message of this size may be sent: it fits both limits, or is the only one. -/
def hasRoom (limits : BroadcastLimits) (ch : Broadcast α) (sizeBytes : UInt64) : Bool :=
  (decide (ch.messagesInFlight + 1 ≤ limits.maxMessages) && decide (ch.bytesInFlight + sizeBytes ≤ limits.maxBytes))
    || (ch.bytesInFlight == 0 && ch.messagesInFlight == 0)

/-- The part of `try_send` under the lock: the space is reserved, unless nobody listens or there is none. -/
def reserve (limits : BroadcastLimits) (ch : Broadcast α) (message : SizedMessage α) : Broadcast α :=
  if ch.numReceivers = 0 then ch
  else if ch.hasRoom limits message.sizeBytes then
    { ch with
      bytesInFlight := ch.bytesInFlight + message.sizeBytes
      messagesInFlight := ch.messagesInFlight + 1
      reserved := ch.reserved ++ [message] }
  else ch

/-- A value enters the ring. The one it overwrites is dropped, if a receiver still had to read it. -/
def push (ch : Broadcast α) (message : SizedMessage α) : Broadcast α :=
  let sent : Broadcast α := { ch with ring := ch.ring.send message }
  if ch.ring.capacity ≤ ch.ring.tail ∧ ch.ring.holds (ch.ring.tail - ch.ring.capacity) = true then
    sent.letGo (ch.ring.tail - ch.ring.capacity)
  else sent

/-- The rest of `try_send`: with no receiver left, the message is dropped again. -/
def sendInner (ch : Broadcast α) (sender : Nat) (message : SizedMessage α) : Broadcast α :=
  let ch : Broadcast α := { ch with reserved := ch.reserved.eraseIdx sender }
  if ch.ring.receiverCount = 0 then ch.forget message else ch.push message

def recv (ch : Broadcast α) (receiver : Nat) (c : Cursor) (handle : Handle α) : Broadcast α :=
  if ch.ring.lags c then { ch with ring := ch.ring.skip receiver c, lagged := true }
  else
    { ch with
      ring := ch.ring.read receiver c
      handles := ch.handles.set receiver { handle with inHand := some c.next } }

/-- The value is returned, and the clone it came in is dropped. -/
def finishRecv (ch : Broadcast α) (receiver : Nat) (handle : Handle α) (pos : Nat) : Broadcast α :=
  let got := handle.got ++ ((ch.messageAt pos).map (·.msg)).toList
  let ch : Broadcast α := { ch with handles := ch.handles.set receiver { handle with inHand := none, got := got } }
  ch.letGo pos

/-- A closed receiver reads a message for nobody. -/
def drain (ch : Broadcast α) (receiver : Nat) (c : Cursor) : Broadcast α :=
  if ch.ring.lags c then { ch with ring := ch.ring.skip receiver c }
  else
    let ch : Broadcast α := { ch with ring := ch.ring.read receiver c }
    ch.letGo c.next

/-- One atomic step, unless the party cannot take it there. -/
def step (limits : BroadcastLimits) (ch : Broadcast α) : BroadcastOp α → Option (Broadcast α)
  | .reserve message => some (ch.reserve limits message)
  | .sendInner sender => ch.reserved[sender]?.map fun message => ch.sendInner sender message
  | .subscribe => some { ch with numReceivers := ch.numReceivers + 1, subscribing := ch.subscribing + 1 }
  | .subscribeInner =>
    if 0 < ch.subscribing then
      some { ch with
        subscribing := ch.subscribing - 1
        ring := ch.ring.subscribe
        handles := ch.handles ++ [⟨ch.ring.tail, false, none, []⟩] }
    else none
  | .recv receiver =>
    match ch.ring.cursors[receiver]?, ch.handles[receiver]? with
    | some c, some handle =>
      if handle.dropping = false ∧ handle.inHand = none ∧ c.next < ch.ring.tail then
        some (ch.recv receiver c handle)
      else none
    | _, _ => none
  | .finishRecv receiver =>
    match ch.handles[receiver]? with
    | some handle => handle.inHand.map fun pos => ch.finishRecv receiver handle pos
    | none => none
  | .dropReceiver receiver =>
    match ch.handles[receiver]? with
    | some handle =>
      if handle.dropping = false ∧ handle.inHand = none then
        some { ch with
          numReceivers := ch.numReceivers - 1
          handles := ch.handles.set receiver { handle with dropping := true } }
      else none
    | none => none
  | .dropInner receiver =>
    match ch.ring.cursors[receiver]?, ch.handles[receiver]? with
    | some c, some handle =>
      if handle.dropping = true ∧ c.stop = none then some { ch with ring := ch.ring.close receiver c }
      else none
    | _, _ => none
  | .drain receiver =>
    match ch.ring.cursors[receiver]? with
    | some c =>
      match c.stop with
      | some stop => if c.next < stop then some (ch.drain receiver c) else none
      | none => none
    | none => none

/-! ## What is in flight -/

/-- The positions whose message is alive. -/
def alive (ch : Broadcast α) : List Nat := (List.range ch.ring.tail).filter ch.isReferenced

/-- The messages that count: those a sender is about to send, and those in the ring or being read. -/
def inFlight (ch : Broadcast α) : List (SizedMessage α) := ch.reserved ++ ch.alive.filterMap ch.messageAt

/-- The counters are exact, that of the bytes up to its width, and no more messages are in flight than are allowed. -/
structure Counted (limits : BroadcastLimits) (ch : Broadcast α) : Prop where
  messages : ch.messagesInFlight.toNat = ch.inFlight.length
  bytes : ch.bytesInFlight.toNat = totalSize ch.inFlight % 2 ^ 64
  bound : ch.inFlight.length ≤ limits.maxMessages.toNat

end Broadcast

/-- What a receiver got, with the message it is reading. -/
def Handle.delivered {α : Type} (handle : Handle α) (values : List (SizedMessage α)) : List α :=
  handle.got ++ ((handle.inHand.bind fun pos => values[pos]?).map (·.msg)).toList

/-- What holds of one receiver, of all that was sent: it got everything from where it joined up to
where it is, and has not been overtaken. -/
structure Reads {α : Type} (capacity : Nat) (values : List (SizedMessage α)) (c : Cursor) (handle : Handle α) :
    Prop where
  start_le : handle.start ≤ c.next
  opened : handle.dropping = false → c.stop = none
  room : c.stop = none → values.length ≤ c.next + capacity
  inHand : ∀ pos, handle.inHand = some pos → handle.dropping = false ∧ pos + 1 = c.next ∧ handle.start ≤ pos
  delivered : c.stop = none →
    handle.delivered values = ((values.map (·.msg)).drop handle.start).take (c.next - handle.start)
  got : handle.got <+: (values.map (·.msg)).drop handle.start

structure Delivers {α : Type} (limits : BroadcastLimits) (ring : RingBuffer (SizedMessage α)) (handles : List (Handle α))
    (numReceivers subscribing : Nat) : Prop where
  consistent : ring.Consistent
  capacity : ring.capacity = limits.ringCapacity
  aligned : handles.length = ring.cursors.length
  reads : ∀ (i : Nat) (c : Cursor) (handle : Handle α),
    ring.cursors[i]? = some c → handles[i]? = some handle → Reads ring.capacity ring.values c handle
  receivers : numReceivers = handles.countP (!·.dropping) + subscribing

/-- What holds of the channel between two steps. -/
structure Broadcast.Sound {α : Type} (limits : BroadcastLimits) (ch : Broadcast α) : Prop where
  counted : ch.Counted limits
  delivers : Delivers limits ch.ring ch.handles ch.numReceivers ch.subscribing
  lagged : ch.lagged = false

end Dalaran
