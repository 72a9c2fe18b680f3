import TapeLang.Stream.Basic

/-!
# Channels

Bytes that arrive from elsewhere, in order, until every sender is gone. A look at the channel holds
on to the byte it finds, and the next byte taken is that one.

`Delivery` is a channel with a schedule of what its senders are still going to do.
-/

namespace TapeLang

structure Channel where
  /-- All that has been sent. -/
  sent : Array UInt8
  /-- How many of the sent bytes have been received, by a look or for good. -/
  received : Nat
  /-- Received by a look and not taken. -/
  held : Option UInt8
  /-- Whether some sender is left. -/
  isOpen : Bool
deriving DecidableEq

namespace Channel

def empty : Channel := ⟨#[], 0, none, true⟩

/-- Some bytes are sent, one behind the other. -/
def send : Channel → List UInt8 → Channel
  | ⟨sent, received, held, isOpen⟩, bytes => ⟨sent.appendList bytes, received, held, isOpen⟩

/-- The last sender leaves. -/
def close (c : Channel) : Channel := { c with isOpen := false }

/-- Sent and not received, oldest first. -/
def queue (c : Channel) : List UInt8 := c.sent.toList.drop c.received

/-- Sent and not taken. -/
def undelivered (c : Channel) : List UInt8 := c.held.toList ++ c.queue

def peek (c : Channel) : Availability × Channel :=
  match c.held, c.sent[c.received]? with
  | some _, _ => (.ready, c)
  | none, some byte => (.ready, { c with held := some byte, received := c.received + 1 })
  | none, none => (if c.isOpen then .pending else .closed, c)

/-- The oldest byte, or no byte if all are gone and no sender is left. There is no answer while the
channel is empty and a sender may still send. -/
def next? (c : Channel) : Option (Option UInt8 × Channel) :=
  match c.held, c.sent[c.received]? with
  | some byte, _ => some (some byte, { c with held := none })
  | none, some byte => some (some byte, { c with received := c.received + 1 })
  | none, none => if c.isOpen then none else some (none, c)

/-- What a sender does. -/
inductive Move where
  | send (bytes : List UInt8)
  | close
deriving DecidableEq

def apply (c : Channel) : Move → Channel
  | .send bytes => c.send bytes
  | .close => c.close

end Channel

/-- A channel and the moves its senders are going to make. After the last one no sender is left. -/
structure Delivery where
  channel : Channel
  schedule : List Channel.Move
deriving DecidableEq

namespace Delivery

/-- All bytes sent, and the sender gone. -/
def ofBytes (bytes : List UInt8) : Delivery := ⟨⟨bytes.toArray, 0, none, false⟩, []⟩

/-- All the scheduled moves are made. -/
def arrive (d : Delivery) : Delivery := ⟨d.schedule.foldl Channel.apply d.channel, []⟩

/-- The next byte, waiting for all the scheduled moves if there is none yet. -/
def next (d : Delivery) : Option UInt8 × Delivery :=
  match d.channel.next? with
  | some (byte, channel) => (byte, { d with channel })
  | none =>
    let d := d.arrive
    match d.channel.next? with
    | some (byte, channel) => (byte, { d with channel })
    | none => (none, { d with channel := d.channel.close })

def source : Source Delivery where
  canPeek _ := true
  peek d := let (found, channel) := d.channel.peek; (.ok found, { d with channel })
  next d := let (byte, d) := d.next; (.ok byte, d)
  pause d := d.arrive

end Delivery

end TapeLang
