import TapeLang.Failure
import TapeLang.Interaction

/-!
# Byte streams

What a running program may ask of its input and output, and the two halves of a device that answers:
a `Source` of bytes and a `Sink` for them.
-/

namespace TapeLang

/-- What a look at the input finds: a byte that can be had at once, nothing yet, or the end. -/
inductive Availability where
  | ready
  | pending
  | closed
deriving DecidableEq

/-- A request to the streams of a program. `canPeek` asks whether the input can be looked at without
taking anything, `pause` passes the time until the next look. -/
inductive ByteRequest where
  | canPeek
  | peek
  | next
  | put (byte : UInt8)
  | flush
  | pause
deriving DecidableEq

/-- `next` gives no byte at the end of the input; `put` says whether the byte was taken. -/
@[reducible]
def ByteRequest.Reply : ByteRequest → Type
  | canPeek => Bool
  | peek => Except Failure Availability
  | next => Except Failure (Option UInt8)
  | put _ => Except Failure Bool
  | flush => Except Failure Unit
  | pause => Unit

@[reducible]
def byteStream : Interface := ⟨ByteRequest, ByteRequest.Reply⟩

/-- An input with states `σ`. -/
structure Source (σ : Type) where
  canPeek : σ → Bool
  peek : σ → Except Failure Availability × σ
  next : σ → Except Failure (Option UInt8) × σ
  pause : σ → σ

/-- An output with states `τ`. -/
structure Sink (τ : Type) where
  put : UInt8 → τ → Except Failure Bool × τ
  flush : τ → Except Failure Unit × τ

/-- An input and an output side by side. -/
def Source.beside {σ τ : Type} (source : Source σ) (sink : Sink τ) : Device byteStream (σ × τ)
  | .canPeek, world => (source.canPeek world.1, world)
  | .peek, (input, output) =>
    let (reply, input) := source.peek input
    (reply, input, output)
  | .next, (input, output) =>
    let (reply, input) := source.next input
    (reply, input, output)
  | .put byte, (input, output) =>
    let (reply, output) := sink.put byte output
    (reply, input, output)
  | .flush, (input, output) =>
    let (reply, output) := sink.flush output
    (reply, input, output)
  | .pause, (input, output) => ((), source.pause input, output)

/-- An output that keeps every byte. -/
def collecting : Sink (Array UInt8) where
  put byte written := (.ok true, written.push byte)
  flush written := (.ok (), written)

end TapeLang
