import TapeLang.RunError
import TapeLang.Stream.Basic

/-!
# Transfer of one byte

Reading a byte flushes the output first, so that a prompt is visible. If the input can be looked at,
the reader then looks again and again, with a pause between, until there is a byte or the end; only
then it takes the byte. Writing a byte offers it until it is taken; only an interrupted offer is
repeated.

`Transfer.request` and `Transfer.resume` give the one request of each stage and what follows it.
-/

namespace TapeLang

/-- A stage of a transfer. -/
inductive Transfer where
  | prompt
  | look
  | wait
  | take
  | offer (byte : UInt8)
deriving DecidableEq

namespace Transfer

inductive Outcome where
  | received (byte : UInt8)
  | sent
  | failed (e : RunError)
deriving DecidableEq

/-- What follows a reply. -/
inductive Next where
  | stage (t : Transfer)
  | done (outcome : Outcome)
deriving DecidableEq

/-- The first stage of a read whose output is already flushed. -/
def reading (canPeek : Bool) : Transfer := if canPeek then .look else .take

@[reducible]
def request : Transfer → ByteRequest
  | prompt => .flush
  | look => .peek
  | wait => .pause
  | take => .next
  | offer byte => .put byte

/-- `position` is that of the read, for the error at the end of the input. -/
def resume (canPeek : Bool) (position : Option Position) : (t : Transfer) → t.request.Reply → Next
  | prompt, .ok () => .stage (reading canPeek)
  | prompt, .error f => .done (.failed (.stream f))
  | look, .ok .pending => .stage .wait
  | look, .ok _ => .stage .take
  | look, .error f => .done (.failed (.stream f))
  | wait, () => .stage .look
  | take, .ok (some byte) => .done (.received byte)
  | take, .ok none => .done (.failed (.inputExhausted position))
  | take, .error f => .done (.failed (.stream f))
  | offer _, .ok true => .done .sent
  | offer _, .ok false => .done (.failed (.stream .nothingWritten))
  | offer byte, .error f =>
    if f.kind = .interrupted then .stage (.offer byte) else .done (.failed (.stream f))

/-- A transfer as a machine by itself. -/
def Next.step (canPeek : Bool) (position : Option Position) : Next → Action byteStream Next Outcome
  | .stage t => .ask t.request (t.resume canPeek position)
  | .done outcome => .halt outcome

end Transfer

end TapeLang
