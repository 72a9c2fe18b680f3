import TapeLang.Stream.Basic

/-!
# Scripted streams

Streams that follow a script, for replaying a course of events with failures at chosen moments.
-/

namespace TapeLang

/-- One thing that happens at the input. -/
inductive ScriptItem where
  | byte (value : UInt8)
  | pending
  | ended
  | peekFailure (f : Failure)
  | nextFailure (f : Failure)
deriving DecidableEq

namespace ScriptItem

/-- Whether only a look meets this item. -/
def onlyPeeked : ScriptItem → Bool
  | pending | peekFailure _ => true
  | _ => false

end ScriptItem

structure ScriptedInput where
  canPeek : Bool
  script : List ScriptItem
deriving DecidableEq

namespace ScriptedInput

def peek (s : ScriptedInput) : Except Failure Availability × ScriptedInput :=
  match s.script with
  | .pending :: rest => (.ok .pending, { s with script := rest })
  | .peekFailure f :: rest => (.error f, { s with script := rest })
  | [] | .ended :: _ => (.ok .closed, s)
  | .byte _ :: _ | .nextFailure _ :: _ => (.ok .ready, s)

/-- Items that only a look meets are passed over. -/
def next (s : ScriptedInput) : Except Failure (Option UInt8) × ScriptedInput :=
  match s.script.dropWhile ScriptItem.onlyPeeked with
  | .byte value :: rest => (.ok (some value), { s with script := rest })
  | .nextFailure f :: rest => (.error f, { s with script := rest })
  | _ :: rest => (.ok none, { s with script := rest })
  | [] => (.ok none, { s with script := [] })

def source : Source ScriptedInput where
  canPeek s := s.canPeek
  peek := peek
  next := next
  pause s := s

end ScriptedInput

/-- How a call to put a byte can go wrong. -/
inductive PutFault where
  | refused
  | failure (f : Failure)
deriving DecidableEq

/-- An output whose calls go wrong at given numbers, counted from 0 apart for `put` and `flush`. -/
structure ScriptedOutput where
  written : Array UInt8
  puts : Nat
  flushes : Nat
  putFaults : List (Nat × PutFault)
  flushFaults : List (Nat × Failure)
deriving DecidableEq

namespace ScriptedOutput

def ofFaults (putFaults : List (Nat × PutFault)) (flushFaults : List (Nat × Failure)) :
    ScriptedOutput :=
  ⟨#[], 0, 0, putFaults, flushFaults⟩

def put (byte : UInt8) (s : ScriptedOutput) : Except Failure Bool × ScriptedOutput :=
  match s.putFaults.lookup s.puts with
  | some .refused => (.ok false, { s with puts := s.puts + 1 })
  | some (.failure f) => (.error f, { s with puts := s.puts + 1 })
  | none => (.ok true, { s with puts := s.puts + 1, written := s.written.push byte })

def flush (s : ScriptedOutput) : Except Failure Unit × ScriptedOutput :=
  let s' := { s with flushes := s.flushes + 1 }
  match s.flushFaults.lookup s.flushes with
  | some f => (.error f, s')
  | none => (.ok (), s')

def sink : Sink ScriptedOutput := ⟨put, flush⟩

end ScriptedOutput

end TapeLang
