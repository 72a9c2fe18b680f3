import TapeLang.Stream.Basic

/-!
# Bytes in memory

A cursor into a fixed list of bytes. It always knows whether another byte exists.
-/

namespace TapeLang

structure Cursor where
  bytes : Array UInt8
  /-- The next byte to take. It may lie behind the end. -/
  index : Nat
deriving DecidableEq

namespace Cursor

def ofBytes (bytes : Array UInt8) : Cursor := ⟨bytes, 0⟩

def unread (c : Cursor) : Array UInt8 := c.bytes.drop c.index

def peek (c : Cursor) : Availability := if c.index < c.bytes.size then .ready else .closed

def next (c : Cursor) : Option UInt8 × Cursor :=
  match c.bytes[c.index]? with
  | some byte => (some byte, { c with index := c.index + 1 })
  | none => (none, c)

/-- At most `count` bytes at once. -/
def take (c : Cursor) (count : Nat) : List UInt8 × Cursor :=
  let bytes := (c.bytes.extract c.index (c.index + count)).toList
  (bytes, { c with index := c.index + bytes.length })

def source : Source Cursor where
  canPeek _ := true
  peek c := (.ok c.peek, c)
  next c := let (byte, c) := c.next; (.ok byte, c)
  pause c := c

end Cursor

end TapeLang
