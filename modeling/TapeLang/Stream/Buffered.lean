import TapeLang.Stream.Basic

/-!
# Buffered streams

A stream that arrives in chunks, such as a pipe, read through a buffer of limited capacity. It
cannot be looked at without waiting, so programs take bytes from it directly.
-/

namespace TapeLang

/-- What one read of the stream below gives. No bytes mean that it has nothing more for now. -/
inductive Chunk where
  | bytes (content : List UInt8)
  | failure (f : Failure)
deriving DecidableEq

structure Buffered where
  capacity : Nat
  /-- Read but not taken yet. -/
  buffer : List UInt8
  chunks : List Chunk
deriving DecidableEq

namespace Buffered

def ofChunks (capacity : Nat) (chunks : List Chunk) : Buffered := ⟨capacity, [], chunks⟩

def ofBytes (capacity : Nat) (bytes : List UInt8) : Buffered := ofChunks capacity [.bytes bytes]

/-- Read into an empty buffer. A chunk larger than the capacity keeps its rest for the next read,
and a failure is met once. -/
def fill (b : Buffered) : Except Failure Unit × Buffered :=
  match b.buffer, b.chunks with
  | [], .bytes content :: rest =>
    let later := content.drop b.capacity
    let chunks := if later.isEmpty then rest else .bytes later :: rest
    (.ok (), { b with buffer := content.take b.capacity, chunks })
  | [], .failure f :: rest => (.error f, { b with chunks := rest })
  | _, _ => (.ok (), b)

def peek (b : Buffered) : Except Failure Availability × Buffered :=
  match b.fill with
  | (.ok (), b) => (.ok (if b.buffer.isEmpty then .closed else .ready), b)
  | (.error f, b) => (.error f, b)

def next (b : Buffered) : Except Failure (Option UInt8) × Buffered :=
  match b.fill with
  | (.ok (), b) => (.ok b.buffer.head?, { b with buffer := b.buffer.tail })
  | (.error f, b) => (.error f, b)

/-- The bytes that a reader has not taken: buffered ones, then those still to come. -/
def unread (b : Buffered) : List UInt8 :=
  b.buffer ++ b.chunks.flatMap fun
    | .bytes content => content
    | .failure _ => []

def source : Source Buffered where
  canPeek _ := false
  peek := peek
  next := next
  pause b := b

end Buffered

end TapeLang
