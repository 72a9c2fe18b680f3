import TapeLang.Stream.Cursor

/-!
# Bytes taken and written

Which bytes have come from the input and which have gone to the output, and how bytes come from
memory.

* `Cursor.next_of_lt`, `Cursor.next_of_end`: the next byte in memory.
* `Event.taken?`, `Event.written?`: the byte of one event.
* `takenBy`, `writtenBy`: the bytes of all events that a device remembers.
-/

namespace TapeLang

/-! ## Bytes in memory -/

namespace Cursor

variable {c : Cursor}

theorem toList_unread (c : Cursor) : c.unread.toList = c.bytes.toList.drop c.index := by
  rw [unread, Array.drop_eq_extract, Array.toList_extract, List.extract_eq_take_drop]
  exact List.take_of_length_le (by simp)

theorem peek_of_lt (h : c.index < c.bytes.size) : c.peek = .ready := if_pos h

theorem peek_of_end (h : c.bytes.size ≤ c.index) : c.peek = .closed := if_neg (Nat.not_lt.mpr h)

theorem next_of_lt (h : c.index < c.bytes.size) :
    c.next = (some c.bytes[c.index], { c with index := c.index + 1 }) := by
  rw [next, Array.getElem?_eq_getElem h]

theorem next_of_end (h : c.bytes.size ≤ c.index) : c.next = (none, c) := by
  rw [next, Array.getElem?_eq_none h]

end Cursor

/-! ## Events -/

/-- The byte that has been taken from the input. -/
def Event.taken? : Event byteStream → Option UInt8
  | ⟨.next, .ok byte⟩ => byte
  | _ => none

/-- The byte that the output has taken. -/
def Event.written? : Event byteStream → Option UInt8
  | ⟨.put byte, .ok true⟩ => some byte
  | _ => none

def takenBy (es : Array (Event byteStream)) : List UInt8 := es.toList.filterMap Event.taken?

def writtenBy (es : Array (Event byteStream)) : List UInt8 := es.toList.filterMap Event.written?

@[simp] theorem takenBy_push (es : Array (Event byteStream)) (e : Event byteStream) :
    takenBy (es.push e) = takenBy es ++ e.taken?.toList := by
  rw [takenBy, Array.toList_push, List.filterMap_append, List.filterMap_cons]
  cases e.taken? <;> rfl

@[simp] theorem writtenBy_push (es : Array (Event byteStream)) (e : Event byteStream) :
    writtenBy (es.push e) = writtenBy es ++ e.written?.toList := by
  rw [writtenBy, Array.toList_push, List.filterMap_append, List.filterMap_cons]
  cases e.written? <;> rfl

/-- What has been written stays written. -/
theorem writtenBy_prefix_logged {σ : Type} (d : Device byteStream σ) (request : ByteRequest)
    (w : σ × Array (Event byteStream)) : writtenBy w.2 <+: writtenBy (d.logged request w).2.2 := by
  simp [Device.logged]

end TapeLang
