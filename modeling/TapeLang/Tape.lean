import TapeLang.Cells

/-!
# The tape

A circular row of byte cells and a pointer to one of them.

* `Tape.advance` wraps past the end with one subtraction; `Tape.pointer_advance` says where it
  leads.
* `Tape.nonzero` lists the cells that are in use, `Tape.text` writes a tape out.
-/

namespace TapeLang

structure Tape where
  cells : Cells
  pointer : Nat
  pointer_lt : pointer < cells.size
deriving DecidableEq

namespace Tape

def blank (length : Nat) (h : 0 < length) : Tape := ⟨.blank length, 0, h⟩

def length (t : Tape) : Nat := t.cells.size

/-- The current cell. -/
def get (t : Tape) : UInt8 := t.cells.get t.pointer t.pointer_lt

def set : Tape → UInt8 → Tape
  | ⟨cells, pointer, h⟩, value => ⟨cells.set pointer value, pointer, h⟩

@[simp] theorem length_set (t : Tape) (value : UInt8) : (t.set value).length = t.length := rfl

@[simp] theorem pointer_set (t : Tape) (value : UInt8) : (t.set value).pointer = t.pointer := rfl

@[simp] theorem get_set (t : Tape) (value : UInt8) : (t.set value).get = value := by
  simp [get, set, Cells.get_set]

def add (t : Tape) (amount : UInt8) : Tape := t.set (t.get + amount)

/-- Put the pointer on cell `pointer`, counted round the tape. -/
def seek (t : Tape) (pointer : Nat) : Tape :=
  ⟨t.cells, pointer % t.cells.size, Nat.mod_lt _ (Nat.zero_lt_of_lt t.pointer_lt)⟩

/-- Go `count` cells forward. A `count` below the length passes the end at most once, so that one
subtraction brings the pointer back. -/
def advance (t : Tape) (count : Nat) : Tape :=
  if h : count < t.cells.size - t.pointer then
    ⟨t.cells, t.pointer + count, by have := t.pointer_lt; omega⟩
  else t.seek (count - (t.cells.size - t.pointer))

@[simp] theorem cells_advance (t : Tape) (count : Nat) : (t.advance count).cells = t.cells := by
  unfold advance seek
  split <;> rfl

theorem pointer_advance (t : Tape) (count : Nat) :
    (t.advance count).pointer = (t.pointer + count) % t.length := by
  have hp := t.pointer_lt
  unfold advance seek length
  split
  · rw [Nat.mod_eq_of_lt (by omega)]
  · rw [show t.pointer + count = count - (t.cells.size - t.pointer) + t.cells.size by omega,
      Nat.add_mod_right]

/-- The cells in use, each with its index. -/
def nonzero (t : Tape) : List (Nat × UInt8) := t.cells.nonzero

/-- The number of cells up to the last one that is in use or pointed at. -/
def used (t : Tape) : Nat := max ((t.nonzero.getLast?.map (·.1 + 1)).getD 0) (t.pointer + 1)

/-- The length, the pointer, and the cells that are used. -/
def text (t : Tape) : String :=
  let cells := ", ".intercalate ((t.cells.take t.used).map toString)
  s!"Tape \x7b len: {t.length}, pointer: {t.pointer}, cells: [{cells}] \x7d"

end Tape

end TapeLang
