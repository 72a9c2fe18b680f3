import Mathlib.Data.Nat.ModEq
import TapeLang.Proofs.Tree.Alike

/-!
# Turning a tape

A circular tape has no first cell and no direction of its own. A turn takes every cell to another
place, and the pointer with it: a rotation by some number of cells, or the reflection that takes
place `i` to place `length - i`. Writing commutes with every turn, and so does moving, if the count
of the move is turned with the tape.

* `Turn`: a permutation of the places of circular tapes; `Turn.rotation` and `Turn.reflection`.
* `Tape.turn`: the tape after a turn; `Tape.cell_turn`: what it holds.
* `Turn.Carries`: how a turn changes the counts of moves; `Tape.advance_turn`: what that means.
-/

namespace TapeLang

/-! ## Rows and tapes by their cells -/

namespace Cells

variable {f : Nat → UInt8}

/-- The row of `size` bytes with `f i` at index `i`. -/
def ofFn (size : Nat) (f : Nat → UInt8) : Cells :=
  size.fold (fun i _ c => c.set i (f i)) (.blank size)

theorem size_fold_set (n : Nat) (c : Cells) :
    (n.fold (fun i _ c => c.set i (f i)) c).size = c.size := by
  induction n with
  | zero => rfl
  | succ n ih =>
    rw [Nat.fold_succ, size_set]
    exact ih

/-- After `n` writes the first `n` bytes are written. -/
theorem getD_fold_set {n : Nat} {c : Cells} (hn : n ≤ c.size) (i : Nat) :
    (n.fold (fun i _ c => c.set i (f i)) c).getD i 0 = if i < n then f i else c.getD i 0 := by
  induction n with
  | zero => rfl
  | succ n ih =>
    have hlt : n < (n.fold (fun i _ c => c.set i (f i)) c).size := by
      rw [size_fold_set]
      exact hn
    rw [Nat.fold_succ, getD_set _ hlt, ih (Nat.le_of_succ_le hn)]
    by_cases hi : n = i
    · subst hi
      simp
    · simp only [if_neg hi, show i < n + 1 ↔ i < n by omega]

@[simp] theorem size_ofFn (size : Nat) (f : Nat → UInt8) : (ofFn size f).size = size :=
  size_fold_set size (.blank size)

theorem getD_ofFn {size i : Nat} (hi : i < size) : (ofFn size f).getD i 0 = f i := by
  rw [ofFn, getD_fold_set (Nat.le_refl size), if_pos hi]

end Cells

namespace Tape

variable {t u : Tape}

/-- What is on cell `i`. -/
def cell (t : Tape) (i : Nat) : UInt8 := t.cells.getD i 0

theorem pointer_lt_length (t : Tape) : t.pointer < t.length := t.pointer_lt

theorem get_eq_cell (t : Tape) : t.get = t.cell t.pointer := (dif_pos t.pointer_lt).symm

theorem cell_set (t : Tape) (v : UInt8) (i : Nat) :
    (t.set v).cell i = if t.pointer = i then v else t.cell i :=
  Cells.getD_set t.cells t.pointer_lt i v 0

theorem cell_advance (t : Tape) (n i : Nat) : (t.advance n).cell i = t.cell i := by
  rw [cell, cells_advance, cell]

/-- Two tapes of one length with the same cells and the same pointer are the same. -/
theorem ext_cell (hl : t.length = u.length) (hp : t.pointer = u.pointer)
    (hc : ∀ i < t.length, t.cell i = u.cell i) : t = u := by
  refine ext_cells (Cells.ext_get hl fun i hi hi' => ?_) hp
  have hcell := hc i hi
  rwa [cell, cell, Cells.getD, Cells.getD, dif_pos hi, dif_pos hi'] at hcell

end Tape

/-! ## Turns -/

/-- A permutation of the places of a circular tape, for tapes of every length. `back` is its
inverse. -/
structure Turn where
  place : (length : Nat) → Nat → Nat
  back : (length : Nat) → Nat → Nat
  place_lt : ∀ {length i : Nat}, i < length → place length i < length
  back_lt : ∀ {length i : Nat}, i < length → back length i < length
  back_place : ∀ {length i : Nat}, i < length → back length (place length i) = i
  place_back : ∀ {length i : Nat}, i < length → place length (back length i) = i

namespace Turn

/-- So many steps lead once round the circle and back to the start. -/
theorem mod_add_back {length i : Nat} (r : Nat) (hi : i < length) :
    (i + r + (length - r % length)) % length = i := by
  have hr := Nat.mod_lt r (Nat.zero_lt_of_lt hi)
  have hround : i + r + (length - r % length) = i + length * (r / length + 1) := by
    have := Nat.div_add_mod r length
    rw [Nat.mul_succ]
    omega
  rw [hround, Nat.add_mul_mod_self_left, Nat.mod_eq_of_lt hi]

/-- Every cell goes `r` places forward. -/
def rotation (r : Nat) : Turn where
  place length i := (i + r) % length
  back length i := (i + (length - r % length)) % length
  place_lt hi := Nat.mod_lt _ (Nat.zero_lt_of_lt hi)
  back_lt hi := Nat.mod_lt _ (Nat.zero_lt_of_lt hi)
  back_place hi := by rw [Nat.mod_add_mod, mod_add_back r hi]
  place_back hi := by rw [Nat.mod_add_mod, Nat.add_right_comm, mod_add_back r hi]

theorem opposite_opposite {length i : Nat} (hi : i < length) :
    (length - (length - i) % length) % length = i := by
  by_cases hz : i = 0
  · simp [hz]
  · rw [Nat.mod_eq_of_lt (show length - i < length by omega), Nat.sub_sub_self (Nat.le_of_lt hi),
      Nat.mod_eq_of_lt hi]

/-- The cell at place `i` goes to place `length - i`, counted round the circle. -/
def reflection : Turn where
  place length i := (length - i) % length
  back length i := (length - i) % length
  place_lt hi := Nat.mod_lt _ (Nat.zero_lt_of_lt hi)
  back_lt hi := Nat.mod_lt _ (Nat.zero_lt_of_lt hi)
  back_place := opposite_opposite
  place_back := opposite_opposite

/-- To move by `n` and then turn is to turn and then move by `count length n`. -/
def Carries (turn : Turn) (count : Nat → Nat → Nat) : Prop :=
  ∀ {length i : Nat} (n : Nat), i < length →
    turn.place length ((i + n) % length) = (turn.place length i + count length n) % length

/-- As many steps in the other direction. -/
def opposite (length n : Nat) : Nat := (length - n % length) % length

theorem add_opposite {length : Nat} (hpos : 0 < length) (n : Nat) :
    (n + opposite length n) % length = 0 := by
  have hback := mod_add_back n hpos
  rwa [Nat.zero_add, ← Nat.add_mod_mod] at hback

theorem rotation_carries (r : Nat) : (rotation r).Carries fun _ n => n := by
  intro length i n _
  show ((i + n) % length + r) % length = ((i + r) % length + n) % length
  rw [Nat.mod_add_mod, Nat.mod_add_mod, Nat.add_right_comm]

/-- Steps that undo the same steps are the same, counted round the circle. -/
theorem eq_of_undoes {length a b c : Nat} (hb : b < length) (hc : c < length)
    (h : (a + b) % length = 0) (h' : (a + c) % length = 0) : b = c :=
  Nat.ModEq.eq_of_lt_of_lt (Nat.ModEq.add_left_cancel' a (h.trans h'.symm)) hb hc

theorem opposite_lt {length : Nat} (hpos : 0 < length) (n : Nat) : opposite length n < length :=
  Nat.mod_lt _ hpos

theorem opposite_add {length : Nat} (hpos : 0 < length) (m n : Nat) :
    opposite length (m + n) = (opposite length m + opposite length n) % length := by
  refine eq_of_undoes (opposite_lt hpos _) (Nat.mod_lt _ hpos) (add_opposite hpos (m + n)) ?_
  calc (m + n + (opposite length m + opposite length n) % length) % length
    _ = ((m + opposite length m) + (n + opposite length n)) % length := by
      rw [Nat.add_mod_mod, Nat.add_add_add_comm]
    _ = 0 := by rw [Nat.add_mod, add_opposite hpos, add_opposite hpos, Nat.zero_mod]

theorem reflection_carries : reflection.Carries opposite := by
  intro length i n hi
  have hplace (k : Nat) : reflection.place length (k % length) = opposite length k := rfl
  have hi' : reflection.place length i = opposite length i := by
    rw [← hplace, Nat.mod_eq_of_lt hi]
  rw [hplace, hi', opposite_add (Nat.zero_lt_of_lt hi)]

end Turn

/-! ## Tapes after a turn -/

namespace Tape

variable (τ : Turn)

/-- Every cell at its new place, and the pointer where its cell has gone. -/
def turn (t : Tape) : Tape where
  cells := .ofFn t.length fun i => t.cell (τ.back t.length i)
  pointer := τ.place t.length t.pointer
  pointer_lt := by
    rw [Cells.size_ofFn]
    exact τ.place_lt t.pointer_lt

@[simp] theorem length_turn (t : Tape) : (t.turn τ).length = t.length := Cells.size_ofFn _ _

theorem pointer_turn (t : Tape) : (t.turn τ).pointer = τ.place t.length t.pointer := rfl

theorem cell_turn_eq (t : Tape) {i : Nat} (hi : i < t.length) :
    (t.turn τ).cell i = t.cell (τ.back t.length i) := Cells.getD_ofFn hi

/-- What was on cell `i` is now where `i` has gone. -/
theorem cell_turn (t : Tape) {i : Nat} (hi : i < t.length) :
    (t.turn τ).cell (τ.place t.length i) = t.cell i := by
  rw [cell_turn_eq τ t (τ.place_lt hi), τ.back_place hi]

@[simp] theorem get_turn (t : Tape) : (t.turn τ).get = t.get := by
  rw [get_eq_cell, pointer_turn, cell_turn τ t t.pointer_lt_length, get_eq_cell]

theorem set_turn (t : Tape) (v : UInt8) : (t.turn τ).set v = (t.set v).turn τ := by
  refine ext_cell (by simp) rfl fun i hi => ?_
  have hi : i < t.length := by simpa using hi
  have hplace : τ.place t.length t.pointer = i ↔ t.pointer = τ.back t.length i := by
    constructor
    · rintro rfl
      rw [τ.back_place t.pointer_lt_length]
    · intro h
      rw [h, τ.place_back hi]
  rw [cell_set, cell_turn_eq τ (t.set v) hi, cell_turn_eq τ t hi, length_set, cell_set]
  simp only [pointer_turn, hplace]

theorem add_turn (t : Tape) (v : UInt8) : (t.turn τ).add v = (t.add v).turn τ := by
  rw [add, get_turn, set_turn, add]

/-- A move on the turned tape has the count that the turn makes of it. -/
theorem advance_turn {τ : Turn} {count : Nat → Nat → Nat} (h : τ.Carries count) (t : Tape)
    (n : Nat) : (t.turn τ).advance (count t.length n) = (t.advance n).turn τ := by
  refine ext_cell (by simp) ?_ fun i hi => ?_
  · rw [pointer_advance, pointer_turn, pointer_turn, length_turn, length_advance, pointer_advance,
      h n t.pointer_lt_length]
  · have hi : i < t.length := by simpa using hi
    have hi' : i < (t.advance n).length := by simpa using hi
    rw [cell_advance, cell_turn_eq τ t hi, cell_turn_eq τ _ hi', length_advance, cell_advance]

end Tape

end TapeLang
