import Mathlib.Data.List.TakeWhile
import TapeLang.LabelCode.Listing

/-!
# Reading a listing

The lines of a listing say what the operations are: each kind of operation begins in its own way,
and its numbers are in decimal digits, with something else behind.

* `Operation.line_injective`: two operations with the same line are the same.
-/

namespace TapeLang

namespace Operation

def digits (n : Nat) : List Char := Nat.toDigits 10 n

theorem digits_injective {m n : Nat} (h : digits m = digits n) : m = n := by
  have hvalue := congrArg (Nat.ofDigitChars 10 · 0) h
  simpa only [digits, Nat.ofDigitChars_toDigits (b := 10) (by decide) (by decide)] using hvalue

theorem isDigit_of_mem_digits {n : Nat} {ch : Char} (h : ch ∈ digits n) : ch.isDigit :=
  Nat.isDigit_of_mem_toDigits (by decide) (by decide) h

/-- A number and what stands behind it, with a blank in between. -/
theorem digits_append_inj {m n : Nat} {xs ys : List Char}
    (h : digits m ++ ' ' :: xs = digits n ++ ' ' :: ys) : m = n ∧ xs = ys := by
  have htake := congrArg (List.takeWhile Char.isDigit) h
  rw [List.takeWhile_append_of_pos fun _ => isDigit_of_mem_digits,
    List.takeWhile_append_of_pos fun _ => isDigit_of_mem_digits] at htake
  have hdigits : digits m = digits n := List.append_cancel_right htake
  rw [hdigits] at h
  exact ⟨digits_injective hdigits, (List.cons.inj (List.append_cancel_left h)).2⟩

/-- What a line says of the end of the tape, behind a bracket. -/
def wrapText : Wrap → List Char
  | .mask bits => "mask ".toList ++ (digits bits.toNat ++ [')'])
  | .length cells => "wrap ".toList ++ (digits cells.toNat ++ [')'])

theorem wrapText_injective {v w : Wrap} (h : wrapText v = wrapText w) : v = w := by
  -- the first characters tell which wrap it is
  have hhead := congrArg List.head? h
  cases v <;> cases w
  case mask.length | length.mask => cases hhead
  case mask.mask | length.length =>
    have hdigits := digits_injective (List.append_cancel_right (List.append_cancel_left h))
    rw [UInt32.toNat_inj.mp hdigits]

/-- A line, character by character. -/
def text : Operation → List Char
  | .prologue => "prologue".toList
  | .epilogue => "epilogue".toList
  | .bind l => "L".toList ++ (digits l ++ [':'])
  | .jump l => "jmp L".toList ++ digits l
  | .branchIfZero l => "jz L".toList ++ digits l
  | .move count wrap => "move ".toList ++ (digits count.toNat ++ ' ' :: '(' :: wrapText wrap)
  | .add amount => "add ".toList ++ digits amount.toNat
  | .reset => "reset".toList
  | .read index => "read #".toList ++ digits index.toNat
  | .write index => "write #".toList ++ digits index.toNat

theorem toList_line (op : Operation) : op.line.toList = op.text := by
  have hword (n : UInt32) : (toString n).toList = digits n.toNat := Nat.toList_repr
  have hbyte (n : UInt8) : (toString n).toList = digits n.toNat := Nat.toList_repr
  have hlabel (l : Label) : (toString l).toList = digits l := Nat.toList_repr
  cases op with
  | prologue | epilogue | reset => rfl
  | move count wrap =>
    cases wrap <;>
    · simp only [line, String.toList_append, hword, List.append_assoc]
      rfl
  | _ =>
    simp only [line, String.toList_append, hword, hbyte, hlabel, List.append_assoc]
    rfl

/-- The kind of an operation, from the first characters of its line. -/
def kind : List Char → Nat
  | 'p' :: _ => 0
  | 'e' :: _ => 1
  | 'L' :: _ => 2
  | 'j' :: 'm' :: _ => 3
  | 'j' :: 'z' :: _ => 4
  | 'm' :: _ => 5
  | 'a' :: _ => 6
  | 'r' :: 'e' :: 's' :: _ => 7
  | 'r' :: 'e' :: 'a' :: _ => 8
  | _ => 9

theorem kind_text (op : Operation) : kind op.text = op.ctorIdx := by cases op <;> rfl

/-- A line says which operation it is. -/
theorem line_injective {a b : Operation} (h : a.line = b.line) : a = b := by
  have hlist : a.text = b.text :=
    (toList_line a).symm.trans ((congrArg String.toList h).trans (toList_line b))
  have hkind : a.ctorIdx = b.ctorIdx := by rw [← kind_text, hlist, kind_text]
  clear h
  cases a <;> cases b <;> first | rfl | cases hkind
  case bind.bind => rw [digits_injective (List.append_cancel_right (List.append_cancel_left hlist))]
  case jump.jump | branchIfZero.branchIfZero =>
    rw [digits_injective (List.append_cancel_left hlist)]
  case move.move =>
    obtain ⟨hcount, hwrap⟩ := digits_append_inj (List.append_cancel_left hlist)
    rw [UInt32.toNat_inj.mp hcount, wrapText_injective (List.cons.inj hwrap).2]
  case add.add => rw [UInt8.toNat_inj.mp (digits_injective (List.append_cancel_left hlist))]
  case read.read | write.write =>
    rw [UInt32.toNat_inj.mp (digits_injective (List.append_cancel_left hlist))]

end Operation

end TapeLang
