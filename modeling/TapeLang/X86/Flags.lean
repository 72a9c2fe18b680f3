import TapeLang.X86.Instr

/-!
# Arithmetic and flags

The results of the arithmetic operations and the flags that they leave behind.

* `Flags.carry_of`, `Flags.zero_of`, `Flags.sign_of`, `Flags.overflow_of`: a flag reads as it was
  set.
-/

namespace TapeLang.X86

def negative8 (v : UInt8) : Bool := v &&& 0x80 != 0
def negative32 (v : UInt32) : Bool := v &&& 0x80000000 != 0
def negative64 (v : UInt64) : Bool := v &&& 0x8000000000000000 != 0

/-- The register of the flags. Bits 0, 6, 7 and 11 are for carry, zero, sign and overflow; two
others never change. -/
structure Flags where
  word : UInt64
deriving DecidableEq

namespace Flags

def of (carry zero sign overflow : Bool) : Flags :=
  ⟨(0x202 : UInt64) ||| carry.toUInt64 ||| zero.toUInt64 <<< 6 ||| sign.toUInt64 <<< 7 |||
    overflow.toUInt64 <<< 11⟩

def carry (f : Flags) : Bool := f.word &&& 1 != 0
def zero (f : Flags) : Bool := f.word >>> 6 &&& 1 != 0
def sign (f : Flags) : Bool := f.word >>> 7 &&& 1 != 0
def overflow (f : Flags) : Bool := f.word >>> 11 &&& 1 != 0

@[simp] theorem carry_of (c z s o : Bool) : (of c z s o).carry = c := by
  cases c <;> cases z <;> cases s <;> cases o <;> rfl

@[simp] theorem zero_of (c z s o : Bool) : (of c z s o).zero = z := by
  cases c <;> cases z <;> cases s <;> cases o <;> rfl

@[simp] theorem sign_of (c z s o : Bool) : (of c z s o).sign = s := by
  cases c <;> cases z <;> cases s <;> cases o <;> rfl

@[simp] theorem overflow_of (c z s o : Bool) : (of c z s o).overflow = o := by
  cases c <;> cases z <;> cases s <;> cases o <;> rfl

def clear : Flags := of false false false false

/-- After an operation bit by bit. -/
def ofBits8 (v : UInt8) : Flags := of false (v == 0) (negative8 v) false
def ofBits32 (v : UInt32) : Flags := of false (v == 0) (negative32 v) false
def ofBits64 (v : UInt64) : Flags := of false (v == 0) (negative64 v) false

def holds (f : Flags) : Cond → Bool
  | .below => f.carry
  | .equal => f.zero
  | .notEqual => !f.zero
  | .sign => f.sign
  | .lessEqual => f.zero || f.sign != f.overflow

end Flags

namespace Alu

/-- The result of `cmp` is what it would have been for `sub`. -/
def result8 (op : Alu) (a b : UInt8) : UInt8 :=
  match op with
  | add => a + b
  | and => a &&& b
  | sub | cmp => a - b

def result64 (op : Alu) (a b : UInt64) : UInt64 :=
  match op with
  | add => a + b
  | and => a &&& b
  | sub | cmp => a - b

def flags8 (op : Alu) (a b : UInt8) : Flags :=
  let v := op.result8 a b
  match op with
  | add => .of (v < a) (v == 0) (negative8 v) (negative8 ((a ^^^ v) &&& (b ^^^ v)))
  | and => .ofBits8 v
  | sub | cmp => .of (a < b) (v == 0) (negative8 v) (negative8 ((a ^^^ b) &&& (a ^^^ v)))

def flags64 (op : Alu) (a b : UInt64) : Flags :=
  let v := op.result64 a b
  match op with
  | add => .of (v < a) (v == 0) (negative64 v) (negative64 ((a ^^^ v) &&& (b ^^^ v)))
  | and => .ofBits64 v
  | sub | cmp => .of (a < b) (v == 0) (negative64 v) (negative64 ((a ^^^ b) &&& (a ^^^ v)))

/-- Whether the result goes back to the first operand. -/
def stores : Alu → Bool
  | cmp => false
  | _ => true

end Alu

end TapeLang.X86
