import TapeLang.LittleEndian
import TapeLang.X86.Register

/-!
# Instructions and their encoding

The instruction forms that generated code is made of, and the bytes of each: an optional prefix
byte, the operation code, operand bytes, and an immediate value, least significant byte first.
-/

namespace TapeLang.X86

open LittleEndian

inductive Width where
  | dword
  | qword
deriving DecidableEq

/-- The address `base + index`. -/
structure Mem where
  base : Reg
  index : Reg
deriving DecidableEq

/-- Arithmetic with an immediate value. `cmp` only sets the flags. -/
inductive Alu where
  | add
  | and
  | sub
  | cmp
deriving DecidableEq

inductive Cond where
  | below
  | equal
  | notEqual
  | sign
  | lessEqual
deriving DecidableEq

/-- Transfers of control with a 32-bit displacement. -/
inductive Branch where
  | call
  | jump
  | jumpIf (c : Cond)
deriving DecidableEq

/-- Immediate values are sign-extended to the width of the other operand, save in `movImm32`, which
clears the upper half of its register. -/
inductive Instr where
  | push (r : Reg)
  | pushImm8 (v : Int8)
  | pop (r : Reg)
  | mov (w : Width) (dst src : Reg)
  | load (dst base : Reg)
  | store (base src : Reg)
  | movImm32 (dst : Reg) (v : UInt32)
  | movSigned32 (dst : Reg) (v : Int32)
  | movImm64 (dst : Reg) (v : UInt64)
  | xor (w : Width) (dst src : Reg)
  | test (w : Width) (a b : Reg)
  | alu (op : Alu) (dst : Reg) (v : Int32)
  | aluImm8 (op : Alu) (dst : Reg) (v : Int8)
  | aluByte (op : Alu) (m : Mem) (v : UInt8)
  | movByte (m : Mem) (v : UInt8)
  | loadByte (dst : Reg) (m : Mem)
  | storeByte (m : Mem) (src : Reg)
  | lea (dst : Reg) (m : Mem)
  | jumpShort (c : Cond) (d : Int8)
  | branch (b : Branch) (d : Int32)
  | callReg (r : Reg)
  | ret
  | syscall
deriving DecidableEq

/-! ## Parts of a code -/

/-- The prefix byte: 64-bit operands, and the fourth bits of the register, index and base fields.
It is left out if it says nothing. -/
def prefixByte (wide reg index base : Bool) : List UInt8 :=
  if wide || reg || index || base then
    [(0x40 : UInt8) ||| wide.toUInt8 <<< 3 ||| reg.toUInt8 <<< 2 ||| index.toUInt8 <<< 1 |||
      base.toUInt8]
  else []

def operandByte (mode reg base : UInt8) : UInt8 := mode <<< 6 ||| reg <<< 3 ||| base

namespace Mem

/-- The base field that announces an index byte. -/
def indexed : UInt8 := 4

def indexByte (m : Mem) : UInt8 := m.index.low <<< 3 ||| m.base.low

end Mem

def Width.isWide : Width → Bool
  | dword => false
  | qword => true

def Alu.code : Alu → UInt8
  | add => 0
  | and => 4
  | sub => 5
  | cmp => 7

def Cond.code : Cond → UInt8
  | below => 0x2
  | equal => 0x4
  | notEqual => 0x5
  | sign => 0x8
  | lessEqual => 0xE

/-- The bytes before the displacement. -/
def Branch.opcode : Branch → List UInt8
  | call => [0xE8]
  | jump => [0xE9]
  | jumpIf c => [0x0F, 0x80 + c.code]

/-- An operation on two registers, `reg` in the register field and `base` in the base field. -/
def onRegisters (w : Width) (op : UInt8) (reg base : Reg) : List UInt8 :=
  prefixByte w.isWide reg.isHigh false base.isHigh ++ [op, operandByte 3 reg.low base.low]

/-- An operation on a 64-bit register and the word that `base` points at. -/
def onWord (op : UInt8) (reg base : Reg) : List UInt8 :=
  prefixByte true reg.isHigh false base.isHigh ++ [op, operandByte 0 reg.low base.low]

/-- An operation on `m`, with `reg` and its fourth bit `high` in the register field. -/
def onMem (wide high : Bool) (op : List UInt8) (reg : UInt8) (m : Mem) : List UInt8 :=
  prefixByte wide high m.index.isHigh m.base.isHigh ++ op ++
    [operandByte 0 reg Mem.indexed, m.indexByte]

namespace Instr

def encode : Instr → List UInt8
  | push r => prefixByte false false false r.isHigh ++ [0x50 + r.low]
  | pushImm8 v => [0x6A, v.toUInt8]
  | pop r => prefixByte false false false r.isHigh ++ [0x58 + r.low]
  | mov w dst src => onRegisters w 0x89 src dst
  | load dst base => onWord 0x8B dst base
  | store base src => onWord 0x89 src base
  | movImm32 dst v => prefixByte false false false dst.isHigh ++ [0xB8 + dst.low] ++ bytes32 v
  | movSigned32 dst v =>
    prefixByte true false false dst.isHigh ++ [0xC7, operandByte 3 0 dst.low] ++ bytes32 v.toUInt32
  | movImm64 dst v => prefixByte true false false dst.isHigh ++ [0xB8 + dst.low] ++ bytes64 v
  | xor w dst src => onRegisters w 0x31 src dst
  | test w a b => onRegisters w 0x85 b a
  | alu op dst v =>
    prefixByte true false false dst.isHigh ++ [0x81, operandByte 3 op.code dst.low] ++
      bytes32 v.toUInt32
  | aluImm8 op dst v =>
    prefixByte true false false dst.isHigh ++ [0x83, operandByte 3 op.code dst.low, v.toUInt8]
  | aluByte op m v => onMem false false [0x80] op.code m ++ [v]
  | movByte m v => onMem false false [0xC6] 0 m ++ [v]
  | loadByte dst m => onMem false dst.isHigh [0x0F, 0xB6] dst.low m
  | storeByte m src => onMem false src.isHigh [0x88] src.low m
  | lea dst m => onMem true dst.isHigh [0x8D] dst.low m
  | jumpShort c d => [0x70 + c.code, d.toUInt8]
  | branch b d => b.opcode ++ bytes32 d.toUInt32
  | callReg r => prefixByte false false false r.isHigh ++ [0xFF, operandByte 3 2 r.low]
  | ret => [0xC3]
  | syscall => [0x0F, 0x05]

def size (i : Instr) : Nat := i.encode.length

end Instr

/-- The bytes of a piece of straight code. -/
def encodeAll (code : List Instr) : List UInt8 := code.flatMap Instr.encode

def codeSize (code : List Instr) : Nat := code.foldr (fun i n => i.size + n) 0

end TapeLang.X86
