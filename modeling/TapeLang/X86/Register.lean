/-!
# Registers

The sixteen general registers of an x86-64 processor and their contents.

* `Registers.get_set_self`, `Registers.get_set_ne`: a register holds what was last put into it.
-/

namespace TapeLang.X86

inductive Reg where
  | rax | rcx | rdx | rbx | rsp | rbp | rsi | rdi
  | r8 | r9 | r10 | r11 | r12 | r13 | r14 | r15
deriving DecidableEq

namespace Reg

/-- The number of a register in instruction codes. -/
def code : Reg → UInt8
  | rax => 0 | rcx => 1 | rdx => 2 | rbx => 3 | rsp => 4 | rbp => 5 | rsi => 6 | rdi => 7
  | r8 => 8 | r9 => 9 | r10 => 10 | r11 => 11 | r12 => 12 | r13 => 13 | r14 => 14 | r15 => 15

/-- The three bits of the number that an operand byte holds. -/
def low (r : Reg) : UInt8 := r.code &&& 7

/-- The fourth bit, which goes into a prefix byte. -/
def isHigh (r : Reg) : Bool := 8 ≤ r.code

def all : Array Reg :=
  #[rax, rcx, rdx, rbx, rsp, rbp, rsi, rdi, r8, r9, r10, r11, r12, r13, r14, r15]

/-- The register with the low bits of `bits` and the given fourth bit. -/
def ofBits (high : Bool) (bits : UInt8) : Reg :=
  match high, bits &&& 7 with
  | false, 0 => rax | false, 1 => rcx | false, 2 => rdx | false, 3 => rbx
  | false, 4 => rsp | false, 5 => rbp | false, 6 => rsi | false, _ => rdi
  | true, 0 => r8 | true, 1 => r9 | true, 2 => r10 | true, 3 => r11
  | true, 4 => r12 | true, 5 => r13 | true, 6 => r14 | true, _ => r15

theorem ofBits_low (r : Reg) : ofBits r.isHigh r.low = r := by cases r <;> decide

/-- The registers that a called routine gives back unchanged. -/
def isCalleeSaved : Reg → Bool
  | rbx | rsp | rbp | r12 | r13 | r14 | r15 => true
  | _ => false

end Reg

structure Registers where
  rax : UInt64
  rcx : UInt64
  rdx : UInt64
  rbx : UInt64
  rsp : UInt64
  rbp : UInt64
  rsi : UInt64
  rdi : UInt64
  r8 : UInt64
  r9 : UInt64
  r10 : UInt64
  r11 : UInt64
  r12 : UInt64
  r13 : UInt64
  r14 : UInt64
  r15 : UInt64
deriving DecidableEq

namespace Registers

def zero : Registers := ⟨0, 0, 0, 0, 0, 0, 0, 0, 0, 0, 0, 0, 0, 0, 0, 0⟩

def get (g : Registers) : Reg → UInt64
  | .rax => g.rax | .rcx => g.rcx | .rdx => g.rdx | .rbx => g.rbx
  | .rsp => g.rsp | .rbp => g.rbp | .rsi => g.rsi | .rdi => g.rdi
  | .r8 => g.r8 | .r9 => g.r9 | .r10 => g.r10 | .r11 => g.r11
  | .r12 => g.r12 | .r13 => g.r13 | .r14 => g.r14 | .r15 => g.r15

def set (g : Registers) (r : Reg) (v : UInt64) : Registers :=
  match r with
  | .rax => { g with rax := v } | .rcx => { g with rcx := v }
  | .rdx => { g with rdx := v } | .rbx => { g with rbx := v }
  | .rsp => { g with rsp := v } | .rbp => { g with rbp := v }
  | .rsi => { g with rsi := v } | .rdi => { g with rdi := v }
  | .r8 => { g with r8 := v } | .r9 => { g with r9 := v }
  | .r10 => { g with r10 := v } | .r11 => { g with r11 := v }
  | .r12 => { g with r12 := v } | .r13 => { g with r13 := v }
  | .r14 => { g with r14 := v } | .r15 => { g with r15 := v }

@[simp] theorem get_set_self (g : Registers) (r : Reg) (v : UInt64) : (g.set r v).get r = v := by
  cases r <;> rfl

theorem get_set_ne (g : Registers) {r q : Reg} (h : q ≠ r) (v : UInt64) :
    (g.set r v).get q = g.get q := by
  cases r <;> cases q <;> first | rfl | exact absurd rfl h

end Registers

end TapeLang.X86
