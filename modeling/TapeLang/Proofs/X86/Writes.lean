import TapeLang.Proofs.X86.Stack

/-!
# What an instruction writes

An instruction writes to one span of memory at most, which can be told before it is carried out.

* `Instr.mem?`: the byte in memory that an instruction has for an operand.
* `Cpu.written`: the span that an instruction is about to write.
* `Instr.isQuiet`: an instruction without either of them.
* `Cpu.kept_execute`: no other byte changes.
* `Cpu.exists_execute_mem`: an instruction can have any byte for an operand that there is.
-/

namespace TapeLang.X86

open TapeLang.X86.Span

namespace Memory

/-- The memory `m'` is `m` except for what was written to the span `s`, if to any. -/
structure Kept (m : Memory) (s : Option Span) (m' : Memory) : Prop where
  shape : m'.shape = m.shape
  load : ∀ x, (∀ t, s = some t → ¬ t.Has x) → m'.load x = m.load x

namespace Kept

theorem refl (m : Memory) (s : Option Span) : Kept m s m := ⟨rfl, fun _ _ => rfl⟩

theorem storeWord (m : Memory) (a v : UInt64) : Kept m (some ⟨a, 8⟩) (m.storeWord a v) where
  shape := Memory.shape_storeWord m a v
  load _ hx := Memory.load_storeWord m v (hx _ rfl)

theorem store (m : Memory) (a : UInt64) (v : UInt8) : Kept m (some ⟨a, 1⟩) (m.store a v) where
  shape := Memory.shape_store m a v
  load x hx := by
    refine Memory.load_store_of_ne m (fun e => hx _ rfl ?_) v
    rw [e, Has, UInt64.sub_self]
    exact Nat.one_pos

end Kept

end Memory

/-- The byte that an instruction has for an operand. -/
def Instr.mem? : Instr → Option Mem
  | aluByte _ m _ | movByte m _ | loadByte _ m | storeByte m _ => some m
  | _ => none

/-- An instruction that has no byte for an operand, writes to no memory and calls nothing. -/
def Instr.isQuiet : Instr → Bool
  | push _ | pushImm8 _ | store _ _ | aluByte _ _ _ | movByte _ _ | loadByte _ _ | storeByte _ _ |
    branch .call _ | callReg _ | syscall => false
  | _ => true

theorem Instr.mem?_of_isQuiet {i : Instr} (h : i.isQuiet) : i.mem? = none := by
  cases i <;> first | rfl | cases h

namespace Cpu

/-- The span that an instruction is about to write. -/
def written (c : Cpu) : Instr → Option Span
  | .push _ | .pushImm8 _ | .callReg _ | .branch .call _ => some ⟨c.get .rsp - 8, 8⟩
  | .store base _ => some ⟨c.get base, 8⟩
  | .aluByte op m _ => if op.stores then some ⟨c.address m, 1⟩ else none
  | .movByte m _ | .storeByte m _ => some ⟨c.address m, 1⟩
  | _ => none

variable {c c' : Cpu} {i : Instr}

theorem written_of_isQuiet (h : i.isQuiet) : c.written i = none := by
  cases i with
  | branch b d => cases b <;> first | rfl | cases h
  | _ => first | rfl | cases h

@[simp] theorem written_skip (n : UInt64) : (c.skip n).written i = c.written i := by
  obtain ⟨regs, flags, ip, memory⟩ := c
  cases i with
  | branch b d => cases b <;> rfl
  | _ => rfl

/-- Whatever has a byte for an operand writes nothing else. -/
theorem written_of_mem? {m : Mem} {s : Span} (hi : i.mem? = some m) (hs : c.written i = some s) :
    s = ⟨c.address m, 1⟩ := by
  cases i with
  | aluByte op m' v =>
    cases hi
    simp only [written] at hs
    split at hs
    · cases hs
      rfl
    · cases hs
  | movByte m' v | storeByte m' src =>
    cases hi
    cases hs
    rfl
  | loadByte dst m' => cases hs
  | _ => cases hi

/-! ## Words -/

theorem memory_of_storeWord {a v : UInt64} (h : c.storeWord a v = .running c') :
    c.memory.Covers ⟨a, 8⟩ ∧ c'.memory = c.memory.storeWord a v := by
  rw [storeWord_eq] at h
  split at h
  case isTrue hc =>
    cases h
    exact ⟨(Memory.coversWord_iff _ _).mp hc, rfl⟩
  case isFalse => cases h

theorem memory_of_push {v : UInt64} (h : c.push v = .running c') :
    c.memory.Covers ⟨c.get .rsp - 8, 8⟩ ∧ c'.memory = c.memory.storeWord (c.get .rsp - 8) v := by
  rw [push] at h
  have h := memory_of_storeWord h
  rwa [memory_set] at h

theorem memory_of_callTo {target : UInt64} (h : c.callTo target = .running c') :
    c.memory.Covers ⟨c.get .rsp - 8, 8⟩ ∧
      c'.memory = c.memory.storeWord (c.get .rsp - 8) c.ip := by
  rw [callTo] at h
  cases hp : c.push c.ip with
  | running c₁ =>
    rw [hp] at h
    cases h
    rw [memory_jump]
    exact memory_of_push hp
  | systemCall c₁ =>
    rw [hp] at h
    cases h
  | crashed reason =>
    rw [hp] at h
    cases h

/-! ## Instructions -/

/-- An instruction changes no byte but those that it is about to write. -/
theorem kept_execute (h : c.execute i = .running c') :
    c.memory.Kept (c.written i) c'.memory := by
  cases i with
  | push r =>
    obtain ⟨-, hm⟩ := memory_of_push h
    exact hm ▸ .storeWord ..
  | pushImm8 v =>
    obtain ⟨-, hm⟩ := memory_of_push h
    exact hm ▸ .storeWord ..
  | callReg r =>
    obtain ⟨-, hm⟩ := memory_of_callTo h
    exact hm ▸ .storeWord ..
  | store base src =>
    obtain ⟨-, hm⟩ := memory_of_storeWord h
    exact hm ▸ .storeWord ..
  | branch b d =>
    cases b with
    | call =>
      obtain ⟨-, hm⟩ := memory_of_callTo h
      exact hm ▸ .storeWord ..
    | jump =>
      cases h
      exact .refl _ _
    | jumpIf cond =>
      simp only [execute, skipIf] at h
      split at h <;> cases h <;> exact .refl _ _
  | jumpShort cond d =>
    simp only [execute, skipIf] at h
    split at h <;> cases h <;> exact .refl _ _
  | aluByte op m v =>
    simp only [execute] at h
    split at h
    case isTrue =>
      cases h
      unfold calculateByte written
      dsimp only
      split
      · rw [memory_store, memory_setFlags]
        exact .store ..
      · exact .refl _ _
    case isFalse => cases h
  | movByte m v | storeByte m src =>
    simp only [execute] at h
    split at h
    case isTrue =>
      cases h
      rw [memory_store]
      exact .store ..
    case isFalse => cases h
  | loadByte dst m | load dst base =>
    simp only [execute] at h
    split at h
    · cases h
      exact .refl _ _
    · cases h
  | pop r | ret =>
    simp only [execute, pop] at h
    split at h
    · cases h
      exact .refl _ _
    · cases h
  | mov w dst src | xor w dst src | test w a b => cases w <;> cases h <;> exact .refl _ _
  | alu op dst v | aluImm8 op dst v =>
    cases h
    unfold calculate
    dsimp only
    split <;> exact .refl _ _
  | movImm32 dst v | movSigned32 dst v | movImm64 dst v | lea dst m =>
    cases h
    exact .refl _ _
  | syscall => cases h

/-- Any byte that there is can be the operand of an instruction. -/
theorem exists_execute_mem {m : Mem} (hi : i.mem? = some m) (hc : c.memory.covers (c.address m)) :
    ∃ c', c.execute i = .running c' ∧ c'.ip = c.ip ∧
      ∀ q : Reg, (∀ m, i ≠ .loadByte q m) → c'.get q = c.get q := by
  cases i with
  | aluByte op m' v =>
    cases hi
    refine ⟨_, if_pos hc, ip_calculateByte c op _ v, fun q _ => ?_⟩
    unfold calculateByte
    dsimp only
    split <;> simp
  | movByte m' v | storeByte m' src =>
    cases hi
    exact ⟨_, if_pos hc, ip_store .., fun q _ => get_store ..⟩
  | loadByte dst m' =>
    cases hi
    refine ⟨_, if_pos hc, ip_set .., fun q hq => ?_⟩
    rw [get_set, if_neg]
    rintro rfl
    exact hq m rfl
  | _ => cases hi

end Cpu

end TapeLang.X86
