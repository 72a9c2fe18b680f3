import TapeLang.LabelCode.Basic
import TapeLang.Proofs.Layout
import TapeLang.Proofs.Tree.Basic

/-!
# The label code of a tree

Lowering goes through a flat list with a stack of open loops. For the list of a tree it writes the
operations of the tree, which can be said by recursion, and never meets a bracket it cannot match.

* `lower_eq`: what lowering makes of the list of a tree.
* `nodup_marks`, `sound_fragments`: each label is bound once, and only such labels are jumped to.
* `Program.codeSize`: the length of the machine code of a program.
-/

namespace TapeLang

open X86

/-! ## Wraps -/

namespace Wrap

variable {length : Nat} {wrap : Wrap}

theorem ofTapeLength_eq_ok : ofTapeLength length = .ok wrap ↔ length ≤ maxTapeLength ∧
    (2 ^ length.log2 = length ∧ wrap = .mask (length - 1).toUInt32 ∨
      2 ^ length.log2 ≠ length ∧ wrap = .length length.toUInt32) := by
  rw [ofTapeLength, Nat.one_shiftLeft]
  by_cases hl : length ≤ maxTapeLength
  · rw [if_neg (Nat.not_lt.mpr hl)]
    by_cases hp : 2 ^ length.log2 = length
    · simp [hp, hl, eq_comm]
    · simp [hp, hl, eq_comm]
  · rw [if_pos (Nat.lt_of_not_le hl)]
    simp [hl]

theorem exists_ofTapeLength (h : length ≤ maxTapeLength) :
    ∃ wrap, ofTapeLength length = .ok wrap := by
  by_cases hp : 2 ^ length.log2 = length
  · exact ⟨_, ofTapeLength_eq_ok.mpr ⟨h, .inl ⟨hp, rfl⟩⟩⟩
  · exact ⟨_, ofTapeLength_eq_ok.mpr ⟨h, .inr ⟨hp, rfl⟩⟩⟩

theorem le_of_ofTapeLength (hw : ofTapeLength length = .ok wrap) : length ≤ maxTapeLength :=
  (ofTapeLength_eq_ok.mp hw).1

end Wrap

def Command.operation (wrap : Wrap) (index : Nat) : Command → Operation
  | move n => .move n.toUInt32 wrap
  | add n => .add n.toUInt8
  | reset => .reset
  | read => .read index.toUInt32
  | write => .write index.toUInt32

namespace Tree

/-- The number of loops. -/
def loops : Tree → Nat
  | nil => 0
  | command _ _ rest => rest.loops
  | loop _ _ body rest => body.loops + rest.loops + 1

/-- The operations of a tree whose first instruction has the number `index`, with labels from `fresh`
on. -/
def operations (wrap : Wrap) : Tree → Nat → Nat → List Operation
  | nil, _, _ => []
  | command c _ rest, index, fresh =>
    c.operation wrap index :: rest.operations wrap (index + 1) fresh
  | loop _ _ body rest, index, fresh =>
    .bind fresh :: .branchIfZero (fresh + 1) ::
      (body.operations wrap (index + 1) (fresh + 2) ++ .jump fresh :: .bind (fresh + 1) ::
        rest.operations wrap (index + 1 + body.flatten.length + 1) (fresh + 2 + 2 * body.loops))

end Tree

namespace Lowering

variable {wrap : Wrap}

theorem State.ext {s s' : State} (ho : s.operations = s'.operations) (hf : s.fresh = s'.fresh)
    (hl : s.loops = s'.loops) : s = s' := by
  cases s
  cases s'
  simp only at ho hf hl
  rw [ho, hf, hl]

theorem steps_congr {s s' : State} {index index' : Nat} {more : List Op}
    (ho : s.operations = s'.operations) (hf : s.fresh = s'.fresh) (hl : s.loops = s'.loops)
    (hi : index = index') : steps wrap s index more = steps wrap s' index' more := by
  rw [State.ext ho hf hl, hi]

theorem steps_command (c : Command) (s : State) (index : Nat) (more : List Op) :
    steps wrap s index (c.op :: more) =
      steps wrap (s.emit (c.operation wrap index)) (index + 1) more := by
  rw [steps, if_neg fun h => c.op_ne_loopEnd h.1]
  cases c <;> rfl

/-- The list of a tree, with something behind it. -/
theorem steps_flatten (t : Tree) (s : State) (index : Nat) (more : List Op) :
    steps wrap s index (t.flatten.map (·.op) ++ more) =
      steps wrap ⟨s.operations.appendList (t.operations wrap index s.fresh),
        s.fresh + 2 * t.loops, s.loops⟩ (index + t.flatten.length) more := by
  induction t generalizing s index more with
  | nil => simp [Tree.flatten, Tree.operations, Tree.loops]
  | command c p rest ih =>
    simp only [Tree.flatten, List.map_cons, List.cons_append, steps_command, ih]
    refine steps_congr ?_ ?_ rfl ?_
    · simp [State.emit, Tree.operations]
    · simp [State.emit, Tree.loops]
    · simp
      omega
  | loop o c body rest ihb ihr =>
    simp only [Tree.flatten, List.map_cons, List.map_append, List.cons_append, List.append_assoc]
    rw [steps, if_neg (by simp), ihb, steps, if_neg (by simp [State.step, State.emit]), ihr]
    refine steps_congr ?_ ?_ rfl ?_
    · apply Array.ext'
      simp [State.step, State.emit, Tree.operations]
    · simp only [State.step, State.emit, Tree.loops, Label]
      omega
    · simp
      omega

/-- The list of a whole program. -/
theorem steps_tree (t : Tree) :
    steps wrap start 0 (t.flatten.map (·.op)) =
      ⟨#[.prologue] ++ (t.operations wrap 0 0).toArray ++ #[.epilogue], none⟩ := by
  have h := @steps_flatten wrap t start 0 []
  rw [List.append_nil] at h
  rw [h, steps]
  simp [start]

end Lowering

/-- What lowering makes of the list of a tree. -/
theorem Program.lower_eq {p : Program} {t : Tree} {wrap : Wrap}
    (h : t.flatten = p.instructions.toList) (hw : Wrap.ofTapeLength p.tapeLength = .ok wrap)
    (hc : t.flatten.length ≤ maxInstructions) :
    p.lower = ⟨#[.prologue] ++ (t.operations wrap 0 0).toArray ++ #[.epilogue], none⟩ := by
  rw [Program.lower, TapeLang.lower, hw, Program.ops, ← h]
  simp only
  rw [if_neg (by simpa using hc), Lowering.steps_tree]

/-! ## Fragments -/

namespace Tree

def fragments (linkage : Linkage) (wrap : Wrap) (t : Tree) (index : Nat) (fresh : Nat) :
    List Fragment :=
  (t.operations wrap index fresh).flatMap (Block.ofOperation linkage)

variable {linkage : Linkage} {wrap : Wrap}

@[simp] theorem fragments_nil (index : Nat) (fresh : Nat) :
    fragments linkage wrap nil index fresh = [] := rfl

@[simp] theorem fragments_command (c : Command) (p : Option Position) (rest : Tree) (index : Nat)
    (fresh : Nat) :
    fragments linkage wrap (command c p rest) index fresh =
      Block.ofOperation linkage (c.operation wrap index) ++
        fragments linkage wrap rest (index + 1) fresh := rfl

@[simp] theorem fragments_loop (o c : Option Position) (body rest : Tree) (index : Nat)
    (fresh : Nat) :
    fragments linkage wrap (loop o c body rest) index fresh =
      .mark (.label fresh) :: (Block.ofOperation linkage (.branchIfZero (fresh + 1)) ++
        (fragments linkage wrap body (index + 1) (fresh + 2) ++
          (.branch .jump (.label fresh) :: .mark (.label (fresh + 1)) ::
            fragments linkage wrap rest (index + 1 + body.flatten.length + 1)
              (fresh + 2 + 2 * body.loops)))) := by
  simp [fragments, operations, Block.ofOperation, List.flatMap_append]

theorem marks_ofOperation (c : Command) (index : Nat) :
    Fragment.marks (Block.ofOperation linkage (c.operation wrap index)) = [] := by
  cases c <;> cases linkage <;> cases wrap <;> rfl

/-- The labels of a tree lie in a range. -/
theorem mem_marks {t : Tree} {index : Nat} {fresh : Nat} {target : Target}
    (h : target ∈ Fragment.marks (t.fragments linkage wrap index fresh)) :
    ∃ l : Nat, target = .label l ∧ fresh ≤ l ∧ l < fresh + 2 * t.loops := by
  induction t generalizing index fresh with
  | nil => cases h
  | command c p rest ih =>
    rw [fragments_command, Fragment.marks_append, marks_ofOperation, List.nil_append] at h
    exact ih h
  | loop o c body rest ihb ihr =>
    simp [Block.ofOperation] at h
    rw [loops]
    rcases h with rfl | h | rfl | h
    · exact ⟨fresh, rfl, by omega, by omega⟩
    · obtain ⟨l, rfl, h₁, h₂⟩ := ihb h
      exact ⟨l, rfl, by omega, by omega⟩
    · exact ⟨fresh + 1, rfl, by omega, by omega⟩
    · obtain ⟨l, rfl, h₁, h₂⟩ := ihr h
      exact ⟨l, rfl, by omega, by omega⟩

theorem nodup_marks (t : Tree) (index : Nat) (fresh : Nat) :
    (Fragment.marks (t.fragments linkage wrap index fresh)).Nodup := by
  induction t generalizing index fresh with
  | nil => exact List.nodup_nil
  | command c p rest ih =>
    rw [fragments_command, Fragment.marks_append, marks_ofOperation, List.nil_append]
    exact ih _ _
  | loop o c body rest ihb ihr =>
    simp only [fragments_loop, Block.ofOperation, Fragment.marks_mark, Fragment.marks_append,
      Fragment.marks_instr, Fragment.marks_branch, Fragment.marks_nil, List.nil_append]
    refine List.nodup_cons.mpr ⟨fun h => ?_, List.nodup_append.mpr ⟨ihb _ _,
      List.nodup_cons.mpr ⟨fun h => ?_, ihr _ _⟩, fun a ha b hb => ?_⟩⟩
    · rcases List.mem_append.mp h with h | h
      · obtain ⟨l, hl, h₁, h₂⟩ := mem_marks h
        cases hl
        omega
      · rcases List.mem_cons.mp h with h | h
        · cases h
        · obtain ⟨l, hl, h₁, h₂⟩ := mem_marks h
          cases hl
          omega
    · obtain ⟨l, hl, h₁, h₂⟩ := mem_marks h
      cases hl
      omega
    · obtain ⟨l, rfl, h₁, h₂⟩ := mem_marks ha
      rintro rfl
      rcases List.mem_cons.mp hb with h | h
      · cases h
        omega
      · obtain ⟨l', hl, h₃, h₄⟩ := mem_marks h
        cases hl
        omega

theorem regular_cell : Block.cell.Regular := by decide

theorem regular_storeCell : (Instr.storeByte Block.cell .rax).Regular :=
  ⟨regular_cell, .inl rfl⟩

theorem sound_command (c : Command) (index : Nat) {marked : List Target}
    (hfail : .fail ∈ marked) :
    ∀ f ∈ Block.ofOperation linkage (c.operation wrap index), f.Sound marked := by
  cases c with
  | move n =>
    cases wrap <;>
      simp [Command.operation, Block.ofOperation, Block.move, Block.plain, Fragment.Sound,
        Instr.Regular]
  | add n => simp [Command.operation, Block.ofOperation, Fragment.Sound, Instr.Regular, regular_cell]
  | reset => simp [Command.operation, Block.ofOperation, Fragment.Sound, Instr.Regular, regular_cell]
  | read =>
    have := regular_storeCell
    cases linkage <;>
      simp [Command.operation, Block.ofOperation, Block.read, Block.callHook, Block.moveByte,
        Block.plain, Fragment.Sound, hfail, this] <;>
      simp [Instr.Regular, regular_cell]
  | write =>
    cases linkage <;>
      simp [Command.operation, Block.ofOperation, Block.write, Block.callHook, Block.moveByte,
        Block.plain, Fragment.Sound, Instr.Regular, regular_cell, hfail]

/-- All that a tree jumps to is marked, if the labels of the tree and the exit after a failure
are. -/
theorem sound_fragments (t : Tree) (index : Nat) (fresh : Nat) {marked : List Target}
    (hfail : .fail ∈ marked)
    (hm : ∀ target ∈ Fragment.marks (t.fragments linkage wrap index fresh), target ∈ marked) :
    ∀ f ∈ t.fragments linkage wrap index fresh, f.Sound marked := by
  induction t generalizing index fresh with
  | nil => intro f hf; cases hf
  | command c p rest ih =>
    rw [fragments_command, Fragment.marks_append, marks_ofOperation, List.nil_append] at hm
    intro f hf
    rw [fragments_command] at hf
    rcases List.mem_append.mp hf with hf | hf
    · exact sound_command c index hfail f hf
    · exact ih _ _ hm f hf
  | loop o c body rest ihb ihr =>
    simp [Block.ofOperation] at hm
    obtain ⟨htop, hm⟩ := hm
    have hbody := ihb (index + 1) (fresh + 2) fun t h => hm t (.inl h)
    have hrest := ihr (index + 1 + body.flatten.length + 1) (fresh + 2 + 2 * body.loops)
      fun t h => hm t (.inr (.inr h))
    intro f hf
    simp [Block.ofOperation] at hf
    rcases hf with rfl | rfl | rfl | h | rfl | rfl | h
    · trivial
    · exact regular_cell
    · exact hm _ (.inr (.inl rfl))
    · exact hbody f h
    · exact htop
    · trivial
    · exact hrest f h

/-- Each instruction needs a byte at least. -/
theorem length_le_sizes (t : Tree) (index : Nat) (fresh : Nat) :
    t.flatten.length ≤ Fragment.sizes (t.fragments linkage wrap index fresh) := by
  induction t generalizing index fresh with
  | nil => exact Nat.le_refl 0
  | command c p rest ih =>
    have hpos : 1 ≤ Fragment.sizes (Block.ofOperation linkage (c.operation wrap index)) := by
      cases c <;> cases linkage <;> cases wrap <;> exact Nat.succ_le_succ (Nat.zero_le _)
    have := ih (index + 1) fresh
    rw [fragments_command, Fragment.sizes_append, flatten, List.length_cons]
    omega
  | loop o c body rest ihb ihr =>
    have hb := ihb (index + 1) (fresh + 2)
    have hr := ihr (index + 1 + body.flatten.length + 1) (fresh + 2 + 2 * body.loops)
    simp [Block.ofOperation, flatten, Fragment.size, Branch.opcode]
    omega

/-- An instruction never needs more than 64 bytes. -/
theorem sizes_le_length (t : Tree) (index : Nat) (fresh : Nat) :
    Fragment.sizes (t.fragments linkage wrap index fresh) ≤ 64 * t.flatten.length := by
  induction t generalizing index fresh with
  | nil => exact Nat.le_refl 0
  | command c p rest ih =>
    have hone : Fragment.sizes (Block.ofOperation linkage (c.operation wrap index)) ≤ 64 := by
      cases c <;> cases linkage <;> cases wrap <;> exact Nat.le_of_ble_eq_true rfl
    have := ih (index + 1) fresh
    rw [fragments_command, Fragment.sizes_append, flatten, List.length_cons]
    omega
  | loop o c body rest ihb ihr =>
    have hb := ihb (index + 1) (fresh + 2)
    have hr := ihr (index + 1 + body.flatten.length + 1) (fresh + 2 + 2 * body.loops)
    have htest : Fragment.sizes (Block.ofOperation linkage (.branchIfZero (fresh + 1))) ≤ 64 :=
      Nat.le_of_ble_eq_true rfl
    simp only [fragments_loop, Fragment.sizes_cons, Fragment.sizes_append, flatten,
      List.length_cons, List.length_append, List.length_nil, Fragment.size, Branch.opcode]
    omega

end Tree

/-! ## Whole routines -/

namespace Tree

/-- The fragments of the routine of a tree. -/
def routine (linkage : Linkage) (wrap : Wrap) (t : Tree) : List Fragment :=
  Block.prologue ++ (t.fragments linkage wrap 0 0 ++ Block.epilogue)

variable {linkage : Linkage} {wrap : Wrap}

theorem marks_routine (t : Tree) :
    Fragment.marks (t.routine linkage wrap) =
      Fragment.marks (t.fragments linkage wrap 0 0) ++ [.fail] := by
  rw [routine, Fragment.marks_append, Fragment.marks_append]
  rfl

theorem nodup_marks_routine (t : Tree) : (Fragment.marks (t.routine linkage wrap)).Nodup := by
  rw [marks_routine, List.nodup_append]
  refine ⟨nodup_marks t 0 0, by simp, fun a ha b hb hab => ?_⟩
  obtain ⟨l, rfl, -, -⟩ := mem_marks ha
  rw [List.mem_singleton, ← hab] at hb
  cases hb

theorem sound_routine (t : Tree) {marked : List Target}
    (hm : ∀ target ∈ Fragment.marks (t.routine linkage wrap), target ∈ marked) :
    ∀ f ∈ t.routine linkage wrap, f.Sound marked := by
  rw [marks_routine] at hm
  have hfail : .fail ∈ marked := hm .fail (by simp)
  exact Fragment.sound_enclosed
    (sound_fragments t 0 0 hfail fun target h => hm target (by simp [h]))

end Tree

/-! ## The length of the code -/

/-- How long the routine of a program is in machine code, or would be if its branches could reach
that far. -/
def Program.codeSize (p : Program) (linkage : Linkage) : Nat :=
  match Wrap.ofTapeLength p.tapeLength with
  | .ok wrap =>
    Assembly.size (TapeLang.fragments linkage
      (Lowering.steps wrap Lowering.start 0 p.ops).operations)
  | .error _ => 0

namespace Program

variable {p : Program} {t : Tree} {wrap : Wrap} {linkage : Linkage}

theorem toList_fragments (linkage : Linkage) (wrap : Wrap) (t : Tree) :
    (TapeLang.fragments linkage
      (#[.prologue] ++ (t.operations wrap 0 0).toArray ++ #[.epilogue])).toList =
      t.routine linkage wrap := by
  simp only [TapeLang.fragments, Tree.routine, Tree.fragments, Array.toList_flatMap,
    Array.toList_append, List.flatMap_append]
  simp [Block.ofOperation]
  rfl

theorem codeSize_eq (h : t.flatten = p.instructions.toList)
    (hw : Wrap.ofTapeLength p.tapeLength = .ok wrap) :
    p.codeSize linkage = Fragment.sizes (t.routine linkage wrap) := by
  rw [codeSize, hw, ops, ← h]
  simp only
  rw [Lowering.steps_tree, Assembly.size_eq, toList_fragments]

/-- There are not too many instructions if the code is not too long. -/
theorem length_le_maxInstructions (h : t.flatten = p.instructions.toList)
    (hw : Wrap.ofTapeLength p.tapeLength = .ok wrap) (hs : p.codeSize linkage < 2 ^ 31) :
    t.flatten.length ≤ maxInstructions := by
  have hle := @Tree.length_le_sizes linkage wrap t 0 0
  rw [codeSize_eq h hw, Tree.routine, Fragment.sizes_append, Fragment.sizes_append] at hs
  unfold maxInstructions
  omega

/-- What lowering makes of a program if it does not fail. -/
theorem exists_of_lower (h : t.flatten = p.instructions.toList) {operations : Array Operation}
    (hlower : p.lower.toExcept = .ok operations) :
    ∃ wrap, Wrap.ofTapeLength p.tapeLength = .ok wrap ∧ t.flatten.length ≤ maxInstructions ∧
      (fragments linkage operations).toList = t.routine linkage wrap := by
  cases hw : Wrap.ofTapeLength p.tapeLength with
  | error e =>
    rw [lower, TapeLang.lower, hw] at hlower
    cases hlower
  | ok wrap =>
    by_cases hc : t.flatten.length ≤ maxInstructions
    · rw [lower_eq h hw hc] at hlower
      cases hlower
      exact ⟨wrap, rfl, hc, toList_fragments linkage wrap t⟩
    · rw [lower, TapeLang.lower, hw, ops, ← h] at hlower
      simp only at hlower
      rw [if_pos (by simpa using hc)] at hlower
      cases hlower

/-- The fragments of the routine of a program. -/
theorem exists_operations (h : t.flatten = p.instructions.toList)
    (hw : Wrap.ofTapeLength p.tapeLength = .ok wrap) (hs : p.codeSize linkage < 2 ^ 31) :
    ∃ operations, p.lower.toExcept = .ok operations ∧
      (fragments linkage operations).toList = t.routine linkage wrap := by
  refine ⟨_, ?_, toList_fragments linkage wrap t⟩
  rw [lower_eq h hw (length_le_maxInstructions h hw hs)]
  rfl

end Program

end TapeLang
