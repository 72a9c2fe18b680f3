import TapeLang.Proofs.Assembler.Lowering
import TapeLang.Proofs.Native.Process

/-!
# Assembling behind the start of a process

In an executable the start of the process comes first, with two labels of its own, and then the
label of the routine. What an assembler finishes of this and of the instructions is the code that is
assembled of the whole executable all at once.

* `alike_entryPointAt`: the start of a process with labels of its own.
* `behindStart`: the names that targets have behind it.
* `Assembler.compile_beginning`, `Executable.build_eq`: the code of an executable.
-/

namespace TapeLang

open X86 Fragment Assembly Job

/-! ## Labels inside the start -/

namespace Assembly

variable {places' places : Std.HashMap Target Nat} {offset : Nat} {fs : List Fragment} {t : Target}
  {exit noMemory : Label}

/-- Behind the call, with labels where it exits and where it gets to without memory. -/
def leavingAt (exit noMemory : Label) : List Fragment :=
  .instr Block.keepStatus :: .mark (.label exit) :: (Block.plain Block.exitProcess ++
    .mark (.label noMemory) :: .instr Block.statusWithoutMemory ::
      [.branch .jump (.label exit)])

theorem entryPointAt_eq (exit noMemory l : Label) (tapeLength : UInt32) :
    Block.entryPointAt exit noMemory tapeLength l =
      Block.plain (Block.requestTape tapeLength) ++
        (.instr .syscall :: .instr (.test .qword .rax .rax) ::
          .branch (.jumpIf .sign) (.label noMemory) :: (Block.plain Block.passTape ++
            (.branch .call (.label l) :: leavingAt exit noMemory))) := rfl

theorem sizes_requestTape (tapeLength : UInt32) :
    sizes (Block.plain (Block.requestTape tapeLength)) = 39 := rfl

theorem sizes_passTape : sizes (Block.plain Block.passTape) = 10 := rfl

theorem marks_entryPointAt (exit noMemory l : Label) (tapeLength : UInt32) :
    marks (Block.entryPointAt exit noMemory tapeLength l) = [.label exit, .label noMemory] := by
  simp [entryPointAt_eq, leavingAt]

theorem sizes_entryPointAt (exit noMemory l : Label) (tapeLength : UInt32) (t : Target) :
    sizes (Block.entryPointAt exit noMemory tapeLength l) =
      sizes (Block.entryPoint tapeLength t) := by
  rw [entryPointAt_eq, entryPoint_eq]
  simp only [sizes_append, sizes_cons]
  rfl

/-- Behind the call the last branch leads back over 17 bytes, its own among them. -/
theorem alike_leavingAt (h : places'[Target.label exit]? = some (offset + 2)) :
    Alike places' places offset (leavingAt exit noMemory) leaving := by
  have hjump : Block.jumpBack (Block.exitProcess ++ [Block.statusWithoutMemory]) =
      .branch .jump (-17) := by decide +kernel
  have hsizes : Block.keepStatus.size = 2 ∧ sizes (Block.plain Block.exitProcess) = 7 ∧
      Block.statusWithoutMemory.size = 5 := ⟨rfl, rfl, rfl⟩
  have hback : (-17 : Int32).toInt = -17 := rfl
  rw [leavingAt, leaving, hjump]
  refine .instr _ (.markLeft _ (.append (.plain _)
    (.markLeft _ (.instr _ (.settled h ?_ .nil)))))
  rw [hsizes.1, hsizes.2.1, hsizes.2.2, hback, Branch.opcode, List.length_singleton]
  omega

/-- The branch that is taken if there is no memory leads over 24 bytes. -/
theorem alike_entryPointAt {l : Label} (tapeLength : UInt32)
    (hexit : places'[Target.label exit]? = some (offset + 67))
    (hnoMemory : places'[Target.label noMemory]? = some (offset + 74))
    (htarget : places'[Target.label l]? = places[t]?) :
    Alike places' places offset (Block.entryPointAt exit noMemory tapeLength l)
      (Block.entryPoint tapeLength t) := by
  have hsizes : Instr.syscall.size = 2 ∧ (Instr.test .qword .rax .rax).size = 3 := ⟨rfl, rfl⟩
  have hpast : (24 : Int32).toInt = 24 := rfl
  rw [entryPointAt_eq, entryPoint_eq]
  refine .append (.plain _) (.instr _ (.instr _ (.settled hnoMemory ?_ (.append (.plain _)
    (.branch htarget (alike_leavingAt ?_))))))
  · rw [sizes_requestTape, hsizes.1, hsizes.2, hpast, Branch.opcode, List.length_cons,
      List.length_singleton]
    omega
  · rw [hexit, sizes_requestTape, sizes_passTape, hsizes.1, hsizes.2]
    rfl

/-- The labels inside the start are placed where it branches to. -/
theorem getElem?_placesFrom_entryPointAt (l : Label) (tapeLength : UInt32) (hne : exit ≠ noMemory)
    (hexit : .label exit ∉ marks fs) (hnoMemory : .label noMemory ∉ marks fs) :
    (placesFrom 0 ∅ (Block.entryPointAt exit noMemory tapeLength l ++ fs))[Target.label exit]? =
        some 67 ∧
      (placesFrom 0 ∅ (Block.entryPointAt exit noMemory tapeLength l ++ fs))[
        Target.label noMemory]? = some 74 := by
  obtain ⟨front, hfront⟩ : ∃ front, front =
    Block.plain (Block.requestTape tapeLength) ++
      (.instr .syscall :: .instr (.test .qword .rax .rax) ::
        .branch (.jumpIf .sign) (.label noMemory) :: (Block.plain Block.passTape ++
          [.branch .call (.label l), .instr Block.keepStatus])) := ⟨_, rfl⟩
  have hsize : sizes front = 67 := by
    rw [hfront, sizes_append, sizes_cons, sizes_cons, sizes_cons, sizes_append, sizes_requestTape,
      sizes_passTape]
    rfl
  have hfirst : Block.entryPointAt exit noMemory tapeLength l = front ++ .mark (.label exit) ::
      (Block.plain Block.exitProcess ++ .mark (.label noMemory) ::
        [.instr Block.statusWithoutMemory, .branch .jump (.label exit)]) := by
    rw [hfront, entryPointAt_eq, leavingAt]
    simp
  have hsecond : Block.entryPointAt exit noMemory tapeLength l =
      (front ++ .mark (.label exit) :: Block.plain Block.exitProcess) ++
        .mark (.label noMemory) ::
          [.instr Block.statusWithoutMemory, .branch .jump (.label exit)] := by
    rw [hfirst]
    simp
  constructor
  · rw [hfirst, List.append_assoc, List.cons_append, placesFrom_mark (by simp [hne, hexit]), hsize]
  · rw [hsecond, List.append_assoc, List.cons_append, placesFrom_mark (by simp [hnoMemory]),
      sizes_append, sizes_cons, hsize]
    rfl

end Assembly

namespace Assembler

/-! ## Behind the start -/

/-- The names of targets in an executable: the first label is that of the routine, and the start of
the process has two of its own. -/
def behindStart : Target → Target
  | .label l => .label (3 + l)
  | .fail => .fail
  | .routine => .label 0

theorem renames_behindStart : Renames 3 behindStart where
  injective t u h := by
    have hne (l : Label) : behindStart (.label l) ≠ behindStart .routine := fun he =>
      Nat.ne_of_gt (Nat.add_pos_left (by decide) l) (Target.label.inj he)
    cases t with
    | label l =>
      cases u with
      | label k => exact congrArg _ (Nat.add_left_cancel (Target.label.inj h))
      | fail => cases h
      | routine => exact absurd h (hne l)
    | fail => cases u <;> first | rfl | cases h
    | routine =>
      cases u with
      | label k => exact absurd h.symm (hne k)
      | fail => cases h
      | routine => rfl
  label l := rfl
  fail := rfl

/-- No target has the name of a label inside the start. -/
theorem behindStart_ne (u : Target) : behindStart u ≠ .label 1 ∧ behindStart u ≠ .label 2 := by
  cases u with
  | label l =>
    have h (k : Label) (hk : k < 3) : Target.label (3 + l) ≠ .label k := fun he =>
      Nat.not_lt.mpr (Nat.le_add_right 3 l) (Target.label.inj he ▸ hk)
    exact ⟨h 1 (by decide), h 2 (by decide)⟩
  | fail | routine => decide

theorem behindStart_not_mem (u : Target) (tapeLength : UInt32) :
    behindStart u ∉ marks (Block.entryPointAt 1 2 tapeLength 0) := by
  rw [marks_entryPointAt]
  simp [behindStart_ne]

/-- In front of any body the two ways to write the start of a process come to the same. -/
theorem alike_start (tapeLength : UInt32) (body : List Fragment) (l : Label) :
    Alike
      (placesFrom 0 ∅ (Block.entryPointAt 1 2 tapeLength 0 ++
        (body.map (Fragment.rename behindStart) ++ Block.epilogueAt (3 + l))))
      (placesFrom 0 ∅ (Block.entryPoint tapeLength .routine ++ (body ++ Block.epilogue)))
      0 (Block.entryPointAt 1 2 tapeLength 0) (Block.entryPoint tapeLength .routine) := by
  have hlater (k : Label) (hk : k < 3) (hne : ∀ u, behindStart u ≠ .label k) : .label k ∉
      marks (body.map (Fragment.rename behindStart) ++ Block.epilogueAt (3 + l)) := by
    have hlt : k < 3 + l := Nat.lt_of_lt_of_le hk (Nat.le_add_right 3 l)
    rw [marks_append, marks_rename]
    simp [Block.epilogueAt, hne, Nat.ne_of_lt hlt]
  have hroutine : behindStart .routine ≠ .label (3 + l) := fun he =>
    Nat.ne_of_lt (Nat.add_pos_left (by decide) l) (Target.label.inj he)
  obtain ⟨hexit, hnoMemory⟩ := @getElem?_placesFrom_entryPointAt _ 1 2 0 tapeLength (by decide)
    (hlater 1 (by decide) fun u => (behindStart_ne u).1)
    (hlater 2 (by decide) fun u => (behindStart_ne u).2)
  exact alike_entryPointAt tapeLength hexit hnoMemory <|
    @getElem?_placesFrom_enclosed behindStart .routine _ _ _ _ renames_behindStart.injective rfl
      (sizes_entryPointAt ..) (by simp [Block.entryPoint]) (behindStart_not_mem .routine tapeLength)
      hroutine

/-- What is asked for in front of the instructions of an executable. -/
def beginning (tapeLength : Nat) : List Call :=
  [.newLabel, .entryPoint tapeLength.toUInt32 0, .operation (.bind 0)]

theorem holds_beginning (tapeLength : Nat) :
    ((start .freestanding).run (beginning tapeLength)).Holds
      (Block.entryPointAt 1 2 tapeLength.toUInt32 0 ++ [.mark (.label 0)]) :=
  (holds_start .freestanding).run (beginning tapeLength)

theorem linkage_beginning (tapeLength : Nat) :
    ((start .freestanding).run (beginning tapeLength)).linkage = .freestanding := by
  simp [run, beginning, start]

/-- To lower instructions behind the start of a process comes to the same as to assemble the whole
executable. -/
theorem compile_beginning (ops : List Op) (tapeLength : Nat) :
    ((start .freestanding).run (beginning tapeLength)).compile ops tapeLength =
      (lower ops tapeLength).toExcept.bind fun operations =>
        assemble (Executable.fragmentsAround tapeLength operations) := by
  rcases compile_cases renames_behindStart (holds_beginning tapeLength) rfl ops tapeLength with
    ⟨operations, e, hlower, hcompile⟩ | ⟨t, hb, hlower, hcompile⟩
  · rw [hlower, hcompile]
    rfl
  · obtain ⟨body, hbody⟩ : ∃ body, body =
      Fragment.mark .routine :: (fragments .freestanding t.operations).toList := ⟨_, rfl⟩
    have hbranch (b : Branch) (u : Target) (hu : .branch b u ∈ body) :
        behindStart u ≠ .label (3 + t.fresh) := by
      rw [hbody] at hu
      exact name_of_branch renames_behindStart hb ((List.mem_cons.mp hu).resolve_left nofun)
    have hsame := assemble_enclosed renames_behindStart.injective rfl (by simp [Block.entryPoint])
      (fun b u hu => ⟨behindStart_not_mem u _, hbranch b u hu⟩)
      (alike_start tapeLength.toUInt32 body t.fresh)
    rw [hlower, hcompile, linkage_beginning, List.append_assoc]
    refine Eq.trans (Eq.trans ?_ hsame) (congrArg assemble (Array.ext' ?_))
    · rw [hbody]
      rfl
    · simp [hbody, Executable.fragmentsAround, toList_fragments_push, Block.ofOperation]

end Assembler

/-- The code of an executable is what an assembler finishes that its instructions are lowered into
behind the start of a process. -/
theorem Executable.build_eq (p : Program) (moduleName : String) :
    build p moduleName =
      (((Assembler.start .freestanding).run (Assembler.beginning p.tapeLength)).compile p.ops
        p.tapeLength).map fun code => ⟨code, moduleName⟩ := by
  rw [Assembler.compile_beginning, build, Program.lower]
  cases (lower p.ops p.tapeLength).toExcept <;> rfl

end TapeLang
