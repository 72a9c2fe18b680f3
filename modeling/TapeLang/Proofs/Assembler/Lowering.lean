import TapeLang.Proofs.Assembler.Finish
import TapeLang.Proofs.Assembler.Renaming
import TapeLang.Routine

/-!
# One lowering for all emitters

Instructions can be lowered to a list of operations, or step by step into an emitter. An emitter
that takes in operations one by one is given those of the list. So what an assembler finishes is the
code that is assembled of the list all at once.

* `Emitter.Takes`: an emitter takes in operations, with names of its own for labels.
* `Emitter.Takes.lower`: it is given the operations of the list.
* `Assembler.compile_cases`: what an assembler finishes, whatever it has written before.
* `Assembler.compile_start`, `Routine.compile_eq`: the code of a routine.
-/

namespace TapeLang

open X86 Fragment Assembly Lowering

/-! ## Labels in use -/

/-- It branches to one of the first `n` labels, if it branches. -/
def Operation.Below (n : Label) : Operation → Prop
  | .jump l => l < n
  | .branchIfZero l => l < n
  | _ => True

theorem Operation.Below.mono {op : Operation} {m n : Label} (h : op.Below m) (hle : m ≤ n) :
    op.Below n := by
  cases op with
  | jump l | branchIfZero l => exact Nat.lt_of_lt_of_le h hle
  | _ => trivial

namespace Lowering

/-- Only labels that are in use are branched to. -/
structure State.Bounded (s : State) : Prop where
  operations : ∀ op ∈ s.operations, op.Below s.fresh
  loops : ∀ loop ∈ s.loops, loop.top < s.fresh

namespace State.Bounded

variable {s : State} {wrap : Wrap} {index : Nat}

theorem raise (h : s.Bounded) {n : Label} (hle : s.fresh ≤ n) : State.Bounded { s with fresh := n }
    where
  operations op hop := (h.operations op hop).mono hle
  loops loop hl := Nat.lt_of_lt_of_le (h.loops loop hl) hle

theorem emit (h : s.Bounded) {op : Operation} (hop : op.Below s.fresh) : (s.emit op).Bounded where
  operations op' hop' := by
    rcases Array.mem_push.mp hop' with hop' | rfl
    · exact h.operations op' hop'
    · exact hop
  loops := h.loops

theorem step (h : s.Bounded) (op : Op) : (s.step wrap index op).Bounded := by
  cases op with
  | move n | add n | reset | read | write => exact h.emit trivial
  | loopStart =>
    have hraised := h.raise (Nat.le_add_right s.fresh 2)
    have hbind := @emit _ hraised (.bind s.fresh) trivial
    have hbranch := @emit _ hbind (.branchIfZero (s.fresh + 1)) (Nat.lt_succ_self _)
    exact ⟨hbranch.operations, List.forall_mem_cons.mpr ⟨Nat.lt_add_of_pos_right (by decide),
      hraised.loops⟩⟩
  | loopEnd =>
    rw [State.step]
    split
    case h_1 => exact h
    case h_2 loop outer hloops =>
      have houter := h.loops
      rw [hloops, List.forall_mem_cons] at houter
      have hjump := @emit _ h (.jump loop.top) houter.1
      exact ⟨(@emit _ hjump (.bind loop.behind) trivial).operations, houter.2⟩

end State.Bounded

theorem bounded_start : start.Bounded where
  operations op hop := by
    rw [Array.mem_singleton.mp hop]
    trivial
  loops := nofun

end Lowering

/-! ## Taking in operations -/

/-- An operation whose labels have `n` others in front of them. -/
def Operation.shift (n : Nat) : Operation → Operation
  | .bind l => .bind (n + l)
  | .jump l => .jump (n + l)
  | .branchIfZero l => .branchIfZero (n + l)
  | op => op

@[simp] theorem Operation.shift_zero (op : Operation) : op.shift 0 = op := by
  cases op <;> simp [shift]

/-- The names of the labels of a loop, if `n` others are in front of them. -/
def Lowering.Loop.names (n : Nat) (loop : Loop) : Label × Label := (n + loop.top, n + loop.behind)

namespace Emitter

variable {σ : Type}

/-- Append any operation. -/
def put (e : Emitter σ Label) : Operation → σ → σ
  | .prologue => e.prologue
  | .epilogue => e.epilogue
  | .bind l => e.bind l
  | .jump l => e.jump l
  | .branchIfZero l => e.branchIfZero l
  | .move count wrap => e.move count wrap
  | .add amount => e.add amount
  | .reset => e.reset
  | .read index => e.read index
  | .write index => e.write index

/-- The emitter keeps what it is given: `holds s operations l` says that `s` has come of these
operations and of `l` new labels. In front of these labels it has `n` others. -/
structure Takes (e : Emitter σ Label) (n : Nat) (holds : σ → Array Operation → Label → Prop) :
    Prop where
  newLabel {s : σ} {operations : Array Operation} {l : Label} : holds s operations l →
    (e.newLabel s).1 = n + l ∧ holds (e.newLabel s).2 operations (l + 1)
  put {s : σ} {operations : Array Operation} {l : Label} (op : Operation) : op ≠ .epilogue →
    holds s operations l → holds (e.put (op.shift n) s) (operations.push op) l

namespace Takes

variable {e : Emitter σ Label} {n : Nat} {holds : σ → Array Operation → Label → Prop} {s : σ}
  {t : State} {wrap : Wrap} {index : Nat} {op : Op}

/-- Each instruction comes to the same in an emitter as in the list. -/
theorem step (ht : e.Takes n holds) (h : holds s t.operations t.fresh)
    (hend : ¬ (op = .loopEnd ∧ t.loops.isEmpty)) :
    ∃ s', e.step wrap index (t.loops.map (Loop.names n)) s op =
        (some ((t.step wrap index op).loops.map (Loop.names n)), s') ∧
      holds s' (t.step wrap index op).operations (t.step wrap index op).fresh := by
  cases op with
  | move count => exact ⟨_, rfl, ht.put (.move count.toUInt32 wrap) nofun h⟩
  | add amount => exact ⟨_, rfl, ht.put (.add amount.toUInt8) nofun h⟩
  | reset => exact ⟨_, rfl, ht.put .reset nofun h⟩
  | read => exact ⟨_, rfl, ht.put (.read index.toUInt32) nofun h⟩
  | write => exact ⟨_, rfl, ht.put (.write index.toUInt32) nofun h⟩
  | loopStart =>
    obtain ⟨htop, hfirst⟩ := ht.newLabel h
    obtain ⟨hbehind, hsecond⟩ := ht.newLabel hfirst
    have hbind := ht.put (.bind t.fresh) nofun hsecond
    refine ⟨_, ?_, ht.put (.branchIfZero (t.fresh + 1)) nofun hbind⟩
    rw [Emitter.step]
    dsimp only
    rw [htop, hbehind]
    rfl
  | loopEnd =>
    cases hloops : t.loops with
    | nil => exact absurd ⟨rfl, by rw [hloops]; rfl⟩ hend
    | cons loop outer =>
      have hjump := ht.put (.jump loop.top) nofun h
      have hbind := ht.put (.bind loop.behind) nofun hjump
      rw [State.step, hloops]
      exact ⟨_, rfl, hbind⟩

/-- What has been lowered into an emitter is what is in the list, up to a fault or to the end. -/
inductive Same (e : Emitter σ Label) (holds : σ → Array Operation → Label → Prop) :
    Lowering → Option BuildError × σ → Prop
  | refused {s : σ} {operations : Array Operation} {l : Label} (error : BuildError)
      (h : holds s operations l) : Same e holds ⟨operations, some error⟩ (some error, s)
  | accepted {s : σ} {t : State} (hb : t.Bounded) (h : holds s t.operations t.fresh) :
      Same e holds ⟨t.operations.push .epilogue, none⟩ (none, e.epilogue s)

/-- From any instruction on. The induction is on the instructions that are left. -/
theorem steps (ht : e.Takes n holds) (h : holds s t.operations t.fresh) (hb : t.Bounded)
    (ops : List Op) :
    Same e holds (Lowering.steps wrap t index ops)
      (e.steps wrap index (t.loops.map (Loop.names n)) s ops) := by
  induction ops generalizing s t index with
  | nil =>
    rw [Lowering.steps, Emitter.steps, List.isEmpty_map]
    split
    · exact .accepted hb h
    · exact .refused _ h
  | cons op rest ih =>
    rw [Lowering.steps, Emitter.steps]
    by_cases hend : op = .loopEnd ∧ t.loops.isEmpty
    · obtain ⟨rfl, hnone⟩ := hend
      rw [if_pos ⟨rfl, hnone⟩, List.isEmpty_iff.mp hnone]
      exact .refused _ h
    · obtain ⟨s', hstep, hholds⟩ := @step _ e n holds s t wrap index op ht h hend
      rw [if_neg hend, hstep]
      exact ih hholds (hb.step op)

/-- An emitter that takes in operations is given those of the list. -/
theorem lower (ht : e.Takes n holds) (h : holds s #[] 0) (ops : List Op) (tapeLength : Nat) :
    Same e holds (TapeLang.lower ops tapeLength) (e.lower ops tapeLength s) := by
  rw [TapeLang.lower, Emitter.lower]
  cases Wrap.ofTapeLength tapeLength with
  | error error => exact .refused _ h
  | ok wrap =>
    dsimp only
    split
    · exact .refused _ h
    · exact ht.steps (t := start) (ht.put .prologue nofun h) bounded_start ops

end Takes

theorem takes_recorder : recorder.Takes 0 fun s operations l => s = (operations, l) where
  newLabel h := by
    subst h
    exact ⟨(Nat.zero_add _).symm, rfl⟩
  put op _ h := by
    subst h
    rw [Operation.shift_zero]
    cases op <;> rfl

/-- What is recorded is the list. -/
theorem lower_recorder (ops : List Op) (tapeLength : Nat) :
    (recorder.lower ops tapeLength (#[], 0)).1 = (TapeLang.lower ops tapeLength).error ∧
      (recorder.lower ops tapeLength (#[], 0)).2.1 =
        (TapeLang.lower ops tapeLength).operations := by
  have h := takes_recorder.lower rfl ops tapeLength
  generalize TapeLang.lower ops tapeLength = l, recorder.lower ops tapeLength (#[], 0) = r at h ⊢
  cases h with
  | refused error h =>
    rw [h]
    exact ⟨rfl, rfl⟩
  | accepted hb h =>
    rw [h]
    exact ⟨rfl, rfl⟩

end Emitter

/-! ## Fragments of operations -/

theorem toList_fragments_push (linkage : Linkage) (operations : Array Operation) (op : Operation) :
    (fragments linkage (operations.push op)).toList =
      (fragments linkage operations).toList ++ Block.ofOperation linkage op := by
  simp [fragments]

/-- Another name for each target, which leaves the first `n` labels free. -/
structure Renames (n : Nat) (f : Target → Target) : Prop where
  injective : f.Injective
  label : ∀ l, f (.label l) = .label (n + l)
  fail : f .fail = .fail

theorem renames_id : Renames 0 id where
  injective := Function.injective_id
  label l := by rw [Nat.zero_add, id]
  fail := rfl

theorem Renames.ofOperation {n : Nat} {f : Target → Target} (hf : Renames n f) (linkage : Linkage)
    (op : Operation) :
    Block.ofOperation linkage (op.shift n) =
      (Block.ofOperation linkage op).map (Fragment.rename f) := by
  have hplain (code : List Instr) :
      (Block.plain code).map (Fragment.rename f) = Block.plain code := by
    rw [Block.plain, List.map_map]
    rfl
  cases op with
  | prologue => exact (hplain _).symm
  | add amount => exact (hplain [_]).symm
  | reset => exact (hplain [_]).symm
  | bind l | jump l | branchIfZero l =>
    simp [Operation.shift, Block.ofOperation, Fragment.rename, hf.label]
  | move count wrap => cases wrap <;> exact (hplain _).symm
  | epilogue =>
    simp [Operation.shift, Block.ofOperation, Block.epilogue, hplain, Fragment.rename, hf.fail]
  | read index | write index =>
    cases linkage <;>
      simp [Operation.shift, Block.ofOperation, Block.read, Block.write, Block.callHook,
        Block.moveByte, hplain, Fragment.rename, hf.fail]

/-! ## Assemblers -/

namespace Assembler

variable {linkage : Linkage} {n : Nat} {f : Target → Target} {fs : List Fragment} {a : Assembler}

/-- Lower instructions behind what there is, and finish. -/
def compile (a : Assembler) (ops : List Op) (tapeLength : Nat) : Except BuildError (Array UInt8) :=
  match emitter.lower ops tapeLength a with
  | (some e, _) => .error e
  | (none, a) => a.finish

theorem Call.created_operation {op : Operation} (h : op ≠ .epilogue) :
    (operation op).created = 0 := by
  cases op <;> first | contradiction | rfl

theorem put_emitter (a : Assembler) (op : Operation) :
    emitter.put op a = a.apply (.operation op) := by
  cases op <;> rfl

/-- To an assembler that has written `fs` and created `n` labels, operations add their fragments. -/
theorem takes_emitter (hf : Renames n f) (linkage : Linkage) (fs : List Fragment) :
    emitter.Takes n fun a operations l => a.linkage = linkage ∧ a.created = n + l ∧
      a.Holds (fs ++ (fragments linkage operations).toList.map (Fragment.rename f)) where
  newLabel h := by
    obtain ⟨hlinkage, hcreated, hholds⟩ := h
    have hsame := hholds.apply .newLabel
    rw [Call.fragments, List.append_nil] at hsame
    exact ⟨hcreated, hlinkage, congrArg (· + 1) hcreated, hsame⟩
  put {a} _ _ op hne h := by
    obtain ⟨hlinkage, hcreated, hholds⟩ := h
    have hother : op.shift n ≠ .epilogue := by cases op <;> first | contradiction | nofun
    have hadded := hholds.apply (.operation (op.shift n))
    rw [Call.fragments_operation hother, hlinkage, hf.ofOperation, List.append_assoc,
      ← List.map_append, ← toList_fragments_push] at hadded
    rw [put_emitter, linkage_apply, created_apply, Call.created_operation hother]
    exact ⟨hlinkage, hcreated, hadded⟩

/-- What is finished behind `fs` is assembled of `fs` and of the list, with a label at the exit of
the epilogue. -/
theorem compile_cases (hf : Renames n f) (h : a.Holds fs) (hcreated : a.created = n) (ops : List Op)
    (tapeLength : Nat) :
    (∃ operations e, lower ops tapeLength = ⟨operations, some e⟩ ∧
        a.compile ops tapeLength = .error e) ∨
      ∃ t : State, t.Bounded ∧ lower ops tapeLength = ⟨t.operations.push .epilogue, none⟩ ∧
        a.compile ops tapeLength =
          assemble (fs ++ ((fragments a.linkage t.operations).toList.map (Fragment.rename f) ++
            Block.epilogueAt (n + t.fresh))).toArray := by
  have hstart : a.Holds (fs ++ (fragments a.linkage #[]).toList.map (Fragment.rename f)) := by
    rwa [fragments, Array.flatMap_empty, List.map_nil, List.append_nil]
  have hsame := (takes_emitter hf a.linkage fs).lower ⟨rfl, hcreated, hstart⟩ ops tapeLength
  rw [compile]
  generalize lower ops tapeLength = l, emitter.lower ops tapeLength a = r at hsame ⊢
  cases hsame with
  | refused e h => exact .inl ⟨_, e, rfl, rfl⟩
  | @accepted a t hb h =>
    obtain ⟨-, hcreated, hholds⟩ := h
    refine .inr ⟨t, hb, rfl, ?_⟩
    have hadded := hholds.apply (.operation .epilogue)
    rw [List.append_assoc, Call.fragments, hcreated] at hadded
    exact hadded.finish_eq

/-- No branch of the operations leads to the label that the epilogue gets. -/
theorem name_of_branch (hf : Renames n f) {t : State} (hb : t.Bounded) {b : Branch} {u : Target}
    (h : .branch b u ∈ (fragments linkage t.operations).toList) : f u ≠ .label (n + t.fresh) := by
  obtain ⟨op, hop, hu⟩ : ∃ op ∈ t.operations, .branch b u ∈ Block.ofOperation linkage op := by
    simpa [fragments] using h
  have hbelow := hb.operations op hop
  rcases Block.target_of_branch hu with rfl | ⟨l, hl, rfl⟩
  · rw [hf.fail]
    exact nofun
  · have hlt : l < t.fresh := by rcases hl with rfl | rfl <;> exact hbelow
    rw [hf.label]
    exact fun he => Nat.ne_of_lt hlt (Nat.add_left_cancel (Target.label.inj he))

/-- To lower instructions into a new assembler comes to the same as to assemble the list. -/
theorem compile_start (linkage : Linkage) (ops : List Op) (tapeLength : Nat) :
    (start linkage).compile ops tapeLength = (lower ops tapeLength).toExcept.bind fun operations =>
      assemble (fragments linkage operations) := by
  rcases compile_cases renames_id (holds_start linkage) rfl ops tapeLength with
    ⟨operations, e, hlower, hcompile⟩ | ⟨t, hb, hlower, hcompile⟩
  · rw [hlower, hcompile]
    rfl
  · have hsame := @assemble_enclosed id [] [] (fragments linkage t.operations).toList (0 + t.fresh)
      renames_id.injective rfl rfl (fun b u hu => ⟨nofun, name_of_branch renames_id hb hu⟩) .nil
    rw [hlower, hcompile]
    refine hsame.trans (congrArg assemble (Array.ext' ?_))
    rw [toList_fragments_push]
    rfl

end Assembler

/-- The code of a routine is what an assembler finishes that its instructions are lowered into. -/
theorem Routine.compile_eq (p : Program) (host : Host) :
    compile p host =
      ((Assembler.start host.linkage).compile p.ops p.tapeLength).map fun code =>
        { host
          text := .ofBytes host.text code
          tapeLength := p.tapeLength
          positions := p.instructions.map (·.position)
          tapeLength_pos := p.tapeLength_pos } := by
  rw [Assembler.compile_start, compile, Program.lower]
  cases (lower p.ops p.tapeLength).toExcept <;> rfl

end TapeLang
