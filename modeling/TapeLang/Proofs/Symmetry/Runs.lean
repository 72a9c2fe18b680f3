import TapeLang.Proofs.Engine
import TapeLang.Proofs.Interpreter
import TapeLang.Proofs.Symmetry.Tape

/-!
# Runs on a turned tape

The interpreter does on a turned tape what it does on the tape itself, if the counts of all moves
are turned too: action by action the same requests, and in the end the same verdict.

* `Echoes`: a machine does on the images of some states what another does on the states.
* `Program.recount`: a program with other counts for its moves.
* `Interpreter.course_turn`: the two runs are the same up to the turn of the tape.
-/

namespace TapeLang

/-! ## Machines up to a map of their states -/

section Machines

variable {I : Interface} {S S' R R' σ : Type}

/-- The same action, with other states and results. -/
def Action.map (f : S → S') (g : R → R') : Action I S R → Action I S' R'
  | .next s => .next (f s)
  | .ask request resume => .ask request fun reply => f (resume reply)
  | .halt r => .halt (g r)

/-- The same progress, with other states and results. -/
def Progress.map (f : S → S') (g : R → R') : Progress S R σ → Progress S' R' σ
  | .halted r w => .halted (g r) w
  | .running s w => .running (f s) w

/-- `step'` does on the images of the states what `step` does on the states, as long as `P` holds,
and `step` keeps `P`. -/
structure Echoes (f : S → S') (g : R → R') (P : S → Prop) (step : S → Action I S R)
    (step' : S' → Action I S' R') : Prop where
  action : ∀ s, P s → step' (f s) = (step s).map f g
  next : ∀ s t, P s → step s = .next t → P t
  ask : ∀ s request resume reply, P s → step s = .ask request resume → P (resume reply)

namespace Echoes

variable {f : S → S'} {g : R → R'} {P : S → Prop} {step : S → Action I S R}
  {step' : S' → Action I S' R'} {s : S}

theorem run_eq (h : Echoes f g P step step') (hs : P s) (d : Device I σ) (n : Nat) (w : σ) :
    run step' d n (f s) w = (run step d n s w).map f g := by
  induction n generalizing s w with
  | zero => rfl
  | succ n ih =>
    have haction := h.action s hs
    cases hstep : step s with
    | next t =>
      rw [hstep, Action.map] at haction
      rw [run_next haction, run_next hstep, ih (h.next s t hs hstep)]
    | ask request resume =>
      rw [hstep, Action.map] at haction
      rw [run_ask haction, run_ask hstep, ih (h.ask s request resume _ hs hstep)]
    | halt r =>
      rw [hstep, Action.map] at haction
      rw [run_halt haction, run_halt hstep, Progress.map]

theorem course_eq (h : Echoes f g P step step') (hs : P s) (d : Device I σ) (w : σ) (n : Nat) :
    course step' d (f s) w n = ((course step d s w n).1.map g, (course step d s w n).2) := by
  rw [course, course, h.run_eq hs]
  cases run step d n s w <;> rfl

end Echoes

end Machines

/-! ## Other counts -/

/-- The operation, with another count if it is a move. -/
def Op.recount (count : Nat → Nat) : Op → Op
  | .move n => .move (count n)
  | op => op

def Instruction.recount (count : Nat → Nat) (i : Instruction) : Instruction :=
  ⟨i.op.recount count, i.position⟩

@[simp] theorem Op.recount_id (op : Op) : op.recount (fun n => n) = op := by cases op <;> rfl

@[simp] theorem Instruction.recount_id : Instruction.recount (fun n => n) = id := by
  funext i
  rw [recount, Op.recount_id]
  rfl

/-- The program with other counts of its moves, depending on the length of the tape. -/
def Program.recount (count : Nat → Nat → Nat) (p : Program) : Program where
  instructions := p.instructions.map (·.recount (count p.tapeLength))
  tapeLength := p.tapeLength
  maxDepth := p.maxDepth
  tapeLength_pos := p.tapeLength_pos

namespace Program

variable (count : Nat → Nat → Nat) (p : Program)

@[simp] theorem recount_id : p.recount (fun _ n => n) = p := by
  rw [recount, show (fun i => Instruction.recount (fun n => n) i) = id from Instruction.recount_id,
    Array.map_id]

theorem getElem?_recount (index : Nat) : (p.recount count).instructions[index]? =
    p.instructions[index]?.map (·.recount (count p.tapeLength)) := Array.getElem?_map

@[simp] theorem position?_recount (index : Nat) :
    (p.recount count).position? index = p.position? index := by
  rw [position?, position?, getElem?_recount]
  cases p.instructions[index]? <;> rfl

end Program

/-! ## The interpreter on a turned tape -/

/-- The same ending on the turned tape. -/
def Ending.turn (τ : Turn) (ending : Ending) : Ending := ⟨ending.verdict, ending.tape.turn τ⟩

/-- The same course with the turned tape in the end. -/
def Course.turn {σ : Type} (τ : Turn) (c : Course Ending σ) : Course Ending σ :=
  fun n => ((c n).1.map (·.turn τ), (c n).2)

namespace Interpreter

variable {τ : Turn} {count : Nat → Nat → Nat} {p : Program} {s : State}

/-- The same state on the turned tape. -/
def State.turn (τ : Turn) (s : State) : State := { s with tape := s.tape.turn τ }

namespace State

theorem closeLoop_turn (s : State) : (s.turn τ).closeLoop = s.closeLoop.turn τ := by
  rw [closeLoop, closeLoop, turn, Tape.get_turn]
  split <;> rfl

theorem enterLoop_turn (s : State) : (s.turn τ).enterLoop = s.enterLoop.turn τ := by
  rw [enterLoop, enterLoop, turn, Tape.get_turn]
  rfl

theorem perform_turn (h : τ.Carries count) (s : State) (c : Command) :
    (s.turn τ).execute (c.op.recount (count s.tape.length)) = (s.execute c.op).turn τ := by
  by_cases hs : s.skip = 0
  · have hs' : (s.turn τ).skip = 0 := hs
    cases c with
    | move n =>
      rw [execute_of_running hs (.move n)]
      refine (execute_of_running hs' (.move _)).trans ?_
      exact congrArg (fun tape => State.mk _ tape _ _ _ _) (s.tape.advance_turn h n)
    | add n =>
      rw [execute_of_running hs (.add n)]
      refine (execute_of_running hs' (.add n)).trans ?_
      exact congrArg (fun tape => State.mk _ tape _ _ _ _) (s.tape.add_turn τ n.toUInt8)
    | reset =>
      rw [execute_of_running hs .reset]
      refine (execute_of_running hs' .reset).trans ?_
      exact congrArg (fun tape => State.mk _ tape _ _ _ _) (s.tape.set_turn τ 0)
    | read =>
      rw [execute_of_running hs .read]
      exact execute_of_running hs' .read
    | write =>
      rw [execute_of_running hs .write]
      refine (execute_of_running hs' .write).trans ?_
      rw [perform, turn, Tape.get_turn]
      rfl
  · have hs' : (s.turn τ).skip ≠ 0 := hs
    rw [execute_of_skip hs]
    cases c <;> exact if_pos hs'

theorem execute_turn (h : τ.Carries count) (s : State) (op : Op) :
    (s.turn τ).execute (op.recount (count s.tape.length)) = (s.execute op).turn τ := by
  rcases op.bracket_or_command with rfl | rfl | ⟨c, rfl⟩
  · exact enterLoop_turn s
  · exact closeLoop_turn s
  · exact perform_turn h s c

theorem afterTransfer_turn (s : State) (next : Transfer.Next) :
    (s.turn τ).afterTransfer next = (s.afterTransfer next).turn τ := by
  rcases next with t | outcome
  · rfl
  · cases outcome with
    | received byte =>
      exact congrArg (fun tape => State.mk _ tape _ _ _ _) (s.tape.set_turn τ byte)
    | sent | failed e => rfl

end State

theorem opened_turn (s : State) (canPeek : Bool) :
    opened (p.recount count) (s.turn τ) canPeek = (opened p s canPeek).turn τ := by
  rw [opened, opened, show (p.recount count).maxDepth = p.maxDepth from rfl]
  split <;> rfl

theorem finished_turn (s : State) (reply : Except Failure Unit) :
    finished (s.turn τ) reply = (finished s reply).turn τ := by
  cases reply <;> rfl

/-- One action. -/
theorem step_turn (h : τ.Carries count) {tape : Tape} (hs : Regular p tape s) :
    step (p.recount count) (s.turn τ) = (step p s).map (State.turn τ) (Ending.turn τ) := by
  have hphase : (s.turn τ).phase = s.phase := rfl
  cases hp : s.phase with
  | opening =>
    simp only [step, hphase, hp]
    have hlength : (s.turn τ).tape.length = s.tape.length := s.tape.length_turn τ
    rw [hlength, show (p.recount count).tapeLength = p.tapeLength from rfl]
    by_cases hl : s.tape.length = p.tapeLength
    · rw [if_neg (Decidable.not_not.mpr hl), if_neg (Decidable.not_not.mpr hl), Action.map]
      exact congrArg (Action.ask _) (funext (opened_turn s))
    · rw [if_pos hl, if_pos hl]
      rfl
  | running =>
    have hlength : s.tape.length = p.tapeLength :=
      hs.length.trans (hs.fits.resolve_left (by simp [hp]))
    have hcursor : (s.turn τ).cursor = s.cursor := rfl
    simp only [step, hphase, hp, hcursor, Program.getElem?_recount]
    cases p.instructions[s.cursor]? with
    | none => exact congrArg (Action.ask _) (funext (finished_turn s))
    | some i =>
      simp only [Option.map_some, Instruction.recount, Action.map, ← hlength,
        State.execute_turn h]
  | transferring stage =>
    simp only [step, hphase, hp, Action.map, Program.position?_recount, ← State.afterTransfer_turn]
    rfl
  | closed verdict =>
    simp only [step, hphase, hp]
    rfl

theorem echoes_turn (h : τ.Carries count) (p : Program) (tape : Tape) :
    Echoes (State.turn τ) (Ending.turn τ) (Regular p tape) (step p) (step (p.recount count)) where
  action _ hs := step_turn h hs
  next _ _ hs hn := hs.next hn
  ask _ _ _ reply hs ha := hs.ask ha reply

/-- A whole run. -/
theorem course_turn {σ : Type} (h : τ.Carries count) (p : Program) (d : Device byteStream σ)
    (tape : Tape) (w : σ) : (Engine.interpreter (p.recount count)).course d (tape.turn τ) w =
      ((Engine.interpreter p).course d tape w).turn τ :=
  funext fun n => (echoes_turn h p tape).course_eq (.start p tape) d w n

end Interpreter

end TapeLang
