import TapeLang.Proofs.Course
import TapeLang.Proofs.Tree.Basic
import TapeLang.Transfer

/-!
# What a tree does

The meaning of a tree beside a device, by recursion on the tree: commands one after the other, and
`while the current cell is not zero` for a loop. An error ends everything at once. A bound is set on
the rounds of each loop and on the requests of each transfer; where it does not suffice, the
evaluation is unfinished.

* `Tree.exec`: what a tree does to a tape.
* `Tree.course`: a whole program, which first asks whether the input can be looked at and at its end
  flushes the output.
* `Tree.exec_append`, `Tree.length_of_exec`: sequences, and the length of the tape.
-/

namespace TapeLang

/-- How a piece of a program is left. -/
inductive Passage (σ : Type) where
  | through (tape : Tape) (world : σ)
  | stopped (e : RunError) (tape : Tape) (world : σ)
  /-- The bound is used up. -/
  | unfinished (world : σ)

variable {σ : Type}

namespace Passage

/-- Go on with `next` unless there was an end. -/
def andThen (p : Passage σ) (next : Tape → σ → Passage σ) : Passage σ :=
  match p with
  | through tape world => next tape world
  | stopped e tape world => stopped e tape world
  | unfinished world => unfinished world

theorem andThen_assoc (p : Passage σ) (f g : Tape → σ → Passage σ) :
    (p.andThen f).andThen g = p.andThen fun tape world => (f tape world).andThen g := by
  cases p <;> rfl

@[simp] theorem andThen_through (p : Passage σ) : p.andThen through = p := by cases p <;> rfl

/-- A transfer of one byte on `tape`, of which so much has been done. -/
def ofTransfer (tape : Tape) : Progress Transfer.Next Transfer.Outcome σ → Passage σ
  | .halted (.received byte) world => through (tape.set byte) world
  | .halted .sent world => through tape world
  | .halted (.failed e) world => stopped e tape world
  | .running _ world => unfinished world

/-- The tape that a passage leaves has `length` cells. -/
def HasLength (length : Nat) : Passage σ → Prop
  | through tape _ => tape.length = length
  | stopped _ tape _ => tape.length = length
  | unfinished _ => True

theorem HasLength.andThen {p : Passage σ} {next : Tape → σ → Passage σ} {length : Nat}
    (hp : p.HasLength length)
    (hn : ∀ tape world, tape.length = length → (next tape world).HasLength length) :
    (p.andThen next).HasLength length := by
  cases p with
  | through tape world => exact hn tape world hp
  | stopped e tape world => exact hp
  | unfinished world => trivial

/-- What follows a passage need only be known for tapes of its length. -/
theorem HasLength.andThen_congr {p : Passage σ} {f g : Tape → σ → Passage σ} {length : Nat}
    (hp : p.HasLength length)
    (h : ∀ tape world, tape.length = length → f tape world = g tape world) :
    p.andThen f = p.andThen g := by
  cases p with
  | through tape world => exact h tape world hp
  | stopped e tape world => rfl
  | unfinished world => rfl

end Passage

/-- A transfer from its first stage `t` on, by at most `bound` requests. -/
def Transfer.perform (d : Device byteStream σ) (canPeek : Bool) (bound : Nat)
    (position : Option Position) (t : Transfer) (tape : Tape) (world : σ) : Passage σ :=
  .ofTransfer tape (run (Transfer.Next.step canPeek position) d bound (.stage t) world)

def Command.exec (d : Device byteStream σ) (canPeek : Bool) (bound : Nat)
    (position : Option Position) : Command → Tape → σ → Passage σ
  | move n, tape, world => .through (tape.advance n) world
  | add n, tape, world => .through (tape.add n.toUInt8) world
  | reset, tape, world => .through (tape.set 0) world
  | read, tape, world => Transfer.prompt.perform d canPeek bound position tape world
  | write, tape, world => (Transfer.offer tape.get).perform d canPeek bound position tape world

/-- While the current cell is not zero, do `body`; at most `bound` tests. -/
def whileNonzero (body : Tape → σ → Passage σ) : Nat → Tape → σ → Passage σ
  | 0, _, world => .unfinished world
  | bound + 1, tape, world =>
    if tape.get = 0 then .through tape world
    else (body tape world).andThen (whileNonzero body bound)

namespace Tree

def exec (d : Device byteStream σ) (canPeek : Bool) (bound : Nat) :
    Tree → Tape → σ → Passage σ
  | nil, tape, world => .through tape world
  | command c position rest, tape, world =>
    (c.exec d canPeek bound position tape world).andThen (rest.exec d canPeek bound)
  | loop _ _ body rest, tape, world =>
    (whileNonzero (body.exec d canPeek bound) bound tape world).andThen (rest.exec d canPeek bound)

/-- The last flush of a program that is through. -/
def flushed (tape : Tape) : Except Failure Unit → Ending
  | .ok () => ⟨.finished, tape⟩
  | .error f => ⟨.failed (.stream f), tape⟩

/-- The result of a program of which so much has been done. -/
def conclude (d : Device byteStream σ) : Passage σ → Option Ending × σ
  | .through tape world => (some (flushed tape (d .flush world).1), (d .flush world).2)
  | .stopped e tape world => (some ⟨.failed e, tape⟩, world)
  | .unfinished world => (none, world)

/-- A whole program on `tape`. -/
def course (t : Tree) (d : Device byteStream σ) (tape : Tape) (world : σ) : Course Ending σ :=
  fun bound =>
    let (canPeek, world) := d .canPeek world
    conclude d (t.exec d canPeek bound tape world)

theorem exec_append (d : Device byteStream σ) (canPeek : Bool) (bound : Nat) (t u : Tree)
    (tape : Tape) (world : σ) :
    (t ++ u).exec d canPeek bound tape world =
      (t.exec d canPeek bound tape world).andThen (u.exec d canPeek bound) := by
  induction t generalizing tape world with
  | nil => rfl
  | command c p rest ih =>
    simp only [command_append, exec, Passage.andThen_assoc]
    congr 1
    funext tape world
    exact ih tape world
  | loop o c body rest _ ih =>
    simp only [loop_append, exec, Passage.andThen_assoc]
    congr 1
    funext tape world
    exact ih tape world

end Tree

/-! ## The length of the tape -/

@[simp] theorem Tape.length_advance (t : Tape) (n : Nat) : (t.advance n).length = t.length := by
  rw [length, cells_advance]
  rfl

@[simp] theorem Tape.length_add (t : Tape) (v : UInt8) : (t.add v).length = t.length := rfl

variable {d : Device byteStream σ} {canPeek : Bool} {bound : Nat} {position : Option Position}
  {tape : Tape} {length : Nat}

theorem Passage.hasLength_ofTransfer (h : tape.length = length)
    (p : Progress Transfer.Next Transfer.Outcome σ) : (ofTransfer tape p).HasLength length := by
  match p with
  | .halted (.received byte) world => exact (tape.length_set byte).trans h
  | .halted .sent world => exact h
  | .halted (.failed e) world => exact h
  | .running _ world => trivial

theorem Command.hasLength_exec (c : Command) (h : tape.length = length) (world : σ) :
    (c.exec d canPeek bound position tape world).HasLength length := by
  cases c with
  | move n => exact (tape.length_advance n).trans h
  | add n => exact (tape.length_add _).trans h
  | reset => exact (tape.length_set 0).trans h
  | read => exact Passage.hasLength_ofTransfer h _
  | write => exact Passage.hasLength_ofTransfer h _

theorem hasLength_whileNonzero {body : Tape → σ → Passage σ}
    (hb : ∀ tape world, tape.length = length → (body tape world).HasLength length)
    (bound : Nat) (tape : Tape) (world : σ) (h : tape.length = length) :
    (whileNonzero body bound tape world).HasLength length := by
  induction bound generalizing tape world with
  | zero => trivial
  | succ bound ih =>
    unfold whileNonzero
    split
    · exact h
    · exact (hb tape world h).andThen ih

theorem Tree.hasLength_exec (t : Tree) (h : tape.length = length) (world : σ) :
    (t.exec d canPeek bound tape world).HasLength length := by
  induction t generalizing tape world with
  | nil => exact h
  | command c p rest ih =>
    exact (c.hasLength_exec h world).andThen fun _ world h => ih h world
  | loop o c body rest ihb ihr =>
    exact (hasLength_whileNonzero (fun _ world h => ihb h world) bound tape world h).andThen
      fun _ world h => ihr h world

end TapeLang
