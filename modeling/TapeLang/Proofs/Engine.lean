import TapeLang.Execution
import TapeLang.Proofs.Streams.Discipline

/-!
# Engines as machines

The interpreter of a program and a routine compiled from it, as machines of one kind, so that what
holds of both can be said once.

* `Engine.step`, `Engine.course`: an engine as a machine, and its runs.
* `Engine.Executes`: an engine is one for a given program.
* `Engine.Executes.tracks`: it does what the tree of the program says, unless there is no room for
  the loops of the interpreter.
-/

namespace TapeLang.Engine

open Course

def State : Engine → Type
  | interpreter _ => Interpreter.State
  | routine _ => Routine.State

def step : (e : Engine) → e.State → Action byteStream e.State Ending
  | interpreter p => Interpreter.step p
  | routine r => r.step

def start : (e : Engine) → Tape → e.State
  | interpreter _ => Interpreter.start
  | routine _ => Routine.start

/-- The course of a run on `tape`. -/
def course {σ : Type} (e : Engine) (d : Device byteStream σ) (tape : Tape) (w : σ) :
    Course Ending σ :=
  TapeLang.course e.step d (e.start tape) w

variable {σ : Type} {source : String} {c : Config} {p : Program} {e : Engine} {tape : Tape}

/-- The ends of a course are what `run` gives for enough fuel. -/
theorem ends_iff_run (d : Device byteStream σ) (w w' : σ) (ending : Ending) :
    (e.course d tape w).Ends ending w' ↔ ∃ fuel, e.run d fuel tape w = some (ending, w') := by
  have hrun (fuel : Nat) :
      e.run d fuel tape w = (TapeLang.run e.step d fuel (e.start tape) w).result? := by
    cases e <;> rfl
  refine exists_congr fun fuel => ?_
  rw [hrun, course, TapeLang.course]
  cases TapeLang.run e.step d fuel (e.start tape) w with
  | halted r w => simp [Progress.seen, Progress.result?]
  | running s w => simp [Progress.seen, Progress.result?]

theorem course_stays (e : Engine) (d : Device byteStream σ) (tape : Tape) (w : σ) :
    (e.course d tape w).Stays :=
  TapeLang.course_stays e.step d (e.start tape) w

/-! ## Engines for a program -/

/-- It interprets `p`, or has been compiled from it for a host where nothing is in the way. -/
inductive Executes (p : Program) : Engine → Prop
  | interpreter : Executes p (.interpreter p)
  | routine {host : Host} {r : Routine} : Routine.compile p host = .ok r →
    host.Fits p.tapeLength r.size → Executes p (.routine r)

namespace Executes

/-- There is a routine for every program whose tape length fits into 32 bits, if its code is not too
long. -/
theorem exists_routine (h : parse source c = .ok p) (hl : p.tapeLength ≤ maxTapeLength)
    (hs : p.codeSize Host.standard.linkage < 2 ^ 31) :
    ∃ r, Routine.compile p .standard = .ok r ∧ Executes p (.routine r) := by
  obtain ⟨r, hr, hfits⟩ := Routine.exists_compile_standard h hl hs
  exact ⟨r, hr, .routine hr hfits⟩

/-- A program that echoes its input until it reads a zero, compiled. -/
theorem exists_echo : ∃ (p : Program) (r : Routine), parse ",[.,]" .standard = .ok p ∧
    Routine.compile p .standard = .ok r ∧ Executes p (.routine r) := by
  obtain ⟨p, hp, hs⟩ : ∃ p, parse ",[.,]" .standard = .ok p ∧
      p.codeSize Host.standard.linkage < 2 ^ 31 := ⟨_, rfl, by decide +kernel⟩
  have hlength : p.tapeLength = 30000 := tapeLength_of_parse hp
  obtain ⟨r, hr, he⟩ := exists_routine hp (by rw [hlength]; decide) hs
  exact ⟨p, r, hp, hr, he⟩

/-- On a tape of another length nothing is done at all. -/
theorem step_of_mismatch (he : Executes p e) (hl : tape.length ≠ p.tapeLength) :
    e.step (e.start tape) = .halt ⟨.failed (.tapeMismatch p.tapeLength tape.length), tape⟩ := by
  cases he with
  | interpreter => exact Interpreter.step_of_mismatch hl
  | routine hr =>
    rw [← (Routine.fields_of_compile hr).2.1] at hl ⊢
    exact Routine.step_of_mismatch hl

theorem ends_of_mismatch (he : Executes p e) (hl : tape.length ≠ p.tapeLength)
    (d : Device byteStream σ) (w : σ) : (e.course d tape w).Ends
      ⟨.failed (.tapeMismatch p.tapeLength tape.length), tape⟩ w :=
  ends_of_reaches (.refl _ w) (he.step_of_mismatch hl)

/-- An engine does what the tree of its program says. Only the interpreter may have no room for its
loops, and then crashes at once. -/
theorem tracks (he : Executes p e) (h : parse source c = .ok p)
    (hl : tape.length = p.tapeLength) :
    (∃ t : Tree, ∀ (σ : Type) (d : Device byteStream σ) (w : σ),
      (e.course d tape w).Tracks (t.course d tape w)) ∨
    ∀ (σ : Type) (d : Device byteStream σ) (w : σ),
      (e.course d tape w).Ends ⟨.crashed .capacityOverflow, tape⟩ (d .canPeek w).2 := by
  cases he with
  | interpreter =>
    by_cases hm : 8 * p.maxDepth ≤ sizeLimit
    · obtain ⟨t, ht, -⟩ := exists_tree h
      exact .inl ⟨t, fun σ d w => Interpreter.tracks ht hm hl d w⟩
    · refine .inr fun σ d w => ⟨2, ?_⟩
      exact congrFun (Interpreter.course_of_deep (Nat.lt_of_not_le hm) hl d w) 2
  | routine hr hf =>
    obtain ⟨t, wrap, place, hholds⟩ := Routine.exists_holds h hr hf
    exact .inl ⟨t, fun σ d w => Routine.tracks hholds hl d w⟩

end Executes

end TapeLang.Engine
