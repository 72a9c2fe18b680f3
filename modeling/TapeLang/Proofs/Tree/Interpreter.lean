import TapeLang.Interpreter
import TapeLang.Proofs.Tree.Simulation

/-!
# The interpreter on a tree

The interpreter has no table of matching brackets. It does what the tree of its instructions does:

* `skips`: with a skip level set, it passes over the instructions of a tree and changes nothing; loops
  inside come and go on the stack of loop starts, and the level is below their depth.
* `laid`: outside of skipped loops a tree is laid out between two cursors with the same stack. A loop
  tests its cell in two places, at its start and, with one more loop on the stack, at its end.
* `tracks`: a whole run.
-/

namespace TapeLang.Interpreter

variable {σ : Type} {p : Program} {d : Device byteStream σ} {canPeek : Bool}

theorem State.execute_loopStart (s : State) : s.execute .loopStart = s.enterLoop := rfl

theorem State.execute_loopEnd (s : State) : s.execute .loopEnd = s.closeLoop := rfl

theorem State.execute_of_skip {s : State} (h : s.skip ≠ 0) (c : Command) :
    s.execute c.op = s.proceed := by
  cases c <;> exact if_pos h

/-- At an instruction. -/
def State.at (canPeek : Bool) (tape : Tape) (cursor : Nat) (loops : Array Nat) (skip : Nat) :
    State :=
  ⟨.running, tape, cursor, loops, skip, canPeek⟩

/-- At an instruction that is not skipped; a place is a cursor with a stack. -/
def At (canPeek : Bool) (place : Nat × Array Nat) (tape : Tape) (s : State) : Prop :=
  s = .at canPeek tape place.1 place.2 0

def Failed (e : RunError) (tape : Tape) (s : State) : Prop :=
  s.phase = .closed (.failed e) ∧ s.tape = tape

theorem step_at {k : Nat} {i : Instruction} {xs : List Instruction} (h : p.HasAt k (i :: xs))
    (tape : Tape) (loops : Array Nat) (skip : Nat) :
    step p (.at canPeek tape k loops skip) =
      .next ((State.at canPeek tape k loops skip).execute i.op) := by
  simp only [step, State.at, h.getElem?]

/-- One instruction without a transfer. -/
theorem reaches_at {k : Nat} {i : Instruction} {xs : List Instruction} (h : p.HasAt k (i :: xs))
    {tape : Tape} {loops : Array Nat} {skip : Nat} {s : State}
    (hs : (State.at canPeek tape k loops skip).execute i.op = s) (world : σ) :
    Reaches (step p) d 1 (.at canPeek tape k loops skip) world s world :=
  .next (by rw [step_at h, hs])

/-! ## Skipping -/

theorem skips_command (canPeek : Bool) (c : Command) {k skip : Nat} (hs : skip ≠ 0) (tape : Tape)
    (loops : Array Nat) :
    (State.at canPeek tape k loops skip).execute c.op = .at canPeek tape (k + 1) loops skip :=
  State.execute_of_skip hs c

/-- A whole tree is skipped, whatever the cells. The level lies at or below the depth outside. -/
theorem skips (d : Device byteStream σ) (canPeek : Bool) (t : Tree) {k skip : Nat}
    {loops : Array Nat} (h : p.HasAt k t.flatten)
    (hs : skip ≠ 0) (hl : skip ≤ loops.size) (tape : Tape) (world : σ) :
    ∃ n, Reaches (step p) d n (.at canPeek tape k loops skip) world
      (.at canPeek tape (k + t.flatten.length) loops skip) world := by
  induction t generalizing k loops with
  | nil => exact ⟨0, .refl _ world⟩
  | command c position rest ih =>
    have hone := reaches_at (d := d) h (skips_command canPeek c hs tape loops) world
    obtain ⟨n, hn⟩ := ih h.tail hl
    refine ⟨1 + n, ?_⟩
    rw [Tree.flatten, List.length_cons, Nat.add_comm _ 1, ← Nat.add_assoc]
    exact hone.trans hn
  | loop opening closing body rest ihb ihr =>
    have hbody := h.tail.left
    have hend := h.tail.right
    have hpush : (State.at canPeek tape k loops skip).execute .loopStart =
        .at canPeek tape (k + 1) (loops.push k) skip := by
      simp [State.execute_loopStart, State.enterLoop, State.at, hs]
    have hpop : (State.at canPeek tape (k + 1 + body.flatten.length) (loops.push k) skip).execute
        .loopEnd = .at canPeek tape (k + 1 + body.flatten.length + 1) loops skip := by
      have : skip ≠ loops.size + 1 := by omega
      simp [State.execute_loopEnd, State.closeLoop, State.leaveLoop, State.at, hs, this]
    obtain ⟨n, hn⟩ := @ihb _ (loops.push k) hbody (by simp; omega)
    obtain ⟨m, hm⟩ := ihr hend.tail hl
    refine ⟨1 + n + 1 + m, ?_⟩
    have := (((reaches_at (d := d) h hpush world).trans hn).trans
      (reaches_at hend hpop world)).trans hm
    rwa [show k + (Tree.loop opening closing body rest).flatten.length =
      k + 1 + body.flatten.length + 1 + rest.flatten.length by simp [Tree.flatten]; omega]

/-! ## Running -/

theorem follows_command (c : Command) {k : Nat} {position : Option Position}
    {xs : List Instruction} (h : p.HasAt k (⟨c.op, position⟩ :: xs)) (loops : Array Nat)
    (bound : Nat) (tape : Tape) (s : State) (world : σ) (hs : At canPeek (k, loops) tape s) :
    Follows (step p) d Failed bound (At canPeek (k + 1, loops)) s world
      (c.exec d canPeek bound position tape world) := by
  subst hs
  have silent {t : Tape} (he : (State.at canPeek tape k loops 0).execute c.op =
      .at canPeek t (k + 1) loops 0) :
      Follows (step p) d Failed bound (At canPeek (k + 1, loops))
        (.at canPeek tape k loops 0) world (.through t world) :=
    ⟨1, _, reaches_at h he world, rfl⟩
  have transfer (t : Transfer) (he : (State.at canPeek tape k loops 0).execute c.op =
      { State.at canPeek tape k loops 0 with phase := .transferring t }) :
      Follows (step p) d Failed bound (At canPeek (k + 1, loops))
        (.at canPeek tape k loops 0) world (t.perform d canPeek bound position tape world) := by
    refine Follows.mono (.after (reaches_at h he world) (Follows.transfer
      (State.at canPeek tape k loops 0).afterTransfer (fun t _ => ?_)
      (fun bound outcome world _ => ?_) bound rfl world)) (Nat.le_add_left _ _)
    · simp only [step, State.afterTransfer, State.at, h.position?]
      rfl
    · cases outcome with
      | received byte => exact .here rfl
      | sent => exact .here rfl
      | failed e => exact ⟨0, _, .refl _ world, rfl, rfl⟩
  cases c with
  | move n => exact silent rfl
  | add n => exact silent rfl
  | reset => exact silent rfl
  | read => exact transfer .prompt rfl
  | write => exact transfer (.offer tape.get) rfl

/-- Where the loop from `k` to `e` tests its cell: at its start or, entered, at its end. -/
def AtTest (canPeek : Bool) (k e : Nat) (loops : Array Nat) (tape : Tape) (s : State) : Prop :=
  At canPeek (k, loops) tape s ∨ At canPeek (e, loops.push k) tape s

theorem tests_loop (body : Tree) {k : Nat} {opening closing : Option Position}
    {xs : List Instruction} {loops : Array Nat}
    (h : p.HasAt k (⟨.loopStart, opening⟩ :: (body.flatten ++ ⟨.loopEnd, closing⟩ :: xs))) :
    Tests (step p) d (AtTest canPeek k (k + 1 + body.flatten.length) loops)
      (At canPeek (k + 1, loops.push k)) (At canPeek (k + 1 + body.flatten.length + 1, loops)) where
  leave tape s world hs hz := by
    rcases hs with rfl | rfl
    · -- the body is skipped to the loop's end, which is at the level and clears it
      have hpush : (State.at canPeek tape k loops 0).execute .loopStart =
          .at canPeek tape (k + 1) (loops.push k) (loops.size + 1) := by
        simp [State.execute_loopStart, State.enterLoop, State.at, hz]
      have hpop : (State.at canPeek tape (k + 1 + body.flatten.length) (loops.push k)
          (loops.size + 1)).execute .loopEnd =
          .at canPeek tape (k + 1 + body.flatten.length + 1) loops 0 := by
        simp [State.execute_loopEnd, State.closeLoop, State.leaveLoop, State.at]
      obtain ⟨n, hn⟩ := @skips σ p d canPeek body (k + 1) (loops.size + 1) (loops.push k)
        h.tail.left (Nat.succ_ne_zero _) (by simp) tape world
      exact ⟨1 + n + 1, _,
        ((reaches_at h hpush world).trans hn).trans (reaches_at h.tail.right hpop world), rfl⟩
    · have hpop : (State.at canPeek tape (k + 1 + body.flatten.length) (loops.push k) 0).execute
          .loopEnd = .at canPeek tape (k + 1 + body.flatten.length + 1) loops 0 := by
        simp [State.execute_loopEnd, State.closeLoop, State.leaveLoop, State.at, hz]
      exact ⟨1, _, reaches_at h.tail.right hpop world, rfl⟩
  enter tape s world hs hz := by
    rcases hs with rfl | rfl
    · have hpush : (State.at canPeek tape k loops 0).execute .loopStart =
          .at canPeek tape (k + 1) (loops.push k) 0 := by
        simp [State.execute_loopStart, State.enterLoop, State.at, hz]
      exact ⟨0, _, reaches_at h hpush world, rfl⟩
    · have hback : (State.at canPeek tape (k + 1 + body.flatten.length) (loops.push k) 0).execute
          .loopEnd = .at canPeek tape (k + 1) (loops.push k) 0 := by
        simp [State.execute_loopEnd, State.closeLoop, State.goTo, State.at, hz]
      exact ⟨0, _, reaches_at h.tail.right hback world, rfl⟩

theorem laid (d : Device byteStream σ) (canPeek : Bool) (t : Tree) {k : Nat}
    (h : p.HasAt k t.flatten) (loops : Array Nat) :
    Laid (step p) d Failed d canPeek (At canPeek) t (k, loops)
      (k + t.flatten.length, loops) := by
  induction t generalizing k loops with
  | nil => exact .nil _
  | command c position rest ih =>
    have hrest := ih h.tail loops
    rw [show k + 1 + rest.flatten.length = k + (Tree.command c position rest).flatten.length by
      simp [Tree.flatten]; omega] at hrest
    exact .command (follows_command c h loops) hrest
  | loop opening closing body rest ihb ihr =>
    have hrest := ihr h.tail.right.tail loops
    rw [show k + 1 + body.flatten.length + 1 + rest.flatten.length =
      k + (Tree.loop opening closing body rest).flatten.length by
        simp [Tree.flatten]; omega] at hrest
    exact .loop (fun _ _ hs => .inl hs) (tests_loop body h) (ihb h.tail.left (loops.push k))
      (fun _ s world hs => ⟨0, s, .refl s world, .inr hs⟩) hrest

/-! ## Whole runs -/

theorem ends_at_end {t : Tree} (h : t.flatten = p.instructions.toList) (tape : Tape) (s : State)
    (world : σ) (hs : At canPeek (t.flatten.length, #[]) tape s) :
    (course (step p) d s world).Ends (Tree.flushed tape (d .flush world).1) (d .flush world).2 := by
  subst hs
  have hnone : p.instructions[t.flatten.length]? = none := by
    rw [h]
    simp
  have hstep : step p (.at canPeek tape t.flatten.length #[] 0) =
      .ask .flush (finished (.at canPeek tape t.flatten.length #[] 0)) := by
    simp only [step, State.at, hnone]
  refine ends_of_reaches (Reaches.ask hstep) ?_
  cases hr : (d .flush world).1 <;> rfl

/-- The interpreter gets wherever the tree of its instructions gets. -/
theorem tracks {t : Tree} (h : t.flatten = p.instructions.toList)
    (hm : 8 * p.maxDepth ≤ sizeLimit) {tape : Tape} (hl : tape.length = p.tapeLength)
    (d : Device byteStream σ) (world : σ) :
    (course (step p) d (start tape) world).Tracks (t.course d tape world) := by
  have hopen : step p (start tape) = .ask .canPeek (opened p (start tape)) := by
    simp [step, start, hl]
  refine tracks_of_follows (fun _ => Failed) (fun canPeek => At canPeek (t.flatten.length, #[]))
    hopen (fun canPeek bound world => ?_) (fun _ => ends_at_end h)
    (fun _ e tape s world hf => ?_) world
  · have hstart : opened p (start tape) canPeek = .at canPeek tape 0 #[] 0 := by
      simp [opened, Nat.not_lt.mpr hm, start, State.at]
    have hlaid := laid d canPeek t (.of_eq h) #[]
    rw [Nat.zero_add] at hlaid
    exact hlaid.follows bound tape _ world hstart
  · obtain ⟨hp, rfl⟩ := hf
    refine ends_of_reaches (.refl s world) ?_
    simp only [step, hp]

end TapeLang.Interpreter
