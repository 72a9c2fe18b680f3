import TapeLang.Proofs.Tree.Semantics

/-!
# Machines that do what a tree does

A machine follows a passage if it gets to a fitting state wherever the passage leads. For a passage
that is unfinished it must have acted as often as the bound says; this makes machines go on for ever
where trees do.

* `Follows.andThen`, `Follows.whileNonzero`: sequences and loops.
* `tracks_of_follows`: a machine that follows a tree tracks it.
* `Laid`: a tree is laid out between two places of a machine.
* `Laid.follows`: then the machine does between them what the tree does.
-/

namespace TapeLang

variable {I : Interface} {S R σ : Type}

/-- From `s` on the machine does what the passage says. `arrived` holds where a piece of a program
is through, `failed` where it is stopped. -/
def Follows (step : S → Action I S R) (d : Device I σ) (failed : RunError → Tape → S → Prop)
    (bound : Nat) (arrived : Tape → S → Prop) (s : S) (world : σ) : Passage σ → Prop
  | .through tape world' => ∃ n s', Reaches step d n s world s' world' ∧ arrived tape s'
  | .stopped e tape world' => ∃ n s', Reaches step d n s world s' world' ∧ failed e tape s'
  | .unfinished world' => ∃ n s', Reaches step d n s world s' world' ∧ bound ≤ n

variable {step : S → Action I S R} {d : Device I σ} {failed : RunError → Tape → S → Prop}

namespace Follows

variable {bound : Nat} {arrived : Tape → S → Prop} {s s' : S} {world world' : σ} {n : Nat}
  {p : Passage σ}

theorem here {tape : Tape} (h : arrived tape s) :
    Follows step d failed bound arrived s world (.through tape world) :=
  ⟨0, s, .refl s world, h⟩

theorem mono {bound' : Nat} (h : Follows step d failed bound arrived s world p)
    (hb : bound' ≤ bound) : Follows step d failed bound' arrived s world p := by
  cases p with
  | through tape world' => exact h
  | stopped e tape world' => exact h
  | unfinished world' =>
    obtain ⟨n, s', hr, hn⟩ := h
    exact ⟨n, s', hr, Nat.le_trans hb hn⟩

/-- Actions in front of a passage count. -/
theorem after (hr : Reaches step d n s world s' world')
    (h : Follows step d failed bound arrived s' world' p) :
    Follows step d failed (n + bound) arrived s world p := by
  cases p with
  | through tape world'' =>
    obtain ⟨m, s'', hr', ha⟩ := h
    exact ⟨n + m, s'', hr.trans hr', ha⟩
  | stopped e tape world'' =>
    obtain ⟨m, s'', hr', hf⟩ := h
    exact ⟨n + m, s'', hr.trans hr', hf⟩
  | unfinished world'' =>
    obtain ⟨m, s'', hr', hm⟩ := h
    exact ⟨n + m, s'', hr.trans hr', Nat.add_le_add_left hm n⟩

theorem andThen {next : Tape → σ → Passage σ} {arrived' : Tape → S → Prop}
    (h : Follows step d failed bound arrived s world p)
    (hn : ∀ tape s world, arrived tape s →
      Follows step d failed bound arrived' s world (next tape world)) :
    Follows step d failed bound arrived' s world (p.andThen next) := by
  cases p with
  | through tape world' =>
    obtain ⟨n, s', hr, ha⟩ := h
    exact ((hn tape s' world' ha).after hr).mono (Nat.le_add_left _ _)
  | stopped e tape world' => exact h
  | unfinished world' => exact h

/-- Actions behind a passage. -/
theorem onward {failed' : RunError → Tape → S → Prop} {arrived' : Tape → S → Prop}
    (h : Follows step d failed bound arrived s world p)
    (ha : ∀ tape s world, arrived tape s →
      ∃ n s', Reaches step d n s world s' world ∧ arrived' tape s')
    (hf : ∀ e tape s world, failed e tape s →
      ∃ n s', Reaches step d n s world s' world ∧ failed' e tape s') :
    Follows step d failed' bound arrived' s world p := by
  cases p with
  | through tape world' =>
    obtain ⟨n, s', hr, hs⟩ := h
    obtain ⟨m, s'', hr', hs'⟩ := ha tape s' world' hs
    exact ⟨n + m, s'', hr.trans hr', hs'⟩
  | stopped e tape world' =>
    obtain ⟨n, s', hr, hs⟩ := h
    obtain ⟨m, s'', hr', hs'⟩ := hf e tape s' world' hs
    exact ⟨n + m, s'', hr.trans hr', hs'⟩
  | unfinished world' => exact h

end Follows

/-- `top` holds where a loop tests its cell: from there the machine leaves the loop if the cell is
zero, and else gets inside by one action at least. -/
structure Tests (step : S → Action I S R) (d : Device I σ) (top inside out : Tape → S → Prop) :
    Prop where
  leave : ∀ tape s world, top tape s → tape.get = 0 →
    ∃ n s', Reaches step d n s world s' world ∧ out tape s'
  enter : ∀ tape s world, top tape s → tape.get ≠ 0 →
    ∃ n s', Reaches step d (n + 1) s world s' world ∧ inside tape s'

/-- The machine gets from one kind of state to another without asking. -/
def Connects (step : S → Action I S R) (d : Device I σ) (before after : Tape → S → Prop) : Prop :=
  ∀ tape s world, before tape s → ∃ n s', Reaches step d n s world s' world ∧ after tape s'

theorem Follows.whileNonzero {bound : Nat} {top inside bottom out : Tape → S → Prop}
    {body : Tape → σ → Passage σ} (ht : Tests step d top inside out)
    (hb : ∀ tape s world, inside tape s →
      Follows step d failed bound bottom s world (body tape world))
    (hj : Connects step d bottom top) {rounds : Nat} (hr : rounds ≤ bound) (tape : Tape) (s : S)
    (world : σ) (h : top tape s) :
    Follows step d failed rounds out s world (whileNonzero body rounds tape world) := by
  induction rounds generalizing tape s world with
  | zero => exact ⟨0, s, .refl s world, Nat.le_refl 0⟩
  | succ rounds ih =>
    unfold TapeLang.whileNonzero
    split
    case isTrue hz =>
      obtain ⟨n, s', hn, ho⟩ := ht.leave tape s world h hz
      exact ⟨n, s', hn, ho⟩
    case isFalse hz =>
      obtain ⟨n, s', hn, hi⟩ := ht.enter tape s world h hz
      have hround : Follows step d failed rounds out s' world
          ((body tape world).andThen (TapeLang.whileNonzero body rounds)) := by
        refine ((hb tape s' world hi).mono (Nat.le_of_succ_le hr)).andThen ?_
        intro tape s world hbot
        obtain ⟨m, s', hm, htop⟩ := hj tape s world hbot
        exact ((ih (Nat.le_of_succ_le hr) tape s' world htop).after hm).mono (Nat.le_add_left _ _)
      exact (hround.after hn).mono (by omega)

/-! ## Transfers -/

namespace Transfer

/-- A stage of a read, else of a write. -/
def isRead : Transfer → Bool
  | offer _ => false
  | _ => true

/-- It may come of a read, or else of a write. -/
def Outcome.Fits (isRead : Bool) : Outcome → Prop
  | .received _ => isRead = true
  | .sent => isRead = false
  | .failed _ => True

def Next.Fits (isRead : Bool) : Next → Prop
  | stage t => t.isRead = isRead
  | done outcome => outcome.Fits isRead

theorem fits_resume (canPeek : Bool) (position : Option Position) (t : Transfer)
    (reply : t.request.Reply) : (t.resume canPeek position reply).Fits t.isRead := by
  unfold resume
  split
  case h_1 => cases canPeek <;> rfl
  case h_12 =>
    split
    · rfl
    · trivial
  all_goals first | rfl | trivial

/-- Writes have no position. -/
theorem resume_position {t : Transfer} (h : t.isRead = false) (canPeek : Bool)
    (position position' : Option Position) (reply : t.request.Reply) :
    t.resume canPeek position reply = t.resume canPeek position' reply := by
  cases t with
  | offer byte =>
    cases reply with
    | ok taken => cases taken <;> rfl
    | error f => rfl
  | prompt | look | wait | take => cases h

end Transfer

/-- A machine that sends the requests of a transfer stage by stage. `after` is its state after each
reply. -/
theorem Follows.transfer {step : S → Action byteStream S R} {d : Device byteStream σ}
    {failed : RunError → Tape → S → Prop} {arrived : Tape → S → Prop} {canPeek isRead : Bool}
    {position : Option Position} {tape : Tape} (after : Transfer.Next → S)
    (hs : ∀ t : Transfer, t.isRead = isRead → step (after (.stage t)) =
      .ask t.request fun reply => after (t.resume canPeek position reply))
    (hd : ∀ bound outcome world, outcome.Fits isRead →
      Follows step d failed bound arrived (after (.done outcome)) world
        (.ofTransfer tape (.halted outcome world)))
    (bound : Nat) {t : Transfer} (ht : t.isRead = isRead) (world : σ) :
    Follows step d failed bound arrived (after (.stage t)) world
      (t.perform d canPeek bound position tape world) := by
  induction bound generalizing t world with
  | zero => exact ⟨0, _, .refl _ world, Nat.le_refl 0⟩
  | succ bound ih =>
    have hask := Reaches.ask (d := d) (w := world) (hs t ht)
    have hfits := t.fits_resume canPeek position (d t.request world).1
    rw [Transfer.perform, run_ask (show Transfer.Next.step canPeek position (.stage t) = _ from rfl)]
    cases hr : t.resume canPeek position (d t.request world).1 with
    | stage t' =>
      rw [hr] at hask hfits
      have hrest := ih (hfits.trans ht) (d t.request world).2
      exact (hrest.after hask).mono (by omega)
    | done outcome =>
      rw [hr] at hask hfits
      rw [ht] at hfits
      cases bound with
      | zero => exact ⟨1, _, hask, Nat.le_refl 1⟩
      | succ bound => exact ((hd (bound + 1) outcome _ hfits).after hask).mono (by omega)

/-- A machine that makes one move of the last request of a transfer, whatever it asks for that. -/
theorem Follows.exchange {arrived : Tape → S → Prop} {io : Device byteStream σ} {canPeek : Bool}
    {position : Option Position} {tape : Tape} {t : Transfer} {reply : t.request.Reply}
    {outcome : Transfer.Outcome} {s s' : S} {world world' : σ}
    (hio : io t.request world = (reply, world'))
    (ht : t.resume canPeek position reply = .done outcome)
    (hr : Reaches step d 1 s world s' world')
    (hd : ∀ bound, Follows step d failed bound arrived s' world'
      (.ofTransfer tape (.halted outcome world'))) (bound : Nat) :
    Follows step d failed bound arrived s world
      (t.perform io canPeek bound position tape world) := by
  have hask : Transfer.Next.step canPeek position (.stage t) =
    .ask t.request (t.resume canPeek position) := rfl
  match bound with
  | 0 => exact ⟨0, s, .refl s world, Nat.le_refl 0⟩
  | 1 =>
    rw [Transfer.perform, run_ask hask, hio]
    exact ⟨1, s', hr, Nat.le_refl 1⟩
  | bound + 2 =>
    rw [Transfer.perform, run_ask hask, hio, ht]
    exact ((hd (bound + 1)).after hr).mono (by omega)

/-! ## The end of a program -/

/-- A machine that has followed a whole program comes to the same conclusion, if it does so where it
has arrived and where it has failed. -/
theorem Follows.conclude {step : S → Action I S Ending} {d : Device I σ}
    {failed : RunError → Tape → S → Prop} {arrived : Tape → S → Prop} {io : Device byteStream σ}
    {bound : Nat} {s : S} {world : σ} {p : Passage σ}
    (h : Follows step d failed bound arrived s world p)
    (ha : ∀ tape s world, arrived tape s →
      (course step d s world).Ends (Tree.flushed tape (io .flush world).1) (io .flush world).2)
    (hf : ∀ e tape s world, failed e tape s →
      (course step d s world).Ends ⟨.failed e, tape⟩ world) :
    match Tree.conclude io p with
    | (some r, world') => (course step d s world).Ends r world'
    | (none, world') => ∃ n, bound ≤ n ∧ course step d s world n = (none, world') := by
  cases p with
  | through tape world' =>
    obtain ⟨n, s', hr, hs⟩ := h
    exact hr.ends (ha tape s' world' hs)
  | stopped e tape world' =>
    obtain ⟨n, s', hr, hs⟩ := h
    exact hr.ends (hf e tape s' world' hs)
  | unfinished world' =>
    obtain ⟨n, s', hr, hn⟩ := h
    exact ⟨n, hn, course_of_reaches hr⟩

/-- A machine that first asks whether the input can be looked at, and then follows a tree. -/
theorem tracks_of_follows {step : S → Action byteStream S Ending} {d : Device byteStream σ}
    (failed : Bool → RunError → Tape → S → Prop) (arrived : Bool → Tape → S → Prop) {t : Tree}
    {tape : Tape} {s : S} {opened : Bool → S} (hopen : step s = .ask .canPeek opened)
    (h : ∀ canPeek bound world, Follows step d (failed canPeek) bound (arrived canPeek)
      (opened canPeek) world (t.exec d canPeek bound tape world))
    (ha : ∀ canPeek tape s world, arrived canPeek tape s →
      (course step d s world).Ends (Tree.flushed tape (d .flush world).1) (d .flush world).2)
    (hf : ∀ canPeek e tape s world, failed canPeek e tape s →
      (course step d s world).Ends ⟨.failed e, tape⟩ world) (world : σ) :
    (course step d s world).Tracks (t.course d tape world) := by
  intro bound
  obtain ⟨canPeek, world', hd⟩ : ∃ c w, d .canPeek world = (c, w) := ⟨_, _, rfl⟩
  have hask : Reaches step d 1 s world (opened canPeek) world' := by
    have := Reaches.ask (d := d) (w := world) hopen
    rwa [hd] at this
  have hend := (h canPeek bound world').conclude (ha canPeek) (hf canPeek)
  simp only [Tree.course, hd]
  generalize Tree.conclude d (t.exec d canPeek bound tape world') = c at hend ⊢
  match c, hend with
  | (some r, w), he => exact hask.ends he
  | (none, w), ⟨n, hn, hc⟩ =>
    refine ⟨1 + n, by omega, ?_⟩
    rw [course, hask.run_add]
    exact hc

/-! ## Trees laid out in a machine -/

section Laid

variable {P : Type} (step : S → Action I S R) (d : Device I σ)
  (failed : RunError → Tape → S → Prop) (io : Device byteStream σ) (canPeek : Bool)
  (At : P → Tape → S → Prop)

/-- Between two places `a` and `b` the machine has all that a tree is made of. The commands of the
tree speak to `io`, the machine to `d`. -/
inductive Laid : Tree → P → P → Prop
  | nil (a : P) : Laid .nil a a
  | command {c : Command} {position : Option Position} {rest : Tree} {a m b : P} :
    (∀ bound tape s world, At a tape s →
      Follows step d failed bound (At m) s world
        (c.exec io canPeek bound position tape world)) →
    Laid rest m b → Laid (.command c position rest) a b
  | loop {opening closing : Option Position} {body rest : Tree} {a i j m b : P}
    {top : Tape → S → Prop} :
    (∀ tape s, At a tape s → top tape s) → Tests step d top (At i) (At m) →
    Laid body i j → Connects step d (At j) top → Laid rest m b →
    Laid (.loop opening closing body rest) a b

variable {step d failed io canPeek At}

theorem Laid.follows {t : Tree} {a b : P} (h : Laid step d failed io canPeek At t a b)
    (bound : Nat) (tape : Tape) (s : S) (world : σ) (hs : At a tape s) :
    Follows step d failed bound (At b) s world (t.exec io canPeek bound tape world) := by
  induction h generalizing tape s world with
  | nil a => exact .here hs
  | command hc _ ih => exact (hc bound tape s world hs).andThen ih
  | loop ha ht _ hj _ ihb ihr =>
    exact (Follows.whileNonzero ht ihb hj (Nat.le_refl bound) tape s world (ha tape s hs)).andThen
      ihr

end Laid

end TapeLang
