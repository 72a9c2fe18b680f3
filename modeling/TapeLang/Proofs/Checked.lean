import TapeLang.Proofs.LoopStack
import TapeLang.Proofs.Source.Size
import TapeLang.Proofs.Symmetry.Runs

/-!
# Runs with every step checked

The interpreter counts in machine words and looks at cells by their indices. With every step
checked it gives up where a sum does not fit in a word, where more would be taken away than there
is, where the pointer leaves the tape, and where the list of loops gets too large. That list gets
its full size at the start, for as many loops as a text may nest. This is the only step that can
fail. Otherwise the limit for the depth of loops makes no difference to a text that keeps to it.

* `Interpreter.checkedStep`: the interpreter with every step checked.
* `Interpreter.Stacked.execute?_eq`: no instruction of a program that was read fails.
* `Interpreter.echoes_checkedStep`: the checked interpreter does what the interpreter does.
* `Scan.steps_unique`: a text is read in the same way under all limits that it keeps to.
* `Interpreter.checks_parse`: when a run fails, and what the limit is for.
-/

namespace TapeLang

/-! ## Words -/

/-- The numbers that fit in a machine word are below this one. -/
def wordLimit : Nat := 2 ^ 64

namespace Word

/-- The sum, if it fits in a word. -/
def add? (a b : Nat) : Option Nat := if a + b < wordLimit then some (a + b) else none

/-- The difference, if there is one. -/
def sub? (a b : Nat) : Option Nat := if b ≤ a then some (a - b) else none

end Word

namespace Tape

/-- The tape with its pointer on cell `pointer`, if there is one. -/
def point? (t : Tape) (pointer : Nat) : Option Tape :=
  if h : pointer < t.cells.size then some ⟨t.cells, pointer, h⟩ else none

/-- `advance` with every step checked. The pointer is checked as soon as it moves, and not only when
its cell is looked at. -/
def advance? (t : Tape) (count : Nat) : Option Tape := do
  let room ← Word.sub? t.length t.pointer
  let pointer ← if room ≤ count then Word.sub? count room else Word.add? t.pointer count
  t.point? pointer

theorem advance?_eq {t : Tape} {count : Nat} (hcount : count < t.length)
    (hlength : t.length < wordLimit) : t.advance? count = some (t.advance count) := by
  have hpointer : t.pointer < t.length := t.pointer_lt
  have hroom : Word.sub? t.length t.pointer = some (t.length - t.pointer) :=
    if_pos (Nat.le_of_lt hpointer)
  simp only [advance?, hroom, bind, Option.bind]
  by_cases h : count < t.length - t.pointer
  · have hsum : Word.add? t.pointer count = some (t.pointer + count) := if_pos (by omega)
    have hon : t.pointer + count < t.cells.size := show t.pointer + count < t.length by omega
    rw [if_neg (by omega), hsum]
    simp only [point?, dif_pos hon, advance, dif_pos (show count < t.cells.size - t.pointer from h)]
  · have hless : Word.sub? count (t.length - t.pointer) = some (count - (t.length - t.pointer)) :=
      if_pos (by omega)
    have hon : count - (t.length - t.pointer) < t.cells.size :=
      show count - (t.length - t.pointer) < t.length by omega
    rw [if_pos (by omega), hless]
    simp only [point?, dif_pos hon, advance,
      dif_neg (show ¬ count < t.cells.size - t.pointer from h), seek]
    -- one subtraction has brought the pointer back, so that nothing is left to be counted round
    have hround : (count - (t.cells.size - t.pointer)) % t.cells.size =
        count - (t.length - t.pointer) := Nat.mod_eq_of_lt hon
    simp only [hround]

end Tape

variable {σ : Type} {source : String} {c : Config} {p q : Program} {tape : Tape}

namespace Interpreter

variable {s : State}

/-! ## The checked interpreter -/

namespace State

def proceed? (s : State) : Option State := (Word.add? s.cursor 1).map s.goTo

/-- The list of loops has room for `capacity` of them. -/
def enterLoop? (capacity : Nat) (s : State) : Option State :=
  let skip := if s.skip = 0 ∧ s.tape.get = 0 then s.loops.size + 1 else s.skip
  if s.loops.size < capacity then { s with loops := s.loops.push s.cursor, skip }.proceed?
  else none

def leaveLoop? (s : State) : Option State :=
  let skip := if s.skip = s.loops.size then 0 else s.skip
  { s with loops := s.loops.pop, skip }.proceed?

def closeLoop? (s : State) : Option State :=
  if s.skip = 0 ∧ s.tape.get ≠ 0 then (s.goTo (s.loops.back?.getD s.cursor)).proceed?
  else s.leaveLoop?

/-- Nothing is done while a loop is skipped. -/
def orSkip (s : State) (done : Option State) : Option State :=
  if s.skip = 0 then done else s.proceed?

def execute? (capacity : Nat) (s : State) : Op → Option State
  | .move n => s.orSkip ((s.tape.advance? n).bind fun tape => { s with tape }.proceed?)
  | .add n => s.orSkip { s with tape := s.tape.add n.toUInt8 }.proceed?
  | .reset => s.orSkip { s with tape := s.tape.set 0 }.proceed?
  | .loopStart => s.enterLoop? capacity
  | .loopEnd => s.closeLoop?
  | .read => s.orSkip (some { s with phase := .transferring .prompt })
  | .write => s.orSkip (some { s with phase := .transferring (.offer s.tape.get) })

def afterTransfer? (s : State) : Transfer.Next → Option State
  | .stage t => some { s with phase := .transferring t }
  | .done (.received byte) => { s with phase := .running, tape := s.tape.set byte }.proceed?
  | .done .sent => { s with phase := .running }.proceed?
  | .done (.failed e) => some (s.close (.failed e))

end State

def opened? (program : Program) (s : State) (canPeek : Bool) : Option State :=
  if sizeLimit < 8 * program.maxDepth then none else some { s with phase := .running, canPeek }

/-- `step` with every step checked. There is no state, and no result, after a check that failed. -/
def checkedStep (program : Program) : Option State →
    Action byteStream (Option State) (Option Ending)
  | none => .halt none
  | some s =>
    match s.phase with
    | .opening =>
      if s.tape.length ≠ program.tapeLength then
        .halt (some ⟨.failed (.tapeMismatch program.tapeLength s.tape.length), s.tape⟩)
      else .ask .canPeek (opened? program s)
    | .running =>
      match program.instructions[s.cursor]? with
      | some i => .next (s.execute? program.maxDepth i.op)
      | none => .ask .flush fun reply => some (finished s reply)
    | .transferring stage =>
      .ask stage.request fun reply =>
        s.afterTransfer? (stage.resume s.canPeek (program.position? s.cursor) reply)
    | .closed verdict => .halt (some ⟨verdict, s.tape⟩)

/-! ## No check fails -/

theorem State.proceed?_eq (h : s.cursor + 1 < wordLimit) : s.proceed? = some s.proceed := by
  rw [proceed?, Word.add?, if_pos h]
  rfl

/-- What a program that was read keeps to, and what fits in machine words. -/
structure Fits (p : Program) : Prop where
  nested : Nested p.ops
  depth : ∀ k, (openAt p.ops k).length < p.maxDepth
  move : ∀ n, .move n ∈ p.ops → n < p.tapeLength
  size : p.size < wordLimit
  length : p.tapeLength < wordLimit

theorem fits_of_parse (h : parse source c = .ok p) (hsource : source.length < wordLimit)
    (hlength : c.tapeLength < wordLimit) : Fits p where
  nested := (wellFormed_of_parse h).isNested
  depth k := by
    have hwf := wellFormed_of_parse h
    have hdepth := (hwf.nested _ (List.take_prefix k p.ops)).2
    have hopen := hwf.isNested.length_openAt k
    rw [depthAt] at hopen
    rw [maxDepth_of_parse h]
    omega
  move n hn := by
    have := (wellFormed_of_parse h).move n hn
    rw [tapeLength_of_parse h]
    have := c.tapeLength_pos
    omega
  size := by
    have hops := Source.length_normalForm_le c.tapeLength c.tapeLength_pos c.optimisations
      source.toList
    rw [← Source.ops_of_parse h, Source.length_ops] at hops
    have hcommands := List.length_filter_le Source.isCommand source.toList
    rw [String.length_toList] at hcommands
    exact Nat.lt_of_le_of_lt (Nat.le_trans hops hcommands) hsource
  length := tapeLength_of_parse h ▸ hlength

theorem Fits.cursor_lt (hp : Fits p) {i : Instruction} (hi : p.instructions[s.cursor]? = some i) :
    s.cursor + 1 < wordLimit := by
  have hcursor : s.cursor < p.size := (Array.getElem?_eq_some_iff.mp hi).1
  have := hp.size
  omega

namespace Stacked

/-- Fewer loops are kept than there is room for. -/
theorem size_lt (h : Stacked p s) (hp : Fits p) : s.loops.size < p.maxDepth := by
  have hdepth := hp.depth s.cursor
  rwa [← h.loops, List.length_reverse, Array.length_toList] at hdepth

/-- Back at the start of a loop. -/
theorem back_le (h : Stacked p s) : s.loops.back?.getD s.cursor ≤ s.cursor := by
  rw [h.back?]
  cases hopen : openAt p.ops s.cursor with
  | nil => exact Nat.le_refl _
  | cons k rest =>
    have hmem : k ∈ openAt p.ops s.cursor := by rw [hopen]; exact List.mem_cons_self
    exact Nat.le_of_lt (start_of_mem_openAt hmem).1

/-- No instruction of a program that was read fails. -/
theorem execute?_eq (h : Stacked p s) (hp : Fits p) (hlength : s.tape.length = p.tapeLength)
    {i : Instruction} (hi : p.instructions[s.cursor]? = some i) :
    s.execute? p.maxDepth i.op = some (s.execute i.op) := by
  have hcursor := hp.cursor_lt hi
  have hop : p.ops[s.cursor]? = some i.op := by rw [p.getElem?_ops, hi]; rfl
  generalize i.op = op at hop
  rcases op.bracket_or_command with rfl | rfl | ⟨c, rfl⟩
  · rw [State.execute_loopStart, State.execute?, State.enterLoop?, if_pos (h.size_lt hp)]
    exact State.proceed?_eq hcursor
  · rw [State.execute_loopEnd, State.execute?, State.closeLoop?, State.closeLoop]
    split
    case isTrue => exact State.proceed?_eq (Nat.lt_of_le_of_lt (Nat.succ_le_succ h.back_le) hcursor)
    case isFalse => exact State.proceed?_eq hcursor
  · by_cases hskip : s.skip = 0
    · rw [State.execute_of_running hskip]
      cases c with
      | move n =>
        have hmove := hp.move n (List.mem_of_getElem? hop)
        have hadvance := Tape.advance?_eq (hlength ▸ hmove) (hlength ▸ hp.length)
        rw [Command.op, State.execute?, State.orSkip, if_pos hskip, hadvance]
        exact State.proceed?_eq hcursor
      | add n => exact (if_pos hskip).trans (State.proceed?_eq hcursor)
      | reset => exact (if_pos hskip).trans (State.proceed?_eq hcursor)
      | read => exact if_pos hskip
      | write => exact if_pos hskip
    · rw [State.execute_of_skip hskip, ← State.proceed?_eq hcursor]
      cases c <;> exact if_neg hskip

end Stacked

theorem State.afterTransfer?_eq (h : s.cursor + 1 < wordLimit) (next : Transfer.Next) :
    s.afterTransfer? next = some (s.afterTransfer next) := by
  cases next with
  | stage t => rfl
  | done outcome =>
    cases outcome with
    | received byte => exact State.proceed?_eq h
    | sent => exact State.proceed?_eq h
    | failed e => rfl

/-- With room for its loops the checked interpreter does what the interpreter does. -/
theorem echoes_checkedStep (hp : Fits p) (hm : 8 * p.maxDepth ≤ sizeLimit) (tape : Tape) :
    Echoes some some (fun s => Regular p tape s ∧ Stacked p s) (step p) (checkedStep p) where
  next s t hs hnext := ⟨hs.1.next hnext, hs.2.next hp.nested hnext⟩
  ask s request resume reply hs hask := ⟨hs.1.ask hask reply, hs.2.ask hs.1 hask reply⟩
  action s hs := by
    obtain ⟨hregular, hstacked⟩ := hs
    rw [checkedStep, step]
    cases hphase : s.phase with
    | opening =>
      by_cases hlength : s.tape.length = p.tapeLength
      · have hopened (canPeek : Bool) : opened? p s canPeek = some (opened p s canPeek) := by
          rw [opened?, opened, if_neg (Nat.not_lt.mpr hm), if_neg (Nat.not_lt.mpr hm)]
        simp only [hlength, ne_eq, not_true_eq_false, if_false, Action.map, ← hopened]
      · simp only [ne_eq, hlength, not_false_eq_true, if_true, Action.map]
    | running =>
      have hlength := hregular.length.trans (hregular.fits.resolve_left (by simp [hphase]))
      cases hi : p.instructions[s.cursor]? with
      | some i => simp only [hstacked.execute?_eq hp hlength hi, Action.map]
      | none => rfl
    | transferring t =>
      obtain ⟨position, hhere⟩ := (hregular.transfer t hphase).here
      simp only [State.afterTransfer?_eq (hp.cursor_lt hhere), Action.map]
    | closed verdict => rfl

/-- Without room for its loops it gives up as soon as it has opened its streams. -/
theorem run_checkedStep_of_deep (hm : sizeLimit < 8 * p.maxDepth) (hl : tape.length = p.tapeLength)
    (d : Device byteStream σ) (n : Nat) (w : σ) :
    run (checkedStep p) d (n + 2) (some (start tape)) w = .halted none (d .canPeek w).2 := by
  have hopen : checkedStep p (some (start tape)) = .ask .canPeek (opened? p (start tape)) := by
    rw [checkedStep]
    simp [start, hl]
  have hfailed : opened? p (start tape) (d .canPeek w).1 = none := if_pos hm
  have hhalt : checkedStep p none = .halt none := rfl
  rw [run_ask hopen, hfailed, run_halt hhalt]

end Interpreter

/-! ## Limits -/

namespace Scan

variable {s a b : Scan} {limit limit' index : Nat}

theorem step_unique {ch : Char} (ha : s.step limit index ch = .ok a)
    (hb : s.step limit' index ch = .ok b) : a = b := by
  by_cases hch : ch = '['
  · subst hch
    simp only [step] at ha hb
    split at ha
    case isTrue => cases ha
    case isFalse =>
      split at hb
      case isTrue => cases hb
      case isFalse => exact Except.ok.inj (ha.symm.trans hb)
  · have hsame : s.step limit index ch = s.step limit' index ch := by
      unfold step
      split
      case h_7 => exact absurd rfl hch
      all_goals rfl
    exact Except.ok.inj (ha.symm.trans (hsame.trans hb))

/-- A text is read in the same way under all limits that it keeps to. -/
theorem steps_unique {text : List Char} (ha : s.steps limit index text = .ok a)
    (hb : s.steps limit' index text = .ok b) : a = b := by
  induction text generalizing s index with
  | nil => exact Except.ok.inj (ha.symm.trans hb)
  | cons ch rest ih =>
    rw [steps] at ha hb
    split at ha
    case h_1 t ht =>
      split at hb
      case h_1 u hu =>
        cases step_unique ht hu
        exact ih ha hb
      case h_2 => cases hb
    case h_2 => cases ha

end Scan

/-- Under another limit that a text keeps to, it gives the same program but for the limit. -/
theorem alike_of_parse {limit : Nat} {c' : Config} (h : parse source c = .ok p)
    (hc' : c.withMaxDepth limit = .ok c') (h' : parse source c' = .ok q) :
    q.instructions = p.instructions ∧ q.tapeLength = p.tapeLength ∧ q.maxDepth = limit := by
  rw [Config.withMaxDepth] at hc'
  split at hc'
  case isFalse => cases hc'
  case isTrue =>
    cases hc'
    obtain ⟨s, hs, -, rfl⟩ := parse_eq_ok_iff.mp h
    obtain ⟨s', hs', -, rfl⟩ := parse_eq_ok_iff.mp h'
    cases Scan.steps_unique hs hs'
    exact ⟨rfl, rfl, rfl⟩

theorem Routine.compile_congr (hinstructions : q.instructions = p.instructions)
    (hlength : q.tapeLength = p.tapeLength) (host : Host) : compile q host = compile p host := by
  rcases p with ⟨instructions, tapeLength, maxDepth, hpos⟩
  rcases q with ⟨instructions', tapeLength', maxDepth', hpos'⟩
  cases hinstructions
  cases hlength
  rfl

namespace Interpreter

theorem step_congr (hinstructions : q.instructions = p.instructions)
    (hlength : q.tapeLength = p.tapeLength) (hp : 8 * p.maxDepth ≤ sizeLimit)
    (hq : 8 * q.maxDepth ≤ sizeLimit) : step q = step p := by
  rcases p with ⟨instructions, tapeLength, maxDepth, hpos⟩
  rcases q with ⟨instructions', tapeLength', maxDepth', hpos'⟩
  cases hinstructions
  cases hlength
  funext s
  unfold step
  cases s.phase with
  | opening =>
    have hopened : opened ⟨instructions, tapeLength, maxDepth', hpos'⟩ s =
        opened ⟨instructions, tapeLength, maxDepth, hpos⟩ s := by
      funext canPeek
      rw [opened, opened, if_neg (Nat.not_lt.mpr hp), if_neg (Nat.not_lt.mpr hq)]
    simp only [hopened]
  | running => rfl
  | transferring => rfl
  | closed => rfl

/-- With room for its loops no run crashes. -/
theorem not_crashed (h : parse source c = .ok p) (hm : 8 * p.maxDepth ≤ sizeLimit)
    (d : Device byteStream σ) (tape tape' : Tape) (w w' : σ) (reason : Crash) :
    ¬ (course (step p) d (start tape) w).Ends ⟨.crashed reason, tape'⟩ w' := by
  intro he
  by_cases hl : tape.length = p.tapeLength
  · obtain ⟨t, ht, -⟩ := exists_tree h
    have htracks := tracks ht hm hl d w
    exact Routine.not_crashed t d tape tape' w w' reason
      ((htracks.ends_iff (course_stays _ _ _ _) _ _).mp he)
  · have hfailed := ends_of_reaches (d := d) (.refl _ w) (step_of_mismatch hl)
    cases ((course_stays _ _ _ _).ends_unique he hfailed).1

/-! ## Failures and limits -/

/-- When a run of the interpreter fails, and what the limit is for. -/
structure Checks (source : String) (c : Config) (p : Program) : Prop where
  /-- With room for the loops no check fails, and no run crashes. -/
  room : 8 * c.maxDepth ≤ sizeLimit → ∀ (σ : Type) (d : Device byteStream σ) (tape : Tape) (w : σ),
    (∀ n, run (checkedStep p) d n (some (start tape)) w =
      (run (step p) d n (start tape) w).map some some) ∧
    ∀ reason tape' w', ¬ (course (step p) d (start tape) w).Ends ⟨.crashed reason, tape'⟩ w'
  /-- Without it each run on a tape that fits fails before its first instruction. -/
  deep : sizeLimit < 8 * c.maxDepth → ∀ (σ : Type) (d : Device byteStream σ) (tape : Tape) (w : σ),
    tape.length = p.tapeLength →
    ∀ n, run (checkedStep p) d (n + 2) (some (start tape)) w = .halted none (d .canPeek w).2
  /-- Under another limit that the text keeps to, the instructions are the same, and so is what is
  done. -/
  limit : ∀ limit c' q, c.withMaxDepth limit = .ok c' → parse source c' = .ok q →
    q.instructions = p.instructions ∧ q.tapeLength = p.tapeLength ∧
    (∀ host, Routine.compile q host = Routine.compile p host) ∧
    (8 * c.maxDepth ≤ sizeLimit → 8 * limit ≤ sizeLimit →
      ∀ (σ : Type) (d : Device byteStream σ) (n : Nat) (tape : Tape) (w : σ),
        run (step q) d n (start tape) w = run (step p) d n (start tape) w)

/-- If there is room for as many loops as a text may nest, nothing can fail, and the limit makes no
difference. Texts and tapes have lengths that fit in machine words. -/
theorem checks_parse (h : parse source c = .ok p) (hsource : source.length < wordLimit)
    (hlength : c.tapeLength < wordLimit) : Checks source c p where
  room hm σ d tape w := by
    rw [← maxDepth_of_parse h] at hm
    have hechoes := echoes_checkedStep (fits_of_parse h hsource hlength) hm tape
    refine ⟨fun n => hechoes.run_eq ⟨.start p tape, .start p tape⟩ d n w, ?_⟩
    intro reason tape' w'
    exact not_crashed h hm d tape tape' w w' reason
  deep hm σ d tape w hl n := by
    rw [← maxDepth_of_parse h] at hm
    exact run_checkedStep_of_deep hm hl d n w
  limit limit c' q hc' h' := by
    obtain ⟨hinstructions, hsame, hdepth⟩ := alike_of_parse h hc' h'
    refine ⟨hinstructions, hsame, Routine.compile_congr hinstructions hsame, ?_⟩
    intro hm hlimit σ d n tape w
    rw [step_congr hinstructions hsame (maxDepth_of_parse h ▸ hm) (hdepth ▸ hlimit)]

/-- The highest limit that there is room for, and loops of two levels. -/
theorem checks_parse_highest : ∃ (c : Config) (p : Program),
    Config.ofLimits 30000 (2 ^ 60 - 1) = .ok c ∧ parse "+[[->+<]]" c = .ok p ∧
    "+[[->+<]]".length < wordLimit ∧ c.tapeLength < wordLimit ∧ 8 * c.maxDepth ≤ sizeLimit ∧
    Checks "+[[->+<]]" c p := by
  obtain ⟨p, hp⟩ : ∃ p, parse "+[[->+<]]" ⟨30000, 2 ^ 60 - 1, .all, by decide, by decide⟩ = .ok p :=
    ⟨_, rfl⟩
  exact ⟨_, p, rfl, hp, by decide, by decide, by decide, checks_parse hp (by decide) (by decide)⟩

/-- One limit more, and not even a program without loops is run. -/
theorem fails_of_deep : ∃ (c : Config) (p : Program),
    Config.ofLimits 30000 (2 ^ 60) = .ok c ∧ parse "+" c = .ok p ∧
    ∀ (σ : Type) (d : Device byteStream σ) (w : σ),
      run (checkedStep p) d 2 (some (start (.blank 30000 (by decide)))) w =
        .halted none (d .canPeek w).2 ∧
      (course (step p) d (start (.blank 30000 (by decide))) w).Ends
        ⟨.crashed .capacityOverflow, .blank 30000 (by decide)⟩ (d .canPeek w).2 := by
  obtain ⟨p, hp⟩ : ∃ p, parse "+" ⟨30000, 2 ^ 60, .all, by decide, by decide⟩ = .ok p := ⟨_, rfl⟩
  have hm : sizeLimit < 8 * p.maxDepth := by rw [maxDepth_of_parse hp]; decide
  have hl : (Tape.blank 30000 (by decide)).length = p.tapeLength := (tapeLength_of_parse hp).symm
  refine ⟨_, p, rfl, hp, fun σ d w => ⟨run_checkedStep_of_deep hm hl d 0 w, 2, ?_⟩⟩
  exact congrFun (course_of_deep hm hl d w) 2

end Interpreter

end TapeLang
