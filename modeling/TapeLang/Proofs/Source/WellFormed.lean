import TapeLang.Proofs.Interpreter
import TapeLang.Proofs.Source.Faults
import TapeLang.Proofs.Source.RoundTrip
import TapeLang.Proofs.Tree.LabelCode

/-!
# Programs that were read

The machines and the compiler do not look again at what they are given: that counts are reduced, and
that loops close each other within the limit. Programs that were read are so, although a count of
zero comes and goes while they are read.

* `Scan.Tidy`: only the newest instruction may do nothing. It holds behind each part of a text.
* `Program.WellFormed`: what is relied on.
* `Interpreter.Advances`: the places where the interpreter moves the pointer.
* `wellFormed_parse`: programs that were read are well formed, so that the pointer wraps once at
  most, and the compiler refuses only what is too large.
-/

namespace TapeLang

namespace Source

variable {length : Nat} {o : Optimisations} {ops : List Op}

/-! ## Idle instructions -/

/-- Only the newest operation may do nothing. -/
def TidyOps (ops : List Op) : Prop := ∀ op ∈ ops.tail, op.isIdle = false

theorem TidyOps.mem_settle (h : TidyOps ops) {op : Op} (hop : op ∈ settle ops) :
    op.isIdle = false := by
  cases ops with
  | nil => cases hop
  | cons last rest =>
    by_cases hidle : last.isIdle
    · rw [settle_cons_of_isIdle hidle] at hop
      exact h op hop
    · have hidle : last.isIdle = false := by simpa using hidle
      rw [settle_cons hidle] at hop
      rcases List.mem_cons.mp hop with rfl | hop
      · exact hidle
      · exact h op hop

/-- In front of what is not idle anything may stand. -/
theorem TidyOps.place (h : TidyOps ops) (clearLoops : Bool) (op : Op) :
    TidyOps (place clearLoops ops op) := by
  intro other hother
  unfold Source.place at hother
  split at hother
  case h_1 body rest =>
    split at hother
    · exact h other (List.mem_cons_of_mem _ hother)
    · exact h.mem_settle hother
  case h_2 => exact h.mem_settle hother

/-- A join stands in the place of the newest operation, with the same ones below it. -/
theorem TidyOps.push (h : TidyOps ops) (op : Op) : TidyOps (push length o ops op) := by
  unfold Source.push
  split
  case h_1 => exact h
  case h_2 => exact h.place _ op

end Source

namespace Scan

open Source

variable {maxDepth : Nat} {s s' : Scan}

/-- Of the instructions so far only the newest may do nothing. -/
def Tidy (s : Scan) : Prop := ∀ i ∈ s.fuser.instructions.tail, i.op.count ≠ 0

theorem tidy_iff : s.Tidy ↔ TidyOps s.fuser.ops := by
  simp only [Tidy, TidyOps, Fuser.ops, ← List.map_tail, List.forall_mem_map, Op.isIdle,
    beq_eq_false_iff_ne]

theorem Tidy.step (h : s.Tidy) (hpos : 0 < s.fuser.tapeLength) {index : Nat} {ch : Char}
    (hs : s.step maxDepth index ch = .ok s') : s'.Tidy := by
  obtain ⟨-, -, hops⟩ := step_spec hs hpos
  rw [tidy_iff] at h ⊢
  rw [hops]
  split
  · exact h.push _
  · exact h

theorem Tidy.steps (h : s.Tidy) (hpos : 0 < s.fuser.tapeLength) {index : Nat} {text : List Char}
    (hs : s.steps maxDepth index text = .ok s') : s'.Tidy := by
  induction text generalizing s index with
  | nil =>
    cases hs
    exact h
  | cons ch rest ih =>
    unfold Scan.steps at hs
    split at hs
    case h_1 s₁ hs₁ =>
      have hlength := (step_spec hs₁ hpos).1
      exact ih (h.step hpos hs₁) (hlength ▸ hpos) hs
    case h_2 => cases hs

/-- While a text is read, only the newest instruction may do nothing. -/
theorem tidy_of_steps {c : Config} {text : List Char}
    (hs : (Scan.start c).steps c.maxDepth 0 text = .ok s) : s.Tidy := by
  have hstart : (Scan.start c).Tidy := nofun
  exact hstart.steps c.tapeLength_pos hs

end Scan

/-! ## Nesting -/

/-- How deep loops are nested behind `ops`. -/
def loopDepth (ops : List Op) : Int := ops.count .loopStart - ops.count .loopEnd

namespace Source

/-- How deep brackets are nested behind `bs`. -/
def bracketDepth (bs : List Bracket) : Int := bs.count .opening - bs.count .closing

theorem bracketDepth_append (a b : List Bracket) :
    bracketDepth (a ++ b) = bracketDepth a + bracketDepth b := by
  simp only [bracketDepth, List.count_append]
  omega

theorem bracketDepth_brackets (text : List Char) : bracketDepth (brackets text) = depth text := by
  induction text with
  | nil => rfl
  | cons ch text ih =>
    rw [depth_cons, ← ih]
    rcases depth_cases ch with rfl | rfl | ⟨hnone, hzero⟩
    · exact bracketDepth_append [.opening] (brackets text)
    · exact bracketDepth_append [.closing] (brackets text)
    · rw [brackets, List.filterMap_cons_none hnone, hzero, Int.zero_add, brackets]

/-- A reset is a pair of brackets, which leaves the depth as it is. -/
theorem bracketDepth_opBrackets (op : Op) : bracketDepth (opBrackets op) = loopDepth [op] := by
  cases op <;> rfl

theorem loopDepth_eq (ops : List Op) : loopDepth ops = bracketDepth (ops.flatMap opBrackets) := by
  induction ops with
  | nil => rfl
  | cons op ops ih =>
    rw [List.flatMap_cons, bracketDepth_append, bracketDepth_opBrackets, ← ih,
      ← List.singleton_append]
    simp only [loopDepth, List.count_append]
    omega

/-- Behind each part of a program loops are as deep as behind some part of its text. -/
theorem exists_prefix_of_normalForm {length : Nat} {o : Optimisations} {text : List Char}
    {pre : List Op} (h : pre <+: normalForm length o text) :
    ∃ part, part <+: text ∧ depth part = loopDepth pre := by
  obtain ⟨rest, hrest⟩ := h
  have hpre : pre.flatMap opBrackets <+: brackets text := by
    rw [← brackets_normalForm length o, ← hrest, List.flatMap_append]
    exact List.prefix_append _ _
  obtain ⟨part, hpart, heq⟩ := List.prefix_filterMap_iff.mp hpre
  refine ⟨part, hpart, ?_⟩
  rw [loopDepth_eq, heq, ← bracketDepth_brackets, brackets]

end Source

/-! ## Programs -/

/-- Moves go round a tape of `c.tapeLength` cells less than once, additions change their cell, and
loops close each other and stay below the limit. -/
structure Program.WellFormed (c : Config) (p : Program) : Prop where
  move : ∀ n, .move n ∈ p.ops → 1 ≤ n ∧ n ≤ c.tapeLength - 1
  add : ∀ n, .add n ∈ p.ops → 1 ≤ n ∧ n ≤ 255
  other : ∀ op ∈ p.ops, op.isMove = false → op.isAdd = false → op.count = 1
  nested : ∀ pre, pre <+: p.ops → 0 ≤ loopDepth pre ∧ loopDepth pre < c.maxDepth
  closed : loopDepth p.ops = 0

open Source in
theorem wellFormed_of_parse {source : String} {c : Config} {p : Program}
    (h : parse source c = .ok p) : p.WellFormed c := by
  have hops := ops_of_parse h
  have hproper : ∀ op ∈ p.ops, Proper c.tapeLength op := by
    intro op hop
    rw [hops] at hop
    exact proper_normalForm c.tapeLength_pos hop
  have hfine := (exists_parse_iff_fine source c).mp ⟨p, h⟩
  refine ⟨?_, ?_, ?_, ?_, ?_⟩
  · intro n hn
    have := hproper _ hn
    exact ⟨this.1, Nat.le_sub_one_of_lt this.2⟩
  · intro n hn
    have := hproper _ hn
    exact ⟨this.1, Nat.le_of_lt_succ this.2⟩
  · intro op _ hmove hadd
    cases op with
    | move n => cases hmove
    | add n => cases hadd
    | reset | loopStart | loopEnd | read | write => rfl
  · intro pre hpre
    rw [hops] at hpre
    obtain ⟨part, hpart, hdepth⟩ := exists_prefix_of_normalForm hpre
    rw [← hdepth]
    exact hfine.inRange part hpart
  · rw [loopDepth_eq, hops, brackets_normalForm, bracketDepth_brackets]
    exact hfine.zero

/-- Lowering a tree fails only if the tape or the program is too large. -/
theorem error_lower_iff {p : Program} {t : Tree} (ht : t.flatten = p.instructions.toList)
    (e : BuildError) :
    p.lower.error = some e ↔
      (maxTapeLength < p.tapeLength ∧ e = .tapeTooLarge p.tapeLength) ∨
      (p.tapeLength ≤ maxTapeLength ∧ maxInstructions < p.size ∧ e = .programTooLarge p.size) := by
  have hcount : t.flatten.length = p.size := by rw [ht, Array.length_toList, Program.size]
  by_cases hl : p.tapeLength ≤ maxTapeLength
  · obtain ⟨wrap, hw⟩ := Wrap.exists_ofTapeLength hl
    by_cases hc : p.size ≤ maxInstructions
    · rw [Program.lower_eq ht hw (hcount ▸ hc)]
      refine iff_of_false nofun ?_
      rintro (⟨hlarge, -⟩ | ⟨-, hlarge, -⟩) <;> omega
    · have hops : p.ops.length = p.size := by simp [Program.ops, Program.size]
      have hlower : p.lower = ⟨#[], some (.programTooLarge p.size)⟩ := by
        rw [Program.lower, lower, hw]
        simp only [hops, if_pos (Nat.lt_of_not_le hc)]
      rw [hlower, Option.some.injEq]
      constructor
      · rintro rfl
        exact .inr ⟨hl, Nat.lt_of_not_le hc, rfl⟩
      · rintro (⟨hlarge, -⟩ | ⟨-, -, rfl⟩)
        · omega
        · rfl
  · have hlower : p.lower = ⟨#[], some (.tapeTooLarge p.tapeLength)⟩ := by
      rw [Program.lower, lower, Wrap.ofTapeLength, if_pos (Nat.lt_of_not_le hl)]
    rw [hlower, Option.some.injEq]
    constructor
    · rintro rfl
      exact .inl ⟨Nat.lt_of_not_le hl, rfl⟩
    · rintro (⟨-, rfl⟩ | ⟨hsmall, -, -⟩)
      · rfl
      · exact absurd hsmall hl

/-! ## Moving the pointer -/

namespace Interpreter

variable {p : Program} {s : State} {n : Nat}

/-- The interpreter is about to advance the pointer by `n` cells. -/
structure Advances (p : Program) (s : State) (n : Nat) : Prop where
  running : s.phase = .running
  unskipped : s.skip = 0
  here : ∃ position, p.instructions[s.cursor]? = some ⟨.move n, position⟩

theorem Advances.step_eq (h : Advances p s n) : step p s = .next (s.move n) := by
  obtain ⟨position, hhere⟩ := h.here
  have hexecute : s.execute (.move n) = s.move n := State.execute_of_running h.unskipped (.move n)
  simp only [step, h.running, hhere, hexecute]

/-- Wherever the interpreter advances, it stays within one turn of the tape. -/
theorem Advances.lt_length {c : Config} {tape : Tape} (h : Advances p s n) (hp : p.WellFormed c)
    (hlength : p.tapeLength = c.tapeLength) (hs : Regular p tape s) : n < s.tape.length := by
  obtain ⟨position, hhere⟩ := h.here
  have hmem : Op.move n ∈ p.ops := by
    obtain ⟨hi, heq⟩ := Array.getElem?_eq_some_iff.mp hhere
    refine List.mem_map.mpr ⟨⟨.move n, position⟩, ?_, rfl⟩
    rw [← heq]
    exact Array.mem_toList_iff.mpr (Array.getElem_mem hi)
  have hcount := hp.move n hmem
  rw [hs.length, hs.fits.resolve_left (by simp [h.running]), hlength]
  omega

end Interpreter

/-! ## What is relied on -/

/-- The scan of a text gets to the end of each of its parts. -/
theorem Scan.exists_steps_of_prefix {maxDepth : Nat} {s s' : Scan} {index : Nat}
    {part text : List Char} (hs : s.steps maxDepth index text = .ok s') (h : part <+: text) :
    ∃ u, s.steps maxDepth index part = .ok u := by
  induction part generalizing s index text with
  | nil => exact ⟨s, rfl⟩
  | cons ch part ih =>
    obtain ⟨rest, rfl⟩ := h
    rw [List.cons_append, Scan.steps] at hs
    rw [Scan.steps]
    split at hs
    case h_1 => exact ih hs (List.prefix_append _ _)
    case h_2 => cases hs

/-- A program that was read is well formed. While it was read, behind each part of its text only the
newest instruction could do nothing. Its pointer passes the end of a tape at most once at a time,
and it is not compiled only if the tape or the program is too large. -/
theorem wellFormed_parse {source : String} {c : Config} {p : Program}
    (h : parse source c = .ok p) :
    p.WellFormed c ∧
    (∀ part, part <+: source.toList →
      ∃ s, (Scan.start c).steps c.maxDepth 0 part = .ok s ∧ s.Tidy) ∧
    (∀ {σ : Type} (d : Device byteStream σ) (tape : Tape) (n k : Nat) (w w' : σ)
      (s : Interpreter.State),
      Reaches (Interpreter.step p) d n (Interpreter.start tape) w s w' →
      Interpreter.Advances p s k → k < s.tape.length) ∧
    ∀ e, p.lower.error = some e ↔
      (maxTapeLength < c.tapeLength ∧ e = .tapeTooLarge c.tapeLength) ∨
      (c.tapeLength ≤ maxTapeLength ∧ maxInstructions < p.size ∧
        e = .programTooLarge p.size) := by
  have hwf := wellFormed_of_parse h
  have hlength := tapeLength_of_parse h
  refine ⟨hwf, ?_, ?_, ?_⟩
  · intro part hpart
    obtain ⟨s, hs, -, -⟩ := parse_eq_ok_iff.mp h
    obtain ⟨u, hu⟩ := Scan.exists_steps_of_prefix hs hpart
    exact ⟨u, hu, Scan.tidy_of_steps hu⟩
  · intro σ d tape n k w w' s hreach hk
    exact hk.lt_length hwf hlength (Interpreter.Regular.reaches hreach)
  · intro e
    obtain ⟨t, ht, -⟩ := exists_tree h
    rw [← hlength]
    exact error_lower_iff ht e

/-- On a tape of one cell no move is left, and a loop of a single step is a reset. -/
theorem wellFormed_parse_single :
    ∃ p : Program, parse "><[-]" ⟨1, 2, .all, by decide, by decide⟩ = .ok p ∧
      p.ops = [.reset] ∧ p.WellFormed ⟨1, 2, .all, by decide, by decide⟩ ∧
      p.lower.error = none := by
  obtain ⟨p, hp, hops⟩ : ∃ p, parse "><[-]" ⟨1, 2, .all, by decide, by decide⟩ = .ok p ∧
      p.ops = [.reset] := ⟨_, rfl, by decide +kernel⟩
  obtain ⟨hwf, -, -, hlower⟩ := wellFormed_parse hp
  refine ⟨p, hp, hops, hwf, ?_⟩
  have hsize : p.size = 1 := by
    have := congrArg List.length hops
    simpa [Program.ops, Program.size] using this
  apply Option.eq_none_iff_forall_ne_some.mpr
  intro e he
  rcases (hlower e).mp he with ⟨hlarge, -⟩ | ⟨-, hlarge, -⟩
  · exact absurd hlarge (by decide)
  · rw [hsize] at hlarge
    exact absurd hlarge (by decide)

end TapeLang
