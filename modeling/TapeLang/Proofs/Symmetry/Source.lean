import TapeLang.Proofs.Source.NormalForm
import TapeLang.Proofs.Symmetry.Runs

/-!
# Mirrored texts

With every `<` and `>` exchanged a text reads as the same instructions at the same places, each move
with as many steps in the other direction. A tape that is turned, or is reflected together with the
text, therefore makes no difference to a run.

* `mirrored`: the text with `<` and `>` exchanged.
* `Fuser.mirror`: what the fuser has collected from the mirrored text.
* `parse_mirrored`: the mirrored text as a program.
* `runs_turned`: the tape has no first cell and no direction of its own.
-/

namespace TapeLang

/-! ## Counts in the other direction -/

namespace Turn

variable {length m n : Nat}

theorem opposite_mod (length n : Nat) : opposite length (n % length) = opposite length n := by
  rw [opposite, Nat.mod_mod, opposite]

theorem opposite_eq_zero_iff (hn : n < length) : opposite length n = 0 ↔ n = 0 := by
  rw [opposite, Nat.mod_eq_of_lt hn]
  by_cases hz : n = 0
  · simp [hz]
  · rw [Nat.mod_eq_of_lt (by omega)]
    omega

/-- Counts join in either direction. -/
theorem addMod_opposite (hm : m < length) (hn : n < length) :
    addMod (opposite length m) (opposite length n) length = opposite length (addMod m n length) := by
  have hpos := Nat.zero_lt_of_lt hm
  rw [addMod_eq (opposite_lt hpos m) (opposite_lt hpos n), addMod_eq hm hn, opposite_mod,
    opposite_add hpos]

theorem opposite_one (length : Nat) : opposite length 1 = (length - 1) % length := by
  by_cases h : 1 < length
  · rw [opposite, Nat.mod_eq_of_lt h]
  · obtain rfl | rfl : length = 0 ∨ length = 1 := by omega
    · rfl
    · rfl

theorem opposite_pred (hpos : 0 < length) : opposite length (length - 1) = 1 % length := by
  rw [opposite, Nat.mod_eq_of_lt (Nat.sub_lt hpos Nat.one_pos), Nat.sub_sub_self hpos]

end Turn

/-! ## Operations in the other direction -/

namespace Op

variable {length : Nat}

/-- With as many steps in the other direction, if it is a move. -/
def mirror (length : Nat) (op : Op) : Op := op.recount (Turn.opposite length)

theorem isIdle_mirror {op : Op} (h : ∀ n, op = .move n → n < length) :
    (op.mirror length).isIdle = op.isIdle := by
  cases op with
  | move n =>
    rw [Bool.eq_iff_iff]
    simpa [isIdle, count, mirror, recount] using Turn.opposite_eq_zero_iff (h n rfl)
  | add | reset | loopStart | loopEnd | read | write => rfl

theorem isUnitAdd_mirror (op : Op) : (op.mirror length).isUnitAdd = op.isUnitAdd := by
  cases op <;> rfl

end Op

namespace Source

/-- All moves go round less than once. -/
def Reduced (length : Nat) (ops : List Op) : Prop := ∀ n, .move n ∈ ops → n < length

variable {length : Nat} {o : Optimisations} {ops : List Op}

theorem exists_of_join?_eq_move {last op : Op} {n : Nat}
    (h : join? length last op = some (.move n)) :
    ∃ k m, last = .move k ∧ op = .move m ∧ n = addMod k m length := by
  unfold join? at h
  split at h
  · cases h
    exact ⟨_, _, rfl, rfl, rfl⟩
  · cases h
  · cases h

namespace Reduced

theorem settle (h : Reduced length ops) : Reduced length (settle ops) := by
  intro n hn
  cases ops with
  | nil => cases hn
  | cons last rest =>
    rw [Source.settle] at hn
    split at hn
    · exact h n (List.mem_cons_of_mem _ hn)
    · exact h n hn

theorem place (h : Reduced length ops) {op : Op} (hop : ∀ n, op = .move n → n < length)
    (clearLoops : Bool) : Reduced length (place clearLoops ops op) := by
  have hcons : Reduced length (op :: Source.settle ops) := by
    intro n hn
    rcases List.mem_cons.mp hn with rfl | hn
    · exact hop n rfl
    · exact h.settle n hn
  unfold Source.place
  split
  case h_1 body rest =>
    split
    · intro n hn
      rcases List.mem_cons.mp hn with hn | hn
      · cases hn
      · exact h n (List.mem_cons_of_mem _ (List.mem_cons_of_mem _ hn))
    · exact hcons
  case h_2 => exact hcons

theorem push (h : Reduced length ops) {op : Op} (hop : ∀ n, op = .move n → n < length) :
    Reduced length (push length o ops op) := by
  unfold Source.push
  split
  case h_1 joined ho hj =>
    intro n hn
    rcases List.mem_cons.mp hn with rfl | hn
    · obtain ⟨last, hl, hj⟩ := Option.bind_eq_some_iff.mp hj
      obtain ⟨k, m, rfl, rfl, rfl⟩ := exists_of_join?_eq_move hj
      have hk := h k (List.mem_of_mem_head? hl)
      rw [addMod_eq hk (hop m rfl)]
      exact Nat.mod_lt _ (Nat.zero_lt_of_lt hk)
    · exact h n (List.mem_of_mem_tail hn)
  case h_2 => exact h.place hop _

end Reduced

end Source

/-! ## The fuser -/

namespace Fuser

open Source

variable {f : Fuser} {n : Nat} {position : Option Position}

/-- The same instructions with their moves in the other direction. -/
def mirror (f : Fuser) : Fuser :=
  { f with instructions := f.instructions.map (·.recount (Turn.opposite f.tapeLength)) }

theorem settled_mirror (h : Reduced f.tapeLength f.ops) :
    f.mirror.settled = f.settled.map (·.recount (Turn.opposite f.tapeLength)) := by
  obtain ⟨length, o, instructions, fusions⟩ := f
  cases instructions with
  | nil => rfl
  | cons last rest =>
    have hlast : (last.op.mirror length).isIdle = last.op.isIdle :=
      Op.isIdle_mirror fun n hn => h n (by simp [ops, hn])
    show (if (last.op.mirror length).isIdle then _ else _) = _
    rw [hlast]
    show _ = List.map _ (if last.op.isIdle then rest else last :: rest)
    split <;> rfl

theorem append_mirror (h : Reduced f.tapeLength f.ops) (op : Op) (position : Option Position) :
    f.mirror.append (op.mirror f.tapeLength) position = (f.append op position).mirror := by
  rw [append, settled_mirror h]
  rfl

theorem pushMove_mirror (h : Reduced f.tapeLength f.ops) (hpos : 0 < f.tapeLength) {m n : Nat}
    (hmn : m % f.tapeLength = Turn.opposite f.tapeLength n) (p : Option Position) :
    f.mirror.pushMove m p = (f.pushMove n p).mirror := by
  have hcount : m % f.tapeLength = Turn.opposite f.tapeLength (n % f.tapeLength) := by
    rw [hmn, Turn.opposite_mod]
  by_cases hjoin : f.optimisations.joinRuns = true ∧
      ∃ k q rest, f.instructions = ⟨.move k, q⟩ :: rest
  · obtain ⟨ho, k, q, rest, hf⟩ := hjoin
    have hk : k < f.tapeLength := h k (by simp [ops, hf])
    have hf' : f.mirror.instructions = ⟨.move (Turn.opposite f.tapeLength k), q⟩ ::
        rest.map (·.recount (Turn.opposite f.tapeLength)) := by
      rw [mirror, hf]
      rfl
    rw [pushMove_join ho hf, pushMove_join (f := f.mirror) ho hf']
    show joinLast _ (.move (addMod _ (m % f.tapeLength) f.tapeLength)) _ _ _ = _
    rw [hcount, Turn.addMod_opposite hk (Nat.mod_lt n hpos)]
    rfl
  · have hno (ho : f.optimisations.joinRuns = true) (k : Nat) (q : Option Position)
        (rest : List Instruction) : f.instructions ≠ ⟨.move k, q⟩ :: rest :=
      fun hf => hjoin ⟨ho, k, q, rest, hf⟩
    rw [pushMove_append hno, pushMove_append fun ho k q rest hf => ?_]
    · show f.mirror.append (.move (m % f.tapeLength)) p = _
      rw [hcount]
      exact append_mirror h (.move _) p
    · obtain ⟨i, rest', hi, hmirror, -⟩ := List.map_eq_cons_iff.mp hf
      obtain ⟨op, q'⟩ := i
      cases op with
      | move k' => exact hno ho k' q' rest' hi
      | add | reset | loopStart | loopEnd | read | write => cases hmirror

theorem pushAdd_mirror (h : Reduced f.tapeLength f.ops) (n : Nat) (p : Option Position) :
    f.mirror.pushAdd n p = (f.pushAdd n p).mirror := by
  by_cases hjoin : f.optimisations.joinRuns = true ∧
      ∃ k q rest, f.instructions = ⟨.add k, q⟩ :: rest
  · obtain ⟨ho, k, q, rest, hf⟩ := hjoin
    have hf' : f.mirror.instructions = ⟨.add k, q⟩ ::
        rest.map (·.recount (Turn.opposite f.tapeLength)) := by
      rw [mirror, hf]
      rfl
    rw [pushAdd_join ho hf, pushAdd_join (f := f.mirror) ho hf']
    rfl
  · have hno (ho : f.optimisations.joinRuns = true) (k : Nat) (q : Option Position)
        (rest : List Instruction) : f.instructions ≠ ⟨.add k, q⟩ :: rest :=
      fun hf => hjoin ⟨ho, k, q, rest, hf⟩
    rw [pushAdd_append hno, pushAdd_append fun ho k q rest hf => ?_]
    · exact append_mirror h (.add _) p
    · obtain ⟨i, rest', hi, hmirror, -⟩ := List.map_eq_cons_iff.mp hf
      obtain ⟨op, q'⟩ := i
      cases op with
      | add k' => exact hno ho k' q' rest' hi
      | move | reset | loopStart | loopEnd | read | write => cases hmirror

theorem pushLoopEnd_mirror (h : Reduced f.tapeLength f.ops) (p : Option Position) :
    f.mirror.pushLoopEnd p = (f.pushLoopEnd p).mirror := by
  by_cases hclear : f.optimisations.clearLoops = true ∧
      ∃ body q rest, f.instructions = body :: ⟨.loopStart, q⟩ :: rest ∧ body.op.isUnitAdd
  · obtain ⟨ho, body, q, rest, hf, hu⟩ := hclear
    have hf' : f.mirror.instructions = body.recount (Turn.opposite f.tapeLength) ::
        ⟨.loopStart, q⟩ :: rest.map (·.recount (Turn.opposite f.tapeLength)) := by
      rw [mirror, hf]
      rfl
    rw [pushLoopEnd_clear ho hf hu,
      pushLoopEnd_clear (f := f.mirror) ho hf' ((Op.isUnitAdd_mirror body.op).trans hu)]
    rfl
  · have hno (ho : f.optimisations.clearLoops = true) (body : Instruction) (q : Option Position)
        (rest : List Instruction) (hf : f.instructions = body :: ⟨.loopStart, q⟩ :: rest) :
        body.op.isUnitAdd = false :=
      Bool.eq_false_iff.mpr fun hu => hclear ⟨ho, body, q, rest, hf, hu⟩
    rw [pushLoopEnd_append hno, pushLoopEnd_append fun ho body q rest hf => ?_]
    · exact append_mirror h .loopEnd p
    · obtain ⟨body', rest', hbody, rfl, hrest⟩ := List.map_eq_cons_iff.mp hf
      obtain ⟨⟨op, q'⟩, rest'', rfl, hstart, -⟩ := List.map_eq_cons_iff.mp hrest
      cases op with
      | loopStart => exact (Op.isUnitAdd_mirror body'.op).trans (hno ho body' q' rest'' hbody)
      | move | add | reset | loopEnd | read | write => cases hstart

theorem finish_mirror (h : Reduced f.tapeLength f.ops) :
    f.mirror.finish = f.finish.map (·.recount (Turn.opposite f.tapeLength)) := by
  rw [finish, settled_mirror h, finish, ← List.map_toArray, Array.map_reverse]

end Fuser

/-! ## Texts -/

/-- `<` for `>`, and `>` for `<`. -/
def mirroredChar : Char → Char
  | '>' => '<'
  | '<' => '>'
  | ch => ch

/-- The text with every `<` and `>` exchanged. -/
def mirrored (source : String) : String := source.map mirroredChar

namespace Scan

open Source

variable {maxDepth : Nat} {s s' : Scan}

/-- What the mirrored text leaves behind. -/
def mirror (s : Scan) : Scan := ⟨s.fuser.mirror, s.openLoops⟩

theorem step_mirror (h : Reduced s.fuser.tapeLength s.fuser.ops) (hpos : 0 < s.fuser.tapeLength)
    (index : Nat) (ch : Char) :
    s.mirror.step maxDepth index (mirroredChar ch) = (s.step maxDepth index ch).map mirror := by
  have hok {f f' : Fuser} (hf : f = f'.mirror) (open' : Array Nat) :
      (Except.ok ⟨f, open'⟩ : Except BracketError Scan) = (Except.ok ⟨f', open'⟩).map mirror := by
    rw [hf]
    rfl
  by_cases hforth : ch = '>'
  · subst hforth
    exact hok (Fuser.pushMove_mirror h hpos (Turn.opposite_one _).symm _) s.openLoops
  by_cases hback : ch = '<'
  · subst hback
    exact hok (Fuser.pushMove_mirror h hpos (Turn.opposite_pred hpos).symm _) s.openLoops
  have hsame : mirroredChar ch = ch := by
    unfold mirroredChar
    split <;> first | rfl | contradiction
  rw [hsame]
  unfold step
  split
  case h_1 => exact absurd rfl hforth
  case h_2 => exact absurd rfl hback
  case h_3 => exact hok (Fuser.pushAdd_mirror h 1 _) s.openLoops
  case h_4 => exact hok (Fuser.pushAdd_mirror h (cellModulus - 1) _) s.openLoops
  case h_5 => exact hok (Fuser.append_mirror h .read _) s.openLoops
  case h_6 => exact hok (Fuser.append_mirror h .write _) s.openLoops
  case h_7 =>
    show (if maxDepth ≤ s.openLoops.size + 1 then _ else _) = _
    split
    · rfl
    · exact hok (Fuser.append_mirror h .loopStart _) (s.openLoops.push index)
  case h_8 =>
    show (if s.openLoops.isEmpty = true then _ else _) = _
    split
    · rfl
    · exact hok (Fuser.pushLoopEnd_mirror h _) s.openLoops.pop
  case h_9 => rfl

theorem reduced_step (h : Reduced s.fuser.tapeLength s.fuser.ops) (hpos : 0 < s.fuser.tapeLength)
    {index : Nat} {ch : Char} (hs : s.step maxDepth index ch = .ok s') :
    Reduced s'.fuser.tapeLength s'.fuser.ops := by
  obtain ⟨hl, -, hops⟩ := step_spec hs hpos
  rw [hl, hops]
  split
  case isTrue =>
    refine h.push fun n hn => ?_
    unfold commandOp blockOp at hn
    split at hn <;> cases hn
    exact net_lt hpos _ _ _
  case isFalse => exact h

theorem steps_mirror (h : Reduced s.fuser.tapeLength s.fuser.ops) (hpos : 0 < s.fuser.tapeLength)
    (index : Nat) (text : List Char) :
    s.mirror.steps maxDepth index (text.map mirroredChar) =
      (s.steps maxDepth index text).map mirror := by
  induction text generalizing s index with
  | nil => rfl
  | cons ch rest ih =>
    rw [List.map_cons, steps, step_mirror h hpos, steps]
    cases hs : s.step maxDepth index ch with
    | error e => rfl
    | ok s₁ => exact ih (reduced_step h hpos hs) ((step_spec hs hpos).1 ▸ hpos) (index + 1)

theorem reduced_steps (h : Reduced s.fuser.tapeLength s.fuser.ops) (hpos : 0 < s.fuser.tapeLength)
    {index : Nat} {text : List Char} (hs : s.steps maxDepth index text = .ok s') :
    s'.fuser.tapeLength = s.fuser.tapeLength ∧ Reduced s'.fuser.tapeLength s'.fuser.ops := by
  induction text generalizing s index with
  | nil =>
    cases hs
    exact ⟨rfl, h⟩
  | cons ch rest ih =>
    rw [steps] at hs
    split at hs
    case h_1 s₁ hs₁ =>
      have hlength := (step_spec hs₁ hpos).1
      obtain ⟨hl, hrest⟩ := ih (reduced_step h hpos hs₁) (hlength ▸ hpos) hs
      exact ⟨hl.trans hlength, hrest⟩
    case h_2 => cases hs

end Scan

/-- The mirrored text reads as the same program with all moves in the other direction, or has the
same fault at the same place. -/
theorem parse_mirrored (source : String) (c : Config) :
    parse (mirrored source) c = (parse source c).map (Program.recount Turn.opposite) := by
  have hstart : Source.Reduced c.tapeLength (Scan.start c).fuser.ops := nofun
  have hsteps : (Scan.start c).steps c.maxDepth 0 (mirrored source).toList =
      ((Scan.start c).steps c.maxDepth 0 source.toList).map Scan.mirror := by
    rw [mirrored, String.toList_map]
    exact Scan.steps_mirror hstart c.tapeLength_pos 0 _
  unfold parse scan
  rw [hsteps]
  cases hs : (Scan.start c).steps c.maxDepth 0 source.toList with
  | error e => rfl
  | ok s =>
    obtain ⟨hlength, hreduced⟩ := Scan.reduced_steps hstart c.tapeLength_pos hs
    have hfinish : s.mirror.fuser.finish =
        s.fuser.finish.map (·.recount (Turn.opposite c.tapeLength)) :=
      (Fuser.finish_mirror hreduced).trans (by rw [hlength]; rfl)
    have hprogram : s.mirror.program c = (s.program c).recount Turn.opposite := by
      rw [Scan.program, hfinish]
      rfl
    have hopen : s.mirror.openLoops = s.openLoops := rfl
    simp only [Except.map, hopen]
    cases s.openLoops.back? with
    | some index => rfl
    | none => exact congrArg Except.ok hprogram

/-! ## Runs -/

/-- Wherever on the circle the tape is said to begin, a program does the same on it; and with the
tape reflected, the mirrored text does the same as the text. -/
theorem runs_turned {source : String} {c : Config} {p : Program} (h : parse source c = .ok p) :
    (∀ {σ : Type} (d : Device byteStream σ) (r : Nat) (tape : Tape) (w : σ),
      (Engine.interpreter p).course d.logged (tape.turn (.rotation r)) (w, #[]) =
        ((Engine.interpreter p).course d.logged tape (w, #[])).turn (.rotation r)) ∧
    ∃ q, parse (mirrored source) c = .ok q ∧
      ∀ {σ : Type} (d : Device byteStream σ) (tape : Tape) (w : σ),
        (Engine.interpreter q).course d.logged (tape.turn .reflection) (w, #[]) =
          ((Engine.interpreter p).course d.logged tape (w, #[])).turn .reflection := by
  constructor
  · intro σ d r tape w
    have hturn := Interpreter.course_turn (Turn.rotation_carries r) p d.logged tape (w, #[])
    rwa [Program.recount_id] at hturn
  · refine ⟨p.recount Turn.opposite, ?_, fun d tape w => ?_⟩
    · rw [parse_mirrored, h]
      rfl
    · exact Interpreter.course_turn Turn.reflection_carries p d.logged tape (w, #[])

/-- A move over the edge of a tape of three cells, and its mirror image. -/
theorem runs_turned_edge :
    let c : Config := ⟨3, 2, .all, by decide, by decide⟩
    let tape : Tape := .blank 3 (by decide)
    let course (p : Program) (tape : Tape) := (Engine.interpreter p).course
      (Cursor.source.beside collecting).logged tape ((.ofBytes #[7], #[]), #[])
    mirrored "<,.>" = ">,.<" ∧
    ∃ p q, parse "<,.>" c = .ok p ∧ parse ">,.<" c = .ok q ∧
      course p (tape.turn (.rotation 2)) = (course p tape).turn (.rotation 2) ∧
      course q (tape.turn .reflection) = (course p tape).turn .reflection := by
  intro c tape course
  have hm : mirrored "<,.>" = ">,.<" := by
    rw [← String.toList_inj, mirrored, String.toList_map]
    decide
  obtain ⟨p, hp⟩ : ∃ p, parse "<,.>" c = .ok p := ⟨_, rfl⟩
  obtain ⟨hr, q, hq, hm'⟩ := runs_turned hp
  rw [hm] at hq
  exact ⟨hm, p, q, hp, hq, hr _ 2 tape _, hm' _ tape _⟩

end TapeLang
