import TapeLang.Proofs.Engine
import TapeLang.Proofs.Source.Faults
import TapeLang.Proofs.Source.Lines
import TapeLang.Proofs.Source.Positions

/-!
# What carets point at

The first caret of a diagnostic stands under the character that its position begins with. For an
error in the brackets of a text this is the bracket that is blamed; for a run that comes to the end
of its input it is the `,` of the read that found the end.

* `Diagnostic.Marks`: a diagnostic shows a character in its line.
* `Source.Blames.getElem?_position`: what is blamed is a bracket.
* `Source.exists_of_read`: every read was read from a `,`.
* `Engine.Exhausts`: a read that finds the end of the input.
* `Diagnostic.marks`: all that can be shown is shown, and what the errors are about can be shown.
-/

namespace TapeLang

variable {σ : Type} {source : String} {c : Config} {p : Program}

/-! ## Brackets -/

/-- The bracket that an error is about. -/
def BracketError.bracket : BracketError → Char
  | .unmatchedClose _ => ']'
  | .unmatchedOpen _ => '['
  | .tooDeep _ _ => '['

theorem BracketError.isCommand_bracket (e : BracketError) : Source.isCommand e.bracket := by
  cases e <;> rfl

namespace Source

/-- What is blamed is a bracket of the text. -/
theorem Blames.getElem?_position {maxDepth : Nat} {text : List Char} {e : BracketError}
    (h : Blames maxDepth text e) :
    ∃ index, e.position = .single index ∧ text[index]? = some e.bracket := by
  have hhere (before after : List Char) (ch : Char) :
      (before ++ ch :: after)[before.length]? = some ch := by
    rw [List.getElem?_append_right (Nat.le_refl _), Nat.sub_self]
    rfl
  cases h with
  | @unmatchedClose before after ch hr hd =>
    have hbefore := hr before List.prefix_rfl
    rw [depth_append] at hd
    have hch : ch = ']' := by
      rcases depth_cases ch with rfl | rfl | ⟨-, hzero⟩
      · have := hbefore.1
        rw [depth_opening] at hd
        omega
      · rfl
      · have := hbefore.1
        omega
    exact ⟨_, rfl, hch ▸ hhere before after ch⟩
  | @tooDeep before after ch hr hd =>
    have hbefore := hr before List.prefix_rfl
    rw [depth_append] at hd
    have hch : ch = '[' := by
      rcases depth_cases ch with rfl | rfl | ⟨-, hzero⟩
      · rfl
      · have := hbefore.2
        rw [depth_closing] at hd
        omega
      · have := hbefore.2
        omega
    exact ⟨_, rfl, hch ▸ hhere before after ch⟩
  | @unmatchedOpen before after => exact ⟨_, rfl, hhere before after '['⟩

/-! ## Reads -/

/-- Every read has been read from a `,`. -/
theorem Traced.exists_of_read {length : Nat} {is : List Instruction} {text : List Char}
    (h : Traced length is text) {position : Option Position} (hmem : ⟨.read, position⟩ ∈ is) :
    ∃ index, position = some (.single index) ∧ text[index]? = some ',' := by
  induction h with
  | nil => cases hmem
  | @cons i is before piece gap _ hplaced _ ih =>
    rcases List.mem_cons.mp hmem with rfl | hmem
    · obtain rfl : piece = [','] := hplaced.spells
      refine ⟨before.length, hplaced.position, ?_⟩
      rw [List.append_assoc, List.getElem?_append_right (Nat.le_refl _), Nat.sub_self]
      rfl
    · obtain ⟨index, rfl, hindex⟩ := ih hmem
      refine ⟨index, rfl, ?_⟩
      rw [List.append_assoc, List.getElem?_append_left (List.getElem?_eq_some_iff.mp hindex).1]
      exact hindex

theorem exists_of_read (h : parse source c = .ok p) {position : Option Position}
    (hmem : ⟨.read, position⟩ ∈ p.instructions) :
    ∃ index, position = some (.single index) ∧ source.toList[index]? = some ',' := by
  obtain ⟨s, hs, -, rfl⟩ := parse_eq_ok_iff.mp h
  have hstart : Fresh c.tapeLength (Scan.start c).fuser.instructions [] := .nil rfl
  have htraced := (hstart.steps rfl c.tapeLength_pos hs).settled
  refine htraced.exists_of_read ?_
  have hfinish : (s.program c).instructions.toList = s.fuser.settled.reverse := by
    simp [Scan.program, Fuser.finish]
  rw [← List.mem_reverse, ← hfinish]
  exact hmem.val

end Source

/-! ## The end of the input -/

/-- Only the end of the input exhausts it. -/
theorem Transfer.exhausted_of_resume {t : Transfer} {canPeek : Bool}
    {position position' : Option Position} {d : Device byteStream σ} {w : σ}
    (h : t.resume canPeek position (d t.request w).1 =
      .done (.failed (.inputExhausted position'))) :
    t = .take ∧ position' = position ∧ (d .next w).1 = .ok none := by
  cases t with
  | take =>
    generalize (d (Transfer.take).request w).1 = reply at h
    cases reply with
    | error f => cases h
    | ok byte? =>
      cases byte? with
      | some byte => cases h
      | none =>
        cases h
        exact ⟨rfl, rfl, rfl⟩
  | wait => cases h
  | prompt =>
    generalize (d (Transfer.prompt).request w).1 = reply at h
    cases reply <;> cases h
  | look =>
    generalize (d (Transfer.look).request w).1 = reply at h
    cases reply with
    | error f => cases h
    | ok found => cases found <;> cases h
  | offer byte =>
    generalize (d (Transfer.offer byte).request w).1 = reply at h
    cases reply with
    | ok taken => cases taken <;> cases h
    | error f =>
      rw [Transfer.resume] at h
      split at h <;> cases h

theorem Phase.eq_of_after {canPeek : Bool} {call : Call} {next : Transfer.Next} {e : RunError}
    (h : Phase.after canPeek call next = .decided (.failed e)) : next = .done (.failed e) := by
  cases next with
  | stage t => cases h
  | done outcome =>
    cases outcome with
    | received byte => cases h
    | sent => cases h
    | failed e =>
      cases h
      rfl

/-- A machine in a state where it asks for a byte for the instruction at `index`, a read, and finds
the end of the input; this is its last request. -/
structure Exhausts {S : Type} (p : Program) (step : S → Action byteStream S Ending)
    (index : S → Nat) (d : Device byteStream σ) (s : S) (w : σ) (position : Option Position)
    (w' : σ) : Prop where
  asks : ∃ resume, step s = .ask .next resume
  exhausted : d .next w = (.ok none, w')
  read : p.instructions[index s]? = some ⟨.read, position⟩

namespace Conducts

variable {S : Type} {step : S → Action byteStream S Ending} {v : View S} {d : Device byteStream σ}
  {s s' s₀ : S} {w w' : σ} {n : Nat} {position : Option Position}

/-- The end of the input decides the run at the read that found it. -/
theorem exhausts_of_calling {Good : S → Prop} (h : Conducts p step v Good) (hs : Good s)
    {canPeek : Bool} {call : Call} {stage : Transfer}
    (hphase : v.phase s = .calling canPeek call stage) (hlast : Acts step d s w s' w')
    (hp : v.phase s' = .decided (.failed (.inputExhausted position))) :
    Exhausts p step v.index d s w position w' ∧
      (course step d s' w').Ends ⟨.failed (.inputExhausted position), v.tape s⟩ w' := by
  obtain ⟨-, resume, hask, hnext⟩ := h.calling s canPeek call stage hs hphase
  obtain ⟨rfl, rfl⟩ := hlast.eq_ask hask
  have hfails := Phase.eq_of_after ((hnext (d stage.request w).1).symm.trans hp)
  have hends := h.failed s canPeek call stage resume _ _ hs hphase hask hfails σ d
    (d stage.request w).2
  obtain ⟨rfl, rfl, hnone⟩ := Transfer.exhausted_of_resume hfails
  obtain ⟨position, rfl⟩ := h.kind s canPeek call _ hs hphase rfl
  exact ⟨⟨⟨resume, hask⟩, Prod.ext hnone rfl, h.reads s canPeek position _ hs hphase⟩, hends⟩

/-- Before it is decided that the input is exhausted, a read finds its end. -/
theorem exists_exhausts (h : Conducts p step v (Reached step d s₀ w)) (h₀ : v.phase s₀ = .opening)
    (hr : Reaches step d n s₀ w s w')
    (hp : v.phase s = .decided (.failed (.inputExhausted position))) :
    ∃ m t u u', Reaches step d m s₀ w t u ∧ Exhausts p step v.index d t u position u' ∧
      (course step d s₀ w).Ends ⟨.failed (.inputExhausted position), v.tape t⟩ u' := by
  induction n generalizing s w' with
  | zero =>
    cases hr
    cases h₀.symm.trans hp
  | succ n ih =>
    obtain ⟨t, u, ht, hlast⟩ := hr.exists_last
    have hgood : Reached step d s₀ w t := ⟨n, u, ht⟩
    cases hphase : v.phase t with
    | opening =>
      obtain ⟨-, resume, hask, hnext⟩ := h.opening t hgood hphase
      obtain ⟨rfl, -⟩ := hlast.eq_ask hask
      rcases hnext (d .canPeek u).1 with hw | ⟨crash, hc⟩
      · cases hw.symm.trans hp
      · cases hc.symm.trans hp
    | working canPeek =>
      cases h.working t canPeek hgood hphase with
      | moves hn _ hnext =>
        obtain ⟨rfl, -⟩ := hlast.eq_next hn
        cases hnext.symm.trans hp
      | calls hn _ hnext =>
        obtain ⟨rfl, -⟩ := hlast.eq_next hn
        cases hnext.symm.trans hp
      | ends hask _ hend =>
        obtain ⟨rfl, -⟩ := hlast.eq_ask hask
        have hdecided := (hend (d .flush u).1).2
        generalize (d .flush u).1 = reply at hdecided hp
        cases reply <;> cases hdecided.symm.trans hp
    | calling canPeek call stage =>
      obtain ⟨hexhausts, hends⟩ := h.exhausts_of_calling hgood hphase hlast hp
      exact ⟨n, t, u, _, ht, hexhausts, hr.ends hends⟩
    | decided verdict =>
      obtain ⟨-, ⟨t', hn, hnext⟩ | ⟨ending, hhalt, -⟩⟩ := h.decided t verdict hgood hphase
      · obtain ⟨rfl, -⟩ := hlast.eq_next hn
        cases hnext.symm.trans hp
        exact ih ht hphase
      · exact absurd hhalt hlast.step_ne_halt

end Conducts

namespace Engine

variable {e : Engine} {tape tape' : Tape} {d : Device byteStream σ} {w w' : σ}
  {position : Option Position}

/-- The index of the instruction that is executed. -/
def index : (e : Engine) → e.State → Nat
  | interpreter _ => Interpreter.State.cursor
  | routine r => r.index

theorem Executes.exists_view (he : Executes p e) (h : parse source c = .ok p)
    (d : Device byteStream σ) (hl : tape.length = p.tapeLength) (w : σ) :
    ∃ v : View e.State, v.index = e.index ∧ v.phase (e.start tape) = .opening ∧
      Conducts p e.step v (Reached e.step d (e.start tape) w) := by
  cases he with
  | interpreter => exact ⟨Interpreter.view p, rfl, rfl, Interpreter.conducts hl d w⟩
  | @routine host r hr hf =>
    exact ⟨r.view p, rfl, rfl, Routine.conducts_compile h hr hf d tape w hl⟩

/-- A run that ends for lack of input does so at a read that finds none. -/
theorem Executes.exists_exhausts (he : Executes p e) (h : parse source c = .ok p)
    (hends : (e.course d tape w).Ends ⟨.failed (.inputExhausted position), tape'⟩ w') :
    ∃ n s u, Reaches e.step d n (e.start tape) w s u ∧
      Exhausts p e.step e.index d s u position w' := by
  by_cases hl : tape.length = p.tapeLength
  · obtain ⟨v, hindex, hopening, hconducts⟩ := he.exists_view h d hl w
    obtain ⟨n, s, hr, hhalt⟩ := exists_reaches_of_ends hends
    have hphase := hconducts.phase_of_halt ⟨n, w', hr⟩ hhalt
    obtain ⟨m, t, u, u', ht, hexhausts, hends'⟩ := hconducts.exists_exhausts hopening hr hphase
    obtain ⟨-, rfl⟩ := (e.course_stays d tape w).ends_unique hends hends'
    exact ⟨m, t, u, ht, hindex ▸ hexhausts⟩
  · obtain ⟨heq, -⟩ := (e.course_stays d tape w).ends_unique hends (he.ends_of_mismatch hl d w)
    cases heq

end Engine

/-! ## Diagnostics -/

namespace Diagnostic

/-- A diagnostic at `p` shows `ch` in its line, with the first caret under it. -/
structure Marks (source : String) (p : Position) (ch : Char) : Prop where
  shows : ∃ spot : Spot source.toList p.start, source.toList[p.start]? = some ch ∧
    spot.line[spot.left.length]? = some ch ∧
    ∀ filename message, Diagnostic.text ⟨filename, message, some p, source⟩ false =
      filename ++ ":" ++ toString ((source.toList.take p.start).count '\n' + 1) ++ ":" ++
        toString (spot.left.length + 1) ++ ": error: " ++ message ++ "\n" ++
        String.ofList spot.line ++ "\n" ++
        "".pushn ' ' spot.left.length ++ "".pushn '^' (carets source.toList p)
  /-- The columns of a range on one line can be subtracted. -/
  columns : p.start < p.stop →
    (lineAndColumn source.toList p.stop).1 = (lineAndColumn source.toList p.start).1 →
    (lineAndColumn source.toList p.start).2 ≤ (lineAndColumn source.toList p.stop).2

theorem marks_of_visible {p : Position} (h : Visible source.toList p) :
    ∃ ch, source.toList[p.start]? = some ch ∧ Marks source p ch := by
  obtain ⟨spot, hspot⟩ := Spot.exists_of_visible h
  refine ⟨spot.char, hspot.symm, ⟨spot, hspot.symm, spot.getElem?_line, text_eq spot h.stop_lt⟩,
    fun hlt hline => ?_⟩
  have hle := Nat.le_of_lt hlt
  rw [column_stop hle h.stop_lt ((line_eq_iff hle _).mp hline)]
  exact Nat.le_add_right _ _

/-- A command is not part of a line end. -/
theorem marks_single {index : Nat} {ch : Char} (h : source.toList[index]? = some ch)
    (hch : Source.isCommand ch) : Marks source (.single index) ch := by
  have hlt := (List.getElem?_eq_some_iff.mp h).1
  have hvisible : Visible source.toList (.single index) := by
    refine ⟨hlt, hlt, fun hfeed => ?_, fun hreturn => ?_⟩
    · obtain rfl := Option.some.inj (h.symm.trans hfeed)
      cases hch
    · obtain rfl := Option.some.inj (h.symm.trans hreturn)
      cases hch
  obtain ⟨ch', hch', hmarks⟩ := marks_of_visible hvisible
  obtain rfl := Option.some.inj (h.symm.trans hch')
  exact hmarks

/-- Whatever is not part of a line end is marked by a diagnostic at its position. For an error in
the brackets of a text this is the bracket that is blamed, and for a run that ends for lack of input
the `,` of the read that found none. -/
theorem marks :
    (∀ (source : String) (p : Position), Visible source.toList p →
      ∃ ch, source.toList[p.start]? = some ch ∧ Marks source p ch) ∧
    (∀ (source : String) (c : Config) (e : BracketError), parse source c = .error e →
      Source.Blames c.maxDepth source.toList e ∧ Marks source e.position e.bracket) ∧
    ∀ (source : String) (c : Config) (p : Program) (e : Engine) (σ : Type)
      (d : Device byteStream σ) (tape tape' : Tape) (w w' : σ) (position : Option Position),
      parse source c = .ok p → Engine.Executes p e →
      (e.course d tape w).Ends ⟨.failed (.inputExhausted position), tape'⟩ w' →
      ∃ q, position = some q ∧ Marks source q ',' ∧ ∃ n s u,
        Reaches e.step d n (e.start tape) w s u ∧
        Exhausts p e.step e.index d s u position w' := by
  refine ⟨fun source p => marks_of_visible, fun source c e he => ?_, ?_⟩
  · have hblames : Source.Blames c.maxDepth source.toList e := by
      have hverdict := verdict_of_parse source c
      rwa [he] at hverdict
    obtain ⟨index, hposition, hindex⟩ := hblames.getElem?_position
    rw [hposition]
    exact ⟨hblames, marks_single hindex e.isCommand_bracket⟩
  · intro source c p e σ d tape tape' w w' position h he hends
    obtain ⟨n, s, u, hr, hexhausts⟩ := he.exists_exhausts h hends
    have hmem := Array.mem_of_getElem? hexhausts.read
    obtain ⟨index, rfl, hindex⟩ := Source.exists_of_read h hmem
    exact ⟨_, rfl, marks_single hindex rfl, n, s, u, hr, hexhausts⟩

/-- A `]` too many on a second line, and a read that finds no input there. -/
theorem marks_second_line :
    Visible "+\r\n+]".toList ⟨3, 4⟩ ∧
    (∃ ch, "+\r\n+]".toList[3]? = some ch ∧ Marks "+\r\n+]" ⟨3, 4⟩ ch) ∧
    parse "+\r\n+]" .standard = .error (.unmatchedClose (.single 4)) ∧
    Source.Blames 256 "+\r\n+]".toList (.unmatchedClose (.single 4)) ∧
    Marks "+\r\n+]" (.single 4) ']' ∧
    ∃ (p : Program) (w' : Cursor × Array UInt8),
      parse "\n," ⟨1, 2, .all, by decide, by decide⟩ = .ok p ∧
      (Engine.course (.interpreter p) (Cursor.source.beside collecting) (.blank 1 (by decide))
        (.ofBytes #[], #[])).Ends
        ⟨.failed (.inputExhausted (some (.single 1))), .blank 1 (by decide)⟩ w' ∧
      ∃ q, some (Position.single 1) = some q ∧ Marks "\n," q ',' ∧ ∃ n s u,
        Reaches (Interpreter.step p) (Cursor.source.beside collecting) n
          (Interpreter.start (.blank 1 (by decide))) (.ofBytes #[], #[]) s u ∧
        Exhausts p (Interpreter.step p) Interpreter.State.cursor (Cursor.source.beside collecting)
          s u (some (.single 1)) w' := by
  obtain ⟨hvisible, hbrackets, hexhausted⟩ := marks
  have hplace : Visible "+\r\n+]".toList ⟨3, 4⟩ :=
    ⟨by decide, by decide, by decide, by decide⟩
  have hfault : parse "+\r\n+]" .standard = .error (.unmatchedClose (.single 4)) := rfl
  obtain ⟨hblames, hmarks⟩ := hbrackets _ _ _ hfault
  obtain ⟨p, hp, hpe⟩ : ∃ p : Program, parse "\n," ⟨1, 2, .all, by decide, by decide⟩ = .ok p ∧
      p = ⟨#[⟨.read, some (.single 1)⟩], 1, 2, by decide⟩ := ⟨_, rfl, by decide +kernel⟩
  have hends : ∃ w', (Engine.course (.interpreter p) (Cursor.source.beside collecting)
      (.blank 1 (by decide)) (.ofBytes #[], #[])).Ends
      ⟨.failed (.inputExhausted (some (.single 1))), .blank 1 (by decide)⟩ w' := by
    rw [hpe]
    exact ⟨_, 6, rfl⟩
  obtain ⟨w', hw'⟩ := hends
  exact ⟨hplace, hvisible _ _ hplace, hfault, hblames, hmarks, p, w', hp, hw',
    hexhausted _ _ p (.interpreter p) _ _ _ _ _ _ _ hp .interpreter hw'⟩

end Diagnostic

end TapeLang
