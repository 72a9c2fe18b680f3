import TapeLang.Proofs.Engine
import TapeLang.Proofs.Sequel
import TapeLang.Proofs.Source.Brackets
import TapeLang.Proofs.Streams.Bytes
import TapeLang.Proofs.Tree.Meaning

/-!
# Texts one behind the other

Two texts that can be read can be read as one, and running that is running the one program and then
the other on the same tape, although the instructions at the seam may be joined.

* `Nests.append`: brackets of two texts.
* `Levels.read_append`: the tree of two texts.
* `Sink.FlushesFreely`: an output that takes no notice of being flushed.
* `runs_in_sequence`: both programs, one behind the other.
-/

namespace TapeLang

open Course

/-! ## Brackets -/

theorem Nests.append {maxDepth depth : Nat} {bs cs : List Bracket} (h : Nests maxDepth depth bs)
    (h' : Nests maxDepth 0 cs) : Nests maxDepth depth (bs ++ cs) := by
  induction bs generalizing depth with
  | nil =>
    cases (show depth = 0 from h)
    exact h'
  | cons b bs ih =>
    cases b with
    | opening => exact ⟨h.1, ih h.2⟩
    | closing => exact ⟨h.1, ih h.2⟩

theorem exists_parse_append {text text' : String} {c : Config} {p p' : Program}
    (h : parse text c = .ok p) (h' : parse text' c = .ok p') :
    ∃ q, parse (text ++ text') c = .ok q := by
  rw [exists_parse_iff, String.toList_append, brackets, List.filterMap_append]
  exact ((exists_parse_iff text c).mp ⟨p, h⟩).append ((exists_parse_iff text' c).mp ⟨p', h'⟩)

/-! ## Trees -/

/-- The same place so many characters further on. -/
def Position.shift (n : Nat) (p : Position) : Position := ⟨p.start + n, p.stop + n⟩

namespace Levels

variable {length : Nat}

theorem steps_append (l : Levels) (index : Nat) (text text' : List Char) :
    l.steps length index (text ++ text') =
      (l.steps length index text).steps length (index + text.length) text' := by
  induction text generalizing l index with
  | nil => rfl
  | cons ch rest ih =>
    rw [List.cons_append, steps, ih, steps, List.length_cons, Nat.add_assoc, Nat.add_comm 1]

/-- The trees of a text, and those of the same text behind another one, of which the tree is `t`:
the first of them follows `t`, and all positions are moved by `f`. -/
inductive Behind (t : Tree) (f : Position → Position) : Levels → Levels → Prop
  | outermost (here : Tree) : Behind t f ⟨here, []⟩ ⟨t ++ here.relocate f, []⟩
  | inner (here : Tree) {before before' : Tree} {outer outer' : List Tree} :
    Behind t f ⟨before, outer⟩ ⟨before', outer'⟩ →
    Behind t f ⟨here, before :: outer⟩ ⟨here.relocate f, before' :: outer'⟩

namespace Behind

variable {t : Tree} {f : Position → Position} {l l' : Levels}

theorem append (h : Behind t f l l') (u : Tree) :
    Behind t f { l with here := l.here ++ u } { l' with here := l'.here ++ u.relocate f } := by
  cases h with
  | outermost here =>
    have := Behind.outermost (t := t) (f := f) (here ++ u)
    rwa [Tree.relocate_append, ← Tree.append_assoc] at this
  | inner here h =>
    have := Behind.inner (here ++ u) h
    rwa [Tree.relocate_append] at this

theorem command {n : Nat} (h : Behind t (.shift n) l l') (c : Command) (index : Nat) :
    Behind t (.shift n) (l.command c index) (l'.command c (index + n)) :=
  h.append (.command c (some (.single index)) .nil)

theorem closed (h : Behind t f l l') (length index index' : Nat) :
    Behind t f (l.step length index ']') (l'.step length index' ']') := by
  cases h with
  | outermost here => exact .outermost here
  | inner here h => exact h.append (.loop none none here .nil)

/-- One character. -/
theorem step {n : Nat} (h : Behind t (.shift n) l l') (length index : Nat) (ch : Char) :
    Behind t (.shift n) (l.step length index ch) (l'.step length (index + n) ch) := by
  by_cases hclosing : ch = ']'
  · subst hclosing
    exact h.closed length index _
  · unfold Levels.step
    split
    case h_7 => exact .inner .nil h
    case h_8 => exact absurd rfl hclosing
    case h_9 => exact h
    all_goals exact h.command _ index

theorem steps {n : Nat} (h : Behind t (.shift n) l l') (length index : Nat) (text : List Char) :
    Behind t (.shift n) (l.steps length index text) (l'.steps length (index + n) text) := by
  induction text generalizing l l' index with
  | nil => exact h
  | cons ch rest ih =>
    have hrest := ih (h.step length index ch) (index + 1)
    rwa [Nat.add_right_comm] at hrest

/-- Behind a text without open brackets. -/
theorem start (f : Position → Position) (h : l.outer = []) : Behind l.here f ⟨.nil, []⟩ l := by
  obtain ⟨here, outer⟩ := l
  cases h
  have hstart := Behind.outermost (t := here) (f := f) .nil
  rwa [Tree.relocate, Tree.append_nil] at hstart

theorem here_eq (h : Behind t f l l') (ho : l.outer = []) : l'.here = t ++ l.here.relocate f := by
  cases h with
  | outermost here => rfl
  | inner here h => cases ho

end Behind

/-- The tree of two texts. -/
theorem read_append {length : Nat} {text text' : String} (h : (read length text).outer = [])
    (h' : (read length text').outer = []) : (read length (text ++ text')).here =
      (read length text).here ++ (read length text').here.relocate (.shift text.length) := by
  have hbehind := (Behind.start (.shift text.length) h).steps length 0 text'.toList
  calc (read length (text ++ text')).here
    _ = ((read length text).steps length (0 + text.length) text'.toList).here := by
      rw [read, String.toList_append, steps_append, String.length_toList, read]
    _ = (read length text).here ++ (read length text').here.relocate (.shift text.length) :=
      hbehind.here_eq h'

end Levels

/-- No bracket is open behind a text that can be read. -/
theorem outer_read {text : String} {c : Config} {p : Program} (h : parse text c = .ok p) :
    (Levels.read c.tapeLength text).outer = [] := by
  obtain ⟨s, hs, hopen, -⟩ := parse_eq_ok_iff.mp h
  have hholds := (Holds.start c).steps c.tapeLength_pos hs
  exact List.length_eq_zero_iff.mp (hholds.openLoops.symm.trans hopen)

/-! ## Outputs that take no notice of being flushed -/

variable {σ τ : Type}

/-- What an output says to some bytes, put one behind the other. -/
def Sink.replies (sink : Sink τ) : List UInt8 → τ → List (Except Failure Bool)
  | [], _ => []
  | byte :: rest, o => (sink.put byte o).1 :: sink.replies rest (sink.put byte o).2

/-- A flush always succeeds and makes no difference to what is put later. -/
structure Sink.FlushesFreely (sink : Sink τ) : Prop where
  succeeds : ∀ o, (sink.flush o).1 = .ok ()
  replies : ∀ o bytes, sink.replies bytes (sink.flush o).2 = sink.replies bytes o

/-- Surroundings that have come to the same input, have taken and written the same bytes, and will
go on to answer alike. -/
structure Alongside (sink : Sink τ) (w w' : (σ × τ) × Array (Event byteStream)) : Prop where
  input : w.1.1 = w'.1.1
  replies : ∀ bytes, sink.replies bytes w.1.2 = sink.replies bytes w'.1.2
  written : writtenBy w.2 = writtenBy w'.2
  taken : takenBy w.2 = takenBy w'.2

namespace Alongside

variable {source : Source σ} {sink : Sink τ} {w w' : (σ × τ) × Array (Event byteStream)}

theorem refl (sink : Sink τ) (w : (σ × τ) × Array (Event byteStream)) : Alongside sink w w :=
  ⟨rfl, fun _ => rfl, rfl, rfl⟩

theorem push (h : Alongside sink w w') {s : σ} {o o' : τ} {e e' : Event byteStream} (he : e = e')
    (ho : ∀ bytes, sink.replies bytes o = sink.replies bytes o') :
    Alongside sink ((s, o), w.2.push e) ((s, o'), w'.2.push e') where
  input := rfl
  replies := ho
  written := by
    show writtenBy (w.2.push e) = writtenBy (w'.2.push e')
    rw [he, writtenBy_push, writtenBy_push, h.written]
  taken := by
    show takenBy (w.2.push e) = takenBy (w'.2.push e')
    rw [he, takenBy_push, takenBy_push, h.taken]

/-- Every request is answered alike. -/
theorem request (h : Alongside sink w w') (hs : sink.FlushesFreely) (source : Source σ)
    (request : ByteRequest) :
    ((source.beside sink).logged request w).1 = ((source.beside sink).logged request w').1 ∧
      Alongside sink ((source.beside sink).logged request w).2
        ((source.beside sink).logged request w').2 := by
  obtain ⟨⟨s, o⟩, es⟩ := w
  obtain ⟨⟨_, o'⟩, es'⟩ := w'
  obtain rfl : s = _ := h.input
  cases request with
  | canPeek | peek | next | pause => exact ⟨rfl, h.push rfl h.replies⟩
  | put byte =>
    have hreplies (rest : List UInt8) := List.cons_eq_cons.mp (h.replies (byte :: rest))
    have hreply : (sink.put byte o).1 = (sink.put byte o').1 := (hreplies []).1
    refine ⟨hreply, h.push ?_ fun rest => (hreplies rest).2⟩
    rw [hreply]
  | flush =>
    have hreply : (sink.flush o).1 = (sink.flush o').1 :=
      (hs.succeeds o).trans (hs.succeeds o').symm
    refine ⟨hreply, h.push ?_ fun bytes => ?_⟩
    · rw [hreply]
    · rw [hs.replies, hs.replies]
      exact h.replies bytes

/-- A flush more, and the question whether the input can be looked at, make no difference. -/
theorem extra (hs : sink.FlushesFreely) (source : Source σ)
    (w : (σ × τ) × Array (Event byteStream)) :
    Alongside sink
      ((source.beside sink).logged .canPeek ((source.beside sink).logged .flush w).2).2 w where
  input := rfl
  replies bytes := hs.replies w.1.2 bytes
  written := by simp [Device.logged, Source.beside, Event.written?]
  taken := by simp [Device.logged, Source.beside, Event.taken?]

end Alongside

/-! ## Runs -/

section Runs

variable {source : Source σ} {sink : Sink τ} {canPeek : Bool}

/-- What two trees come to one behind the other, the second being from a text of its own. -/
theorem Tree.course_sequel (hc : ∀ s, source.canPeek s = canPeek) (hs : sink.FlushesFreely)
    (f : Position → Position) (t u : Tree) (tape : Tape)
    (w : (σ × τ) × Array (Event byteStream)) (bound : Nat) :
    let d := (source.beside sink).logged
    let seen := (t.course d tape w).sequel f (u.course d) (bound + 4)
    let seen' := (t ++ u.relocate f).course d tape w (bound + 4)
    seen.1 = seen'.1 ∧ Alongside sink seen.2 seen'.2 := by
  intro d seen seen'
  have hcourse (t : Tree) (tape : Tape) (w : (σ × τ) × Array (Event byteStream)) :
      t.course d tape w (bound + 4) =
        conclude d (t.exec d canPeek (bound + 4) tape (d .canPeek w).2) := by
    have hpeek : (d .canPeek w).1 = canPeek := hc w.1.1
    simp only [Tree.course, hpeek]
  have hseen' : seen' = conclude d ((t.exec d canPeek (bound + 4) tape (d .canPeek w).2).andThen
      ((u.relocate f).exec d canPeek (bound + 4))) := by
    rw [show seen' = _ from hcourse _ tape w, exec_append]
  have hfirst := hcourse t tape w
  rw [hseen']
  cases hexec : t.exec d canPeek (bound + 4) tape (d .canPeek w).2 with
  | unfinished w₁ =>
    rw [hexec] at hfirst
    have hseen : seen = (none, w₁) := by
      refine (sequel_of_not_finished ?_).trans hfirst
      intro tape' w' h
      cases hfirst.symm.trans h
    rw [hseen]
    exact ⟨rfl, .refl sink w₁⟩
  | stopped e tape₁ w₁ =>
    rw [hexec] at hfirst
    have hseen : seen = (some ⟨.failed e, tape₁⟩, w₁) := by
      refine (sequel_of_not_finished ?_).trans hfirst
      intro tape' w' h
      cases hfirst.symm.trans h
    rw [hseen]
    exact ⟨rfl, .refl sink w₁⟩
  | through tape₁ w₁ =>
    have hflush : (d .flush w₁).1 = .ok () := hs.succeeds w₁.1.2
    rw [hexec, conclude, hflush, flushed] at hfirst
    -- the second tree starts behind a flush and another look at what the input can do
    have hsecond := hcourse u tape₁ (d .flush w₁).2
    have hseen : seen = ((u.course d tape₁ (d .flush w₁).2 (bound + 4)).1.map (Ending.relocate f),
        (u.course d tape₁ (d .flush w₁).2 (bound + 4)).2) := sequel_of_finished hfirst
    have hmatch : TransfersMatch f (Alongside sink) d canPeek d canPeek :=
      .of_requests fun request w w' h => h.request hs source request
    obtain ⟨hresult, hlast⟩ := matches_conclude (fun w w' h => h.request hs source .flush)
      (u.matches_exec hmatch bound tape₁ (Alongside.extra hs source w₁))
    rw [hseen, hsecond]
    exact ⟨hresult.symm, hlast⟩

end Runs

/-- The tape keeps its length. -/
theorem Tree.length_of_course {t : Tree} {d : Device byteStream σ} {tape : Tape} {w w' : σ}
    {n : Nat} {ending : Ending} (h : t.course d tape w n = (some ending, w')) :
    ending.tape.length = tape.length := by
  simp only [Tree.course] at h
  have hlength : (t.exec d (d .canPeek w).1 n tape (d .canPeek w).2).HasLength tape.length :=
    t.hasLength_exec rfl _
  generalize t.exec d (d .canPeek w).1 n tape (d .canPeek w).2 = q at h hlength
  cases q with
  | through tape' w'' =>
    rw [conclude, Prod.mk.injEq, Option.some_inj] at h
    obtain ⟨rfl, -⟩ := h
    cases (d .flush w'').1 <;> exact hlength
  | stopped e tape' w'' =>
    cases h
    exact hlength
  | unfinished w'' => cases h

namespace Interpreter

variable {text : String} {c : Config} {p : Program} {tape : Tape}

/-- The interpreter gets wherever the tree of the text gets. -/
theorem tracks_read (h : parse text c = .ok p) (hm : 8 * c.maxDepth ≤ sizeLimit)
    (hl : tape.length = c.tapeLength) (d : Device byteStream σ) (w : σ) :
    ((Engine.interpreter p).course d tape w).Tracks
      fun n => (Levels.read c.tapeLength text).here.course d tape w (n + 256) := by
  obtain ⟨t, ht, hts⟩ := exists_tree h
  rw [← maxDepth_of_parse h] at hm
  have htracks := (tracks ht hm (hl.trans (tapeLength_of_parse h).symm) d w).shift 256
  have heval : (fun n => t.course d tape w (n + 256)) =
      fun n => (Levels.read c.tapeLength text).here.course d tape w (n + 256) :=
    funext fun n => hts.alike.course_eq d hl w (Nat.le_add_left 256 n)
  rw [heval] at htracks
  exact htracks

/-- On a tape of another length, or with no room for its loops, the interpreter fails at once,
whatever has been read. -/
theorem exists_failure (h : ¬ (tape.length = c.tapeLength ∧ 8 * c.maxDepth ≤ sizeLimit))
    (d : Device byteStream σ) (w : σ) : ∃ ending w', ending.verdict ≠ .finished ∧
      ∀ (text : String) (p : Program), parse text c = .ok p →
        ((Engine.interpreter p).course d tape w).Ends ending w' := by
  by_cases hl : tape.length = c.tapeLength
  · refine ⟨⟨.crashed .capacityOverflow, tape⟩, (d .canPeek w).2, (fun h => nomatch h), ?_⟩
    intro text p hp
    have hm : sizeLimit < 8 * p.maxDepth := by
      rw [maxDepth_of_parse hp]
      exact Nat.lt_of_not_le fun hm => h ⟨hl, hm⟩
    exact ⟨2, congrFun (course_of_deep hm (hl.trans (tapeLength_of_parse hp).symm) d w) 2⟩
  · refine ⟨⟨.failed (.tapeMismatch c.tapeLength tape.length), tape⟩, w, (fun h => nomatch h), ?_⟩
    intro text p hp
    rw [← tapeLength_of_parse hp] at hl ⊢
    exact (Engine.Executes.interpreter (p := p)).ends_of_mismatch hl d w

end Interpreter

/-- Two texts that can be read can be read as one, and to run that is to run both programs, one
behind the other on the same tape. -/
theorem runs_in_sequence {text text' : String} {c : Config} {p p' : Program}
    (h : parse text c = .ok p) (h' : parse text' c = .ok p') :
    ∃ q, parse (text ++ text') c = .ok q ∧
      ∀ (σ τ : Type) (source : Source σ) (sink : Sink τ) (canPeek : Bool),
        (∀ s, source.canPeek s = canPeek) → sink.FlushesFreely →
        ∀ (tape : Tape) (w : (σ × τ) × Array (Event byteStream)),
          Course.Corresponds (Alongside sink)
            (((Engine.interpreter p).course (source.beside sink).logged tape w).sequel
              (.shift text.length) ((Engine.interpreter p').course (source.beside sink).logged))
            ((Engine.interpreter q).course (source.beside sink).logged tape w) := by
  obtain ⟨q, hq⟩ := exists_parse_append h h'
  refine ⟨q, hq, ?_⟩
  intro σ τ source sink canPeek hc hs tape w
  have hstays (p : Program) := (Engine.interpreter p).course_stays (source.beside sink).logged
  by_cases hfine : tape.length = c.tapeLength ∧ 8 * c.maxDepth ≤ sizeLimit
  · obtain ⟨hl, hm⟩ := hfine
    have hfirst := (Interpreter.tracks_read h hm hl (source.beside sink).logged w).approaches
      (hstays p tape w)
    have hboth := hfirst.sequel (.shift text.length) (hstays p') fun tape' w' hends => by
      obtain ⟨b, hb⟩ := hfirst.ends _ w' hends
      have hl' : tape'.length = c.tapeLength :=
        (Tree.length_of_course (hb b (Nat.le_refl b))).trans hl
      exact (Interpreter.tracks_read h' hm hl' (source.beside sink).logged w').approaches
        (hstays p' tape' w')
    apply hboth.corresponds (Interpreter.tracks_read hq hm hl _ w) (hstays q tape w) 0
    intro n _
    rw [Levels.read_append (outer_read h) (outer_read h')]
    exact Tree.course_sequel hc hs (.shift text.length) _ _ tape w (n + 252)
  · obtain ⟨ending, w', hv, hends⟩ :=
      Interpreter.exists_failure hfine (source.beside sink).logged w
    have hfirst := (sequel_ends_iff (f := .shift text.length) (hstays p tape w) (hstays p') ending
      w').mpr (.inr ⟨hv, hends text p h⟩)
    exact .of_ends ((hstays p tape w).sequel (hstays p')) (hstays q tape w) hfirst
      (hends _ q hq) (.refl sink w')

/-- At the seam two instructions cancel each other. -/
theorem runs_in_sequence_cancelled :
    ∃ p p' q : Program, parse ",+" .standard = .ok p ∧ parse "-." .standard = .ok p' ∧
      parse (",+" ++ "-.") .standard = .ok q ∧
      Course.Corresponds (Alongside collecting)
        (((Engine.interpreter p).course (Cursor.source.beside collecting).logged
          (.blank 30000 (by decide)) ((.ofBytes #[7], #[]), #[])).sequel (.shift 2)
            ((Engine.interpreter p').course (Cursor.source.beside collecting).logged))
        ((Engine.interpreter q).course (Cursor.source.beside collecting).logged
          (.blank 30000 (by decide)) ((.ofBytes #[7], #[]), #[])) := by
  obtain ⟨p, hp⟩ : ∃ p, parse ",+" .standard = .ok p := ⟨_, rfl⟩
  obtain ⟨p', hp'⟩ : ∃ p, parse "-." .standard = .ok p := ⟨_, rfl⟩
  obtain ⟨q, hq, hcorresponds⟩ := runs_in_sequence hp hp'
  have hflush : Sink.FlushesFreely collecting := ⟨fun _ => rfl, fun _ _ => rfl⟩
  exact ⟨p, p', q, hp, hp', hq,
    hcorresponds _ _ Cursor.source collecting true (fun _ => rfl) hflush _ _⟩

end TapeLang
