import TapeLang.Proofs.Streams.Routine

/-!
# Both engines and their streams

Interpreted or compiled, a program keeps the protocol of its streams and stops at their faults. The
interpreter does so whatever the program is. A routine must have been compiled from a program that
was read, for a host where nothing is in the way.

* `Routine.conducts_compile`: a compiled routine conducts its transfers.
* `Routine.agrees_of_fits`: it agrees with the interpreter.
* `keeps_protocol`: both engines keep the protocol.
* `stops_at_faults`: both engines stop at faults.
-/

namespace TapeLang

theorem Interpreter.step_of_mismatch {p : Program} {t : Tape} (ht : t.length ≠ p.tapeLength) :
    step p (start t) = .halt ⟨.failed (.tapeMismatch p.tapeLength t.length), t⟩ := if_pos ht

namespace Routine

variable {source : String} {c : Config} {p : Program} {host : Host} {r : Routine}

theorem step_of_mismatch {t : Tape} (ht : t.length ≠ r.tapeLength) :
    r.step (start t) = .halt ⟨.failed (.tapeMismatch r.tapeLength t.length), t⟩ := if_pos ht

variable (h : parse source c = .ok p) (hr : compile p host = .ok r)
  (hf : host.Fits p.tapeLength r.size)
include h hr hf

theorem exists_holds : ∃ t wrap place, r.Holds p t wrap place := by
  obtain ⟨t, ht, hsimple⟩ := exists_tree h
  have hreduced : t.Reduced p.tapeLength := tapeLength_of_parse h ▸ hsimple.reduced
  obtain ⟨-, wrap, place, hholds⟩ := holds_of_compile ht hreduced hr hf
  exact ⟨t, wrap, place, hholds⟩

/-- A compiled routine conducts its transfers. -/
theorem conducts_compile {σ : Type} (d : Device byteStream σ) (t : Tape) (w : σ)
    (ht : t.length = p.tapeLength) :
    Conducts p r.step (r.view p) (Reached r.step d (start t) w) := by
  obtain ⟨tree, wrap, place, hholds⟩ := exists_holds h hr hf
  exact conducts hholds ht d w

/-- A compiled routine and the interpreter both get wherever the tree of the program gets. -/
theorem agrees_of_fits (hm : 8 * p.maxDepth ≤ sizeLimit) {σ : Type} {t : Tape}
    (ht : t.length = p.tapeLength) (d : Device byteStream σ) (w : σ) :
    (course r.step d.logged (start t) (w, #[])).Agrees
      (course (Interpreter.step p) d.logged (Interpreter.start t) (w, #[])) := by
  obtain ⟨tree, wrap, place, hholds⟩ := exists_holds h hr hf
  have hroutine := tracks hholds ht d.logged (w, #[])
  have hinterpreter := Interpreter.tracks hholds.flatten hm ht d.logged (w, #[])
  exact (hroutine.agrees (course_stays _ _ _ _) (course_grows _ _ _ _)).trans
    (hinterpreter.agrees (course_stays _ _ _ _) (course_grows _ _ _ _)).symm

end Routine

/-- Both engines keep the protocol of the streams. What these see of a routine is what they see of
the interpreter, which executes the instructions of the program one by one. -/
theorem keeps_protocol (p : Program) :
    KeepsProtocol p (Interpreter.step p) Interpreter.start (Interpreter.State.call? p) ∧
      ∀ (source : String) (c : Config) (host : Host) (r : Routine), parse source c = .ok p →
        Routine.compile p host = .ok r → host.Fits p.tapeLength r.size →
        KeepsProtocol p r.step Routine.start (Routine.State.call? r p) ∧
        (8 * p.maxDepth ≤ sizeLimit →
          Retraces p r.step Routine.start (Interpreter.step p) Interpreter.start ∧
          Retraces p (Interpreter.step p) Interpreter.start r.step Routine.start) := by
  constructor
  · refine Conducts.keepsProtocol (v := Interpreter.view p) ?_ ?_
    · intro t
      rfl
    · intro σ d t w ht
      exact Interpreter.conducts ht d.logged (w, #[])
  · intro source c host r h hr hf
    refine ⟨Conducts.keepsProtocol (v := r.view p) ?_ ?_, ?_⟩
    · intro t
      rfl
    · intro σ d t w ht
      exact Routine.conducts_compile h hr hf d.logged t (w, #[]) ht
    · intro hm
      constructor
      · intro σ d t w w₁ n s es ht hn
        exact (Routine.agrees_of_fits h hr hf hm ht d w).exists_reaches hn
      · intro σ d t w w₁ n s es ht hn
        exact (Routine.agrees_of_fits h hr hf hm ht d w).symm.exists_reaches hn

/-- A program that echoes its input until it reads a zero. -/
theorem keeps_protocol_echo :
    ∃ (p : Program) (r : Routine), parse ",[.,]" .standard = .ok p ∧
      Routine.compile p .standard = .ok r ∧
      KeepsProtocol p (Interpreter.step p) Interpreter.start (Interpreter.State.call? p) ∧
      KeepsProtocol p r.step Routine.start (Routine.State.call? r p) ∧
      Retraces p r.step Routine.start (Interpreter.step p) Interpreter.start ∧
      ∀ n s world es, Reaches r.step (Cursor.source.beside collecting).logged n
        (Routine.start (.blank 30000 (by decide))) ((.ofBytes #[1, 0], #[]), #[]) s (world, es) →
        Prompted es.toList := by
  obtain ⟨p, hp, hs⟩ : ∃ p, parse ",[.,]" .standard = .ok p ∧
      p.codeSize Host.standard.linkage < 2 ^ 31 := ⟨_, rfl, by decide +kernel⟩
  have hlength : p.tapeLength = 30000 := tapeLength_of_parse hp
  have hl : p.tapeLength ≤ maxTapeLength := by rw [hlength]; decide
  obtain ⟨r, hr, hfits⟩ := Routine.exists_compile_standard hp hl hs
  obtain ⟨hinterpreter, hroutine⟩ := keeps_protocol p
  obtain ⟨hkeeps, hsame⟩ := hroutine _ _ _ r hp hr hfits
  have hdepth : p.maxDepth = 256 := maxDepth_of_parse hp
  have hretraces := (hsame (by rw [hdepth]; decide)).1
  refine ⟨p, r, hp, hr, hinterpreter, hkeeps, hretraces, ?_⟩
  intro n s world es hn
  exact hkeeps.prompted _ (.blank 30000 (by decide)) _ _ n s es hlength.symm hn

/-- A request that fails stops both engines right there. -/
theorem stops_at_faults (p : Program) :
    StopsAtFaults p (Interpreter.step p) Interpreter.start Interpreter.State.tape
        Interpreter.State.cursor ∧
      ∀ (source : String) (c : Config) (host : Host) (r : Routine), parse source c = .ok p →
        Routine.compile p host = .ok r → host.Fits p.tapeLength r.size →
        StopsAtFaults p r.step Routine.start r.standing r.index := by
  constructor
  · refine Conducts.stopsAtFaults (v := Interpreter.view p) ?_ ?_
    · intro σ d t w ht
      exact Interpreter.conducts ht d.logged (w, #[])
    · intro t ht
      exact Interpreter.step_of_mismatch ht
  · intro source c host r h hr hf
    refine Conducts.stopsAtFaults (v := r.view p) ?_ ?_
    · intro σ d t w ht
      exact Routine.conducts_compile h hr hf d.logged t (w, #[]) ht
    · intro t ht
      rw [← (Routine.fields_of_compile hr).2.1] at ht ⊢
      exact Routine.step_of_mismatch ht

/-- A program that reads where there is nothing to read. -/
theorem stops_at_faults_exhausted :
    ∃ (p : Program) (r : Routine) (es : Array (Event byteStream)),
      parse "," ⟨1, 2, .all, by decide, by decide⟩ = .ok p ∧
      Routine.compile p .standard = .ok r ∧
      StopsAtFaults p r.step Routine.start r.standing r.index ∧
      (course (Interpreter.step p) (Cursor.source.beside collecting).logged
        (Interpreter.start (.blank 1 (by decide))) ((.ofBytes #[], #[]), #[])).Ends
        ⟨.failed (.inputExhausted (some (.single 0))), .blank 1 (by decide)⟩
        ((.ofBytes #[], #[]), es.push ⟨.next, .ok none⟩) := by
  obtain ⟨p, hp⟩ : ∃ p : Program, p = ⟨#[⟨.read, some (.single 0)⟩], 1, 2, by decide⟩ := ⟨_, rfl⟩
  have hparse : parse "," ⟨1, 2, .all, by decide, by decide⟩ = .ok p := by
    subst hp
    rfl
  have hsize : p.codeSize Host.standard.linkage < 2 ^ 31 := by
    subst hp
    decide +kernel
  have hlength : p.tapeLength = 1 := tapeLength_of_parse hparse
  have hl : p.tapeLength ≤ maxTapeLength := by rw [hlength]; decide
  obtain ⟨r, hr, hfits⟩ := Routine.exists_compile_standard hparse hl hsize
  obtain ⟨hinterpreter, hroutine⟩ := stops_at_faults p
  obtain ⟨s, es, hat, hposition, htape, resume, hask⟩ :
      ∃ s es, AtRequest (Interpreter.step p) (Cursor.source.beside collecting)
          (Interpreter.start (.blank 1 (by decide))) (.ofBytes #[], #[]) es s
          (.ofBytes #[], #[]) ∧
        p.position? s.cursor = some (.single 0) ∧ s.tape = .blank 1 (by decide) ∧
        ∃ resume, Interpreter.step p s = .ask .next resume := by
    subst hp
    exact ⟨_, _, ⟨⟨4, rfl⟩, _, _, rfl⟩, rfl, rfl, _, rfl⟩
  refine ⟨p, r, es, hparse, hr, hroutine _ _ _ r hparse hr hfits, ?_⟩
  have hends := hinterpreter.fault _ _ (.blank 1 (by decide)) _ _ _ _ es s s hlength.symm hat hat
    .next resume (.inputExhausted (some (.single 0))) hask (by rw [hposition]; rfl)
  rw [htape] at hends
  exact hends

end TapeLang
