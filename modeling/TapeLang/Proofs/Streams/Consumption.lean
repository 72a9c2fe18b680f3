import TapeLang.Proofs.Correspondence
import TapeLang.Proofs.Engine
import TapeLang.Proofs.Streams.Bytes
import TapeLang.Proofs.Tree.Surroundings

/-!
# Input that is not consumed

A run depends on no more of its input than it consumes. If bytes are added behind the input, all
stays as it was, unless the run came to the end of its input before: then it goes on from there.

* `lengthened`: the surroundings with more bytes to read.
* `Passage.Outlasts`: what becomes of a passage if there are more bytes.
* `Tree.outlasts`: what becomes of a tree.
* `Course.Outlasts`, `depends_on_consumed`: what becomes of a run.
-/

namespace TapeLang

open Course

variable {τ : Type} {x y : Array UInt8}

/-- Bytes in memory and an output, and all that has passed between them and a program. -/
abbrev Memory (τ : Type) : Type := (Cursor × τ) × Array (Event byteStream)

/-- Beside the output `sink`, with a record of all events. -/
abbrev memory (sink : Sink τ) : Device byteStream (Memory τ) :=
  (Cursor.source.beside sink).logged

/-- The same, with the bytes `y` behind the others. -/
def lengthened (y : Array UInt8) (w : Memory τ) : Memory τ :=
  ((⟨w.1.1.bytes ++ y, w.1.1.index⟩, w.1.2), w.2)

/-- The input is `x`, and nothing behind its end has been consumed. -/
structure Within (x : Array UInt8) (w : Memory τ) : Prop where
  bytes : w.1.1.bytes = x
  index : w.1.1.index ≤ x.size

/-! ## Requests -/

/-- Whether the answer depends on the bytes that are left. -/
def ByteRequest.seesBytes : ByteRequest → Bool
  | .peek | .next => true
  | _ => false

theorem ByteRequest.blind (request : ByteRequest) (h : request.seesBytes = false) (w : Memory τ) :
    request.seesBytes = true → w.1.1.index < w.1.1.bytes.size := by
  intro hsees
  rw [h] at hsees
  cases hsees

section Requests

variable (sink : Sink τ) {w : Memory τ}

/-- Only a look or a byte taken at the end notices that there are more bytes. -/
theorem request_lengthened (y : Array UInt8) {request : ByteRequest}
    (h : request.seesBytes = true → w.1.1.index < w.1.1.bytes.size) :
    memory sink request (lengthened y w) =
      ((memory sink request w).1, lengthened y (memory sink request w).2) := by
  obtain ⟨⟨c, o⟩, es⟩ := w
  have hlt' (hlt : c.index < c.bytes.size) : c.index < (c.bytes ++ y).size := by
    rw [Array.size_append]
    exact Nat.lt_add_right _ hlt
  cases request with
  | canPeek | put | flush | pause => rfl
  | peek =>
    have hlt : c.index < c.bytes.size := h rfl
    have hpeek : Cursor.peek ⟨c.bytes ++ y, c.index⟩ = c.peek :=
      (Cursor.peek_of_lt (hlt' hlt)).trans (Cursor.peek_of_lt hlt).symm
    simp only [memory, Device.logged, Source.beside, Cursor.source, lengthened, hpeek]
  | next =>
    have hlt : c.index < c.bytes.size := h rfl
    simp only [memory, Device.logged, Source.beside, Cursor.source, lengthened,
      Cursor.next_of_lt hlt, Cursor.next_of_lt (c := ⟨c.bytes ++ y, c.index⟩) (hlt' hlt),
      Array.getElem_append_left hlt]

theorem Within.request (h : Within x w) (request : ByteRequest) :
    Within x (memory sink request w).2 := by
  obtain ⟨⟨c, o⟩, es⟩ := w
  obtain ⟨rfl, hindex⟩ := h
  cases request with
  | canPeek | peek | put | flush | pause => exact ⟨rfl, hindex⟩
  | next =>
    by_cases hlt : c.index < c.bytes.size
    · simp only [memory, Device.logged, Source.beside, Cursor.source, Cursor.next_of_lt hlt]
      exact ⟨rfl, hlt⟩
    · simp only [memory, Device.logged, Source.beside, Cursor.source,
        Cursor.next_of_end (Nat.not_lt.mp hlt)]
      exact ⟨rfl, hindex⟩

end Requests

/-! ## Passages -/

/-- What becomes of a passage over the input `x` if there are more bytes: the same, unless it is
stopped because all of `x` is consumed. Then nothing is said of what follows, but what has been
written until then remains. -/
inductive Passage.Outlasts (x y : Array UInt8) : Passage (Memory τ) → Passage (Memory τ) → Prop
  | through {tape : Tape} {w : Memory τ} : Within x w →
    Outlasts x y (.through tape w) (.through tape (lengthened y w))
  | stopped {e : RunError} {tape : Tape} {w : Memory τ} :
    (∀ position, e ≠ .inputExhausted position) →
    Outlasts x y (.stopped e tape w) (.stopped e tape (lengthened y w))
  | unfinished {w : Memory τ} : Outlasts x y (.unfinished w) (.unfinished (lengthened y w))
  | exhausted {position : Option Position} {tape : Tape} {w : Memory τ} {q : Passage (Memory τ)} :
    w.1.1 = ⟨x, x.size⟩ → q.Leaves (fun w' => writtenBy w.2 <+: writtenBy w'.2) →
    Outlasts x y (.stopped (.inputExhausted position) tape w) q

/-- What has been written is never taken back. -/
theorem prefix_memory (sink : Sink τ) (bytes : List UInt8) (request : ByteRequest) (w : Memory τ)
    (h : bytes <+: writtenBy w.2) : bytes <+: writtenBy (memory sink request w).2.2 :=
  h.trans (writtenBy_prefix_logged _ request w)

namespace Passage.Outlasts

variable {p q : Passage (Memory τ)}

theorem andThen {g : Tape → Memory τ → Passage (Memory τ)} (h : Outlasts x y p q)
    (hg : ∀ tape w, Within x w → Outlasts x y (g tape w) (g tape (lengthened y w)))
    (hkeep : ∀ (bytes : List UInt8) tape w, bytes <+: writtenBy w.2 →
      (g tape w).Leaves fun w' => bytes <+: writtenBy w'.2) :
    Outlasts x y (p.andThen g) (q.andThen g) := by
  cases h with
  | through hw => exact hg _ _ hw
  | stopped he => exact .stopped he
  | unfinished => exact .unfinished
  | exhausted hw hq => exact .exhausted hw (hq.andThen fun tape w h => hkeep _ tape w h)

end Passage.Outlasts

theorem outlasts_whileNonzero {g : Tape → Memory τ → Passage (Memory τ)}
    (hg : ∀ tape w, Within x w → Passage.Outlasts x y (g tape w) (g tape (lengthened y w)))
    (hkeep : ∀ (bytes : List UInt8) tape w, bytes <+: writtenBy w.2 →
      (g tape w).Leaves fun w' => bytes <+: writtenBy w'.2)
    (rounds : Nat) (tape : Tape) {w : Memory τ} (hw : Within x w) :
    Passage.Outlasts x y (whileNonzero g rounds tape w)
      (whileNonzero g rounds tape (lengthened y w)) := by
  induction rounds generalizing tape w with
  | zero => exact .unfinished
  | succ rounds ih =>
    unfold whileNonzero
    split
    · exact .through hw
    · exact (hg tape w hw).andThen (fun tape w hw => ih tape hw)
        fun bytes tape w h => leaves_whileNonzero (hkeep bytes) rounds tape h

/-! ## Transfers -/

section Transfers

variable (sink : Sink τ) {canPeek : Bool} {position : Option Position} {tape : Tape}
  {w : Memory τ} {t t' : Transfer}

theorem outlasts_ofTransfer (tape : Tape) {outcome : Transfer.Outcome}
    (ho : ∀ position, outcome ≠ .failed (.inputExhausted position)) (hw : Within x w) :
    Passage.Outlasts x y (.ofTransfer tape (.halted outcome w))
      (.ofTransfer tape (.halted outcome (lengthened y w))) := by
  cases outcome with
  | received byte => exact .through hw
  | sent => exact .through hw
  | failed e =>
    apply Passage.Outlasts.stopped
    rintro position rfl
    exact ho position rfl

/-- A request that does not notice the further bytes, inside a transfer. -/
theorem outlasts_of_stage {bound : Nat}
    (h : t.request.seesBytes = true → w.1.1.index < w.1.1.bytes.size)
    (hres : t.resume canPeek position (memory sink t.request w).1 = .stage t')
    (hnext : Passage.Outlasts x y
      (t'.perform (memory sink) canPeek bound position tape (memory sink t.request w).2)
      (t'.perform (memory sink) canPeek bound position tape
        (lengthened y (memory sink t.request w).2))) :
    Passage.Outlasts x y (t.perform (memory sink) canPeek (bound + 1) position tape w)
      (t.perform (memory sink) canPeek (bound + 1) position tape (lengthened y w)) := by
  have hreply := request_lengthened sink y h
  rw [Transfer.perform_of_stage hres,
    Transfer.perform_of_stage (w := lengthened y w) (by rw [hreply]; exact hres), hreply]
  exact hnext

/-- The same for the last request of a transfer. -/
theorem outlasts_of_done {bound : Nat} {outcome : Transfer.Outcome}
    (h : t.request.seesBytes = true → w.1.1.index < w.1.1.bytes.size)
    (hres : t.resume canPeek position (memory sink t.request w).1 = .done outcome)
    (ho : ∀ position, outcome ≠ .failed (.inputExhausted position)) (hw : Within x w) :
    Passage.Outlasts x y (t.perform (memory sink) canPeek (bound + 1) position tape w)
      (t.perform (memory sink) canPeek (bound + 1) position tape (lengthened y w)) := by
  have hreply := request_lengthened sink y h
  cases bound with
  | zero =>
    rw [Transfer.perform_one, Transfer.perform_one, hreply]
    exact .unfinished
  | succ bound =>
    rw [Transfer.perform_of_done hres,
      Transfer.perform_of_done (w := lengthened y w) (by rw [hreply]; exact hres), hreply]
    exact outlasts_ofTransfer tape ho (hw.request sink t.request)

theorem outlasts_offer (byte : UInt8) (bound : Nat) (hw : Within x w) :
    Passage.Outlasts x y
      ((Transfer.offer byte).perform (memory sink) canPeek bound position tape w)
      ((Transfer.offer byte).perform (memory sink) canPeek bound position tape
        (lengthened y w)) := by
  induction bound generalizing w with
  | zero => exact .unfinished
  | succ bound ih =>
    have hblind := (Transfer.offer byte).request.blind rfl w
    have hw' := hw.request sink (.put byte)
    have hresume {reply : Except Failure Bool} (h : (memory sink (.put byte) w).1 = reply) :
        (Transfer.offer byte).resume canPeek position (memory sink (.put byte) w).1 =
          (Transfer.offer byte).resume canPeek position reply := congrArg _ h
    cases hput : (memory sink (.put byte) w).1 with
    | ok taken =>
      cases taken with
      | true => exact outlasts_of_done sink hblind (hresume hput) (fun _ h => nomatch h) hw
      | false =>
        apply outlasts_of_done sink hblind (hresume hput) (fun _ h => ?_) hw
        cases h
    | error f =>
      by_cases hf : f.kind = .interrupted
      · exact outlasts_of_stage sink hblind ((hresume hput).trans (if_pos hf)) (ih hw')
      · apply outlasts_of_done sink hblind ((hresume hput).trans (if_neg hf)) (fun _ h => ?_) hw
        cases h

/-- Behind the flush, a read takes a byte if there is one left, and is stopped otherwise. -/
theorem outlasts_look (bound : Nat) (hw : Within x w) :
    Passage.Outlasts x y
      (Transfer.look.perform (memory sink) true (bound + 3) position tape w)
      (Transfer.look.perform (memory sink) true (bound + 3) position tape
        (lengthened y w)) := by
  obtain ⟨⟨c, o⟩, es⟩ := w
  by_cases hlt : c.index < c.bytes.size
  · have hlook : Transfer.look.resume true position (.ok c.peek) = .stage .take := by
      rw [Cursor.peek_of_lt hlt]
      rfl
    have htake : Transfer.take.resume true position (.ok c.next.1) =
        .done (.received c.bytes[c.index]) := by
      rw [Cursor.next_of_lt hlt]
      rfl
    apply outlasts_of_stage sink (fun _ => hlt) hlook
    apply outlasts_of_done sink (fun _ => hlt) htake
    · intro position h
      cases h
    · exact hw.request sink .peek
  · have hend : c.bytes.size ≤ c.index := Nat.not_lt.mp hlt
    have hlook : Transfer.look.resume true position (.ok c.peek) = .stage .take := by
      rw [Cursor.peek_of_end hend]
      rfl
    have htake : Transfer.take.resume true position (.ok c.next.1) =
        .done (.failed (.inputExhausted position)) := by
      rw [Cursor.next_of_end hend]
      rfl
    have hstopped : Transfer.look.perform (memory sink) true (bound + 3) position tape
          ((c, o), es) = .stopped (.inputExhausted position) tape ((c.next.2, o),
            (es.push ⟨.peek, .ok c.peek⟩).push ⟨.next, .ok c.next.1⟩) :=
      (Transfer.perform_of_stage (w := ((c, o), es)) hlook _).trans
        (Transfer.perform_of_done (d := memory sink) (t := .take)
          (w := ((c, o), es.push ⟨.peek, .ok c.peek⟩)) htake bound)
    rw [hstopped, Cursor.next_of_end hend]
    apply Passage.Outlasts.exhausted
    · obtain ⟨rfl, hindex⟩ := hw
      exact congrArg (Cursor.mk c.bytes) (Nat.le_antisymm hindex hend)
    · apply Transfer.leaves_perform (prefix_memory sink _)
      simp [lengthened, Event.written?]

theorem outlasts_prompt (bound : Nat) (hw : Within x w) :
    Passage.Outlasts x y
      (Transfer.prompt.perform (memory sink) true (bound + 4) position tape w)
      (Transfer.prompt.perform (memory sink) true (bound + 4) position tape
        (lengthened y w)) := by
  have hblind := Transfer.prompt.request.blind rfl w
  cases hflush : (memory sink .flush w).1 with
  | ok =>
    apply outlasts_of_stage sink hblind (congrArg (Transfer.prompt.resume true position) hflush)
    exact outlasts_look sink bound (hw.request sink .flush)
  | error f =>
    apply outlasts_of_done sink hblind (congrArg (Transfer.prompt.resume true position) hflush)
    · intro position h
      cases h
    · exact hw

end Transfers

/-- What becomes of a tree. -/
theorem Tree.outlasts (sink : Sink τ) (y : Array UInt8) (t : Tree) (bound : Nat) (tape : Tape)
    {w : Memory τ} (hw : Within x w) :
    Passage.Outlasts x y (t.exec (memory sink) true (bound + 4) tape w)
      (t.exec (memory sink) true (bound + 4) tape (lengthened y w)) := by
  have hkeep (t : Tree) (bytes : List UInt8) (tape : Tape) (w : Memory τ)
      (h : bytes <+: writtenBy w.2) : (t.exec (memory sink) true (bound + 4) tape w).Leaves
        fun w' => bytes <+: writtenBy w'.2 :=
    t.leaves_exec (prefix_memory sink bytes) tape h
  induction t generalizing tape w with
  | nil => exact .through hw
  | command c position rest ih =>
    refine Passage.Outlasts.andThen ?_ (fun tape w hw => ih tape hw) (hkeep rest)
    cases c with
    | move n | add n | reset => exact .through hw
    | read => exact outlasts_prompt sink bound hw
    | write => exact outlasts_offer sink tape.get (bound + 4) hw
  | loop opening closing body rest ihb ihr =>
    have hwhile := outlasts_whileNonzero (fun tape w hw => ihb tape (w := w) hw) (hkeep body)
      (bound + 4) tape hw
    exact hwhile.andThen (fun tape w hw => ihr tape (w := w) hw) (hkeep rest)

/-! ## Runs -/

/-- What two evaluations of a tree have come to, the second with more bytes to read. -/
inductive Seen (x y : Array UInt8) : Option Ending × Memory τ → Option Ending × Memory τ → Prop
  | same {result : Option Ending} {w : Memory τ} :
    (∀ position tape, result ≠ some ⟨.failed (.inputExhausted position), tape⟩) →
    Seen x y (result, w) (result, lengthened y w)
  | exhausted {position : Option Position} {tape : Tape} {w : Memory τ}
    {seen : Option Ending × Memory τ} :
    w.1.1 = ⟨x, x.size⟩ → writtenBy w.2 <+: writtenBy seen.2.2 →
    Seen x y (some ⟨.failed (.inputExhausted position), tape⟩, w) seen

theorem Passage.Outlasts.conclude (sink : Sink τ) {p q : Passage (Memory τ)}
    (h : Passage.Outlasts x y p q) :
    Seen x y (Tree.conclude (memory sink) p) (Tree.conclude (memory sink) q) := by
  cases h with
  | @through tape w hw =>
    have hflush := request_lengthened sink y (ByteRequest.flush.blind rfl w)
    simp only [Tree.conclude, hflush]
    apply Seen.same
    intro position tape'
    cases (memory sink .flush w).1 with
    | ok | error =>
      intro h
      cases h
  | stopped he =>
    apply Seen.same
    intro position tape' h
    cases h
    exact he position rfl
  | unfinished =>
    apply Seen.same
    intro position tape' h
    cases h
  | exhausted hw hq => exact .exhausted hw (Tree.leaves_conclude (prefix_memory sink _) hq)

namespace Course

/-- What becomes of the run `c` with the input `x` if there are more bytes behind it: the run `c'`
comes to the same end, having consumed the same bytes, or goes on for ever as well; if the end was
that all of `x` was consumed, it begins with what `c` has written. -/
structure Outlasts (x y : Array UInt8) (c c' : Course Ending (Memory τ)) : Prop where
  ends : ∀ ending w, c.Ends ending w →
    (∀ position, ending.verdict ≠ .failed (.inputExhausted position)) →
    c'.Ends ending (lengthened y w)
  endless : c.Endless → c'.Endless ∧
    ∀ n, ∃ m k, n ≤ m ∧ n ≤ k ∧ (c' k).2 = lengthened y (c m).2
  exhausted : ∀ position tape w, c.Ends ⟨.failed (.inputExhausted position), tape⟩ w →
    w.1.1 = ⟨x, x.size⟩ ∧ ∃ bound, ∀ n, bound ≤ n → writtenBy w.2 <+: writtenBy (c' n).2.2

namespace Outlasts

variable {c e c' e' : Course Ending (Memory τ)}

theorem of_ends (hc : c.Stays) {ending : Ending} {w : Memory τ}
    (h : c.Ends ending w) (h' : c'.Ends ending (lengthened y w))
    (he : ∀ position, ending.verdict ≠ .failed (.inputExhausted position)) :
    Outlasts x y c c' where
  ends ending' w' hw' _ := by
    obtain ⟨rfl, rfl⟩ := hc.ends_unique h hw'
    exact h'
  endless hend := absurd h (endless_iff.mp hend ending w)
  exhausted position tape w' hw' := by
    obtain ⟨rfl, rfl⟩ := hc.ends_unique h hw'
    exact absurd rfl (he position)

/-- It is enough to compare evaluators from some bound on. -/
theorem of_tracks (h : c.Tracks e) (hc : c.Stays) (h' : c'.Tracks e') (hc' : c'.Stays)
    (hg : c'.Grows) (bound : Nat) (he : ∀ n, bound ≤ n → Seen x y (e n) (e' n)) :
    Outlasts x y c c' where
  ends ending w hw hv := by
    obtain ⟨n, hn, hen⟩ := (h.ends_iff_exists hc bound ending w).mp hw
    have hseen := he n hn
    rw [hen] at hseen
    generalize hen' : e' n = seen at hseen
    cases hseen with
    | same => exact (h'.ends_iff_exists hc' bound ending _).mpr ⟨n, hn, hen'⟩
    | @exhausted position => exact absurd rfl (hv position)
  endless hend := by
    have hnone (n : Nat) (hn : bound ≤ n) : e' n = (none, lengthened y (e n).2) := by
      have hseen := he n hn
      have hen : ∀ ending w, e n ≠ (some ending, w) := fun ending w hen =>
        endless_iff.mp hend ending w ((h.ends_iff_exists hc bound ending w).mpr ⟨n, hn, hen⟩)
      generalize e n = seen, e' n = seen' at hseen hen ⊢
      cases hseen with
      | @same result w =>
        cases result with
        | none => rfl
        | some ending => exact absurd rfl (hen ending w)
      | exhausted => exact absurd rfl (hen _ _)
    refine ⟨endless_iff.mpr fun ending w hw => ?_, fun n => ?_⟩
    · obtain ⟨n, hn, hen⟩ := (h'.ends_iff_exists hc' bound ending w).mp hw
      cases (hnone n hn).symm.trans hen
    · obtain ⟨m, hm, hcm⟩ := h.exists_past hc (n + bound)
      obtain ⟨k, hk, hck⟩ := h'.exists_past hc' (n + bound)
      refine ⟨m, k, Nat.le_of_add_right_le hm, Nat.le_of_add_right_le hk, ?_⟩
      rw [hcm, hck, hnone (n + bound) (Nat.le_add_left bound n)]
  exhausted position tape w hw := by
    obtain ⟨n, hn, hen⟩ := (h.ends_iff_exists hc bound _ w).mp hw
    have hseen := he n hn
    rw [hen] at hseen
    generalize hen' : e' n = seen at hseen
    cases hseen with
    | same hne => exact absurd rfl (hne position tape)
    | exhausted hx hprefix =>
      refine ⟨hx, ?_⟩
      obtain ⟨m, hm, hcm⟩ := h'.exists_past hc' n
      refine ⟨m, fun k hk => hprefix.trans ?_⟩
      obtain ⟨k, rfl⟩ := Nat.exists_eq_add_of_le hk
      rw [← hen', ← hcm]
      exact (hg m k).filterMap Event.written?

end Outlasts

end Course

/-- A run depends only on the input that it consumes, in either engine. -/
theorem depends_on_consumed {text : String} {c : Config} {p : Program} {e : Engine}
    (h : parse text c = .ok p) (he : e.Executes p) (sink : Sink τ) (tape : Tape) (o : τ)
    (x y : Array UInt8) :
    Course.Outlasts x y (e.course (memory sink) tape ((.ofBytes x, o), #[]))
      (e.course (memory sink) tape ((.ofBytes (x ++ y), o), #[])) := by
  have hstays := e.course_stays (memory sink) tape ((.ofBytes x, o), #[])
  have hstays' := e.course_stays (memory sink) tape ((.ofBytes (x ++ y), o), #[])
  by_cases hl : tape.length = p.tapeLength
  · obtain ⟨t, ht⟩ | hcrash := he.tracks h hl
    · have hgrows := course_grows e.step (Cursor.source.beside sink) (e.start tape)
        ((.ofBytes (x ++ y), o), #[])
      apply Course.Outlasts.of_tracks (ht _ _ _) hstays (ht _ _ _) hstays' hgrows 4
      intro n hn
      obtain ⟨bound, rfl⟩ := Nat.exists_eq_add_of_le' hn
      have hw : Within x ((.ofBytes x, o), #[⟨.canPeek, true⟩]) := ⟨rfl, Nat.zero_le _⟩
      exact (t.outlasts sink y bound tape hw).conclude sink
    · exact .of_ends hstays (hcrash _ _ _) (hcrash _ _ _) (fun _ h => nomatch h)
  · exact .of_ends hstays (he.ends_of_mismatch hl _ _) (he.ends_of_mismatch hl _ _)
      (fun _ h => nomatch h)

/-- A program that echoes its input until it reads a zero, compiled: what follows the zero makes no
difference. -/
theorem depends_on_consumed_echo :
    ∃ (p : Program) (r : Routine), parse ",[.,]" .standard = .ok p ∧
      Routine.compile p .standard = .ok r ∧
      Course.Outlasts #[104, 0] #[105]
        ((Engine.routine r).course (memory collecting) (.blank 30000 (by decide))
          ((.ofBytes #[104, 0], #[]), #[]))
        ((Engine.routine r).course (memory collecting) (.blank 30000 (by decide))
          ((.ofBytes #[104, 0, 105], #[]), #[])) := by
  obtain ⟨p, r, hp, hr, he⟩ := Engine.Executes.exists_echo
  exact ⟨p, r, hp, hr, depends_on_consumed hp he collecting _ #[] #[104, 0] #[105]⟩

end TapeLang
