import TapeLang.Proofs.Streams.Protocol
import TapeLang.Proofs.Trace

/-!
# Machines that run programs

What a machine has to do so that its streams see of it what they should, be it the interpreter or a
compiled routine. It is said of the states of a run one by one.

* `Phase`, `View`: what there is to see of a state.
* `Conducts`: how the phases follow one another.
* `Conducts.session`: then the streams see a session.
* `KeepsProtocol`: what that means for all runs.
* `Retraces`: the streams see the same of two machines.
-/

namespace TapeLang

/-- What a machine that runs a program is at. It may have decided how to end before it does. -/
inductive Phase where
  | opening
  | working (canPeek : Bool)
  | calling (canPeek : Bool) (call : Call) (stage : Transfer)
  | decided (verdict : Verdict)

/-- What there is to see of the states of a machine: the instruction that uses the streams, if one
is executed next, the tape, and the index of the current instruction. -/
structure View (S : Type) where
  phase : S → Phase
  call? : S → Option Call
  tape : S → Tape
  index : S → Nat

/-- The states that a run gets to. -/
def Reached {I : Interface} {S R σ : Type} (step : S → Action I S R) (d : Device I σ) (s : S)
    (w : σ) (s' : S) : Prop :=
  ∃ n w', Reaches step d n s w s' w'

section

variable {S : Type} (p : Program) (step : S → Action byteStream S Ending) (v : View S)

/-- At work, a machine moves on, comes to an instruction that uses the streams, or to the end. -/
inductive Works (canPeek : Bool) (s : S) : Prop
  | moves {s' : S} : step s = .next s' → v.call? s = none → v.phase s' = .working canPeek →
    Works canPeek s
  | calls {s' : S} {call : Call} : step s = .next s' → v.call? s = some call →
    v.phase s' = .calling canPeek call call.first → Works canPeek s
  | ends {resume : Except Failure Unit → S} : step s = .ask .flush resume → v.call? s = none →
    (∀ reply, step (resume reply) = .halt (Tree.flushed (v.tape s) reply) ∧
      v.phase (resume reply) = .decided (Tree.flushed (v.tape s) reply).verdict) →
    Works canPeek s

/-- The phase after a reply. -/
def Phase.after (canPeek : Bool) (call : Call) : Transfer.Next → Phase
  | .stage t => .calling canPeek call t
  | .done (.failed e) => .decided (.failed e)
  | .done _ => .working canPeek

/-- The machine asks whether the input can be looked at, works, carries out transfers as their
stages say, and asks for nothing more once its end is decided. The states of a run are `Good`. -/
structure Conducts (Good : S → Prop) : Prop where
  opening : ∀ s, Good s → v.phase s = .opening →
    v.call? s = none ∧ ∃ resume, step s = .ask .canPeek resume ∧
      ∀ canPeek, v.phase (resume canPeek) = .working canPeek ∨
        ∃ c, v.phase (resume canPeek) = .decided (.crashed c)
  working : ∀ s canPeek, Good s → v.phase s = .working canPeek → Works step v canPeek s
  calling : ∀ s canPeek call t, Good s → v.phase s = .calling canPeek call t →
    v.call? s = none ∧ ∃ resume, step s = .ask t.request resume ∧
      ∀ reply, v.phase (resume reply) =
        .after canPeek call (t.resume canPeek call.position reply)
  decided : ∀ s verdict, Good s → v.phase s = .decided verdict →
    v.call? s = none ∧ ((∃ s', step s = .next s' ∧ v.phase s' = .decided verdict) ∨
      ∃ ending, step s = .halt ending ∧ ending.verdict = verdict)
  /-- A failure leaves the tape alone. -/
  failed : ∀ s canPeek call t resume reply e, Good s → v.phase s = .calling canPeek call t →
    step s = .ask t.request resume →
    t.resume canPeek call.position reply = .done (.failed e) →
    ∀ (σ : Type) (d : Device byteStream σ) (w : σ),
      (course step d (resume reply) w).Ends ⟨.failed e, v.tape s⟩ w
  /-- A transfer is for the current instruction. -/
  reads : ∀ s canPeek position t, Good s → v.phase s = .calling canPeek (.read position) t →
    p.instructions[v.index s]? = some ⟨.read, position⟩
  kind : ∀ s canPeek call t, Good s → v.phase s = .calling canPeek call t →
    t.isRead → ∃ position, call = .read position
  /-- Only an interrupted offer is repeated. -/
  retries : ∀ s byte resume f, Good s → step s = .ask (.put byte) resume →
    f.kind = .interrupted → resume (.error f) = s

end

/-! ## Sessions -/

/-- What has been executed and what the streams have seen of it, up to a phase. -/
def Records : Phase → List Call → List (Event byteStream) → Prop
  | .opening, calls, log => calls = [] ∧ log = []
  | .working canPeek, calls, log =>
    ∃ rest, log = ⟨.canPeek, canPeek⟩ :: rest ∧ Calls canPeek calls rest
  | .calling canPeek call t, calls, log =>
    ∃ before rest part, calls = before ++ [call] ∧ log = ⟨.canPeek, canPeek⟩ :: (rest ++ part) ∧
      Calls canPeek before rest ∧ Upto canPeek call t part
  | .decided verdict, calls, log => Session calls log (some verdict)

theorem Records.exists_session {phase : Phase} {calls : List Call} {log : List (Event byteStream)}
    (h : Records phase calls log) :
    ∃ verdict, Session calls log verdict ∧ ∀ v, phase = .decided v → verdict = some v := by
  cases phase with
  | opening =>
    obtain ⟨rfl, rfl⟩ := h
    exact ⟨none, .unopened, nofun⟩
  | working canPeek =>
    obtain ⟨rest, rfl, hcalls⟩ := h
    exact ⟨none, .between hcalls, nofun⟩
  | calling canPeek call t =>
    obtain ⟨before, rest, part, rfl, rfl, hcalls, hpart⟩ := h
    exact ⟨none, .begun hcalls hpart.begun, nofun⟩
  | decided verdict =>
    refine ⟨some verdict, h, ?_⟩
    rintro v hv
    cases hv
    rfl

namespace Conducts

variable {S σ : Type} {p : Program} {step : S → Action byteStream S Ending} {v : View S}
  {Good : S → Prop} {s s' : S}

/-- The end of a run is decided before it comes. -/
theorem phase_of_halt (h : Conducts p step v Good) (hs : Good s) {ending : Ending}
    (he : step s = .halt ending) : v.phase s = .decided ending.verdict := by
  cases hp : v.phase s with
  | opening =>
    obtain ⟨-, resume, hask, -⟩ := h.opening s hs hp
    cases hask.symm.trans he
  | working canPeek =>
    cases h.working s canPeek hs hp with
    | moves hn => cases hn.symm.trans he
    | calls hn => cases hn.symm.trans he
    | ends hask => cases hask.symm.trans he
  | calling canPeek call t =>
    obtain ⟨-, resume, hask, -⟩ := h.calling s canPeek call t hs hp
    cases hask.symm.trans he
  | decided verdict =>
    obtain ⟨-, ⟨s', hn, -⟩ | ⟨ending', hhalt, rfl⟩⟩ := h.decided s verdict hs hp
    · cases hn.symm.trans he
    · cases hhalt.symm.trans he
      rfl

/-- Each action does to the records what its phase says. -/
theorem records (h : Conducts p step v Good) (hs : Good s) {d : Device byteStream σ} {w : σ}
    {u : σ × Array (Event byteStream)} {es : Array (Event byteStream)} {calls : List Call}
    (hr : Records (v.phase s) calls es.toList) (ha : Acts step d.logged s (w, es) s' u) :
    Records (v.phase s') (calls ++ (v.call? s).toList) u.2.toList := by
  cases hp : v.phase s with
  | opening =>
    rw [hp] at hr
    obtain ⟨rfl, hlog⟩ := hr
    obtain ⟨hcall, resume, hask, hnext⟩ := h.opening s hs hp
    obtain ⟨rfl, rfl⟩ := ha.eq_ask hask
    simp only [Device.logged, Array.toList_push, hlog, hcall]
    rcases hnext (d .canPeek w).1 with hw | ⟨c, hc⟩
    · rw [hw]
      exact ⟨[], rfl, .nil⟩
    · rw [hc]
      exact .crashed
  | working canPeek =>
    rw [hp] at hr
    obtain ⟨rest, hlog, hcalls⟩ := hr
    cases h.working s canPeek hs hp with
    | moves hn hcall hnext =>
      obtain ⟨rfl, rfl⟩ := ha.eq_next hn
      rw [hnext, hcall]
      exact ⟨rest, hlog, by simpa using hcalls⟩
    | @calls _ call hn hcall hnext =>
      obtain ⟨rfl, rfl⟩ := ha.eq_next hn
      rw [hnext, hcall]
      exact ⟨calls, rest, [], rfl, by simpa using hlog, hcalls, .first canPeek call⟩
    | ends hask hcall hend =>
      obtain ⟨rfl, rfl⟩ := ha.eq_ask hask
      simp only [Device.logged, Array.toList_push, hlog, hcall, Option.toList_none,
        List.append_nil, (hend _).2]
      cases (d .flush w).1 with
      | ok => exact .finished hcalls
      | error f => exact .unflushed hcalls
  | calling canPeek call t =>
    rw [hp] at hr
    obtain ⟨before, rest, part, rfl, hlog, hcalls, hpart⟩ := hr
    obtain ⟨hcall, resume, hask, hnext⟩ := h.calling s canPeek call t hs hp
    obtain ⟨rfl, rfl⟩ := ha.eq_ask hask
    have hafter := hpart.after (d t.request w).1
    simp only [Device.logged, Array.toList_push, hlog, hcall, Option.toList_none,
      List.append_nil, hnext, List.cons_append, List.append_assoc]
    cases hres : t.resume canPeek call.position (d t.request w).1 with
    | stage t' =>
      rw [hres] at hafter
      exact ⟨before, rest, _, rfl, rfl, hcalls, hafter⟩
    | done outcome =>
      rw [hres] at hafter
      cases outcome with
      | received byte => exact ⟨_, rfl, .concat hcalls hafter⟩
      | sent => exact ⟨_, rfl, .concat hcalls hafter⟩
      | failed e => exact .failed hcalls hafter
  | decided verdict =>
    rw [hp] at hr
    obtain ⟨hcall, ⟨t, hn, hnext⟩ | ⟨ending, hhalt, -⟩⟩ := h.decided s verdict hs hp
    · obtain ⟨rfl, rfl⟩ := ha.eq_next hn
      rw [hnext, hcall, Option.toList_none, List.append_nil]
      exact hr
    · exact absurd hhalt ha.step_ne_halt

/-- The streams see a session of a run, at any time. -/
theorem session {d : Device byteStream σ} {w w' : σ} {s₀ : S} {n : Nat}
    {es : Array (Event byteStream)}
    (h : Conducts p step v (Reached step d.logged s₀ (w, #[]))) (h₀ : v.phase s₀ = .opening)
    (hr : Reaches step d.logged n s₀ (w, #[]) s (w', es)) :
    ∃ verdict, Session (observe v.call? step d.logged n s₀ (w, #[])) es.toList verdict ∧
      ∀ ending, step s = .halt ending → verdict = some ending.verdict := by
  have hrecords : Records (v.phase s) (observe v.call? step d.logged n s₀ (w, #[])) es.toList := by
    refine Reaches.keeps_observed (P := fun s u calls => Records (v.phase s) calls u.2.toList)
      ?_ ?_ hr
    · rw [h₀]
      exact ⟨rfl, rfl⟩
    · intro n t u t' u' calls hreach hrec hact
      exact h.records ⟨n, u, hreach⟩ hrec hact
  obtain ⟨verdict, hsession, hverdict⟩ := hrecords.exists_session
  refine ⟨verdict, hsession, ?_⟩
  intro ending he
  exact hverdict _ (h.phase_of_halt ⟨n, _, hr⟩ he)

end Conducts

/-! ## The protocol -/

/-- A machine that runs `p` keeps the protocol of its streams in all runs and at any time of them.
`call?` says what a state executes of the program, as far as the streams are concerned. -/
structure KeepsProtocol {S : Type} (p : Program) (step : S → Action byteStream S Ending)
    (start : Tape → S) (call? : S → Option Call) : Prop where
  /-- The events are those of what has been executed, and the session is over when the run is. -/
  session : ∀ {σ : Type} (d : Device byteStream σ) (t : Tape) (w w' : σ) (n : Nat) (s : S)
    (es : Array (Event byteStream)), t.length = p.tapeLength →
    Reaches step d.logged n (start t) (w, #[]) s (w', es) →
    ∃ verdict, Session (observe call? step d.logged n (start t) (w, #[])) es.toList verdict ∧
      ∀ ending, step s = .halt ending → verdict = some ending.verdict
  /-- When the input is looked at or read, all output has been flushed. -/
  prompted : ∀ {σ : Type} (d : Device byteStream σ) (t : Tape) (w w' : σ) (n : Nat) (s : S)
    (es : Array (Event byteStream)), t.length = p.tapeLength →
    Reaches step d.logged n (start t) (w, #[]) s (w', es) → Prompted es.toList
  /-- At a good end all output has been flushed. -/
  flushed : ∀ {σ : Type} (d : Device byteStream σ) (t : Tape) (w w' : σ) (n : Nat) (s : S)
    (es : Array (Event byteStream)), t.length = p.tapeLength →
    Reaches step d.logged n (start t) (w, #[]) s (w', es) →
    ∀ ending, step s = .halt ending → ending.verdict = .finished → Flushed es.toList

/-- What the streams have seen by some time of a machine that runs `p`, they see by some time of
another. -/
def Retraces {S S' : Type} (p : Program) (step : S → Action byteStream S Ending) (start : Tape → S)
    (step' : S' → Action byteStream S' Ending) (start' : Tape → S') : Prop :=
  ∀ (σ : Type) (d : Device byteStream σ) (t : Tape) (w w₁ : σ) (n : Nat) (s : S)
    (es : Array (Event byteStream)), t.length = p.tapeLength →
    Reaches step d.logged n (start t) (w, #[]) s (w₁, es) →
    ∃ m s' w₂, Reaches step' d.logged m (start' t) (w, #[]) s' (w₂, es)

/-- Machines that conduct their transfers keep the protocol. -/
theorem Conducts.keepsProtocol {S : Type} {p : Program} {step : S → Action byteStream S Ending}
    {v : View S} {start : Tape → S} (h₀ : ∀ t, v.phase (start t) = .opening)
    (h : ∀ {σ : Type} (d : Device byteStream σ) (t : Tape) (w : σ), t.length = p.tapeLength →
      Conducts p step v (Reached step d.logged (start t) (w, #[]))) :
    KeepsProtocol p step start v.call? where
  session d t w w' n s es ht hr := (h d t w ht).session (h₀ t) hr
  prompted d t w w' n s es ht hr := by
    obtain ⟨verdict, hsession, -⟩ := (h d t w ht).session (h₀ t) hr
    exact hsession.prompted
  flushed d t w w' n s es ht hr ending he hf := by
    obtain ⟨verdict, hsession, hverdict⟩ := (h d t w ht).session (h₀ t) hr
    obtain rfl := hverdict ending he
    rw [hf] at hsession
    exact hsession.flushed

end TapeLang
