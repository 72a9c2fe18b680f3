import TapeLang.Proofs.Streams.Engine

/-!
# Requests that fail

Which replies are faults, and what a machine does about them: it makes no further request, ends with
just that error, and leaves the tape as it was before the request.

* `fault?`: the error of a reply, if it is one that ends a run.
* `StopsAtFaults`: a machine stops right there.
* `Conducts.Asks`: where a machine makes requests.
* `Conducts.stopsAtFaults`: machines that conduct their transfers stop at faults.
-/

namespace TapeLang

/-- The error that ends a run after this reply to a request. All failures do but that of an offer
that was interrupted, and so do the end of the input and an offer that was not taken. `position` is
that of the read. -/
def fault? (position : Option Position) : (request : ByteRequest) → request.Reply → Option RunError
  | .flush, .error f => some (.stream f)
  | .peek, .error f => some (.stream f)
  | .next, .error f => some (.stream f)
  | .next, .ok none => some (.inputExhausted position)
  | .put _, .error f => if f.kind = .interrupted then none else some (.stream f)
  | .put _, .ok false => some (.stream .nothingWritten)
  | _, _ => none

/-- Only at the end of the input the position matters. -/
theorem fault?_congr {request : ByteRequest} (h : request ≠ .next)
    (position position' : Option Position) (reply : request.Reply) :
    fault? position request reply = fault? position' request reply := by
  cases request with
  | next => exact absurd rfl h
  | canPeek | pause => rfl
  | peek | flush => cases reply <;> rfl
  | put byte =>
    cases reply with
    | error f => rfl
    | ok taken => cases taken <;> rfl

/-- A transfer fails at faults. -/
theorem Transfer.resume_of_fault {t : Transfer} {position : Option Position}
    {reply : t.request.Reply} {e : RunError} (h : fault? position t.request reply = some e)
    (canPeek : Bool) : t.resume canPeek position reply = .done (.failed e) := by
  cases t with
  | prompt =>
    cases reply with
    | ok => cases h
    | error f =>
      cases h
      rfl
  | look =>
    cases reply with
    | ok a => cases h
    | error f =>
      cases h
      rfl
  | wait => cases h
  | take =>
    cases reply with
    | ok byte =>
      cases byte with
      | none =>
        cases h
        rfl
      | some byte => cases h
    | error f =>
      cases h
      rfl
  | offer byte =>
    cases reply with
    | ok taken =>
      cases taken with
      | true => cases h
      | false =>
        cases h
        rfl
    | error f =>
      rw [fault?] at h
      split at h
      case isTrue => cases h
      case isFalse hk =>
        cases h
        rw [Transfer.resume, if_neg hk]

/-- The last flush fails at faults. -/
theorem Tree.flushed_of_fault {position : Option Position} {reply : Except Failure Unit}
    {e : RunError} (h : fault? position .flush reply = some e) (tape : Tape) :
    Tree.flushed tape reply = ⟨.failed e, tape⟩ := by
  cases reply with
  | ok => cases h
  | error f =>
    cases h
    rfl

/-! ## Machines -/

/-- A machine that runs `p`, where `tape` is the tape of a state and `index` says which instruction
is executed, stops at faults. -/
structure StopsAtFaults {S : Type} (p : Program) (step : S → Action byteStream S Ending)
    (start : Tape → S) (tape : S → Tape) (index : S → Nat) : Prop where
  /-- The run ends with the error and makes no further request. Its tape is what it is before the
  request in any run with the same events so far. -/
  fault : ∀ {σ τ : Type} (d : Device byteStream σ) (d' : Device byteStream τ) (t : Tape) (w w₁ : σ)
    (u u₁ : τ) (es : Array (Event byteStream)) (s s' : S), t.length = p.tapeLength →
    AtRequest step d (start t) w es s w₁ → AtRequest step d' (start t) u es s' u₁ →
    ∀ request resume e, step s = .ask request resume →
      fault? (p.position? (index s)) request (d request w₁).1 = some e →
      (course step d.logged (start t) (w, #[])).Ends ⟨.failed e, tape s'⟩
        ((d request w₁).2, es.push ⟨request, (d request w₁).1⟩)
  /-- The end of the input is met by a read. -/
  reads : ∀ {σ : Type} (d : Device byteStream σ) (t : Tape) (w w₁ : σ)
    (es : Array (Event byteStream)) (s : S), t.length = p.tapeLength →
    AtRequest step d (start t) w es s w₁ → ∀ resume, step s = .ask .next resume →
      ∃ position, p.instructions[index s]? = some ⟨.read, position⟩
  /-- An offer that was interrupted is repeated. -/
  retries : ∀ {σ : Type} (d : Device byteStream σ) (t : Tape) (w w₁ : σ)
    (es : Array (Event byteStream)) (s : S), t.length = p.tapeLength →
    AtRequest step d (start t) w es s w₁ → ∀ byte resume f, step s = .ask (.put byte) resume →
      f.kind = .interrupted → resume (.error f) = s
  /-- A tape of another length is not used at all. -/
  mismatch : ∀ {σ : Type} (d : Device byteStream σ) (t : Tape) (w : σ), t.length ≠ p.tapeLength →
    (course step d.logged (start t) (w, #[])).Ends
      ⟨.failed (.tapeMismatch p.tapeLength t.length), t⟩ (w, #[])

namespace Conducts

variable {S σ : Type} {p : Program} {step : S → Action byteStream S Ending} {v : View S}
  {Good : S → Prop} {s : S}

/-- A machine that makes a request is at the opening, at the end of the program, or in a
transfer. -/
inductive Asks (step : S → Action byteStream S Ending) (v : View S) (s : S) : Prop
  | opening {resume : Bool → S} : step s = .ask .canPeek resume → Asks step v s
  | ending {resume : Except Failure Unit → S} : step s = .ask .flush resume →
    (∀ reply, step (resume reply) = .halt (Tree.flushed (v.tape s) reply)) → Asks step v s
  | calling {canPeek : Bool} {call : Call} {t : Transfer} {resume : t.request.Reply → S} :
    v.phase s = .calling canPeek call t → step s = .ask t.request resume → Asks step v s

theorem asks (h : Conducts p step v Good) (hs : Good s) {request : ByteRequest}
    {resume : request.Reply → S} (ha : step s = .ask request resume) : Asks step v s := by
  cases hp : v.phase s with
  | opening =>
    obtain ⟨-, _, hask, -⟩ := h.opening s hs hp
    exact .opening hask
  | working canPeek =>
    cases h.working s canPeek hs hp with
    | moves hn => cases hn.symm.trans ha
    | calls hn => cases hn.symm.trans ha
    | ends hask _ hend =>
      refine .ending hask ?_
      intro reply
      exact (hend reply).1
  | calling canPeek call t =>
    obtain ⟨-, _, hask, -⟩ := h.calling s canPeek call t hs hp
    exact .calling hp hask
  | decided verdict =>
    obtain ⟨-, ⟨_, hn, -⟩ | ⟨ending, hhalt, -⟩⟩ := h.decided s verdict hs hp
    · cases hn.symm.trans ha
    · cases hhalt.symm.trans ha

/-- A request that fails is the last one. -/
theorem ends_of_fault (h : Conducts p step v Good) (hs : Good s) {request : ByteRequest}
    {resume : request.Reply → S} {reply : request.Reply} {e : RunError}
    (ha : step s = .ask request resume)
    (hf : fault? (p.position? (v.index s)) request reply = some e) (d : Device byteStream σ)
    (w : σ) : (course step d (resume reply) w).Ends ⟨.failed e, v.tape s⟩ w := by
  cases h.asks hs ha with
  | opening hask =>
    cases hask.symm.trans ha
    cases hf
  | ending hask hend =>
    cases hask.symm.trans ha
    have hhalt := hend reply
    rw [Tree.flushed_of_fault hf] at hhalt
    exact ends_of_reaches (.refl _ w) hhalt
  | @calling canPeek call t _ hp hask =>
    cases hask.symm.trans ha
    refine h.failed s canPeek call t _ reply e hs hp ha (Transfer.resume_of_fault ?_ canPeek) σ d w
    rw [← hf]
    by_cases ht : t = .take
    · subst ht
      obtain ⟨position, rfl⟩ := h.kind s canPeek call _ hs hp rfl
      rw [Program.position?, h.reads s canPeek position _ hs hp]
      rfl
    · refine fault?_congr ?_ _ _ reply
      cases t with
      | take => exact absurd rfl ht
      | prompt | look | wait | offer =>
        intro heq
        cases heq

/-- Only a read takes a byte. -/
theorem exists_read (h : Conducts p step v Good) (hs : Good s)
    {resume : Except Failure (Option UInt8) → S} (ha : step s = .ask .next resume) :
    ∃ position, p.instructions[v.index s]? = some ⟨.read, position⟩ := by
  cases h.asks hs ha with
  | opening hask => cases hask.symm.trans ha
  | ending hask => cases hask.symm.trans ha
  | @calling canPeek call t _ hp hask =>
    cases t with
    | take =>
      obtain ⟨position, rfl⟩ := h.kind s canPeek call _ hs hp rfl
      exact ⟨position, h.reads s canPeek position _ hs hp⟩
    | prompt | look | wait | offer => cases hask.symm.trans ha

/-- Machines that conduct their transfers stop at faults. -/
theorem stopsAtFaults {start : Tape → S}
    (h : ∀ {σ : Type} (d : Device byteStream σ) (t : Tape) (w : σ), t.length = p.tapeLength →
      Conducts p step v (Reached step d.logged (start t) (w, #[])))
    (hm : ∀ t : Tape, t.length ≠ p.tapeLength →
      step (start t) = .halt ⟨.failed (.tapeMismatch p.tapeLength t.length), t⟩) :
    StopsAtFaults p step start v.tape v.index where
  fault d d' t w w₁ u u₁ es s s' ht hs hs' request resume e ha hf := by
    obtain rfl := hs.unique hs'
    obtain ⟨n, hn⟩ := hs.reached
    have hreached : Reached step d.logged (start t) (w, #[]) s := ⟨n, _, hn⟩
    exact (hn.trans (.ask ha)).ends ((h d t w ht).ends_of_fault hreached ha hf d.logged _)
  reads d t w w₁ es s ht hs resume ha := by
    obtain ⟨n, hn⟩ := hs.reached
    exact (h d t w ht).exists_read ⟨n, _, hn⟩ ha
  retries d t w w₁ es s ht hs byte resume f ha hk := by
    obtain ⟨n, hn⟩ := hs.reached
    exact (h d t w ht).retries s byte resume f ⟨n, _, hn⟩ ha hk
  mismatch d t w ht := ends_of_reaches (.refl _ _) (hm t ht)

end Conducts

end TapeLang
