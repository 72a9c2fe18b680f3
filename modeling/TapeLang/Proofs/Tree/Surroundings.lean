import TapeLang.Proofs.Tree.Simulation

/-!
# One tree in two surroundings

A tree beside two devices that answer alike does the same in both, up to the positions of its reads.
How a transfer comes about may differ: one input can be looked at and another not.

* `Tree.relocate`: a tree from another place of the text.
* `Passage.Matches`: two passages are alike, in surroundings that are related.
* `Transfer.matches_perform`: devices that give the same replies lead to the same transfers.
* `Tree.matches_exec`: if all transfers match, so does all that a tree does.
* `Tree.leaves_exec`: what every request keeps is kept by a tree.
-/

namespace TapeLang

/-! ## Other positions -/

/-- The error of a read that stands elsewhere in the text. -/
def RunError.relocate (f : Position → Position) : RunError → RunError
  | .inputExhausted position => .inputExhausted (position.map f)
  | .tapeMismatch expected actual => .tapeMismatch expected actual
  | .stream failure => .stream failure

@[simp] theorem RunError.relocate_id (e : RunError) : e.relocate id = e := by
  cases e <;> simp [relocate]

def Ending.relocate (f : Position → Position) : Ending → Ending
  | ⟨.failed e, tape⟩ => ⟨.failed (e.relocate f), tape⟩
  | ending => ending

@[simp] theorem Ending.relocate_id (ending : Ending) : ending.relocate id = ending := by
  obtain ⟨verdict, tape⟩ := ending
  cases verdict <;> simp [relocate]

def Transfer.Next.relocate (f : Position → Position) : Next → Next
  | .done (.failed e) => .done (.failed (e.relocate f))
  | next => next

/-- The position of a read matters only for its error. -/
theorem Transfer.resume_map (f : Position → Position) (canPeek : Bool)
    (position : Option Position) (t : Transfer) (reply : t.request.Reply) :
    t.resume canPeek (position.map f) reply = (t.resume canPeek position reply).relocate f := by
  cases t with
  | prompt => cases reply <;> rfl
  | look =>
    cases reply with
    | error e => rfl
    | ok a => cases a <;> rfl
  | wait => rfl
  | take =>
    cases reply with
    | error e => rfl
    | ok byte => cases byte <;> rfl
  | offer byte =>
    cases reply with
    | ok taken => cases taken <;> rfl
    | error e =>
      simp only [resume]
      split <;> rfl

def Tree.relocate (f : Position → Position) : Tree → Tree
  | nil => nil
  | command c position rest => command c (position.map f) (rest.relocate f)
  | loop opening closing body rest =>
    loop (opening.map f) (closing.map f) (body.relocate f) (rest.relocate f)

@[simp] theorem Tree.relocate_id (t : Tree) : t.relocate id = t := by
  induction t with
  | nil => rfl
  | command c position rest ih => simp [relocate, ih]
  | loop opening closing body rest ihb ihr => simp [relocate, ihb, ihr]

theorem Tree.relocate_append (f : Position → Position) (t u : Tree) :
    (t ++ u).relocate f = t.relocate f ++ u.relocate f := by
  induction t with
  | nil => rfl
  | command c position rest ih => simp only [command_append, relocate, ih]
  | loop opening closing body rest _ ih => simp only [loop_append, relocate, ih]

/-! ## Passages that match -/

variable {σ τ : Type} {f : Position → Position} {r : σ → τ → Prop}

/-- The second passage leads to where the first does, in related surroundings and with the positions
of the errors moved by `f`. -/
inductive Passage.Matches (f : Position → Position) (r : σ → τ → Prop) :
    Passage σ → Passage τ → Prop
  | through {tape : Tape} {w : σ} {w' : τ} : r w w' →
    Matches f r (.through tape w) (.through tape w')
  | stopped {e : RunError} {tape : Tape} {w : σ} {w' : τ} : r w w' →
    Matches f r (.stopped e tape w) (.stopped (e.relocate f) tape w')
  | unfinished {w : σ} {w' : τ} : r w w' → Matches f r (.unfinished w) (.unfinished w')

theorem Passage.Matches.andThen {p : Passage σ} {p' : Passage τ} {g : Tape → σ → Passage σ}
    {g' : Tape → τ → Passage τ} (h : Matches f r p p')
    (hg : ∀ tape w w', r w w' → Matches f r (g tape w) (g' tape w')) :
    Matches f r (p.andThen g) (p'.andThen g') := by
  cases h with
  | through hw => exact hg _ _ _ hw
  | stopped hw => exact .stopped hw
  | unfinished hw => exact .unfinished hw

/-- The same transfer in related surroundings. -/
theorem Passage.matches_ofTransfer (tape : Tape) (outcome : Transfer.Outcome) {w : σ} {w' : τ}
    (hw : r w w') : Matches id r (.ofTransfer tape (.halted outcome w))
      (.ofTransfer tape (.halted outcome w')) := by
  cases outcome with
  | received byte => exact .through hw
  | sent => exact .through hw
  | failed e =>
    have hstopped : Matches id r (.stopped e tape w) (.stopped (e.relocate id) tape w') :=
      .stopped hw
    rwa [RunError.relocate_id] at hstopped

theorem matches_whileNonzero {g : Tape → σ → Passage σ} {g' : Tape → τ → Passage τ}
    (hg : ∀ tape w w', r w w' → Passage.Matches f r (g tape w) (g' tape w')) (rounds : Nat)
    (tape : Tape) {w : σ} {w' : τ} (hw : r w w') :
    Passage.Matches f r (whileNonzero g rounds tape w) (whileNonzero g' rounds tape w') := by
  induction rounds generalizing tape w w' with
  | zero => exact .unfinished hw
  | succ rounds ih =>
    unfold whileNonzero
    split
    · exact .through hw
    · exact (hg tape w w' hw).andThen fun tape w w' hw => ih tape hw

/-! ## Transfers that match -/

namespace Transfer

variable {d : Device byteStream σ} {canPeek : Bool} {position : Option Position} {tape : Tape}
  {t t' : Transfer} {w : σ}

theorem perform_of_stage (h : t.resume canPeek position (d t.request w).1 = .stage t')
    (bound : Nat) : t.perform d canPeek (bound + 1) position tape w =
      t'.perform d canPeek bound position tape (d t.request w).2 := by
  rw [perform, run_ask (show Next.step canPeek position (.stage t) = _ from rfl), h, perform]

theorem perform_of_done {outcome : Outcome}
    (h : t.resume canPeek position (d t.request w).1 = .done outcome) (bound : Nat) :
    t.perform d canPeek (bound + 2) position tape w =
      .ofTransfer tape (.halted outcome (d t.request w).2) := by
  rw [perform, run_ask (show Next.step canPeek position (.stage t) = _ from rfl), h]
  rfl

/-- The bound has been used up by the last request. -/
theorem perform_one : t.perform d canPeek 1 position tape w = .unfinished (d t.request w).2 := by
  rw [perform, run_ask (show Next.step canPeek position (.stage t) = _ from rfl)]
  rfl

end Transfer

/-- Whether the input can be looked at matters only for reads. -/
theorem Transfer.resume_congr {t : Transfer} {canPeek canPeek' : Bool}
    (h : t.isRead = true → canPeek = canPeek') (position : Option Position)
    (reply : t.request.Reply) :
    t.resume canPeek position reply = t.resume canPeek' position reply := by
  cases t with
  | prompt | look | wait | take => rw [h rfl]
  | offer byte =>
    cases reply with
    | ok taken => cases taken <;> rfl
    | error e => rfl

/-- Devices that give the same replies to the requests of a transfer let it go the same way. -/
theorem Transfer.matches_perform {d : Device byteStream σ} {d' : Device byteStream τ}
    {isRead : Bool}
    (h : ∀ t : Transfer, t.isRead = isRead → ∀ w w', r w w' →
      (d t.request w).1 = (d' t.request w').1 ∧ r (d t.request w).2 (d' t.request w').2)
    {canPeek canPeek' : Bool} (hc : isRead = true → canPeek = canPeek') (bound : Nat)
    (position : Option Position) (tape : Tape) {t : Transfer} (ht : t.isRead = isRead) {w : σ}
    {w' : τ} (hw : r w w') :
    Passage.Matches f r (t.perform d canPeek bound position tape w)
      (t.perform d' canPeek' bound (position.map f) tape w') := by
  induction bound generalizing t w w' with
  | zero => exact .unfinished hw
  | succ bound ih =>
    obtain ⟨hreply, hnext⟩ := h t ht w w' hw
    have hresume : t.resume canPeek' (position.map f) (d' t.request w').1 =
        (t.resume canPeek position (d t.request w).1).relocate f := by
      rw [← hreply, ← resume_congr (fun hr => hc (ht.symm.trans hr)), resume_map]
    have hfits := t.fits_resume canPeek position (d t.request w).1
    cases hres : t.resume canPeek position (d t.request w).1 with
    | stage t' =>
      rw [hres] at hresume hfits
      rw [perform_of_stage hres, perform_of_stage hresume]
      exact ih (hfits.trans ht) hnext
    | done outcome =>
      rw [hres] at hresume
      cases bound with
      | zero =>
        rw [perform_one, perform_one]
        exact .unfinished hnext
      | succ bound =>
        rw [perform_of_done hres]
        cases outcome with
        | received byte => exact perform_of_done hresume bound ▸ .through hnext
        | sent => exact perform_of_done hresume bound ▸ .through hnext
        | failed e => exact perform_of_done hresume bound ▸ .stopped hnext

/-- Reads and writes beside one device match those beside the other. A read needs four requests at
most if it never has to wait. -/
structure TransfersMatch (f : Position → Position) (r : σ → τ → Prop) (d : Device byteStream σ)
    (canPeek : Bool) (d' : Device byteStream τ) (canPeek' : Bool) : Prop where
  read : ∀ (bound : Nat) (position : Option Position) (tape : Tape) (w : σ) (w' : τ), r w w' →
    Passage.Matches f r (Transfer.prompt.perform d canPeek (bound + 4) position tape w)
      (Transfer.prompt.perform d' canPeek' (bound + 4) (position.map f) tape w')
  write : ∀ (bound : Nat) (byte : UInt8) (position : Option Position) (tape : Tape) (w : σ)
    (w' : τ), r w w' →
    Passage.Matches f r ((Transfer.offer byte).perform d canPeek (bound + 4) position tape w)
      ((Transfer.offer byte).perform d' canPeek' (bound + 4) (position.map f) tape w')

namespace TransfersMatch

variable {d : Device byteStream σ} {d' : Device byteStream τ} {canPeek canPeek' : Bool}

/-- Devices that answer every request alike. -/
theorem of_requests (h : ∀ request w w', r w w' →
      (d request w).1 = (d' request w').1 ∧ r (d request w).2 (d' request w').2) :
    TransfersMatch f r d canPeek d' canPeek where
  read bound position tape _ _ hw :=
    Transfer.matches_perform (fun t _ => h t.request) (fun _ => rfl) (bound + 4) position tape rfl hw
  write bound _ position tape _ _ hw :=
    Transfer.matches_perform (fun t _ => h t.request) (fun _ => rfl) (bound + 4) position tape rfl hw

theorem command (h : TransfersMatch f r d canPeek d' canPeek') (c : Command) (bound : Nat)
    (position : Option Position) (tape : Tape) {w : σ} {w' : τ} (hw : r w w') :
    Passage.Matches f r (c.exec d canPeek (bound + 4) position tape w)
      (c.exec d' canPeek' (bound + 4) (position.map f) tape w') := by
  cases c with
  | move n | add n | reset => exact .through hw
  | read => exact h.read bound position tape w w' hw
  | write => exact h.write bound tape.get position tape w w' hw

end TransfersMatch

/-- If all transfers match, so does all that a tree does. -/
theorem Tree.matches_exec {d : Device byteStream σ} {d' : Device byteStream τ}
    {canPeek canPeek' : Bool} (h : TransfersMatch f r d canPeek d' canPeek') (t : Tree)
    (bound : Nat) (tape : Tape) {w : σ} {w' : τ} (hw : r w w') :
    Passage.Matches f r (t.exec d canPeek (bound + 4) tape w)
      ((t.relocate f).exec d' canPeek' (bound + 4) tape w') := by
  induction t generalizing tape w w' with
  | nil => exact .through hw
  | command c position rest ih =>
    exact (h.command c bound position tape hw).andThen fun tape w w' hw => ih tape hw
  | loop opening closing body rest ihb ihr =>
    refine (matches_whileNonzero ?_ _ tape hw).andThen fun tape w w' hw => ihr tape hw
    intro tape w w' hw
    exact ihb tape hw

/-- Matching passages are concluded alike if the last flush is answered alike. -/
theorem Tree.matches_conclude {d : Device byteStream σ} {d' : Device byteStream τ}
    (hf : ∀ w w', r w w' → (d .flush w).1 = (d' .flush w').1 ∧ r (d .flush w).2 (d' .flush w').2)
    {p : Passage σ} {p' : Passage τ} (h : Passage.Matches f r p p') :
    (conclude d' p').1 = (conclude d p).1.map (Ending.relocate f) ∧
      r (conclude d p).2 (conclude d' p').2 := by
  cases h with
  | @through tape w w' hw =>
    obtain ⟨hreply, hnext⟩ := hf w w' hw
    refine ⟨?_, hnext⟩
    simp only [conclude, hreply]
    cases (d' .flush w').1 <;> rfl
  | stopped hw => exact ⟨rfl, hw⟩
  | unfinished hw => exact ⟨rfl, hw⟩

/-! ## What every request keeps -/

/-- The surroundings behind a passage satisfy `P`. -/
def Passage.Leaves (P : σ → Prop) : Passage σ → Prop
  | through _ w => P w
  | stopped _ _ w => P w
  | unfinished w => P w

section Leaves

variable {P : σ → Prop} {d : Device byteStream σ} {canPeek : Bool} {bound : Nat}

theorem Passage.Leaves.andThen {p : Passage σ} {next : Tape → σ → Passage σ} (h : p.Leaves P)
    (hn : ∀ tape w, P w → (next tape w).Leaves P) : (p.andThen next).Leaves P := by
  cases p with
  | through tape w => exact hn tape w h
  | stopped e tape w => exact h
  | unfinished w => exact h

theorem leaves_whileNonzero {body : Tape → σ → Passage σ}
    (hb : ∀ tape w, P w → (body tape w).Leaves P) (rounds : Nat) (tape : Tape) {w : σ}
    (hw : P w) : (whileNonzero body rounds tape w).Leaves P := by
  induction rounds generalizing tape w with
  | zero => exact hw
  | succ rounds ih =>
    unfold whileNonzero
    split
    · exact hw
    · exact (hb tape w hw).andThen fun tape w hw => ih tape hw

variable (hd : ∀ request w, P w → P (d request w).2)
include hd

theorem Transfer.leaves_perform (position : Option Position) (t : Transfer) (tape : Tape) {w : σ}
    (hw : P w) : (t.perform d canPeek bound position tape w).Leaves P := by
  have h := run_relates (r := fun w w' => P w → P w') (Next.step canPeek position) d (.stage t)
    (fun _ hw => hw) (fun h h' hw => h' (h hw)) hd bound w hw
  rw [perform]
  generalize run (Next.step canPeek position) d bound (.stage t) w = progress at h
  cases progress with
  | running next w => exact h
  | halted outcome w => cases outcome <;> exact h

/-- What every request keeps is kept by a tree. -/
theorem Tree.leaves_exec (t : Tree) (tape : Tape) {w : σ} (hw : P w) :
    (t.exec d canPeek bound tape w).Leaves P := by
  induction t generalizing tape w with
  | nil => exact hw
  | command c position rest ih =>
    refine Passage.Leaves.andThen ?_ fun tape w hw => ih tape hw
    cases c with
    | move n | add n | reset => exact hw
    | read | write => exact Transfer.leaves_perform hd position _ tape hw
  | loop opening closing body rest ihb ihr =>
    exact (leaves_whileNonzero (fun tape w hw => ihb tape hw) bound tape hw).andThen
      fun tape w hw => ihr tape hw

theorem Tree.leaves_conclude {p : Passage σ} (h : p.Leaves P) : P (conclude d p).2 := by
  cases p with
  | through tape w => exact hd .flush w h
  | stopped e tape w => exact h
  | unfinished w => exact h

end Leaves

end TapeLang
