import TapeLang.Proofs.Course

/-!
# Runs step by step

What is seen of a run on its way, and not only of where it leads.

* `observe`: what the states that a run has left show.
* `Reaches.keeps_observed`: what each action keeps holds throughout a run, of the states together
  with all that was observed.
* `guard`, `Reaches.satisfies`: if a machine that stops at the wrong states never does, then there
  are none.
* `Course.Agrees.exists_reaches`: what one of two machines that agree has had of events, the other
  has had.
* `AtRequest.unique`: the events up to a request determine the state that makes it.
-/

namespace TapeLang

variable {I : Interface} {S R σ τ α : Type}

section Step

variable {step : S → Action I S R} {d : Device I σ} {n : Nat} {s s' : S} {w w' : σ} {r : R}

/-! ## The last action -/

/-- By one action a machine gets from one state to another. -/
inductive Acts (step : S → Action I S R) (d : Device I σ) (s : S) (w : σ) : S → σ → Prop
  | next {s' : S} : step s = .next s' → Acts step d s w s' w
  | ask {request : I.Request} {resume : I.Reply request → S} : step s = .ask request resume →
    Acts step d s w (resume (d request w).1) (d request w).2

theorem exists_acts (d : Device I σ) (w : σ) (h : ∀ r, step s ≠ .halt r) :
    ∃ s' w', Acts step d s w s' w' := by
  cases hs : step s with
  | next s' => exact ⟨s', w, .next hs⟩
  | ask request resume => exact ⟨_, _, .ask hs⟩
  | halt r => exact absurd hs (h r)

namespace Acts

theorem eq_next {t : S} (h : Acts step d s w s' w') (hs : step s = .next t) : s' = t ∧ w' = w := by
  cases h with
  | next hs' =>
    cases hs.symm.trans hs'
    exact ⟨rfl, rfl⟩
  | ask hs' => cases hs.symm.trans hs'

theorem eq_ask {request : I.Request} {resume : I.Reply request → S} (h : Acts step d s w s' w')
    (hs : step s = .ask request resume) :
    s' = resume (d request w).1 ∧ w' = (d request w).2 := by
  cases h with
  | next hs' => cases hs.symm.trans hs'
  | ask hs' =>
    cases hs.symm.trans hs'
    exact ⟨rfl, rfl⟩

theorem step_ne_halt (h : Acts step d s w s' w') : step s ≠ .halt r := by
  intro hs
  cases h with
  | next hs' => cases hs.symm.trans hs'
  | ask hs' => cases hs.symm.trans hs'

end Acts

namespace Reaches

theorem of_next {t : S} (hs : step s = .next t) (h : Reaches step d (n + 1) s w s' w') :
    Reaches step d n t w s' w' := (run_next hs n w).symm.trans h

theorem of_ask {request : I.Request} {resume : I.Reply request → S}
    (hs : step s = .ask request resume) (h : Reaches step d (n + 1) s w s' w') :
    Reaches step d n (resume (d request w).1) (d request w).2 s' w' :=
  (run_ask hs n w).symm.trans h

theorem step_ne_halt (h : Reaches step d (n + 1) s w s' w') : step s ≠ .halt r := by
  intro hs
  rw [Reaches, run_halt hs] at h
  cases h

theorem acts (h : Reaches step d 1 s w s' w') : Acts step d s w s' w' := by
  cases hs : step s with
  | next t =>
    cases h.of_next hs
    exact .next hs
  | ask request resume =>
    cases h.of_ask hs
    exact .ask hs
  | halt r => exact absurd hs h.step_ne_halt

/-- A run is a shorter one and one more action. -/
theorem exists_last (h : Reaches step d (n + 1) s w s' w') :
    ∃ t u, Reaches step d n s w t u ∧ Acts step d t u s' w' := by
  cases hr : run step d n s w with
  | running t u =>
    have hfirst : Reaches step d n s w t u := hr
    have hlast := hfirst.sub h (Nat.le_succ n)
    rw [Nat.add_sub_cancel_left] at hlast
    exact ⟨t, u, hfirst, hlast.acts⟩
  | halted r u =>
    have hstays := run_of_halted hr 1
    rw [show run step d (n + 1) s w = _ from h] at hstays
    cases hstays

end Reaches

/-- The end of a course is where the machine halts. -/
theorem exists_reaches_of_ends (h : (course step d s w).Ends r w') :
    ∃ n t, Reaches step d n s w t w' ∧ step t = .halt r := by
  obtain ⟨n, hn⟩ := h
  induction n generalizing s w with
  | zero => cases hn
  | succ n ih =>
    rw [course] at hn
    cases hs : step s with
    | next t =>
      rw [run_next hs] at hn
      obtain ⟨m, t', ht, hhalt⟩ := ih hn
      exact ⟨1 + m, t', (Reaches.next hs).trans ht, hhalt⟩
    | ask request resume =>
      rw [run_ask hs] at hn
      obtain ⟨m, t', ht, hhalt⟩ := ih hn
      exact ⟨1 + m, t', (Reaches.ask hs).trans ht, hhalt⟩
    | halt r' =>
      rw [run_halt hs] at hn
      cases hn
      exact ⟨0, s, .refl s _, hs⟩

/-! ## Observations -/

/-- What `show?` finds in the states that a run of `n` actions leaves, in order. -/
def observe (show? : S → Option α) (step : S → Action I S R) (d : Device I σ) :
    Nat → S → σ → List α
  | 0, _, _ => []
  | n + 1, s, w =>
    match step s with
    | .next s' => (show? s).toList ++ observe show? step d n s' w
    | .ask request resume =>
      (show? s).toList ++ observe show? step d n (resume (d request w).1) (d request w).2
    | .halt _ => []

variable {show? : S → Option α}

theorem observe_next (hs : step s = .next s') (n : Nat) (w : σ) :
    observe show? step d (n + 1) s w = (show? s).toList ++ observe show? step d n s' w := by
  rw [observe, hs]

theorem observe_ask {request : I.Request} {resume : I.Reply request → S}
    (hs : step s = .ask request resume) (n : Nat) (w : σ) :
    observe show? step d (n + 1) s w = (show? s).toList ++
      observe show? step d n (resume (d request w).1) (d request w).2 := by
  rw [observe, hs]

theorem observe_acts (h : Acts step d s w s' w') (n : Nat) :
    observe show? step d (n + 1) s w = (show? s).toList ++ observe show? step d n s' w' := by
  cases h with
  | next hs => exact observe_next hs n w
  | ask hs => exact observe_ask hs n w

theorem observe_succ {t : S} {u : σ} (h : Reaches step d n s w t u) (ht : Acts step d t u s' w') :
    observe show? step d (n + 1) s w = observe show? step d n s w ++ (show? t).toList := by
  induction n generalizing s w with
  | zero =>
    cases h
    cases ht with
    | next hs => simp [observe, hs]
    | ask hs => simp [observe, hs]
  | succ n ih =>
    cases hs : step s with
    | next s₁ =>
      rw [observe_next hs, observe_next hs, ih (h.of_next hs), List.append_assoc]
    | ask request resume =>
      rw [observe_ask hs, observe_ask hs, ih (h.of_ask hs), List.append_assoc]
    | halt r => exact absurd hs h.step_ne_halt

/-- What each action keeps holds throughout a run, of what was observed too. -/
theorem Reaches.keeps_observed {P : S → σ → List α → Prop} (hs : P s w [])
    (hact : ∀ n t u t' u' seen, Reaches step d n s w t u → P t u seen → Acts step d t u t' u' →
      P t' u' (seen ++ (show? t).toList))
    (h : Reaches step d n s w s' w') : P s' w' (observe show? step d n s w) := by
  induction n generalizing s' w' with
  | zero =>
    cases h
    exact hs
  | succ n ih =>
    obtain ⟨t, u, ht, hlast⟩ := h.exists_last
    rw [observe_succ ht hlast]
    exact hact n t u s' w' _ ht (ih ht) hlast

/-! ## Guards -/

open Classical in
/-- The machine that halts with `r` where `P` does not hold. -/
noncomputable def guard (P : S → Prop) (r : R) (step : S → Action I S R) (s : S) : Action I S R :=
  if P s then step s else .halt r

theorem guard_of_holds {P : S → Prop} (h : P s) : guard P r step s = step s := if_pos h

/-- If the guard never strikes, then there is nothing to guard against. -/
theorem Reaches.satisfies {P : S → Prop} (h : Reaches step d n s w s' w')
    (hnever : ∀ w', ¬ (course (guard P r step) d s w).Ends r w') : P s' := by
  have hhere {t : S} {u : σ} (hn : ∀ w', ¬ (course (guard P r step) d t u).Ends r w') : P t := by
    by_cases ht : P t
    · exact ht
    · exact absurd (ends_of_reaches (.refl t u) (if_neg ht)) (hn u)
  induction n generalizing s w with
  | zero =>
    cases h
    exact hhere hnever
  | succ n ih =>
    have hguard : guard P r step s = step s := guard_of_holds (hhere hnever)
    cases hs : step s with
    | next t =>
      have hr : Reaches (guard P r step) d 1 s w t w := .next (hguard.trans hs)
      exact ih (h.of_next hs) fun w' he => hnever w' (hr.ends he)
    | ask request resume =>
      have hr : Reaches (guard P r step) d 1 s w _ _ := .ask (hguard.trans hs)
      exact ih (h.of_ask hs) fun w' he => hnever w' (hr.ends he)
    | halt r => exact absurd hs h.step_ne_halt

end Step

/-! ## Events -/

section Events

variable {step : S → Action I S R} {d : Device I σ} {d' : Device I τ} {n m : Nat} {s t t' : S}
  {w w' : σ} {u u' : τ} {past past' es : Array (Event I)}

/-- Events are only added. -/
theorem Reaches.prefix_events (h : Reaches step d.logged n s (w, past) t (w', es)) :
    past.toList <+: es.toList := by
  have hgrows := course_grows step d s (w, past) 0 n
  rw [Nat.zero_add, Course.events, Course.events, course_of_reaches h,
    course_of_reaches (.refl s (w, past))] at hgrows
  exact hgrows

/-- An event that has been added stays where it is. -/
theorem Reaches.getElem_events {event : Event I}
    (h : Reaches step d.logged n s (w, past.push event) t (w', es)) :
    es.toList[past.size]? = some event := by
  obtain ⟨rest, hrest⟩ := h.prefix_events
  rw [← hrest, Array.toList_push, List.append_assoc, List.getElem?_append_right (by simp)]
  simp

/-- A run has had its events one after the other. -/
theorem exists_reaches_of_prefix (hpast : past.toList <+: es.toList)
    (hes : es.toList <+: (course step d.logged s (w, past)).events n) :
    ∃ k t w', Reaches step d.logged k s (w, past) t (w', es) := by
  induction n generalizing s w past with
  | zero =>
    obtain rfl := Array.toList_inj.mp (hpast.eq_of_length_le hes.length_le)
    exact ⟨0, s, w, .refl _ _⟩
  | succ n ih =>
    rw [Course.events, course] at hes
    cases hs : step s with
    | next s₁ =>
      rw [run_next hs] at hes
      obtain ⟨k, t, w', hk⟩ := ih hpast hes
      exact ⟨1 + k, t, w', (Reaches.next hs).trans hk⟩
    | ask request resume =>
      rw [run_ask hs] at hes
      by_cases hend : past = es
      · subst hend
        exact ⟨0, s, w, .refl _ _⟩
      · -- the next event is one of those that are still missing
        have hgrown : (past.push ⟨request, (d request w).1⟩).toList <+: _ :=
          course_grows step d (resume (d request w).1) (d.logged request (w, past)).2 0 n
        rw [Nat.zero_add] at hgrown
        have hlonger : past.size < es.size := by
          apply Nat.lt_of_le_of_ne hpast.length_le
          intro hsize
          exact hend (Array.toList_inj.mp (hpast.eq_of_length hsize))
        have hnext : (past.push ⟨request, (d request w).1⟩).toList <+: es.toList := by
          apply List.prefix_of_prefix_length_le hgrown hes
          rw [Array.length_toList, Array.size_push, Array.length_toList]
          exact hlonger
        obtain ⟨k, t, w', hk⟩ := ih hnext hes
        exact ⟨1 + k, t, w', (Reaches.ask hs).trans hk⟩
    | halt r =>
      rw [run_halt hs] at hes
      obtain rfl := Array.toList_inj.mp (hpast.eq_of_length_le hes.length_le)
      exact ⟨0, s, w, .refl _ _⟩

/-- What one of two machines that agree has had of events, the other has had. -/
theorem Course.Agrees.exists_reaches {S' : Type} {step' : S' → Action I S' R} {s' : S'}
    (h : (course step d.logged s (w, past)).Agrees (course step' d.logged s' (w, past)))
    (hr : Reaches step d.logged n s (w, past) t (w', es)) :
    ∃ k t' w', Reaches step' d.logged k s' (w, past) t' (w', es) := by
  obtain ⟨m, hm⟩ := h.events_left n
  rw [Course.events, course_of_reaches hr] at hm
  exact exists_reaches_of_prefix hr.prefix_events hm

/-- A run of `step` from `s` has had the events `es` and now makes a request in the state `t`. -/
structure AtRequest (step : S → Action I S R) (d : Device I σ) (s : S) (w : σ)
    (es : Array (Event I)) (t : S) (w' : σ) : Prop where
  reached : ∃ n, Reaches step d.logged n s (w, #[]) t (w', es)
  asks : ∃ request resume, step t = .ask request resume

theorem Reaches.unique (h : Reaches step d.logged n s (w, past) t (w', es))
    (h' : Reaches step d'.logged m s (u, past) t' (u', es))
    (ht : ∃ request resume, step t = .ask request resume)
    (ht' : ∃ request resume, step t' = .ask request resume) : t = t' := by
  -- a request makes an event, so that only one of the two runs cannot be past it
  have hpast {υ : Type} {d : Device I υ} {w : υ} {w' : υ} {n : Nat} {s t : S}
      {past es : Array (Event I)} {event : Event I}
      (h : Reaches step d.logged n s (w, past.push event) t (w', es)) : past ≠ es := by
    rintro rfl
    have hget := h.getElem_events
    simp at hget
  induction n generalizing s w u past m with
  | zero =>
    cases h
    obtain ⟨request, resume, hs⟩ := ht
    cases m with
    | zero =>
      cases h'
      rfl
    | succ m => exact absurd rfl (hpast (h'.of_ask hs))
  | succ n ih =>
    cases hs : step s with
    | next s₁ =>
      cases m with
      | zero =>
        cases h'
        obtain ⟨request, resume, ha⟩ := ht'
        cases hs.symm.trans ha
      | succ m => exact ih (h.of_next hs) (h'.of_next hs)
    | ask request resume =>
      have hrest := h.of_ask hs
      cases m with
      | zero =>
        cases h'
        exact absurd rfl (hpast hrest)
      | succ m =>
        have hrest' := h'.of_ask hs
        -- both runs have got the same reply
        have hevent := hrest.getElem_events.symm.trans hrest'.getElem_events
        rw [Option.some.injEq, Event.mk.injEq, heq_eq_eq] at hevent
        have hreply : (d request w).1 = (d' request u).1 := hevent.2
        simp only [Device.logged, hreply] at hrest hrest'
        exact ih hrest hrest'
    | halt r => exact absurd hs h.step_ne_halt

/-- The events up to a request determine the state that makes it, whatever has replied. -/
theorem AtRequest.unique (h : AtRequest step d s w es t w') (h' : AtRequest step d' s u es t' u') :
    t = t' := by
  obtain ⟨n, hn⟩ := h.reached
  obtain ⟨m, hm⟩ := h'.reached
  exact hn.unique hm h.asks h'.asks

end Events

end TapeLang
