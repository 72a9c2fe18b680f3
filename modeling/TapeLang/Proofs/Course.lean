import TapeLang.Interaction

/-!
# Courses of runs

A course says, for every bound on the effort, whether something has come to a result by then, and
how its surroundings look. Machines have courses, and so have evaluators that recurse on syntax, so
that the two can be compared.

* `Course.Agrees`: the same results with the same surroundings, and the same events on the way. Two
  courses that agree either both end or both go on for ever.
* `Course.Tracks`: a machine gets wherever an evaluator gets, and has to act for it.
* `Course.Tracks.agrees`: a machine that tracks an evaluator agrees with it.
* `Reaches`: a machine gets from one state to another.
-/

namespace TapeLang

variable {I : Interface} {S R σ : Type}

/-! ## Runs of a machine -/

/-- The machine gets from one state to another by `n` actions. -/
def Reaches (step : S → Action I S R) (d : Device I σ) (n : Nat) (s : S) (w : σ) (s' : S)
    (w' : σ) : Prop :=
  run step d n s w = .running s' w'

section Run

variable {step : S → Action I S R} {d : Device I σ} {n m : Nat} {s s' s'' : S} {w w' w'' : σ}
  {r : R}

theorem run_next (h : step s = .next s') (n : Nat) (w : σ) :
    run step d (n + 1) s w = run step d n s' w := by
  rw [run, h]

theorem run_ask {request : I.Request} {resume : I.Reply request → S}
    (h : step s = .ask request resume) (n : Nat) (w : σ) :
    run step d (n + 1) s w = run step d n (resume (d request w).1) (d request w).2 := by
  rw [run, h]

theorem run_halt (h : step s = .halt r) (n : Nat) (w : σ) :
    run step d (n + 1) s w = .halted r w := by
  rw [run, h]

theorem run_add (step : S → Action I S R) (d : Device I σ) (n m : Nat) (s : S) (w : σ) :
    run step d (n + m) s w =
      match run step d n s w with
      | .running s' w' => run step d m s' w'
      | .halted r w' => .halted r w' := by
  induction n generalizing s w with
  | zero => rw [Nat.zero_add, run]
  | succ n ih =>
    rw [Nat.add_right_comm]
    cases h : step s with
    | next s' => rw [run_next h, run_next h, ih]
    | ask request resume => rw [run_ask h, run_ask h, ih]
    | halt r => rw [run_halt h, run_halt h]

theorem run_of_halted (h : run step d n s w = .halted r w') (m : Nat) :
    run step d (n + m) s w = .halted r w' := by
  rw [run_add, h]

namespace Reaches

theorem refl (s : S) (w : σ) : Reaches step d 0 s w s w := rfl

theorem run_add (h : Reaches step d n s w s' w') (m : Nat) :
    run step d (n + m) s w = run step d m s' w' := by
  rw [TapeLang.run_add, show run step d n s w = _ from h]

theorem trans (h : Reaches step d n s w s' w') (h' : Reaches step d m s' w' s'' w'') :
    Reaches step d (n + m) s w s'' w'' :=
  (h.run_add m).trans h'

/-- A longer way goes on where a shorter one has got. -/
theorem sub (h : Reaches step d n s w s' w') (h' : Reaches step d m s w s'' w'') (hn : n ≤ m) :
    Reaches step d (m - n) s' w' s'' w'' := by
  have := h.run_add (m - n)
  rw [Nat.add_sub_cancel' hn] at this
  exact this.symm.trans h'

theorem next (h : step s = .next s') : Reaches step d 1 s w s' w := run_next h 0 w

theorem ask {request : I.Request} {resume : I.Reply request → S}
    (h : step s = .ask request resume) :
    Reaches step d 1 s w (resume (d request w).1) (d request w).2 := run_ask h 0 w

theorem halted (h : Reaches step d n s w s' w') (hs : step s' = .halt r) :
    run step d (n + 1) s w = .halted r w' :=
  (h.run_add 1).trans (run_halt hs 0 w')

/-- What each action keeps holds wherever the machine gets. -/
theorem keeps {P : S → Prop} (hnext : ∀ s s', P s → step s = .next s' → P s')
    (hask : ∀ s request resume reply, P s → step s = .ask request resume → P (resume reply))
    (h : Reaches step d n s w s' w') (hs : P s) : P s' := by
  induction n generalizing s w with
  | zero =>
    cases h
    exact hs
  | succ n ih =>
    rw [Reaches] at h
    cases ha : step s with
    | next t =>
      rw [run_next ha] at h
      exact ih h (hnext s t hs ha)
    | ask request resume =>
      rw [run_ask ha] at h
      exact ih h (hask s request resume _ hs ha)
    | halt r =>
      rw [run_halt ha] at h
      cases h

end Reaches

end Run

/-! ## Courses -/

/-- For every bound, the result if there is one by then, and the surroundings. -/
def Course (R σ : Type) : Type := Nat → Option R × σ

def Progress.seen : Progress S R σ → Option R × σ
  | .halted result world => (some result, world)
  | .running _ world => (none, world)

/-- The course of a machine beside a device, the bound being on its actions. -/
def course (step : S → Action I S R) (d : Device I σ) (s : S) (w : σ) : Course R σ :=
  fun fuel => (run step d fuel s w).seen

namespace Course

def Ends (c : Course R σ) (r : R) (w : σ) : Prop := ∃ n, c n = (some r, w)

/-- It never ends. -/
def Endless (c : Course R σ) : Prop := ∀ n, (c n).1 = none

/-- The events up to a bound, if the surroundings remember them. -/
def events (c : Course R (σ × Array (Event I))) (n : Nat) : List (Event I) := (c n).2.2.toList

/-- The same results, each with the same surroundings, and the same events in the same order: what
one course has seen at some bound, the other has seen at some bound. -/
structure Agrees (c c' : Course R (σ × Array (Event I))) : Prop where
  ends : ∀ r w, c.Ends r w ↔ c'.Ends r w
  events_left : ∀ n, ∃ m, c.events n <+: c'.events m
  events_right : ∀ n, ∃ m, c'.events n <+: c.events m

/-- A result stays. -/
def Stays (c : Course R σ) : Prop := ∀ n m r w, c n = (some r, w) → c (n + m) = (some r, w)

/-- What has happened stays. -/
def Grows (c : Course R (σ × Array (Event I))) : Prop := ∀ n m, c.events n <+: c.events (n + m)

/-- Where `e` has a result, `c` comes to it; where `e` has none, `c` gets to the same surroundings
by at least so many actions. -/
def Tracks (c e : Course R σ) : Prop :=
  ∀ n, match e n with
    | (some r, w) => c.Ends r w
    | (none, w) => ∃ m, n ≤ m ∧ c m = (none, w)

theorem endless_iff {c : Course R σ} : c.Endless ↔ ∀ r w, ¬ c.Ends r w := by
  constructor
  · rintro h r w ⟨n, hn⟩
    have := h n
    rw [hn] at this
    cases this
  · intro h n
    cases hn : c n with
    | mk o w =>
      cases o with
      | none => rfl
      | some r => exact absurd ⟨n, hn⟩ (h r w)

theorem Stays.ends_unique {c : Course R σ} (hc : c.Stays) {r r' : R} {w w' : σ}
    (h : c.Ends r w) (h' : c.Ends r' w') : r = r' ∧ w = w' := by
  obtain ⟨n, hn⟩ := h
  obtain ⟨m, hm⟩ := h'
  have hn := hc n m r w hn
  have hm := hc m n r' w' hm
  rw [Nat.add_comm, hm] at hn
  cases hn
  exact ⟨rfl, rfl⟩

/-- A course that stays at its result has none after an unfinished bound below. -/
theorem Stays.lt_of_unfinished {c : Course R σ} (hc : c.Stays) {n m : Nat} {r : R} {w w' : σ}
    (hn : c n = (none, w)) (hm : c m = (some r, w')) : n < m := by
  apply Nat.lt_of_not_le
  intro hle
  have := hc m (n - m) r w' hm
  rw [Nat.add_sub_cancel' hle, hn] at this
  cases this

namespace Tracks

variable {c e : Course R σ}

theorem ends_iff (h : c.Tracks e) (hc : c.Stays) (r : R) (w : σ) : c.Ends r w ↔ e.Ends r w := by
  constructor
  · rintro ⟨m, hm⟩
    have hn := h (m + 1)
    cases he : e (m + 1) with
    | mk o w' =>
      rw [he] at hn
      cases o with
      | none =>
        obtain ⟨k, hk, hck⟩ := hn
        have := hc.lt_of_unfinished hck hm
        omega
      | some r' =>
        obtain ⟨rfl, rfl⟩ := hc.ends_unique ⟨m, hm⟩ hn
        exact ⟨m + 1, he⟩
  · rintro ⟨n, hn⟩
    have := h n
    rw [hn] at this
    exact this

/-- From any bound on, the machine gets where the evaluator got by then. -/
theorem exists_past (h : c.Tracks e) (hc : c.Stays) (n : Nat) : ∃ m, n ≤ m ∧ c m = e n := by
  have hn := h n
  cases he : e n with
  | mk o w =>
    rw [he] at hn
    cases o with
    | none => exact hn
    | some r =>
      obtain ⟨k, hk⟩ := hn
      refine ⟨n + k, Nat.le_add_right n k, ?_⟩
      rw [Nat.add_comm, hc k n r w hk]

/-- The evaluator may be given some more bound each time. -/
theorem shift (h : c.Tracks e) (k : Nat) : c.Tracks fun n => e (n + k) := by
  intro n
  have hn := h (n + k)
  dsimp only
  generalize e (n + k) = r at hn ⊢
  match r, hn with
  | (some _, _), hn => exact hn
  | (none, _), ⟨m, hm, hcm⟩ => exact ⟨m, by omega, hcm⟩

end Tracks

/-- A machine that tracks an evaluator agrees with it. -/
theorem Tracks.agrees {c e : Course R (σ × Array (Event I))} (h : c.Tracks e) (hc : c.Stays)
    (hg : c.Grows) : c.Agrees e where
  ends := h.ends_iff hc
  events_left n := by
    obtain ⟨m, hm, hcm⟩ := h.exists_past hc n
    have hgrown := hg n (m - n)
    rw [Nat.add_sub_cancel' hm] at hgrown
    refine ⟨n, ?_⟩
    rwa [events, events, hcm] at hgrown
  events_right n := by
    obtain ⟨m, -, hcm⟩ := h.exists_past hc n
    have hevents : e.events n = c.events m := by rw [events, events, hcm]
    exact ⟨m, hevents ▸ List.prefix_rfl⟩

namespace Agrees

variable {c c' c'' : Course R (σ × Array (Event I))}

theorem refl (c : Course R (σ × Array (Event I))) : c.Agrees c where
  ends _ _ := .rfl
  events_left n := ⟨n, List.prefix_rfl⟩
  events_right n := ⟨n, List.prefix_rfl⟩

theorem symm (h : c.Agrees c') : c'.Agrees c where
  ends r w := (h.ends r w).symm
  events_left := h.events_right
  events_right := h.events_left

theorem trans (h : c.Agrees c') (h' : c'.Agrees c'') : c.Agrees c'' where
  ends r w := (h.ends r w).trans (h'.ends r w)
  events_left n := by
    obtain ⟨m, hm⟩ := h.events_left n
    obtain ⟨k, hk⟩ := h'.events_left m
    exact ⟨k, hm.trans hk⟩
  events_right n := by
    obtain ⟨m, hm⟩ := h'.events_right n
    obtain ⟨k, hk⟩ := h.events_right m
    exact ⟨k, hm.trans hk⟩

theorem endless (h : c.Agrees c') : c.Endless ↔ c'.Endless := by
  simp only [endless_iff, h.ends]

end Agrees

end Course

/-! ## The course of a machine -/

section Machine

variable (step : S → Action I S R) (d : Device I σ) (s : S)

theorem course_stays (w : σ) : (course step d s w).Stays := by
  intro n m r w' h
  unfold course at h ⊢
  cases hr : run step d n s w with
  | running s' w'' => rw [hr] at h; cases h
  | halted r' w'' =>
    rw [hr] at h
    cases h
    rw [run_of_halted hr]
    rfl

/-- What no request undoes stays, as `r` says of the surroundings before and after. -/
theorem run_relates {r : σ → σ → Prop} (hrefl : ∀ w, r w w)
    (htrans : ∀ {w₁ w₂ w₃}, r w₁ w₂ → r w₂ w₃ → r w₁ w₃) (hd : ∀ request w, r w (d request w).2)
    (n : Nat) (w : σ) : r w (run step d n s w).seen.2 := by
  induction n generalizing s w with
  | zero => exact hrefl w
  | succ n ih =>
    cases h : step s with
    | next s' => rw [run_next h]; exact ih s' w
    | ask request resume => rw [run_ask h]; exact htrans (hd request w) (ih _ _)
    | halt r => rw [run_halt h]; exact hrefl w

theorem course_relates {r : σ → σ → Prop} (hrefl : ∀ w, r w w)
    (htrans : ∀ {w₁ w₂ w₃}, r w₁ w₂ → r w₂ w₃ → r w₁ w₃) (hd : ∀ request w, r w (d request w).2)
    (w : σ) (n m : Nat) : r (course step d s w n).2 (course step d s w (n + m)).2 := by
  unfold course
  cases hr : run step d n s w with
  | running s' w' =>
    rw [Reaches.run_add hr]
    exact run_relates step d s' hrefl htrans hd m w'
  | halted r w' =>
    rw [run_of_halted hr]
    exact hrefl w'

/-- A device that remembers its events forgets none of those it already knows. -/
theorem course_grows (w : σ × Array (Event I)) : (course step d.logged s w).Grows := by
  intro n m
  refine course_relates (r := fun w w' => w.2.toList <+: w'.2.toList) step d.logged s
    (fun _ => List.prefix_rfl) (fun h h' => h.trans h') (fun request w => ?_) w n m
  simp only [Device.logged, Array.toList_push]
  exact List.prefix_append _ _

variable {step d s}

theorem ends_of_reaches {n : Nat} {s' : S} {w w' : σ} {r : R} (h : Reaches step d n s w s' w')
    (hs : step s' = .halt r) : (course step d s w).Ends r w' :=
  ⟨n + 1, by rw [course, h.halted hs]; rfl⟩

theorem Reaches.ends {n : Nat} {s' : S} {w w' w'' : σ} {r : R} (h : Reaches step d n s w s' w')
    (he : (course step d s' w').Ends r w'') : (course step d s w).Ends r w'' := by
  obtain ⟨m, hm⟩ := he
  exact ⟨n + m, by rw [course, h.run_add]; exact hm⟩

theorem course_of_reaches {n : Nat} {s' : S} {w w' : σ} (h : Reaches step d n s w s' w') :
    course step d s w n = (none, w') := by
  rw [course, show run step d n s w = _ from h]
  rfl

end Machine

end TapeLang
