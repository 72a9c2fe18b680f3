import TapeLang.Proofs.Correspondence
import TapeLang.Proofs.Tree.Surroundings

/-!
# One run behind another

A second run starts where the first has left the tape and its surroundings, if that one has come to
its end.

* `Course.sequel`: the course of both.
* `Course.Approaches.sequel`: evaluators of both runs, one behind the other.
-/

namespace TapeLang.Course

variable {σ : Type} {f : Position → Position} {c e : Course Ending σ}
  {next after : Tape → σ → Course Ending σ} {n : Nat}

/-- The run `c`, and if it comes to its end the run `next`, whose errors stand at positions moved by
`f`. -/
def sequel (f : Position → Position) (c : Course Ending σ) (next : Tape → σ → Course Ending σ) :
    Course Ending σ := fun n =>
  match c n with
  | (some ⟨.finished, tape⟩, w) => ((next tape w n).1.map (Ending.relocate f), (next tape w n).2)
  | seen => seen

theorem sequel_of_finished {tape : Tape} {w : σ} (h : c n = (some ⟨.finished, tape⟩, w)) :
    c.sequel f next n = ((next tape w n).1.map (Ending.relocate f), (next tape w n).2) := by
  rw [sequel, h]

theorem sequel_of_not_finished (h : ∀ tape w, c n ≠ (some ⟨.finished, tape⟩, w)) :
    c.sequel f next n = c n := by
  unfold sequel
  split
  · rename_i tape w hc
    exact absurd hc (h tape w)
  · rfl

/-- The first run has not come to its end, or the second goes on from there. -/
theorem sequel_cases (f : Position → Position) (c : Course Ending σ)
    (next : Tape → σ → Course Ending σ) (n : Nat) :
    (∃ tape w, c n = (some ⟨.finished, tape⟩, w) ∧
      c.sequel f next n = ((next tape w n).1.map (Ending.relocate f), (next tape w n).2)) ∨
    ((∀ tape w, c n ≠ (some ⟨.finished, tape⟩, w)) ∧ c.sequel f next n = c n) := by
  by_cases h : ∃ tape w, c n = (some ⟨.finished, tape⟩, w)
  · obtain ⟨tape, w, hc⟩ := h
    exact .inl ⟨tape, w, hc, sequel_of_finished hc⟩
  · have hne : ∀ tape w, c n ≠ (some ⟨.finished, tape⟩, w) := fun tape w hc => h ⟨tape, w, hc⟩
    exact .inr ⟨hne, sequel_of_not_finished hne⟩

theorem Stays.sequel (hc : c.Stays) (hn : ∀ tape w, (next tape w).Stays) :
    (c.sequel f next).Stays := by
  intro n m result w h
  obtain ⟨tape, w₁, hfinished, hseq⟩ | ⟨hne, hseq⟩ := sequel_cases f c next n
  · rw [hseq, Prod.mk.injEq, Option.map_eq_some_iff] at h
    obtain ⟨⟨ending, hending, rfl⟩, rfl⟩ := h
    rw [sequel_of_finished (hc n m _ _ hfinished),
      hn tape w₁ n m ending _ (Prod.ext hending rfl)]
    rfl
  · rw [hseq] at h
    rw [sequel_of_not_finished, hc n m result w h]
    intro tape w' h'
    rw [hc n m result w h, ← h] at h'
    exact hne tape w' h'

/-- Both runs end as the second does where the first has come to its end, and else as the first. -/
theorem sequel_ends_iff (hc : c.Stays) (hn : ∀ tape w, (next tape w).Stays) (result : Ending)
    (w' : σ) : (c.sequel f next).Ends result w' ↔
      (∃ tape w ending, c.Ends ⟨.finished, tape⟩ w ∧ (next tape w).Ends ending w' ∧
        ending.relocate f = result) ∨
      (result.verdict ≠ .finished ∧ c.Ends result w') := by
  constructor
  · rintro ⟨n, h⟩
    obtain ⟨tape, w, hfinished, hseq⟩ | ⟨hne, hseq⟩ := sequel_cases f c next n
    · rw [hseq, Prod.mk.injEq, Option.map_eq_some_iff] at h
      obtain ⟨⟨ending, hending, hresult⟩, hw⟩ := h
      exact .inl ⟨tape, w, ending, ⟨n, hfinished⟩, ⟨n, Prod.ext hending hw⟩, hresult⟩
    · rw [hseq] at h
      refine .inr ⟨?_, n, h⟩
      obtain ⟨verdict, tape⟩ := result
      rintro rfl
      exact hne tape w' h
  · rintro (⟨tape, w, ending, ⟨k, hk⟩, ⟨l, hl⟩, rfl⟩ | ⟨hne, n, h⟩)
    · refine ⟨k + l, ?_⟩
      rw [sequel_of_finished (hc k l _ w hk), Nat.add_comm, hn tape w l k ending w' hl]
      rfl
    · refine ⟨n, (sequel_of_not_finished ?_).trans h⟩
      intro tape w h'
      cases h.symm.trans h'
      exact hne rfl

/-- Evaluators of both runs, one behind the other. -/
theorem Approaches.sequel (f : Position → Position) (h : c.Approaches e)
    (hs : ∀ tape w, (next tape w).Stays)
    (hn : ∀ tape w, c.Ends ⟨.finished, tape⟩ w → (next tape w).Approaches (after tape w)) :
    (c.sequel f next).Approaches (e.sequel f after) where
  stays := h.stays.sequel hs
  ends result w hw := by
    obtain ⟨tape, w₁, ending, hfirst, hsecond, rfl⟩ | ⟨hne, hfirst⟩ :=
      (sequel_ends_iff h.stays hs result w).mp hw
    · obtain ⟨b, hb⟩ := h.ends _ w₁ hfirst
      obtain ⟨b', hb'⟩ := (hn tape w₁ hfirst).ends ending w hsecond
      refine ⟨b + b', fun n hn => ?_⟩
      rw [sequel_of_finished (hb n (by omega)), hb' n (by omega)]
      rfl
    · obtain ⟨b, hb⟩ := h.ends result w hfirst
      refine ⟨b, fun n hn => (sequel_of_not_finished ?_).trans (hb n hn)⟩
      intro tape w' h'
      cases (hb n hn).symm.trans h'
      exact hne rfl
  of_ends n result w he := by
    rw [sequel_ends_iff h.stays hs]
    obtain ⟨tape, w₁, hfinished, hseq⟩ | ⟨hne, hseq⟩ := sequel_cases f e after n
    · rw [hseq, Prod.mk.injEq, Option.map_eq_some_iff] at he
      obtain ⟨⟨ending, hending, hresult⟩, hw⟩ := he
      have hfirst := h.of_ends n _ w₁ hfinished
      have hsecond := (hn tape w₁ hfirst).of_ends n ending w (Prod.ext hending hw)
      exact .inl ⟨tape, w₁, ending, hfirst, hsecond, hresult⟩
    · rw [hseq] at he
      refine .inr ⟨?_, h.of_ends n result w he⟩
      obtain ⟨verdict, tape⟩ := result
      rintro rfl
      exact hne tape w he
  passes n := by
    by_cases hfinished : ∃ tape w, c.Ends ⟨.finished, tape⟩ w
    · obtain ⟨tape, w, hends⟩ := hfinished
      obtain ⟨b, hb⟩ := h.ends _ w hends
      obtain ⟨k, hk⟩ := hends
      obtain ⟨m, l, hm, hl, hpass⟩ := (hn tape w ⟨k, hk⟩).passes (n + b + k)
      refine ⟨m, l, by omega, by omega, ?_⟩
      have hcm := h.stays k (m - k) _ w hk
      rw [Nat.add_sub_cancel' (by omega)] at hcm
      rw [sequel_of_finished hcm, sequel_of_finished (hb l (by omega)), hpass]
    · obtain ⟨m, l, hm, hl, hpass⟩ := h.passes n
      have hne : ∀ tape w, c m ≠ (some ⟨.finished, tape⟩, w) := fun tape w hc =>
        hfinished ⟨tape, w, m, hc⟩
      refine ⟨m, l, hm, hl, ?_⟩
      rw [sequel_of_not_finished hne, sequel_of_not_finished (hpass ▸ hne), hpass]

end TapeLang.Course
