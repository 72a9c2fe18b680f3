import TapeLang.Proofs.Course

/-!
# Courses in different surroundings

Two machines whose surroundings differ correspond if they come to the same results, in surroundings
that are related, and if they are in related surroundings again and again on the way. It then makes
no difference to anything that related surroundings have in common which of the two is run.

* `Course.Corresponds`: what that means.
* `Course.Corresponds.endless`: one course is endless just if the other is.
* `Course.Approaches`: a course gets wherever an evaluator gets in the end.
* `Course.Approaches.corresponds`: courses correspond if their evaluators do.
-/

namespace TapeLang

variable {R σ τ : Type}

namespace Course

/-- The same results, each in related surroundings, and related surroundings at times as late as one
likes. -/
structure Corresponds (r : σ → τ → Prop) (c : Course R σ) (c' : Course R τ) : Prop where
  ends_left : ∀ result w, c.Ends result w → ∃ w', c'.Ends result w' ∧ r w w'
  ends_right : ∀ result w', c'.Ends result w' → ∃ w, c.Ends result w ∧ r w w'
  passes : ∀ n, ∃ m k, n ≤ m ∧ n ≤ k ∧ r (c m).2 (c' k).2

namespace Corresponds

variable {r : σ → τ → Prop} {c : Course R σ} {c' : Course R τ}

theorem mono {r' : σ → τ → Prop} (h : Corresponds r c c') (hr : ∀ w w', r w w' → r' w w') :
    Corresponds r' c c' where
  ends_left result w he := by
    obtain ⟨w', he', hw⟩ := h.ends_left result w he
    exact ⟨w', he', hr w w' hw⟩
  ends_right result w' he := by
    obtain ⟨w, he', hw⟩ := h.ends_right result w' he
    exact ⟨w, he', hr w w' hw⟩
  passes n := by
    obtain ⟨m, k, hm, hk, hw⟩ := h.passes n
    exact ⟨m, k, hm, hk, hr _ _ hw⟩

theorem endless (h : Corresponds r c c') : c.Endless ↔ c'.Endless := by
  rw [endless_iff, endless_iff]
  constructor
  · intro hc result w' he
    obtain ⟨w, he', -⟩ := h.ends_right result w' he
    exact hc result w he'
  · intro hc result w he
    obtain ⟨w', he', -⟩ := h.ends_left result w he
    exact hc result w' he'

/-- Two courses that both come to their ends. -/
theorem of_ends (hc : c.Stays) (hc' : c'.Stays) {result : R} {w : σ} {w' : τ}
    (h : c.Ends result w) (h' : c'.Ends result w') (hw : r w w') : Corresponds r c c' where
  ends_left result₁ w₁ he := by
    obtain ⟨rfl, rfl⟩ := hc.ends_unique he h
    exact ⟨w', h', hw⟩
  ends_right result₁ w₁ he := by
    obtain ⟨rfl, rfl⟩ := hc'.ends_unique he h'
    exact ⟨w, h, hw⟩
  passes n := by
    obtain ⟨m, hm⟩ := h
    obtain ⟨k, hk⟩ := h'
    refine ⟨m + n, k + n, Nat.le_add_left n m, Nat.le_add_left n k, ?_⟩
    rw [hc m n result w hm, hc' k n result w' hk]
    exact hw

end Corresponds

/-- A machine comes to the results that its evaluator has at bounds as large as one likes. -/
theorem Tracks.ends_iff_exists {c e : Course R σ} (h : c.Tracks e) (hc : c.Stays) (bound : Nat)
    (result : R) (w : σ) : c.Ends result w ↔ ∃ n, bound ≤ n ∧ e n = (some result, w) := by
  constructor
  · intro he
    obtain ⟨n, hn⟩ := ((h.shift bound).ends_iff hc result w).mp he
    exact ⟨n + bound, Nat.le_add_left bound n, hn⟩
  · rintro ⟨n, -, hn⟩
    exact (h.ends_iff hc result w).mpr ⟨n, hn⟩

/-- Where `c` comes to a result, `e` has it from some bound on, and the results of `e` are those of
`c`; at bounds as large as one likes the two are at the same place. A machine approaches an
evaluator that it tracks, and so do two machines one behind the other. -/
structure Approaches (c e : Course R σ) : Prop where
  stays : c.Stays
  ends : ∀ result w, c.Ends result w → ∃ bound, ∀ n, bound ≤ n → e n = (some result, w)
  of_ends : ∀ n result w, e n = (some result, w) → c.Ends result w
  passes : ∀ n, ∃ m k, n ≤ m ∧ n ≤ k ∧ c m = e k

theorem Tracks.approaches {c e : Course R σ} (h : c.Tracks e) (hc : c.Stays) :
    c.Approaches e where
  stays := hc
  ends result w := by
    rintro ⟨m, hm⟩
    refine ⟨m + 1, fun n hn => ?_⟩
    obtain ⟨k, hk, hck⟩ := h.exists_past hc n
    have hresult := hc m (k - m) result w hm
    rw [Nat.add_sub_cancel' (by omega), hck] at hresult
    exact hresult
  of_ends n result w he := (h.ends_iff hc result w).mpr ⟨n, he⟩
  passes n := by
    obtain ⟨m, hm, hcm⟩ := h.exists_past hc n
    exact ⟨m, n, hm, Nat.le_refl n, hcm⟩

/-- It is enough to compare evaluators from some bound on. -/
theorem Approaches.corresponds {r : σ → τ → Prop} {c e : Course R σ} {c' e' : Course R τ}
    (h : c.Approaches e) (h' : c'.Tracks e') (hc' : c'.Stays) (bound : Nat)
    (he : ∀ n, bound ≤ n → (e n).1 = (e' n).1 ∧ r (e n).2 (e' n).2) : Corresponds r c c' where
  ends_left result w hw := by
    obtain ⟨b, hb⟩ := h.ends result w hw
    obtain ⟨hresult, hr⟩ := he (b + bound) (Nat.le_add_left bound b)
    rw [hb (b + bound) (Nat.le_add_right b bound)] at hresult hr
    exact ⟨_, (h'.ends_iff hc' result _).mpr ⟨b + bound, Prod.ext hresult.symm rfl⟩, hr⟩
  ends_right result w' hw := by
    obtain ⟨n, hn, hen⟩ := (h'.ends_iff_exists hc' bound result w').mp hw
    obtain ⟨hresult, hr⟩ := he n hn
    rw [hen] at hresult hr
    exact ⟨_, h.of_ends n result _ (Prod.ext hresult rfl), hr⟩
  passes n := by
    obtain ⟨m, l, hm, hl, hcm⟩ := h.passes (n + bound)
    obtain ⟨k, hk, hck⟩ := h'.exists_past hc' l
    refine ⟨m, k, by omega, by omega, ?_⟩
    rw [hcm, hck]
    exact (he l (by omega)).2

end Course

end TapeLang
