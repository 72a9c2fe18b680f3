import TapeLang.Program.Parser

/-!
# Brackets

Whether a text is a program depends on its brackets alone, on how deep they nest and whether they
close each other. A reset stands for a loop, so it counts as a pair of brackets.

* `Nests`: brackets that close each other and stay below a limit.
* `exists_parse_iff`: a text can be read just if its brackets nest.
-/

namespace TapeLang

inductive Bracket where
  | opening
  | closing
deriving DecidableEq

def Bracket.ofChar? : Char → Option Bracket
  | '[' => some .opening
  | ']' => some .closing
  | _ => none

/-- The brackets of a text. -/
def brackets (text : List Char) : List Bracket := text.filterMap Bracket.ofChar?

/-- Behind `depth` open brackets, these brackets close each other and the open ones. No bracket may
open at the depth below `maxDepth`. -/
def Nests (maxDepth : Nat) : Nat → List Bracket → Prop
  | depth, [] => depth = 0
  | depth, .opening :: rest => depth + 1 < maxDepth ∧ Nests maxDepth (depth + 1) rest
  | depth, .closing :: rest => 0 < depth ∧ Nests maxDepth (depth - 1) rest

namespace Scan

variable {maxDepth : Nat}

/-- A character that is no bracket is taken in, whatever the scan knows. -/
theorem exists_step_of_none {ch : Char} (h : Bracket.ofChar? ch = none) (s : Scan) (index : Nat) :
    ∃ s', s.step maxDepth index ch = .ok s' ∧ s'.openLoops = s.openLoops := by
  unfold step
  split
  case h_7 => cases h
  case h_8 => cases h
  all_goals exact ⟨_, rfl, rfl⟩

/-- A text without brackets is read up to its end. -/
theorem exists_steps_of_none {text : List Char} (h : ∀ ch ∈ text, Bracket.ofChar? ch = none)
    (s : Scan) (index : Nat) : ∃ s', s.steps maxDepth index text = .ok s' := by
  induction text generalizing s index with
  | nil => exact ⟨s, rfl⟩
  | cons ch rest ih =>
    obtain ⟨s₁, hstep, -⟩ := @exists_step_of_none maxDepth ch (h ch List.mem_cons_self) s index
    obtain ⟨s', hsteps⟩ := ih (fun ch' h' => h ch' (List.mem_cons_of_mem ch h')) s₁ (index + 1)
    refine ⟨s', ?_⟩
    rw [steps, hstep]
    exact hsteps

theorem step_opening (s : Scan) (index : Nat) :
    (∃ s', s.step maxDepth index '[' = .ok s' ∧ s'.openLoops.size = s.openLoops.size + 1 ∧
      s.openLoops.size + 1 < maxDepth) ∨
    (∃ e, s.step maxDepth index '[' = .error e ∧ ¬ s.openLoops.size + 1 < maxDepth) := by
  by_cases h : maxDepth ≤ s.openLoops.size + 1
  · exact .inr ⟨_, if_pos h, Nat.not_lt.mpr h⟩
  · exact .inl ⟨_, if_neg h, by simp, Nat.lt_of_not_le h⟩

theorem step_closing (s : Scan) (index : Nat) :
    (∃ s', s.step maxDepth index ']' = .ok s' ∧ s'.openLoops.size = s.openLoops.size - 1 ∧
      0 < s.openLoops.size) ∨
    (∃ e, s.step maxDepth index ']' = .error e ∧ ¬ 0 < s.openLoops.size) := by
  by_cases h : s.openLoops.isEmpty
  · refine .inr ⟨_, if_pos h, ?_⟩
    rw [Array.isEmpty_iff] at h
    simp [h]
  · refine .inl ⟨_, if_neg h, by simp, ?_⟩
    rw [Array.isEmpty_iff] at h
    exact Array.size_pos_iff.mpr h

/-- A text is taken in up to its end, with no loop open there, just if its brackets nest. -/
theorem exists_steps_iff (s : Scan) (index : Nat) (text : List Char) :
    (∃ s', s.steps maxDepth index text = .ok s' ∧ s'.openLoops.size = 0) ↔
      Nests maxDepth s.openLoops.size (brackets text) := by
  induction text generalizing s index with
  | nil =>
    simp only [steps, Except.ok.injEq, exists_eq_left', brackets, List.filterMap_nil, Nests]
  | cons ch rest ih =>
    have hnext {s' : Scan} (h : s.step maxDepth index ch = .ok s') :
        (∃ s'', s.steps maxDepth index (ch :: rest) = .ok s'' ∧ s''.openLoops.size = 0) ↔
          Nests maxDepth s'.openLoops.size (brackets rest) := by
      simp only [steps, h, ih]
    have hfault {e : BracketError} (h : s.step maxDepth index ch = .error e) :
        ¬ ∃ s'', s.steps maxDepth index (ch :: rest) = .ok s'' ∧ s''.openLoops.size = 0 := by
      simp [steps, h]
    cases hb : Bracket.ofChar? ch with
    | none =>
      obtain ⟨s', hs, ho⟩ := exists_step_of_none hb s index
      rw [hnext hs, ho, brackets, brackets, List.filterMap_cons_none hb]
    | some b =>
      rw [brackets, List.filterMap_cons_some hb]
      cases b with
      | opening =>
        obtain rfl : ch = '[' := by
          unfold Bracket.ofChar? at hb
          split at hb <;> simp_all
        rcases s.step_opening index with ⟨s', hs, ho, hd⟩ | ⟨e, hs, hd⟩
        · rw [hnext hs, ho, Nests, brackets, and_iff_right hd]
        · exact iff_of_false (hfault hs) fun h => hd h.1
      | closing =>
        obtain rfl : ch = ']' := by
          unfold Bracket.ofChar? at hb
          split at hb <;> simp_all
        rcases s.step_closing index with ⟨s', hs, ho, hd⟩ | ⟨e, hs, hd⟩
        · rw [hnext hs, ho, Nests, brackets, and_iff_right hd]
        · exact iff_of_false (hfault hs) fun h => hd h.1

end Scan

/-- A text that can be read is one that the scan gets through with no loop left open. -/
theorem parse_eq_ok_iff {source : String} {c : Config} {p : Program} :
    parse source c = .ok p ↔
      ∃ s, (Scan.start c).steps c.maxDepth 0 source.toList = .ok s ∧ s.openLoops.size = 0 ∧
        p = s.program c := by
  unfold parse scan
  cases hs : (Scan.start c).steps c.maxDepth 0 source.toList with
  | error e => simp
  | ok s =>
    cases hb : s.openLoops.back? with
    | some index =>
      have hne : s.openLoops.size ≠ 0 := by
        intro h
        rw [Array.size_eq_zero_iff] at h
        simp [h] at hb
      simp only [hb]
      exact iff_of_false nofun fun ⟨_, he, hz, _⟩ => hne (Except.ok.inj he ▸ hz)
    | none =>
      have hzero : s.openLoops.size = 0 := by simpa using hb
      simp only [hb, Except.ok.injEq]
      exact ⟨fun h => ⟨s, rfl, hzero, h.symm⟩, fun ⟨_, rfl, _, h⟩ => h.symm⟩

/-- A text can be read just if its brackets nest. -/
theorem exists_parse_iff (source : String) (c : Config) :
    (∃ p, parse source c = .ok p) ↔ Nests c.maxDepth 0 (brackets source.toList) := by
  rw [show (0 : Nat) = (Scan.start c).openLoops.size from rfl, ← Scan.exists_steps_iff _ 0]
  simp only [parse_eq_ok_iff]
  constructor
  · rintro ⟨_, s, hs, hz, -⟩
    exact ⟨s, hs, hz⟩
  · rintro ⟨s, hs, hz⟩
    exact ⟨_, s, hs, hz, rfl⟩

end TapeLang
