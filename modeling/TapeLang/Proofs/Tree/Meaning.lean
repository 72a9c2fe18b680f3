import TapeLang.Proofs.Tree.Interpreter
import TapeLang.Proofs.Tree.Parser
import TapeLang.Stream.Cursor

/-!
# What a program means

The interpreter is compared with the tree of a program, and its runs of two programs that come from
one text. Both are said for every tape of the right length and every device; a device may fail at any
moment, and may never let a program come to its end.

* `agrees_tree`: the interpreter does what the tree says.
* `agrees_withOptimisations`: optimisations change nothing that can be observed.
-/

namespace TapeLang

open Course

variable {σ : Type}

/-! ## Courses from a bound on -/

theorem Tree.Alike.course_eq {length : Nat} {t u : Tree} (h : Tree.Alike length t u)
    (d : Device byteStream σ) {tape : Tape} (hl : tape.length = length) (world : σ) {n : Nat}
    (hn : 256 ≤ n) : t.course d tape world n = u.course d tape world n := by
  simp only [Tree.course]
  rw [h _ d _ n tape _ hn hl]

namespace Interpreter

variable {source : String} {c : Config} {p : Program}

/-- The interpreter agrees with the tree of its instructions, the only one there is. -/
theorem agrees_tree (h : parse source c = .ok p) (hm : 8 * p.maxDepth ≤ sizeLimit) :
    ∃ t : Tree, (∀ u : Tree, u.flatten = p.instructions.toList ↔ u = t) ∧
      ∀ (σ : Type) (d : Device byteStream σ) (tape : Tape) (world : σ),
        tape.length = p.tapeLength →
        (course (step p) d.logged (start tape) (world, #[])).Agrees
          (t.course d.logged tape (world, #[])) := by
  obtain ⟨t, ht, -⟩ := exists_tree h
  refine ⟨t, fun u => ⟨fun hu => Tree.flatten_injective (hu.trans ht.symm), fun hu => hu ▸ ht⟩, ?_⟩
  intro σ d tape world hl
  exact (tracks ht hm hl d.logged (world, #[])).agrees (course_stays _ _ _ _) (course_grows _ _ _ _)

theorem agrees_tree_echo :
    ∃ (p : Program) (t : Tree), parse ",[.,]" .standard = .ok p ∧
      t.flatten = p.instructions.toList ∧
      (course (step p) (Cursor.source.beside collecting).logged
        (start (.blank 30000 (by decide))) ((.ofBytes #[1, 0], #[]), #[])).Agrees
        (t.course (Cursor.source.beside collecting).logged (.blank 30000 (by decide))
          ((.ofBytes #[1, 0], #[]), #[])) := by
  obtain ⟨p, hp⟩ : ∃ p, parse ",[.,]" .standard = .ok p := ⟨_, rfl⟩
  have hdepth : p.maxDepth = 256 := maxDepth_of_parse hp
  obtain ⟨t, ht, ha⟩ := agrees_tree hp (by rw [hdepth]; decide)
  exact ⟨p, t, hp, (ht t).mpr rfl, ha _ _ _ _ (tapeLength_of_parse hp).symm⟩

/-! ## Optimisations -/

/-- A stack for too many loops: the run ends in a crash after its first request. -/
theorem course_of_deep (hm : sizeLimit < 8 * p.maxDepth) {tape : Tape}
    (hl : tape.length = p.tapeLength) (d : Device byteStream σ) (world : σ) :
    course (step p) d (start tape) world = fun
      | 0 => (none, world)
      | 1 => (none, (d .canPeek world).2)
      | _ => (some ⟨.crashed .capacityOverflow, tape⟩, (d .canPeek world).2) := by
  have hopen : step p (start tape) = .ask .canPeek (opened p (start tape)) := by
    simp [step, start, hl]
  have hclosed (b : Bool) : opened p (start tape) b =
      (start tape).close (.crashed .capacityOverflow) := if_pos hm
  funext n
  rcases n with _ | _ | n
  · rfl
  · rw [course, run_ask hopen]
    rfl
  · rw [course, run_ask hopen, hclosed]
    rfl

/-- The interpreter agrees with itself on the programs that a text gives with any two sets of
optimisations. -/
theorem agrees_withOptimisations (h : parse source c = .ok p) (o : Optimisations) :
    ∃ q : Program, parse source (c.withOptimisations o) = .ok q ∧
      ∀ (σ : Type) (d : Device byteStream σ) (tape : Tape) (world : σ),
        tape.length = c.tapeLength →
        (course (step p) d.logged (start tape) (world, #[])).Agrees
          (course (step q) d.logged (start tape) (world, #[])) := by
  obtain ⟨q, hq⟩ := parse_withOptimisations h o
  refine ⟨q, hq, fun σ d tape world hl => ?_⟩
  have hp : tape.length = p.tapeLength := hl.trans (tapeLength_of_parse h).symm
  have hq' : tape.length = q.tapeLength := hl.trans (tapeLength_of_parse hq).symm
  have hdepth : q.maxDepth = p.maxDepth := (maxDepth_of_parse hq).trans (maxDepth_of_parse h).symm
  by_cases hm : 8 * p.maxDepth ≤ sizeLimit
  · obtain ⟨t, ht, hts⟩ := exists_tree h
    obtain ⟨u, hu, hus⟩ := exists_tree hq
    -- both trees simplify the tree of the text, so the two machines track one evaluator
    have halike : Tree.Alike c.tapeLength u t := hus.alike.trans hts.alike.symm
    have hpt := (tracks ht hm hp d.logged (world, #[])).shift 256
    have hqu := (tracks hu (hdepth ▸ hm) hq' d.logged (world, #[])).shift 256
    have heval : (fun n => u.course d.logged tape (world, #[]) (n + 256)) =
        fun n => t.course d.logged tape (world, #[]) (n + 256) :=
      funext fun n => halike.course_eq d.logged hl (world, #[]) (Nat.le_add_left 256 n)
    rw [heval] at hqu
    exact (hpt.agrees (course_stays _ _ _ _) (course_grows _ _ _ _)).trans
      (hqu.agrees (course_stays _ _ _ _) (course_grows _ _ _ _)).symm
  · have hm := Nat.lt_of_not_le hm
    rw [course_of_deep hm hp, course_of_deep (hdepth ▸ hm) hq']
    exact .refl _

theorem agrees_withOptimisations_clear :
    ∃ p q : Program, parse ",>+<[-]+[>.<]" .standard = .ok p ∧
      parse ",>+<[-]+[>.<]" (Config.standard.withOptimisations ⟨false, false⟩) = .ok q ∧
      (course (step p) (Cursor.source.beside collecting).logged
        (start (.blank 30000 (by decide))) ((.ofBytes #[7], #[]), #[])).Agrees
        (course (step q) (Cursor.source.beside collecting).logged
          (start (.blank 30000 (by decide))) ((.ofBytes #[7], #[]), #[])) := by
  obtain ⟨p, hp⟩ : ∃ p, parse ",>+<[-]+[>.<]" .standard = .ok p := ⟨_, rfl⟩
  obtain ⟨q, hq, ha⟩ := agrees_withOptimisations hp ⟨false, false⟩
  exact ⟨p, q, hp, hq, ha _ _ _ _ rfl⟩

end Interpreter

end TapeLang
