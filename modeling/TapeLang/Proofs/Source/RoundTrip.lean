import TapeLang.Program.Printer
import TapeLang.Proofs.Source.NormalForm

/-!
# Writing and reading again

The text of a program is read block by block as it was written: neighbours that would join have a
barrier between them, and a barrier cancels out. What comes back is reduced to the operations it was
written from.

* `spelled`: the operations of a written text with its barriers, not reduced.
* `blocks_written`: the blocks of a written text are the runs that were written.
* `reduce_spelled`: reduced, they are the operations that were to be written.
* `parse_source`: a written program reads back as itself.
-/

namespace TapeLang

namespace Source

open Program

/-! ## What is written -/

/-- A count that can be written: neither idle nor a full turn. -/
def Proper (length : Nat) : Op → Prop
  | .move n => 0 < n ∧ n < length
  | .add n => 0 < n ∧ n < cellModulus
  | _ => True

/-- What a barrier spells. -/
def gapOp (previous : Op) : Op := if previous.isMove then .add 0 else .move 0

/-- What stands between `previous` and `op`. -/
def gaps {α : Type} (gap : Op → α) (beforeThat previous : Option Op) (op : Op) : List α :=
  if needsBarrier beforeThat previous op then (previous.map gap).toList else []

/-- The blocks of one operation by itself. -/
def opBlocks (length : Nat) : Op → List (List Char)
  | .reset => [['['], ['-'], [']']]
  | op => [opSource length op]

/-- The operations that the text of one operation spells. -/
def opSpelled : Op → List Op
  | .reset => [.loopStart, .add (cellModulus - 1), .loopEnd]
  | op => [op]

/-- The blocks of the text of `ops` behind `previous` and `beforeThat`. -/
def written (length : Nat) (beforeThat previous : Option Op) : List Op → List (List Char)
  | [] => []
  | op :: rest =>
    gaps barrier beforeThat previous op ++ (opBlocks length op ++
      written length previous (some op) rest)

/-- The operations of these blocks. -/
def spelled (beforeThat previous : Option Op) : List Op → List Op
  | [] => []
  | op :: rest =>
    gaps gapOp beforeThat previous op ++ (opSpelled op ++ spelled previous (some op) rest)

variable {length : Nat} {beforeThat previous : Option Op} {op : Op} {ops : List Op}

theorem opSpelled_eq (h : op ≠ .reset) : opSpelled op = [op] := by
  cases op <;> first | rfl | exact absurd rfl h

theorem flatten_opBlocks (length : Nat) (op : Op) :
    (opBlocks length op).flatten = opSource length op := by
  cases op <;> simp [opBlocks, opSource]

theorem flatten_written (length : Nat) (beforeThat previous : Option Op) (ops : List Op) :
    (written length beforeThat previous ops).flatten =
      (sourceFrom length beforeThat previous ops).flatten := by
  induction ops generalizing beforeThat previous with
  | nil => rfl
  | cons op rest ih =>
    have hgap : (gaps barrier beforeThat previous op).flatten =
        if needsBarrier beforeThat previous op then previous.elim [] barrier else [] := by
      unfold gaps
      split
      · cases previous <;> simp
      · rfl
    simp only [written, sourceFrom, List.flatten_append, List.flatten_cons, ih, hgap,
      flatten_opBlocks, List.append_assoc]

/-! ## Runs -/

theorem net_replicate_forward {forward back : Char} (hne : forward ≠ back) {n modulus : Nat}
    (hn : n < modulus) : net forward back modulus (List.replicate n forward) = n := by
  apply Int.natCast_inj.mp
  rw [natCast_net (by omega), List.count_replicate_self, List.count_replicate]
  simp only [beq_iff_eq, if_neg hne]
  exact Int.emod_eq_of_lt (by omega) (by omega)

theorem net_replicate_back {forward back : Char} (hne : forward ≠ back) {n modulus : Nat}
    (hpos : 0 < n) (hn : n < modulus) :
    net forward back modulus (List.replicate (modulus - n) back) = n := by
  apply Int.natCast_inj.mp
  have hturn : (0 : Int) - (modulus - n : Nat) + modulus = n := by omega
  rw [natCast_net (by omega), List.count_replicate_self, List.count_replicate]
  simp only [beq_iff_eq, if_neg hne.symm]
  rw [← Int.add_emod_right, Int.natCast_zero, hturn]
  exact Int.emod_eq_of_lt (by omega) (by omega)

theorem net_shortestRun {forward back : Char} (hne : forward ≠ back) {n modulus : Nat}
    (hpos : 0 < n) (hn : n < modulus) :
    net forward back modulus (shortestRun n modulus forward back) = n := by
  unfold shortestRun
  split
  · exact net_replicate_forward hne hn
  · exact net_replicate_back hne hpos hn

/-- A run that is written has one of two characters, and is not empty. -/
theorem exists_shortestRun {forward back : Char} {n modulus : Nat} (hpos : 0 < n)
    (hn : n < modulus) :
    ∃ ch rest, shortestRun n modulus forward back = ch :: rest ∧
      ∀ a ∈ ch :: rest, a = forward ∨ a = back := by
  have hne : shortestRun n modulus forward back ≠ [] := by
    unfold shortestRun
    split <;> simp <;> omega
  obtain ⟨ch, rest, hrun⟩ := List.exists_cons_of_ne_nil hne
  refine ⟨ch, rest, hrun, fun a ha => ?_⟩
  rw [← hrun, shortestRun] at ha
  split at ha
  · exact .inl (List.eq_of_mem_replicate ha)
  · exact .inr (List.eq_of_mem_replicate ha)

theorem isBlock_opSource (hop : Proper length op) (hne : op ≠ .reset) :
    IsBlock true (opSource length op) ∧ blockOp length (opSource length op) = op := by
  cases op with
  | move n =>
    obtain ⟨ch, rest, hrun, hall⟩ :=
      @exists_shortestRun '>' '<' n length hop.1 hop.2
    have hmove : ∀ a ∈ ch :: rest, isMovement a := fun a ha => by
      rcases hall a ha with rfl | rfl <;> rfl
    rw [opSource, hrun]
    refine ⟨.movements rfl hmove, ?_⟩
    rw [blockOp_of_isMovement (hmove ch (List.mem_cons_self ..)), ← hrun,
      net_shortestRun (by decide) hop.1 hop.2]
  | add n =>
    obtain ⟨ch, rest, hrun, hall⟩ :=
      @exists_shortestRun '+' '-' n cellModulus hop.1 hop.2
    have hadd : ∀ a ∈ ch :: rest, isAddition a := fun a ha => by
      rcases hall a ha with rfl | rfl <;> rfl
    rw [opSource, hrun]
    refine ⟨.additions rfl hadd, ?_⟩
    rw [blockOp_of_isAddition (hadd ch (List.mem_cons_self ..)), ← hrun,
      net_shortestRun (by decide) hop.1 hop.2]
  | reset => exact absurd rfl hne
  | loopStart | loopEnd | read | write => exact ⟨.single rfl, rfl⟩

theorem isBlock_opBlocks (hop : Proper length op) :
    (∀ b ∈ opBlocks length op, IsBlock true b) ∧
      (opBlocks length op).map (blockOp length) = opSpelled op := by
  by_cases hr : op = .reset
  · subst hr
    refine ⟨?_, rfl⟩
    simp only [opBlocks, List.mem_cons, List.not_mem_nil, or_false]
    rintro b (rfl | rfl | rfl) <;> exact .single rfl
  · have hb : opBlocks length op = [opSource length op] := by
      cases op <;> first | rfl | exact absurd rfl hr
    obtain ⟨hblock, heq⟩ := isBlock_opSource hop hr
    rw [hb, opSpelled_eq hr]
    exact ⟨by simpa using hblock, by simpa using heq⟩

theorem isBlock_gaps (length : Nat) (beforeThat previous : Option Op) (op : Op) :
    (∀ b ∈ gaps barrier beforeThat previous op, IsBlock true b) ∧
      (gaps barrier beforeThat previous op).map (blockOp length) =
        gaps gapOp beforeThat previous op := by
  have hbarrier (q : Op) : IsBlock true (barrier q) ∧ blockOp length (barrier q) = gapOp q := by
    unfold barrier gapOp
    split
    · exact ⟨.additions rfl (by simp [isAddition]), rfl⟩
    · refine ⟨.movements rfl (by simp [isMovement]), ?_⟩
      rw [blockOp_of_isMovement rfl]
      simp [net]
  unfold gaps
  split
  · cases previous with
    | none => exact ⟨by simp, rfl⟩
    | some q => simpa using hbarrier q
  · exact ⟨by simp, rfl⟩

theorem isBlock_written (hops : ∀ op ∈ ops, Proper length op) :
    (∀ b ∈ written length beforeThat previous ops, IsBlock true b) ∧
      (written length beforeThat previous ops).map (blockOp length) =
        spelled beforeThat previous ops := by
  induction ops generalizing beforeThat previous with
  | nil => exact ⟨nofun, rfl⟩
  | cons op rest ih =>
    obtain ⟨hg, hgmap⟩ := isBlock_gaps length beforeThat previous op
    obtain ⟨ho, homap⟩ := isBlock_opBlocks (hops op (List.mem_cons_self ..))
    obtain ⟨hr, hrmap⟩ := @ih previous (some op) fun a ha => hops a (List.mem_cons_of_mem op ha)
    constructor
    · intro b hb
      simp only [written, List.mem_append] at hb
      rcases hb with hb | hb | hb
      · exact hg b hb
      · exact ho b hb
      · exact hr b hb
    · simp only [written, spelled, List.map_append, hgmap, homap, hrmap]

/-! ## Neighbours -/

theorem join?_gapOp (length : Nat) (q : Op) : join? length q (gapOp q) = none := by
  cases q <;> rfl

/-- Behind a barrier an operation does not join, and where there is none it does not need one. -/
theorem join?_of_needsBarrier {q : Op} :
    if needsBarrier beforeThat (some q) op then join? length (gapOp q) op = none
    else join? length q op = none := by
  split
  case isTrue h =>
    cases op <;> cases q <;> first | rfl | cases h
  case isFalse h =>
    cases op <;> cases q <;> first | rfl | exact absurd rfl h

theorem isChain_opSpelled
    (h : (op :: ops).IsChain fun a b => join? length a b = none) :
    (opSpelled op ++ ops).IsChain fun a b => join? length a b = none := by
  by_cases hr : op = .reset
  · subst hr
    have hend : (Op.loopEnd :: ops).IsChain fun a b => join? length a b = none :=
      List.isChain_cons.mpr ⟨fun _ _ => rfl, h.tail⟩
    exact List.isChain_cons_cons.mpr ⟨rfl, List.isChain_cons_cons.mpr ⟨rfl, hend⟩⟩
  · rwa [opSpelled_eq hr]

theorem join?_head_opSpelled {q : Op} (h : join? length q op = none) :
    ∀ b ∈ (opSpelled op ++ ops).head?, join? length q b = none := by
  cases op with
  | reset =>
    simp only [opSpelled, List.cons_append, List.head?_cons, Option.mem_def, Option.some.injEq]
    rintro b rfl
    exact join?_eq_none rfl rfl q
  | _ => simpa [opSpelled] using h

/-- No two neighbours in a written text join. -/
theorem isChain_spelled (length : Nat) (beforeThat previous : Option Op) (ops : List Op) :
    (previous.toList ++ spelled beforeThat previous ops).IsChain
      fun a b => join? length a b = none := by
  induction ops generalizing beforeThat previous with
  | nil => cases previous <;> simp [spelled]
  | cons op rest ih =>
    have hop := isChain_opSpelled (ih previous (some op))
    cases previous with
    | none => simpa [spelled, gaps] using hop
    | some q =>
      have hfree := @join?_of_needsBarrier length beforeThat op q
      unfold spelled gaps
      split at hfree
      case isTrue hb =>
        rw [if_pos hb]
        exact List.isChain_cons_cons.mpr
          ⟨join?_gapOp length q, List.isChain_cons.mpr ⟨join?_head_opSpelled hfree, hop⟩⟩
      case isFalse hb =>
        rw [if_neg hb]
        exact List.isChain_cons.mpr ⟨join?_head_opSpelled hfree, hop⟩

/-- Blocks whose operations do not join stand apart. -/
theorem joins_eq_false {a b : List Char} (ha : IsBlock true a) (hb : IsBlock true b)
    (h : join? length (blockOp length a) (blockOp length b) = none) :
    ∃ hna hnb, joins true (a.getLast hna) (b.head hnb) = false := by
  have hne {block : List Char} (hblock : IsBlock true block) : block ≠ [] := by
    cases hblock <;> exact List.cons_ne_nil _ _
  refine ⟨hne ha, hne hb, Bool.eq_false_iff.mpr fun hj => ?_⟩
  have hlast := exists_blockOp ha (List.getLast_mem (hne ha)) length
  have hfirst := exists_blockOp hb (List.head_mem (hne hb)) length
  simp only [joins, Bool.true_and, Bool.or_eq_true, Bool.and_eq_true] at hj
  rcases hj with ⟨hja, hjb⟩ | ⟨hja, hjb⟩
  · obtain ⟨m, hm⟩ := hlast.1 hja
    obtain ⟨n, hn⟩ := hfirst.1 hjb
    rw [hm, hn] at h
    cases h
  · obtain ⟨m, hm⟩ := hlast.2 hja
    obtain ⟨n, hn⟩ := hfirst.2 hjb
    rw [hm, hn] at h
    cases h

theorem isChain_of_isBlock {block : List Char} (h : IsBlock true block) :
    block.IsChain fun a b => joins true a b := by
  cases h with
  | single => exact List.isChain_singleton _
  | additions _ h =>
    refine List.Pairwise.isChain (List.pairwise_of_forall_mem_list fun a ha b hb => ?_)
    simp [joins, h a ha, h b hb]
  | movements _ h =>
    refine List.Pairwise.isChain (List.pairwise_of_forall_mem_list fun a ha b hb => ?_)
    simp [joins, h a ha, h b hb]

/-- A written text is read in the blocks it was written in. -/
theorem blocks_written (hops : ∀ op ∈ ops, Proper length op) :
    blocks true (sourceFrom length none none ops).flatten = written length none none ops := by
  obtain ⟨hblock, hmap⟩ := @isBlock_written length none none ops hops
  have hchain := isChain_spelled length none none ops
  rw [Option.toList_none, List.nil_append, ← hmap, List.isChain_map] at hchain
  have hcommands : commands (written length none none ops).flatten =
      (written length none none ops).flatten := by
    refine List.filter_eq_self.mpr fun ch hch => ?_
    obtain ⟨b, hb, hch⟩ := List.mem_flatten.mp hch
    exact isCommand_of_mem_isBlock (hblock b hb) hch
  rw [← flatten_written, blocks, hcommands, List.splitBy_flatten]
  · intro hnil
    cases hblock [] hnil
  · exact fun b hb => isChain_of_isBlock (hblock b hb)
  · exact hchain.imp_of_mem_imp fun a b ha hb h => joins_eq_false (hblock a ha) (hblock b hb) h

/-! ## Reducing -/

theorem reduce_gaps (clearLoops : Bool) (beforeThat previous : Option Op) (op : Op)
    (ops : List Op) :
    reduce clearLoops (gaps gapOp beforeThat previous op ++ ops) = reduce clearLoops ops := by
  unfold gaps
  split
  · cases previous with
    | none => rfl
    | some q =>
      refine reduce_idle ?_ ops
      unfold gapOp
      split <;> rfl
  · rfl

theorem isIdle_of_proper (h : Proper length op) : op.isIdle = false := by
  cases op with
  | move n => exact beq_eq_false_iff_ne.mpr (Nat.ne_of_gt h.1)
  | add n => exact beq_eq_false_iff_ne.mpr (Nat.ne_of_gt h.1)
  | _ => rfl

/-- A barrier stands between a single step and the end of its loop. -/
theorem spelled_ne_loopEnd {step : Op} (hu : step.isUnitAdd) (ops behind : List Op) :
    spelled (some .loopStart) (some step) ops ≠ .loopEnd :: behind := by
  cases ops with
  | nil => exact nofun
  | cons op rest =>
    intro h
    unfold spelled gaps at h
    split at h
    case isTrue =>
      have hgap : gapOp step = .loopEnd := (List.cons.inj h).1
      cases step <;> cases hgap
    case isFalse hb =>
      cases op with
      | loopEnd => exact hb (by simpa [needsBarrier] using hu)
      | _ => cases (List.cons.inj h).1

/-- The text of a loop that does not clear its cell is not read as one that does. -/
theorem behindClear?_spelled (hops : ∀ op ∈ ops, Proper length op) (beforeThat : Option Op) :
    behindClear? (spelled beforeThat (some .loopStart) ops) = none := by
  cases ops with
  | nil => rfl
  | cons op rest =>
    have hgap : gaps gapOp beforeThat (some .loopStart) op = [] := by cases op <;> rfl
    refine Option.eq_none_iff_forall_ne_some.mpr fun behind h => ?_
    rw [spelled, hgap, List.nil_append] at h
    by_cases hr : op = .reset
    · subst hr
      cases ((behindClear?_cons rfl).mp h).1
    · rw [opSpelled_eq hr] at h
      obtain ⟨hu, hend⟩ :=
        (behindClear?_cons (isIdle_of_proper (hops op (List.mem_cons_self ..)))).mp h
      exact spelled_ne_loopEnd hu rest behind hend

/-- Reduced, a written text is what was to be written. -/
theorem reduce_spelled {clearLoops : Bool} (hops : ∀ op ∈ ops, Proper length op)
    (hr : .reset ∈ ops → clearLoops = true) (beforeThat previous : Option Op) :
    reduce clearLoops (spelled beforeThat previous ops) = ops := by
  induction ops generalizing beforeThat previous with
  | nil => exact reduce_nil clearLoops
  | cons op rest ih =>
    have hrest : ∀ a ∈ rest, Proper length a := fun a ha => hops a (List.mem_cons_of_mem op ha)
    have hback := ih hrest (fun h => hr (List.mem_cons_of_mem op h)) previous (some op)
    rw [spelled, reduce_gaps]
    by_cases hreset : op = .reset
    · subst hreset
      obtain rfl := hr (List.mem_cons_self ..)
      exact (reduce_clear ((behindClear?_cons rfl).mpr ⟨rfl, rfl⟩)).trans
        (congrArg _ hback)
    · rw [opSpelled_eq hreset, List.singleton_append]
      by_cases hstart : op = .loopStart
      · subst hstart
        rw [reduce_loopStart fun _ => behindClear?_spelled hrest _, hback]
      · rw [reduce_cons hstart (isIdle_of_proper (hops op (List.mem_cons_self ..))), hback]

/-! ## Programs -/

/-- What is read is proper. -/
theorem proper_normalForm (hpos : 0 < length) {o : Optimisations} {text : List Char}
    (h : op ∈ normalForm length o text) : Proper length op := by
  rcases mem_reduce h with ⟨rfl, -⟩ | ⟨hmem, hidle⟩
  · exact trivial
  · obtain ⟨block, -, hop⟩ := List.mem_map.mp hmem
    have hcount : 0 < op.count := Nat.pos_of_ne_zero (beq_eq_false_iff_ne.mp hidle)
    unfold blockOp at hop
    split at hop <;> subst hop
    case h_5 | h_6 => exact ⟨hcount, net_lt (by decide) ..⟩
    case h_7 => exact ⟨hcount, net_lt hpos ..⟩
    all_goals exact trivial

/-- A written text has the normal form it was written from. -/
theorem normalForm_source {p : Program} (hops : ∀ op ∈ p.ops, Proper p.tapeLength op)
    {o : Optimisations} (hj : o.joinRuns = true) (hr : .reset ∈ p.ops → o.clearLoops = true) :
    normalForm p.tapeLength o p.source.toList = p.ops := by
  rw [normalForm, hj, source, String.toList_ofList, blocks_written hops,
    (isBlock_written hops).2, reduce_spelled hops hr]

/-- A program that is written and read again is the same. -/
theorem parse_source {source : String} {c : Config} {p : Program} (h : parse source c = .ok p)
    {o : Optimisations} (hj : o.joinRuns = true) (hr : .reset ∈ p.ops → o.clearLoops = true) :
    ∃ q, parse p.source (c.withOptimisations o) = .ok q ∧ q.ops = p.ops ∧
      q.source = p.source := by
  have hlength := tapeLength_of_parse h
  have hops := ops_of_parse h
  have hproper : ∀ op ∈ p.ops, Proper p.tapeLength op := fun op hop =>
    proper_normalForm p.tapeLength_pos (hlength ▸ hops ▸ hop)
  have hform := normalForm_source hproper hj hr
  have hbrackets : brackets p.source.toList = brackets source.toList := by
    rw [← brackets_normalForm p.tapeLength o, hform, hops, brackets_normalForm]
  obtain ⟨q, hq⟩ := (exists_parse_iff p.source (c.withOptimisations o)).mpr
    (hbrackets ▸ (exists_parse_iff source c).mp ⟨p, h⟩)
  have hqops : q.ops = p.ops := by
    rw [ops_of_parse hq, ← hform, hlength]
    rfl
  have hqlength : q.tapeLength = p.tapeLength := (tapeLength_of_parse hq).trans hlength.symm
  exact ⟨q, hq, hqops, by rw [Program.source, Program.source, hqops, hqlength]⟩

/-- On two cells `>` and `<` are the same step. Nothing is joined or cleared at first, so neighbours
and the loop keep their barriers. -/
theorem parse_source_two_cells : ∃ p q : Program,
    parse "+-<++[-]" ⟨2, 256, ⟨false, false⟩, by decide, by decide⟩ = .ok p ∧
    p.source = "+><->+><+[-><]" ∧
    parse p.source ⟨2, 256, .all, by decide, by decide⟩ = .ok q ∧
    q.ops = p.ops ∧ q.source = p.source := by
  obtain ⟨p, hp, hr, hs⟩ : ∃ p : Program,
      parse "+-<++[-]" ⟨2, 256, ⟨false, false⟩, by decide, by decide⟩ = .ok p ∧
      .reset ∉ p.ops ∧ p.source = "+><->+><+[-><]" :=
    ⟨_, rfl, by decide +kernel, by decide +kernel⟩
  obtain ⟨q, hq, hops, hsource⟩ := @parse_source _ _ _ hp .all rfl fun h => absurd h hr
  exact ⟨p, q, hp, hs, hq, hops, hsource⟩

end Source

end TapeLang
