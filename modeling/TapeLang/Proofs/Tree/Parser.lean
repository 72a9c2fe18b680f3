import TapeLang.Program.Parser
import TapeLang.Proofs.Tree.Alike

/-!
# The tree of a text

The parts of a text between its open brackets are read as trees, without any optimisation. What the
fuser holds is, part by part, a simplification of these trees: a tree that does the same and whose
counts are reduced.

* `Levels.read`: the trees of a text.
* `Simplifies`, `Holds`: what the fuser holds, for any optimisations.
* `Holds.step`: each character keeps that.
* `exists_tree`: a program that was read is a tree, and a simplification of the tree of its text.
* `parse_withOptimisations`: a text can be read with all optimisations or with none.
-/

namespace TapeLang

/-! ## Trees of a text -/

/-- The tree since the innermost open bracket, and those in front of each open bracket, innermost
first. -/
structure Levels where
  here : Tree
  outer : List Tree

namespace Levels

def command (l : Levels) (c : Command) (index : Nat) : Levels :=
  { l with here := l.here ++ .command c (some (.single index)) .nil }

/-- Take in the character `ch` at `index`. -/
def step (length : Nat) (l : Levels) (index : Nat) (ch : Char) : Levels :=
  match ch with
  | '>' => l.command (.move 1) index
  | '<' => l.command (.move (length - 1)) index
  | '+' => l.command (.add 1) index
  | '-' => l.command (.add (cellModulus - 1)) index
  | ',' => l.command .read index
  | '.' => l.command .write index
  | '[' => ⟨.nil, l.here :: l.outer⟩
  | ']' =>
    match l.outer with
    | [] => l
    | before :: outer => ⟨before ++ .loop none none l.here .nil, outer⟩
  | _ => l

def steps (length : Nat) (l : Levels) (index : Nat) : List Char → Levels
  | [] => l
  | ch :: rest => (l.step length index ch).steps length (index + 1) rest

/-- The tree of a text without optimisations, for a tape of `length` cells. -/
def read (length : Nat) (source : String) : Levels := steps length ⟨.nil, []⟩ 0 source.toList

end Levels

/-! ## Simplifications -/

/-- A move is shorter than the tape, an addition is one to a byte. -/
def Command.Reduced (length : Nat) : Command → Prop
  | move n => n < length
  | add n => n < cellModulus
  | _ => True

def Tree.Reduced (length : Nat) : Tree → Prop
  | nil => True
  | command c _ rest => c.Reduced length ∧ rest.Reduced length
  | loop _ _ body rest => body.Reduced length ∧ rest.Reduced length

@[simp] theorem Tree.reduced_append {length : Nat} (t u : Tree) :
    (t ++ u).Reduced length ↔ t.Reduced length ∧ u.Reduced length := by
  induction t with
  | nil => simp [Reduced]
  | command c p rest ih => simp [Reduced, ih, and_assoc]
  | loop o c body rest _ ih => simp [Reduced, ih, and_assoc]

/-- `t` does what `r` does, with reduced counts. -/
structure Simplifies (length : Nat) (t r : Tree) : Prop where
  alike : Tree.Alike length t r
  reduced : t.Reduced length

namespace Simplifies

variable {length : Nat} {t t' r r' : Tree}

theorem nil : Simplifies length .nil .nil := ⟨.refl .nil, trivial⟩

theorem append (h : Simplifies length t r) (h' : Simplifies length t' r') :
    Simplifies length (t ++ t') (r ++ r') :=
  ⟨h.alike.append h'.alike, (Tree.reduced_append t t').mpr ⟨h.reduced, h'.reduced⟩⟩

theorem trans_left (h' : Simplifies length t' r) (h : Tree.Alike length t t')
    (ht : t.Reduced length) : Simplifies length t r :=
  ⟨h.trans h'.alike, ht⟩

theorem command {c : Command} (hc : c.Reduced length) (p : Option Position) :
    Simplifies length (.command c p .nil) (.command c p .nil) :=
  ⟨.refl _, hc, trivial⟩

theorem loop {o c o' c' : Option Position} (h : Simplifies length t r) :
    Simplifies length (.loop o c t .nil) (.loop o' c' r .nil) :=
  ⟨h.alike.loop, h.reduced, trivial⟩

end Simplifies

/-! ## What the fuser holds -/

/-- The newest of `ys` is an open bracket, if there is any. -/
def IsBelow (ys : List Instruction) : Prop := ∀ i ∈ ys.head?, i.op = .loopStart

/-- A newest instruction that is a command is the last command of the newest tree. -/
theorem eq_snoc_of_reverse {t : Tree} {c : Command} {p : Option Position}
    {ys rest : List Instruction} (hy : IsBelow ys)
    (h : t.flatten.reverse ++ ys = ⟨c.op, p⟩ :: rest) :
    ∃ u, t = u ++ .command c p .nil ∧ rest = u.flatten.reverse ++ ys := by
  rcases t.eq_nil_or_snoc with rfl | ⟨u, c', p', rfl⟩ | ⟨u, o, q, b, rfl⟩
  · rw [Tree.flatten, List.reverse_nil, List.nil_append] at h
    exact absurd (hy ⟨c.op, p⟩ (by rw [h]; rfl)) c.op_ne_loopStart
  · simp [Tree.flatten] at h
    obtain ⟨⟨hc, rfl⟩, rfl⟩ := h
    exact ⟨u, by rw [Command.op_injective hc], rfl⟩
  · simp [Tree.flatten] at h
    exact absurd h.1.1.symm c.op_ne_loopEnd

/-- A newest instruction that is an open bracket stands below an empty tree. -/
theorem eq_nil_of_reverse {t : Tree} {i : Instruction} {ys rest : List Instruction}
    (hi : i.op = .loopStart) (h : t.flatten.reverse ++ ys = i :: rest) :
    t = .nil ∧ ys = i :: rest := by
  rcases t.eq_nil_or_snoc with rfl | ⟨u, c, p, rfl⟩ | ⟨u, o, q, b, rfl⟩
  · exact ⟨rfl, h⟩
  · simp [Tree.flatten] at h
    rw [← h.1] at hi
    exact absurd hi c.op_ne_loopStart
  · simp [Tree.flatten] at h
    rw [← h.1] at hi
    cases hi

theorem exists_command_of_idle {op : Op} (h : op.isIdle) : ∃ c : Command, c.op = op := by
  cases op with
  | move n => exact ⟨.move n, rfl⟩
  | add n => exact ⟨.add n, rfl⟩
  | _ => simp [Op.isIdle, Op.count] at h

namespace Fuser

variable {f : Fuser} {t r : Tree} {ys : List Instruction}

theorem settled_spec (hf : f.instructions = t.flatten.reverse ++ ys) (hy : IsBelow ys)
    (h : Simplifies f.tapeLength t r) :
    ∃ u, f.settled = u.flatten.reverse ++ ys ∧ Simplifies f.tapeLength u r := by
  unfold settled
  split
  case h_1 last rest heq =>
    split
    case isTrue hidle =>
      obtain ⟨c, hc⟩ := exists_command_of_idle hidle
      have hlast : last = ⟨c.op, last.position⟩ := by rw [hc]
      rw [hlast, hf] at heq
      obtain ⟨u, rfl, rfl⟩ := eq_snoc_of_reverse hy heq
      have hidle : c.op.isIdle := by rw [hc]; exact hidle
      have hdrop : Tree.Alike f.tapeLength (u ++ .command c last.position .nil) (u ++ .nil) :=
        (Tree.Alike.refl u).append (Tree.alike_idle hidle last.position)
      rw [Tree.append_nil] at hdrop
      exact ⟨u, rfl, h.trans_left hdrop.symm ((Tree.reduced_append _ _).mp h.reduced).1⟩
    case isFalse => exact ⟨t, hf, h⟩
  case h_2 heq =>
    rw [heq] at hf
    exact ⟨t, hf, h⟩

theorem append_spec (hf : f.instructions = t.flatten.reverse ++ ys) (hy : IsBelow ys)
    (h : Simplifies f.tapeLength t r) (c : Command) (p : Option Position) {u : Tree}
    (hc : Simplifies f.tapeLength (.command c p .nil) u) :
    ∃ v, (f.append c.op p).instructions = v.flatten.reverse ++ ys ∧
      Simplifies f.tapeLength v (r ++ u) := by
  obtain ⟨v, hv, hs⟩ := settled_spec hf hy h
  exact ⟨v ++ .command c p .nil, by simp [append, hv, Tree.flatten], hs.append hc⟩

/-- A newest command `c` is replaced by one that does what `c` and `c'` do. -/
theorem joinLast_spec (c c' joined : Command) {p q : Option Position} {rest : List Instruction}
    (hf : f.instructions = t.flatten.reverse ++ ys) (hy : IsBelow ys)
    (h : Simplifies f.tapeLength t r) (hlast : f.instructions = ⟨c.op, q⟩ :: rest)
    (hj : c.Reduced f.tapeLength → joined.Reduced f.tapeLength ∧
      Tree.Alike f.tapeLength (.command joined (Position.span q p) .nil)
        (.command c q (.command c' p .nil))) :
    ∃ u, (f.joinLast joined.op ⟨c.op, q⟩ rest p).instructions = u.flatten.reverse ++ ys ∧
      Simplifies f.tapeLength u (r ++ .command c' p .nil) := by
  rw [hf] at hlast
  obtain ⟨u, rfl, rfl⟩ := eq_snoc_of_reverse hy hlast
  obtain ⟨hu, hc⟩ := (Tree.reduced_append _ _).mp h.reduced
  obtain ⟨hred, hsum⟩ := hj hc.1
  refine ⟨u ++ .command joined (Position.span q p) .nil, by simp [joinLast, Tree.flatten], ?_, ?_⟩
  · have := h.alike.append (.refl (.command c' p .nil))
    rw [Tree.append_assoc] at this
    exact ((Tree.Alike.refl u).append hsum).trans this
  · exact (Tree.reduced_append _ _).mpr ⟨hu, hred, trivial⟩

theorem pushMove_spec (hf : f.instructions = t.flatten.reverse ++ ys) (hy : IsBelow ys)
    (h : Simplifies f.tapeLength t r) (hpos : 0 < f.tapeLength) (n : Nat)
    (p : Option Position) :
    ∃ u, (f.pushMove n p).instructions = u.flatten.reverse ++ ys ∧
      Simplifies f.tapeLength u (r ++ .command (.move n) p .nil) := by
  have hn := Nat.mod_lt n hpos
  unfold pushMove
  dsimp only
  split
  case h_1 m q rest _ heq =>
    refine joinLast_spec (.move m) (.move n) (.move _) hf hy h heq fun hm => ?_
    have hadd := addMod_eq hm hn
    refine ⟨by rw [hadd]; exact Nat.mod_lt _ hpos, ?_⟩
    refine (Tree.alike_move ?_ _ none).trans (Tree.alike_moves m n q p none).symm
    rw [hadd, Nat.mod_mod, Nat.add_mod_mod]
  case h_2 =>
    exact append_spec hf hy h (.move (n % f.tapeLength)) p
      ⟨Tree.alike_move (Nat.mod_mod _ _) p p, hn, trivial⟩

theorem pushAdd_spec (hf : f.instructions = t.flatten.reverse ++ ys) (hy : IsBelow ys)
    (h : Simplifies f.tapeLength t r) (n : Nat) (p : Option Position) :
    ∃ u, (f.pushAdd n p).instructions = u.flatten.reverse ++ ys ∧
      Simplifies f.tapeLength u (r ++ .command (.add n) p .nil) := by
  have hpos : 0 < cellModulus := by decide
  have hn := Nat.mod_lt n hpos
  unfold pushAdd
  dsimp only
  split
  case h_1 m q rest _ heq =>
    refine joinLast_spec (.add m) (.add n) (.add _) hf hy h heq fun hm => ?_
    have hadd := addMod_eq hm hn
    refine ⟨by rw [hadd]; exact Nat.mod_lt _ hpos, ?_⟩
    refine (Tree.alike_add ?_ _ none).trans (Tree.alike_adds m n q p none).symm
    rw [hadd, Nat.mod_mod, Nat.add_mod_mod]
  case h_2 =>
    exact append_spec hf hy h (.add (n % cellModulus)) p
      ⟨Tree.alike_add (Nat.mod_mod _ _) p p, hn, trivial⟩

/-- A loop is closed: the tree `t` since its bracket becomes its body, unless it is cleared. -/
theorem pushLoopEnd_spec {before rb : Tree} {o : Option Position} {below : List Instruction}
    (hf : f.instructions =
      t.flatten.reverse ++ ⟨.loopStart, o⟩ :: (before.flatten.reverse ++ below))
    (h : Simplifies f.tapeLength t r) (hb : Simplifies f.tapeLength before rb)
    (p : Option Position) :
    ∃ u, (f.pushLoopEnd p).instructions = u.flatten.reverse ++ below ∧
      Simplifies f.tapeLength u (rb ++ .loop none none r .nil) := by
  have hy : IsBelow (⟨.loopStart, o⟩ :: (before.flatten.reverse ++ below)) := by simp [IsBelow]
  have happend : ∃ u, (f.append .loopEnd p).instructions = u.flatten.reverse ++ below ∧
      Simplifies f.tapeLength u (rb ++ .loop none none r .nil) := by
    obtain ⟨v, hv, hs⟩ := settled_spec hf hy h
    exact ⟨before ++ .loop o p v .nil, by simp [append, hv, Tree.flatten], hb.append hs.loop⟩
  unfold pushLoopEnd
  split
  case h_1 body start rest _ heq =>
    split
    case isTrue hclear =>
      simp only [Bool.and_eq_true, beq_iff_eq] at hclear
      obtain ⟨n, hn⟩ : ∃ n, body.op = .add n := by
        simp only [Op.isUnitAdd, Bool.or_eq_true, beq_iff_eq] at hclear
        rcases hclear.1 with h | h <;> exact ⟨_, h⟩
      have hbody : body = ⟨(Command.add n).op, body.position⟩ := by rw [Command.op, ← hn]
      rw [hf, hbody] at heq
      obtain ⟨u, rfl, hu⟩ := eq_snoc_of_reverse hy heq
      obtain ⟨rfl, hrest⟩ := eq_nil_of_reverse hclear.2 hu.symm
      simp only [List.cons.injEq] at hrest
      obtain ⟨rfl, rfl⟩ := hrest
      have hreset : Simplifies f.tapeLength (.command .reset (Position.span o p) .nil)
          (.loop none none r .nil) :=
        ⟨(Tree.alike_clear (hn ▸ hclear.1) none none body.position _).symm.trans h.alike.loop,
          trivial, trivial⟩
      exact ⟨before ++ .command .reset (Position.span o p) .nil,
        by simp [joinLast, Tree.flatten, Command.op], hb.append hreset⟩
    case isFalse => exact happend
  case h_2 => exact happend

@[simp] theorem tapeLength_append (f : Fuser) (op : Op) (p : Option Position) :
    (f.append op p).tapeLength = f.tapeLength := rfl

@[simp] theorem tapeLength_pushMove (f : Fuser) (n : Nat) (p : Option Position) :
    (f.pushMove n p).tapeLength = f.tapeLength := by
  unfold pushMove
  dsimp only
  split <;> rfl

@[simp] theorem tapeLength_pushAdd (f : Fuser) (n : Nat) (p : Option Position) :
    (f.pushAdd n p).tapeLength = f.tapeLength := by
  unfold pushAdd
  dsimp only
  split <;> rfl

@[simp] theorem tapeLength_pushLoopEnd (f : Fuser) (p : Option Position) :
    (f.pushLoopEnd p).tapeLength = f.tapeLength := by
  unfold pushLoopEnd
  repeat' split
  all_goals rfl

end Fuser

/-! ## Scanning a text -/

/-- Instructions, newest first, that consist of open brackets and of simplifications of the trees in
front of them. -/
inductive Below (length : Nat) : List Instruction → List Tree → Prop
  | nil : Below length [] []
  | bracket {t r : Tree} {ys : List Instruction} {outer : List Tree} (p : Option Position) :
    Simplifies length t r → Below length ys outer →
    Below length (⟨.loopStart, p⟩ :: (t.flatten.reverse ++ ys)) (r :: outer)

theorem Below.isBelow {length : Nat} {ys : List Instruction} {outer : List Tree}
    (h : Below length ys outer) : IsBelow ys := by
  cases h <;> simp [IsBelow]

theorem Below.eq_nil {length : Nat} {ys : List Instruction} {outer : List Tree}
    (h : Below length ys outer) (ho : outer.length = 0) : ys = [] := by
  cases h with
  | nil => rfl
  | bracket => simp at ho

/-- A scan holds simplifications of the trees that have been read. -/
structure Holds (length : Nat) (s : Scan) (l : Levels) : Prop where
  tapeLength : s.fuser.tapeLength = length
  trees : ∃ t ys, s.fuser.instructions = t.flatten.reverse ++ ys ∧ Simplifies length t l.here ∧
    Below length ys l.outer
  openLoops : s.openLoops.size = l.outer.length

namespace Holds

variable {length maxDepth : Nat} {s s' : Scan} {l : Levels}

theorem start (c : Config) : Holds c.tapeLength (.start c) ⟨.nil, []⟩ where
  tapeLength := rfl
  trees := ⟨.nil, [], rfl, .nil, .nil⟩
  openLoops := rfl

/-- The fuser takes in a command. -/
theorem command (h : Holds length s l) {f : Fuser} {c : Command} {index : Nat}
    (hl : f.tapeLength = s.fuser.tapeLength)
    (hf : ∀ t r ys, s.fuser.instructions = t.flatten.reverse ++ ys → IsBelow ys →
      Simplifies s.fuser.tapeLength t r →
      ∃ u, f.instructions = u.flatten.reverse ++ ys ∧
        Simplifies s.fuser.tapeLength u (r ++ .command c (some (.single index)) .nil)) :
    Holds length { s with fuser := f } (l.command c index) := by
  obtain ⟨rfl, ⟨t, ys, ht, hs, hb⟩, ho⟩ := h
  obtain ⟨u, hu, hus⟩ := hf t l.here ys ht hb.isBelow hs
  exact ⟨hl, ⟨u, ys, hu, hus, hb⟩, ho⟩

theorem openLoop (h : Holds length s l) (index : Nat) (p : Option Position) :
    Holds length ⟨s.fuser.append .loopStart p, s.openLoops.push index⟩
      ⟨.nil, l.here :: l.outer⟩ := by
  obtain ⟨rfl, ⟨t, ys, ht, hs, hb⟩, ho⟩ := h
  obtain ⟨u, hu, hus⟩ := Fuser.settled_spec ht hb.isBelow hs
  refine ⟨rfl, ⟨.nil, _, ?_, .nil, .bracket p hus hb⟩, by simp [ho]⟩
  simp [Fuser.append, hu, Tree.flatten]

theorem closeLoop (h : Holds length s l) (he : s.openLoops.isEmpty = false) (index : Nat)
    (p : Option Position) :
    Holds length ⟨s.fuser.pushLoopEnd p, s.openLoops.pop⟩ (l.step length index ']') := by
  obtain ⟨here, outer⟩ := l
  obtain ⟨rfl, ⟨t, ys, ht, hs, hb⟩, ho⟩ := h
  cases hb with
  | nil =>
    have hsize : s.openLoops.size = 0 := ho
    simp [Array.isEmpty, hsize] at he
  | bracket q hbefore hbelow =>
    obtain ⟨u, hu, hus⟩ := Fuser.pushLoopEnd_spec ht hs hbefore p
    refine ⟨Fuser.tapeLength_pushLoopEnd _ _, ⟨u, _, hu, hus, hbelow⟩, ?_⟩
    simp at ho
    simp [Levels.step, ho]

/-- One character. -/
theorem step (h : Holds length s l) (hpos : 0 < length) {index : Nat} {ch : Char}
    (hs : s.step maxDepth index ch = .ok s') : Holds length s' (l.step length index ch) := by
  have hlen := h.tapeLength
  unfold Scan.step at hs
  split at hs
  case h_1 =>
    cases hs
    exact h.command (Fuser.tapeLength_pushMove _ _ _) fun t r ys ht hy hsim =>
      Fuser.pushMove_spec ht hy hsim (hlen ▸ hpos) 1 _
  case h_2 =>
    cases hs
    show Holds length _ (l.command (.move (length - 1)) index)
    rw [← hlen]
    exact (hlen ▸ h).command (Fuser.tapeLength_pushMove _ _ _) fun t r ys ht hy hsim =>
      Fuser.pushMove_spec ht hy hsim (hlen ▸ hpos) _ _
  case h_3 =>
    cases hs
    exact h.command (Fuser.tapeLength_pushAdd _ _ _) fun t r ys ht hy hsim =>
      Fuser.pushAdd_spec ht hy hsim 1 _
  case h_4 =>
    cases hs
    exact h.command (Fuser.tapeLength_pushAdd _ _ _) fun t r ys ht hy hsim =>
      Fuser.pushAdd_spec ht hy hsim _ _
  case h_5 =>
    cases hs
    exact h.command rfl fun t r ys ht hy hsim =>
      Fuser.append_spec ht hy hsim .read _ (@Simplifies.command _ .read trivial _)
  case h_6 =>
    cases hs
    exact h.command rfl fun t r ys ht hy hsim =>
      Fuser.append_spec ht hy hsim .write _ (@Simplifies.command _ .write trivial _)
  case h_7 =>
    split at hs
    · cases hs
    · cases hs
      exact h.openLoop index _
  case h_8 =>
    split at hs
    case isTrue => cases hs
    case isFalse he =>
      cases hs
      exact h.closeLoop (Bool.eq_false_iff.mpr he) index _
  case h_9 =>
    cases hs
    unfold Levels.step
    split <;> first | contradiction | exact h

theorem steps (h : Holds length s l) (hpos : 0 < length) {index : Nat} {text : List Char}
    (hs : s.steps maxDepth index text = .ok s') : Holds length s' (l.steps length index text) := by
  induction text generalizing s l index with
  | nil =>
    cases hs
    exact h
  | cons ch rest ih =>
    unfold Scan.steps at hs
    split at hs
    case h_1 s₁ hs₁ => exact ih (h.step hpos hs₁) hs
    case h_2 => cases hs

end Holds

/-! ## Whole texts -/

/-- A program that was read is a tree, which simplifies the tree of its text. -/
theorem exists_tree {source : String} {c : Config} {p : Program} (h : parse source c = .ok p) :
    ∃ t : Tree, t.flatten = p.instructions.toList ∧
      Simplifies c.tapeLength t (Levels.read c.tapeLength source).here := by
  unfold parse scan at h
  cases hs : (Scan.start c).steps c.maxDepth 0 source.toList with
  | error e => simp [hs] at h
  | ok s =>
    simp only [hs] at h
    have hholds := (Holds.start c).steps c.tapeLength_pos hs
    cases hb : s.openLoops.back? with
    | some index => simp [hb] at h
    | none =>
      simp only [hb, Except.ok.injEq] at h
      subst h
      obtain ⟨hlen, ⟨t, ys, ht, hsim, hbelow⟩, hopen⟩ := hholds
      have hnone : s.openLoops.size = 0 := by simpa using hb
      obtain rfl := hbelow.eq_nil (hopen.symm.trans hnone)
      rw [← hlen] at hsim
      obtain ⟨u, hu, hus⟩ := Fuser.settled_spec ht hbelow.isBelow hsim
      refine ⟨u, by simp [Scan.program, Fuser.finish, hu], ?_⟩
      rw [← hlen]
      simpa [Levels.read, hlen] using hus

theorem tapeLength_of_parse {source : String} {c : Config} {p : Program}
    (h : parse source c = .ok p) : p.tapeLength = c.tapeLength := by
  unfold parse at h
  split at h
  · cases h
  · cases h
    rfl

theorem maxDepth_of_parse {source : String} {c : Config} {p : Program}
    (h : parse source c = .ok p) : p.maxDepth = c.maxDepth := by
  unfold parse at h
  split at h
  · cases h
  · cases h
    rfl

/-! ## Success -/

/-- Only the open brackets decide whether a character can be taken in. -/
theorem Scan.step_openLoops {maxDepth : Nat} {s s' u : Scan} {index : Nat} {ch : Char}
    (he : s.openLoops = u.openLoops) (hs : s.step maxDepth index ch = .ok s') :
    ∃ u', u.step maxDepth index ch = .ok u' ∧ s'.openLoops = u'.openLoops := by
  obtain ⟨f, loops⟩ := s
  obtain ⟨g, _⟩ := u
  obtain rfl : loops = _ := he
  unfold Scan.step at hs ⊢
  split at hs
  case h_7 =>
    split at hs
    case isTrue => cases hs
    case isFalse hd =>
      cases hs
      exact ⟨_, if_neg hd, rfl⟩
  case h_8 =>
    split at hs
    case isTrue => cases hs
    case isFalse hd =>
      cases hs
      exact ⟨_, if_neg hd, rfl⟩
  all_goals
    cases hs
    exact ⟨_, rfl, rfl⟩

theorem Scan.steps_openLoops {maxDepth : Nat} {s s' u : Scan} {index : Nat} {text : List Char}
    (he : s.openLoops = u.openLoops) (hs : s.steps maxDepth index text = .ok s') :
    ∃ u', u.steps maxDepth index text = .ok u' ∧ s'.openLoops = u'.openLoops := by
  induction text generalizing s u index with
  | nil =>
    cases hs
    exact ⟨u, rfl, he⟩
  | cons ch rest ih =>
    unfold Scan.steps at hs
    split at hs
    case h_1 s₁ hs₁ =>
      obtain ⟨u₁, hu₁, he₁⟩ := step_openLoops he hs₁
      obtain ⟨u', hu', he'⟩ := ih he₁ hs
      exact ⟨u', by rw [Scan.steps, hu₁]; exact hu', he'⟩
    case h_2 => cases hs

/-- Whether a text can be read does not depend on the optimisations. -/
theorem parse_withOptimisations {source : String} {c : Config} {p : Program}
    (h : parse source c = .ok p) (o : Optimisations) :
    ∃ q, parse source (c.withOptimisations o) = .ok q := by
  unfold parse scan at h ⊢
  cases hs : (Scan.start c).steps c.maxDepth 0 source.toList with
  | error e => simp [hs] at h
  | ok s =>
    simp only [hs] at h
    have hstart : (Scan.start c).openLoops = (Scan.start (c.withOptimisations o)).openLoops := rfl
    obtain ⟨u, hu, he⟩ := Scan.steps_openLoops hstart hs
    rw [show (c.withOptimisations o).maxDepth = c.maxDepth from rfl, hu]
    cases hb : s.openLoops.back? with
    | some index => simp [hb] at h
    | none => exact ⟨u.program (c.withOptimisations o), by simp only [← he, hb]⟩

end TapeLang
