import TapeLang.Program.Basic

/-!
# Programs as trees

A flat instruction list with balanced brackets, read as a tree: a sequence of commands and loops, the
bodies of the loops being trees again.

* `Tree.flatten`: the instruction list of a tree, with the brackets of its loops.
* `Tree.flatten_injective`: a list is the list of one tree at most.
* `Program.HasAt`: a piece of the instruction list of a program.
-/

namespace TapeLang

/-- An operation that is no bracket. -/
inductive Command where
  | move (count : Nat)
  | add (count : Nat)
  | reset
  | read
  | write
deriving DecidableEq

namespace Command

def op : Command → Op
  | move n => .move n
  | add n => .add n
  | reset => .reset
  | read => .read
  | write => .write

theorem op_ne_loopStart (c : Command) : c.op ≠ .loopStart := by cases c <;> simp [op]

theorem op_ne_loopEnd (c : Command) : c.op ≠ .loopEnd := by cases c <;> simp [op]

theorem op_injective {a b : Command} (h : a.op = b.op) : a = b := by
  cases a <;> cases b <;> simp_all [op]

end Command

/-- What to do in order. A loop keeps the positions of its two brackets. -/
inductive Tree where
  | nil
  | command (c : Command) (position : Option Position) (rest : Tree)
  | loop (opening closing : Option Position) (body rest : Tree)
deriving DecidableEq

namespace Tree

def flatten : Tree → List Instruction
  | nil => []
  | command c position rest => ⟨c.op, position⟩ :: rest.flatten
  | loop opening closing body rest =>
    ⟨.loopStart, opening⟩ :: (body.flatten ++ ⟨.loopEnd, closing⟩ :: rest.flatten)

/-- One tree behind the other. -/
def append : Tree → Tree → Tree
  | nil, u => u
  | command c position rest, u => command c position (rest.append u)
  | loop opening closing body rest, u => loop opening closing body (rest.append u)

instance : Append Tree := ⟨append⟩

@[simp] theorem nil_append (u : Tree) : nil ++ u = u := rfl

@[simp] theorem command_append (c : Command) (p : Option Position) (t u : Tree) :
    command c p t ++ u = command c p (t ++ u) := rfl

@[simp] theorem loop_append (o c : Option Position) (b t u : Tree) :
    loop o c b t ++ u = loop o c b (t ++ u) := rfl

@[simp] theorem append_nil (t : Tree) : t ++ nil = t := by
  induction t with
  | nil => rfl
  | command c p rest ih => rw [command_append, ih]
  | loop o c body rest _ ih => rw [loop_append, ih]

@[simp] theorem append_assoc (t u v : Tree) : t ++ u ++ v = t ++ (u ++ v) := by
  induction t with
  | nil => rfl
  | command c p rest ih => simp only [command_append, ih]
  | loop o c body rest _ ih => simp only [loop_append, ih]

@[simp] theorem flatten_append (t u : Tree) : (t ++ u).flatten = t.flatten ++ u.flatten := by
  induction t with
  | nil => rfl
  | command c p rest ih => simp only [command_append, flatten, ih, List.cons_append]
  | loop o c body rest _ ih =>
    simp only [loop_append, flatten, ih, List.cons_append, List.append_assoc]

/-- The last node of a tree that has one. -/
theorem eq_nil_or_snoc (t : Tree) :
    t = nil ∨ (∃ u c p, t = u ++ command c p nil) ∨ ∃ u o c b, t = u ++ loop o c b nil := by
  induction t with
  | nil => exact .inl rfl
  | command c p rest ih =>
    rcases ih with rfl | ⟨u, c', p', rfl⟩ | ⟨u, o, c', b, rfl⟩
    · exact .inr (.inl ⟨nil, c, p, rfl⟩)
    · exact .inr (.inl ⟨command c p u, c', p', rfl⟩)
    · exact .inr (.inr ⟨command c p u, o, c', b, rfl⟩)
  | loop o c body rest _ ih =>
    rcases ih with rfl | ⟨u, c', p', rfl⟩ | ⟨u, o', c', b, rfl⟩
    · exact .inr (.inr ⟨nil, o, c, body, rfl⟩)
    · exact .inr (.inl ⟨loop o c body u, c', p', rfl⟩)
    · exact .inr (.inr ⟨loop o c body u, o', c', b, rfl⟩)

/-! ## Reading back -/

/-- Two trees whose lists go on with nothing or a closing bracket have equal lists behind them. -/
theorem eq_of_flatten_append {t u : Tree} {xs ys : List Instruction}
    (hx : ∀ i ∈ xs.head?, i.op = .loopEnd) (hy : ∀ i ∈ ys.head?, i.op = .loopEnd)
    (h : t.flatten ++ xs = u.flatten ++ ys) : t = u ∧ xs = ys := by
  induction t generalizing u xs ys with
  | nil =>
    cases u with
    | nil => exact ⟨rfl, h⟩
    | command c p rest =>
      simp only [flatten, List.nil_append, List.cons_append] at h
      exact absurd (hx ⟨c.op, p⟩ (by rw [h]; rfl)) c.op_ne_loopEnd
    | loop o c body rest =>
      simp only [flatten, List.nil_append, List.cons_append] at h
      exact absurd (hx ⟨.loopStart, o⟩ (by rw [h]; rfl)) (by simp)
  | command c p rest ih =>
    cases u with
    | nil =>
      simp only [flatten, List.nil_append, List.cons_append] at h
      exact absurd (hy ⟨c.op, p⟩ (by rw [← h]; rfl)) c.op_ne_loopEnd
    | command c' p' rest' =>
      simp only [flatten, List.cons_append, List.cons.injEq, Instruction.mk.injEq] at h
      obtain ⟨⟨hc, rfl⟩, hr⟩ := h
      obtain ⟨rfl, rfl⟩ := ih hx hy hr
      exact ⟨by rw [Command.op_injective hc], rfl⟩
    | loop o' c' body' rest' =>
      simp only [flatten, List.cons_append, List.cons.injEq, Instruction.mk.injEq] at h
      exact absurd h.1.1 c.op_ne_loopStart
  | loop o c body rest ihb ihr =>
    cases u with
    | nil =>
      simp only [flatten, List.nil_append, List.cons_append] at h
      exact absurd (hy ⟨.loopStart, o⟩ (by rw [← h]; rfl)) (by simp)
    | command c' p' rest' =>
      simp only [flatten, List.cons_append, List.cons.injEq, Instruction.mk.injEq] at h
      exact absurd h.1.1.symm c'.op_ne_loopStart
    | loop o' c' body' rest' =>
      simp only [flatten, List.cons_append, List.append_assoc, List.cons.injEq,
        Instruction.mk.injEq, true_and] at h
      obtain ⟨rfl, hb⟩ := h
      obtain ⟨rfl, hr⟩ := ihb (by simp) (by simp) hb
      simp only [List.cons.injEq, Instruction.mk.injEq, true_and] at hr
      obtain ⟨rfl, hr⟩ := hr
      obtain ⟨rfl, rfl⟩ := ihr hx hy hr
      exact ⟨rfl, rfl⟩

theorem flatten_injective {t u : Tree} (h : t.flatten = u.flatten) : t = u :=
  (@eq_of_flatten_append t u [] [] (by simp) (by simp) (by simpa using h)).1

end Tree

/-! ## Pieces of programs -/

/-- The instructions `xs` stand in `p` from index `k` on. -/
def Program.HasAt (p : Program) (k : Nat) (xs : List Instruction) : Prop :=
  ∃ before behind, p.instructions.toList = before ++ xs ++ behind ∧ before.length = k

namespace Program.HasAt

variable {p : Program} {k : Nat} {i : Instruction} {xs ys : List Instruction}

theorem of_eq (h : xs = p.instructions.toList) : p.HasAt 0 xs := ⟨[], [], by simp [h], rfl⟩

theorem getElem? (h : p.HasAt k (i :: xs)) : p.instructions[k]? = some i := by
  obtain ⟨before, behind, he, rfl⟩ := h
  rw [← Array.getElem?_toList, he]
  simp

theorem tail (h : p.HasAt k (i :: xs)) : p.HasAt (k + 1) xs := by
  obtain ⟨before, behind, he, rfl⟩ := h
  exact ⟨before ++ [i], behind, by simp [he], by simp⟩

theorem left (h : p.HasAt k (xs ++ ys)) : p.HasAt k xs := by
  obtain ⟨before, behind, he, rfl⟩ := h
  exact ⟨before, ys ++ behind, by simp [he], rfl⟩

theorem right (h : p.HasAt k (xs ++ ys)) : p.HasAt (k + xs.length) ys := by
  obtain ⟨before, behind, he, rfl⟩ := h
  exact ⟨before ++ xs, behind, by simp [he], by simp⟩

theorem position? (h : p.HasAt k (i :: xs)) : p.position? k = i.position := by
  rw [Program.position?, h.getElem?]
  rfl

end Program.HasAt

end TapeLang
