import TapeLang.Proofs.Assembler.Fields

/-!
# Code that does not depend on the names of labels

A routine may be written with a label of its own inside its epilogue, and behind code that has used
labels before. Its machine code is the same: other names make no difference, and a branch whose
displacement is known beforehand may as well be written out.

* `Fragment.rename`, `getElem?_placesFrom_rename`: other names for targets.
* `Alike`, `Alike.assemble_eq`: fragments that come to the same bytes.
* `alike_epilogueAt`: the epilogue with a label of its own.
* `assemble_enclosed`: a body between any start and this epilogue.
-/

namespace TapeLang

open X86 Fragment

/-! ## Other names -/

/-- A fragment in which targets have other names. -/
def Fragment.rename (f : Target → Target) : Fragment → Fragment
  | .instr i => .instr i
  | .branch b target => .branch b (f target)
  | .mark target => .mark (f target)

namespace Assembly

variable {f : Target → Target} {fs gs fs' gs' : List Fragment} {t u : Target} {offset size : Nat}
  {places places' found found' : Std.HashMap Target Nat} {done : Array UInt8} {b : Branch}

@[simp] theorem size_rename (f : Target → Target) (g : Fragment) : (g.rename f).size = g.size := by
  cases g <;> rfl

@[simp] theorem sizes_rename (f : Target → Target) (fs : List Fragment) :
    sizes (fs.map (Fragment.rename f)) = sizes fs := by
  induction fs with
  | nil => rfl
  | cons g fs ih => rw [List.map_cons, sizes_cons, sizes_cons, size_rename, ih]

theorem marks_rename (f : Target → Target) (fs : List Fragment) :
    marks (fs.map (Fragment.rename f)) = (marks fs).map f := by
  induction fs with
  | nil => rfl
  | cons g fs ih =>
    cases g with
    | instr i => exact ih
    | branch b t => exact ih
    | mark t => exact congrArg (f t :: ·) ih

/-- Under its other name a target is placed where it was before. -/
theorem getElem?_placesFrom_rename (hf : f.Injective) (h : found'[f t]? = found[t]?) :
    (placesFrom offset found' (fs.map (Fragment.rename f)))[f t]? =
      (placesFrom offset found fs)[t]? := by
  induction fs generalizing offset found found' with
  | nil => exact h
  | cons g fs ih =>
    rw [List.map_cons, placesFrom_cons, placesFrom_cons, size_rename]
    apply ih
    cases g with
    | instr i => exact h
    | branch b target => exact h
    | mark target =>
      by_cases he : target = t
      · simp [Fragment.rename, he]
      · simp [Fragment.rename, Std.HashMap.getElem?_insert, hf.ne he, he, h]

/-! ## The same bytes -/

theorem bytesFrom_mark (t : Target) (fs : List Fragment) :
    bytesFrom places size offset done (.mark t :: fs) = bytesFrom places size offset done fs := by
  simp [bytesFrom, bytesAt, Fragment.size]

/-- From the same offset on, the fragments on the left with their places come to the same bytes as
those on the right with theirs. -/
inductive Alike (places' places : Std.HashMap Target Nat) :
    Nat → List Fragment → List Fragment → Prop
  | nil {offset : Nat} : Alike places' places offset [] []
  | instr {offset : Nat} {fs gs : List Fragment} (i : Instr)
      (rest : Alike places' places (offset + i.size) fs gs) :
      Alike places' places offset (.instr i :: fs) (.instr i :: gs)
  | branch {offset : Nat} {fs gs : List Fragment} {b : Branch} {t u : Target}
      (h : places'[t]? = places[u]?)
      (rest : Alike places' places (offset + (b.opcode.length + 4)) fs gs) :
      Alike places' places offset (.branch b t :: fs) (.branch b u :: gs)
  /-- A branch whose displacement is known. -/
  | settled {offset : Nat} {fs gs : List Fragment} {b : Branch} {t : Target} {place : Nat}
      {d : Int32} (h : places'[t]? = some place)
      (hd : (place - (offset + (b.opcode.length + 4) : Nat) : Int) = d.toInt)
      (rest : Alike places' places (offset + (b.opcode.length + 4)) fs gs) :
      Alike places' places offset (.branch b t :: fs) (.instr (.branch b d) :: gs)
  | markLeft {offset : Nat} {fs gs : List Fragment} (t : Target)
      (rest : Alike places' places offset fs gs) : Alike places' places offset (.mark t :: fs) gs
  | markRight {offset : Nat} {fs gs : List Fragment} (t : Target)
      (rest : Alike places' places offset fs gs) : Alike places' places offset fs (.mark t :: gs)

namespace Alike

theorem sizes_eq (h : Alike places' places offset fs gs) : sizes fs = sizes gs := by
  induction h with
  | nil => rfl
  | instr i rest ih => rw [sizes_cons, sizes_cons, ih]
  | branch h rest ih => rw [sizes_cons, sizes_cons, ih]; rfl
  | settled h hd rest ih =>
    rw [sizes_cons, sizes_cons, ih, Fragment.size, Fragment.size, size_branch]
  | markLeft t rest ih => rw [sizes_cons, ih, Fragment.size, Nat.zero_add]
  | markRight t rest ih => rw [sizes_cons, ih, Fragment.size, Nat.zero_add]

theorem bytesFrom_eq (h : Alike places' places offset fs gs) (size : Nat) (done : Array UInt8) :
    bytesFrom places' size offset done fs = bytesFrom places size offset done gs := by
  induction h generalizing done with
  | nil => rfl
  | instr i rest ih => exact ih _
  | markLeft t rest ih => rw [bytesFrom_mark, ih]
  | markRight t rest ih => rw [bytesFrom_mark, ih]
  | @branch offset fs gs b t u h rest ih =>
    have hd (stop : Nat) : displacement places' size stop t = displacement places size stop u := by
      rw [displacement, displacement, h]
    rw [bytesFrom, bytesFrom, bytesAt, bytesAt, Fragment.size, Fragment.size, hd]
    cases displacement places size (offset + (b.opcode.length + 4)) u with
    | error e => rfl
    | ok d => exact ih _
  | @settled offset fs gs b t place d h hd rest ih =>
    have hfound : displacement places' size (offset + (b.opcode.length + 4)) t = .ok d := by
      have hlower := d.le_toInt
      have hupper := d.toInt_lt
      exact displacement_eq_ok.mpr
        ⟨place, h, hd ▸ hlower, hd ▸ hupper, by rw [hd, Int32.ofInt_toInt]⟩
    rw [bytesFrom, bytesFrom, bytesAt, bytesAt, Fragment.size, Fragment.size,
      hfound, size_branch]
    exact ih _

theorem append (h : Alike places' places offset fs gs)
    (h' : Alike places' places (offset + sizes fs) fs' gs') :
    Alike places' places offset (fs ++ fs') (gs ++ gs') := by
  induction h with
  | nil => exact h'
  | instr i rest ih => exact .instr i (ih (by rwa [sizes_cons, ← Nat.add_assoc] at h'))
  | branch h rest ih => exact .branch h (ih (by rwa [sizes_cons, ← Nat.add_assoc] at h'))
  | settled h hd rest ih => exact .settled h hd (ih (by rwa [sizes_cons, ← Nat.add_assoc] at h'))
  | markLeft t rest ih =>
    exact .markLeft t (ih (by rwa [sizes_cons, Fragment.size, Nat.zero_add] at h'))
  | markRight t rest ih => exact .markRight t (ih h')

theorem plain (code : List Instr) :
    Alike places' places offset (Block.plain code) (Block.plain code) := by
  induction code generalizing offset with
  | nil => exact .nil
  | cons i code ih => exact .instr i ih

/-- Other names, under which the targets of all branches are placed where they were. -/
theorem rename (h : ∀ b t, .branch b t ∈ fs → places'[f t]? = places[t]?) :
    Alike places' places offset (fs.map (Fragment.rename f)) fs := by
  induction fs generalizing offset with
  | nil => exact .nil
  | cons g fs ih =>
    have hrest (offset : Nat) : Alike places' places offset (fs.map (Fragment.rename f)) fs :=
      ih fun b t hb => h b t (List.mem_cons_of_mem g hb)
    cases g with
    | instr i => exact .instr i (hrest _)
    | branch b t => exact .branch (h b t List.mem_cons_self) (hrest _)
    | mark t => exact .markLeft _ (.markRight t (hrest offset))

theorem assemble_eq (h : Alike (placesFrom 0 ∅ fs) (placesFrom 0 ∅ gs) 0 fs gs) :
    assemble fs.toArray = assemble gs.toArray := by
  rw [assemble, assemble, size_eq, size_eq, ← h.sizes_eq]
  exact h.bytesFrom_eq _ _

end Alike

/-! ## A label inside the epilogue -/

/-- The epilogue jumps back over 23 bytes, its own jump among them. -/
theorem alike_epilogueAt {exit : Label} (h : places'[Target.label exit]? = some (offset + 2)) :
    Alike places' places offset (Block.epilogueAt exit) Block.epilogue := by
  have hleft : Block.epilogueAt exit = .instr (.xor .dword .rax .rax) :: .mark (.label exit) ::
      (Block.plain Block.leave ++
        [.mark .fail, .instr (.movImm32 .rax 1), .branch .jump (.label exit)]) := rfl
  have hjump : Block.jumpBack (Block.leave ++ [.movImm32 .rax 1]) = .branch .jump (-23) := by
    decide +kernel
  have hright : Block.epilogue = .instr (.xor .dword .rax .rax) :: (Block.plain Block.leave ++
      [.mark .fail, .instr (.movImm32 .rax 1), .instr (.branch .jump (-23))]) := by
    rw [← hjump]
    rfl
  have hsizes : (Instr.xor .dword .rax .rax).size = 2 ∧ sizes (Block.plain Block.leave) = 13 ∧
      (Instr.movImm32 .rax 1).size = 5 := ⟨rfl, rfl, rfl⟩
  have hback : (-23 : Int32).toInt = -23 := rfl
  rw [hleft, hright]
  refine .instr _ (.markLeft _ (.append (.plain Block.leave)
    (.markLeft _ (.markRight _ (.instr _ (.settled h ?_ .nil))))))
  rw [hsizes.1, hsizes.2.1, hsizes.2.2, hback, Branch.opcode, List.length_singleton]
  omega

variable {entry' entry body : List Fragment} {exit : Label}

/-- The exit inside an epilogue is behind its first instruction. -/
theorem getElem?_placesFrom_exit (front : List Fragment) (exit : Label) :
    (placesFrom 0 ∅ (front ++ Block.epilogueAt exit))[Target.label exit]? =
      some (sizes front + 2) := by
  have hsplit : front ++ Block.epilogueAt exit =
      (front ++ [.instr (.xor .dword .rax .rax)]) ++ .mark (.label exit) ::
        (Block.plain Block.leave ++
          [.mark .fail, .instr (.movImm32 .rax 1), .branch .jump (.label exit)]) := by
    rw [List.append_assoc]
    rfl
  have honce : Target.label exit ∉ marks (Block.plain Block.leave ++
      [.mark .fail, .instr (.movImm32 .rax 1), .branch .jump (.label exit)]) := by simp
  rw [hsplit, placesFrom_mark honce, sizes_append, Nat.zero_add]
  rfl

theorem getElem?_placesFrom_epilogueAt (hf : f.Injective) (hfail : f .fail = .fail)
    (hexit : f t ≠ .label exit) (h : found'[f t]? = found[t]?) :
    (placesFrom offset found' (Block.epilogueAt exit))[f t]? =
      (placesFrom offset found Block.epilogue)[t]? := by
  by_cases ht : t = .fail
  · have hleft : Block.epilogueAt exit = (.instr (.xor .dword .rax .rax) :: .mark (.label exit) ::
        Block.plain Block.leave) ++ .mark .fail ::
          [.instr (.movImm32 .rax 1), .branch .jump (.label exit)] := rfl
    have hright : Block.epilogue = Block.plain (.xor .dword .rax .rax :: Block.leave) ++
        .mark .fail :: Block.plain
          [.movImm32 .rax 1, Block.jumpBack (Block.leave ++ [.movImm32 .rax 1])] := rfl
    rw [ht, hfail, hleft, hright, placesFrom_mark (by simp), placesFrom_mark (by simp)]
    rfl
  · have hother : f t ≠ .fail := fun he => ht (hf (he.trans hfail.symm))
    rw [placesFrom_of_not_mem (by simp [Block.epilogueAt, hexit, hother]),
      placesFrom_of_not_mem (by simp [Block.epilogue, ht]), h]

/-- Where targets are placed does not depend on the names, as long as they are not names of labels
inside the blocks around the body. -/
theorem getElem?_placesFrom_enclosed (hf : f.Injective) (hfail : f .fail = .fail)
    (hsize : sizes entry' = sizes entry) (hentry : marks entry = []) (ht : f t ∉ marks entry')
    (hexit : f t ≠ .label exit) :
    (placesFrom 0 ∅ (entry' ++ (body.map (Fragment.rename f) ++ Block.epilogueAt exit)))[f t]? =
      (placesFrom 0 ∅ (entry ++ (body ++ Block.epilogue)))[t]? := by
  have hbefore : (placesFrom 0 ∅ entry')[f t]? = (placesFrom 0 ∅ entry)[t]? := by
    rw [placesFrom_of_not_mem ht, placesFrom_of_not_mem (by simp [hentry]),
      Std.HashMap.getElem?_empty, Std.HashMap.getElem?_empty]
  simp only [placesFrom_append, sizes_rename, hsize]
  exact getElem?_placesFrom_epilogueAt hf hfail hexit (getElem?_placesFrom_rename hf hbefore)

/-- The code of a body is the same with labels of its own in the epilogue, with other names for its
targets, and behind another way of writing what stands in front of it. -/
theorem assemble_enclosed (hf : f.Injective) (hfail : f .fail = .fail) (hentry : marks entry = [])
    (hbody : ∀ b t, .branch b t ∈ body → f t ∉ marks entry' ∧ f t ≠ .label exit)
    (h : Alike
      (placesFrom 0 ∅ (entry' ++ (body.map (Fragment.rename f) ++ Block.epilogueAt exit)))
      (placesFrom 0 ∅ (entry ++ (body ++ Block.epilogue))) 0 entry' entry) :
    assemble (entry' ++ (body.map (Fragment.rename f) ++ Block.epilogueAt exit)).toArray =
      assemble (entry ++ (body ++ Block.epilogue)).toArray := by
  have hplaces (b : Branch) (t : Target) (hb : .branch b t ∈ body) :=
    @getElem?_placesFrom_enclosed f t entry' entry body exit hf hfail h.sizes_eq hentry
      (hbody b t hb).1 (hbody b t hb).2
  have hexit := getElem?_placesFrom_exit (entry' ++ body.map (Fragment.rename f)) exit
  rw [sizes_append, List.append_assoc] at hexit
  apply Alike.assemble_eq
  exact h.append (.append (.rename hplaces) (alike_epilogueAt (by rw [hexit, Nat.zero_add])))

end Assembly

end TapeLang
