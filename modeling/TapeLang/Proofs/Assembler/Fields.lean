import TapeLang.Assembler
import TapeLang.Proofs.MachineCode.Resolved

/-!
# Open displacements

Code whose displacements are still open is as long as the finished code and differs from it in the
displacement fields only. The fields are those of the branches, one behind the other.

* `fields`, `blanks`: the displacement fields of fragments, and their code with all of them open.
* `PlacedAt`, `placedAt_iff`: a target is where it was marked last.
* `field_resolve`: a field holds the displacement to the place of its target.
* `getElem?_resolve`: between the fields nothing is changed.
-/

namespace TapeLang

open X86 LittleEndian Fragment

namespace Assembly

variable {offset : Nat} {x : Nat × Target}

/-! ## Fields -/

/-- The displacement fields of fragments, the first of which is at `offset`: where each field is, and
the target of its branch. -/
def fields (offset : Nat) : List Fragment → List (Nat × Target)
  | [] => []
  | .branch b target :: rest =>
    (offset + b.opcode.length, target) :: fields (offset + (Fragment.branch b target).size) rest
  | .instr i :: rest => fields (offset + i.size) rest
  | .mark _ :: rest => fields offset rest

/-- The bytes of a fragment with its displacement open. -/
def blank : Fragment → List UInt8
  | .instr i => i.encode
  | .branch b _ => b.opcode ++ Assembler.gap
  | .mark _ => []

def blanks (fs : List Fragment) : List UInt8 := fs.flatMap blank

theorem blanks_cons (f : Fragment) (fs : List Fragment) : blanks (f :: fs) = blank f ++ blanks fs :=
  List.flatMap_cons

theorem blanks_append (fs gs : List Fragment) : blanks (fs ++ gs) = blanks fs ++ blanks gs :=
  List.flatMap_append

theorem length_blank (f : Fragment) : (blank f).length = f.size := by
  cases f with
  | instr i => rfl
  | branch b target => exact List.length_append
  | mark target => rfl

theorem length_blanks (fs : List Fragment) : (blanks fs).length = sizes fs := by
  induction fs with
  | nil => rfl
  | cons f fs ih => rw [blanks_cons, List.length_append, length_blank, ih, sizes_cons]

theorem fields_append (fs gs : List Fragment) :
    fields offset (fs ++ gs) = fields offset fs ++ fields (offset + sizes fs) gs := by
  induction fs generalizing offset with
  | nil => rfl
  | cons f fs ih =>
    rw [List.cons_append, sizes_cons, ← Nat.add_assoc]
    cases f with
    | instr i => exact ih
    | branch b target => exact congrArg (_ :: ·) ih
    | mark target => exact ih

/-- Each field belongs to a branch. -/
theorem exists_of_mem_fields {fs : List Fragment} (h : x ∈ fields offset fs) :
    ∃ before b after, fs = before ++ .branch b x.2 :: after ∧
      x.1 = offset + sizes before + b.opcode.length := by
  induction fs generalizing offset with
  | nil => cases h
  | cons f fs ih =>
    have hlater {n : Nat} (hx : x ∈ fields (offset + n) fs) (hn : n = f.size) :
        ∃ before b after, f :: fs = before ++ .branch b x.2 :: after ∧
          x.1 = offset + sizes before + b.opcode.length := by
      obtain ⟨before, b, after, hfs, hoffset⟩ := ih hx
      exact ⟨f :: before, b, after, by rw [hfs]; rfl, by rw [hoffset, sizes_cons, hn]; omega⟩
    cases f with
    | instr i => exact hlater h rfl
    | mark target => exact @hlater 0 h rfl
    | branch b target =>
      rcases List.mem_cons.mp h with rfl | hx
      · exact ⟨[], b, fs, rfl, rfl⟩
      · exact hlater hx rfl

theorem fields_inside {fs : List Fragment} (h : x ∈ fields offset fs) :
    offset ≤ x.1 ∧ x.1 + 4 ≤ offset + sizes fs := by
  obtain ⟨before, b, after, rfl, hoffset⟩ := exists_of_mem_fields h
  rw [sizes_append, sizes_cons, Fragment.size]
  omega

/-- Each field ends before the next one begins. -/
theorem fields_disjoint (offset : Nat) (fs : List Fragment) :
    (fields offset fs).Pairwise fun x y => x.1 + 4 ≤ y.1 := by
  induction fs generalizing offset with
  | nil => exact .nil
  | cons f fs ih =>
    cases f with
    | instr i => exact ih _
    | mark target => exact ih _
    | branch b target =>
      refine List.pairwise_cons.mpr ⟨fun y hy => ?_, ih _⟩
      have hinside := (fields_inside hy).1
      rw [Fragment.size] at hinside
      dsimp only
      omega

/-! ## Places -/

/-- A target is placed last at offset `k`. -/
def PlacedAt (fs : List Fragment) (target : Target) (k : Nat) : Prop :=
  ∃ before after, fs = before ++ .mark target :: after ∧ target ∉ marks after ∧ k = sizes before

theorem exists_last_mark {fs : List Fragment} {target : Target} (h : target ∈ marks fs) :
    ∃ before after, fs = before ++ .mark target :: after ∧ target ∉ marks after := by
  induction fs with
  | nil => cases h
  | cons f fs ih =>
    by_cases hlater : target ∈ marks fs
    · obtain ⟨before, after, rfl, hafter⟩ := ih hlater
      exact ⟨f :: before, after, rfl, hafter⟩
    · cases f with
      | instr i => exact absurd h hlater
      | branch b u => exact absurd h hlater
      | mark u =>
        rcases List.mem_cons.mp h with rfl | h
        · exact ⟨[], fs, rfl, hlater⟩
        · exact absurd h hlater

/-- The places that are found are those of the last marks. -/
theorem placedAt_iff {fs : List Fragment} {target : Target} {k : Nat} :
    PlacedAt fs target k ↔ (placesFrom 0 ∅ fs)[target]? = some k := by
  constructor
  · rintro ⟨before, after, rfl, hafter, rfl⟩
    rw [placesFrom_mark hafter, Nat.zero_add]
  · intro h
    have hmem : target ∈ marks fs := Classical.byContradiction fun hnot => by
      rw [placesFrom_of_not_mem hnot, Std.HashMap.getElem?_empty] at h
      cases h
    obtain ⟨before, after, rfl, hafter⟩ := exists_last_mark hmem
    rw [placesFrom_mark hafter, Nat.zero_add] at h
    exact ⟨before, after, rfl, hafter, (Option.some.inj h).symm⟩

theorem placesFrom_append (found : Std.HashMap Target Nat) (fs gs : List Fragment) :
    placesFrom offset found (fs ++ gs) =
      placesFrom (offset + sizes fs) (placesFrom offset found fs) gs := by
  induction fs generalizing offset found with
  | nil => rfl
  | cons f fs ih =>
    rw [List.cons_append, placesFrom_cons, ih, placesFrom_cons, sizes_cons, Nat.add_assoc]

/-! ## Resolved code -/

variable {place : Target → Nat}

/-- In the code of fragments a field holds the displacement to the place of its target. -/
theorem field_resolve {fs : List Fragment} (h : x ∈ fields 0 fs) :
    ∃ rest, (encodeAll (resolve place 0 fs)).drop x.1 =
      bytes32 (Int32.ofInt (place x.2 - (x.1 + 4 : Nat))).toUInt32 ++ rest := by
  obtain ⟨before, b, after, rfl, hoffset⟩ := exists_of_mem_fields h
  have hstop : 0 + sizes before + (Fragment.branch b x.2).size = x.1 + 4 := by
    rw [hoffset, Fragment.size, Nat.add_assoc _ b.opcode.length]
  have hfront : (encodeAll (resolve place 0 before) ++ b.opcode).length = x.1 := by
    rw [List.length_append, length_encodeAll, codeSize_resolve, hoffset, Nat.zero_add]
  rw [resolve_append, resolve, encodeAll_append, encodeAll_cons, hstop, Instr.encode,
    List.append_assoc, ← List.append_assoc, ← hfront, List.drop_left]
  exact ⟨_, rfl⟩

/-- Between the fields stands what stood there when they were open. -/
theorem getElem?_resolve {fs : List Fragment} {i : Nat}
    (h : ∀ x ∈ fields offset fs, offset + i < x.1 ∨ x.1 + 4 ≤ offset + i) :
    (encodeAll (resolve place offset fs))[i]? = (blanks fs)[i]? := by
  -- a fragment whose bytes, resolved, agree with the open ones at `i`
  have hstep {f : Fragment} {fs : List Fragment} {bytes : List UInt8} {more : List Instr}
      {i : Nat} (hsize : bytes.length = f.size) (hhead : bytes[i]? = (blank f)[i]? ∨ f.size ≤ i)
      (htail : f.size ≤ i → (encodeAll more)[i - f.size]? = (blanks fs)[i - f.size]?) :
      (bytes ++ encodeAll more)[i]? = (blanks (f :: fs))[i]? := by
    rw [blanks_cons, List.getElem?_append, List.getElem?_append, hsize, length_blank]
    split
    case isTrue hi => exact hhead.resolve_right (Nat.not_le.mpr hi)
    case isFalse hi => exact htail (Nat.le_of_not_lt hi)
  induction fs generalizing offset i with
  | nil => rfl
  | cons f fs ih =>
    cases f with
    | instr j =>
      rw [resolve, encodeAll_cons]
      refine hstep (f := .instr j) rfl (.inl rfl) fun hi => ih fun x hx => ?_
      have hx := h x hx
      rw [Fragment.size] at hi ⊢
      omega
    | mark target =>
      rw [resolve, blanks_cons, blank, List.nil_append]
      exact ih h
    | branch b target =>
      rw [resolve, encodeAll_cons, Instr.encode]
      have hfield := h _ List.mem_cons_self
      refine hstep (f := .branch b target) ?_ ?_ fun hi => ih fun x hx => ?_
      · rw [List.length_append, length_bytes32, Fragment.size]
      · rw [Fragment.size, blank, List.getElem?_append, List.getElem?_append]
        dsimp only at hfield
        split
        · exact .inl rfl
        · exact .inr (by omega)
      · have hx := h x (List.mem_cons_of_mem _ hx)
        omega

end Assembly

end TapeLang
