import TapeLang.Proofs.Assembler.Fields

/-!
# Finishing assembled code

Whatever an assembler is asked for, and in whatever order, it only puts fragments behind its code.
What it finishes is the code of these fragments: each displacement leads from the end of its field
to the place where its target was put last, and nothing else is changed.

* `emitted`: the fragments that calls put behind the code; `Holds`: what they leave behind.
* `finish_eq`: to fill displacements in afterwards comes to the same as to assemble with all places
  known.
* `Finishes`, `finishes_run`: what is finished, when it is, and what is wrong if it is not.
-/

namespace TapeLang

open X86 LittleEndian Fragment Assembly

/-- A branch of an operation leads to its label, or to the exit after a failure. -/
theorem Block.target_of_branch {linkage : Linkage} {op : Operation} {b : Branch} {t : Target}
    (h : .branch b t ∈ ofOperation linkage op) :
    t = .fail ∨ ∃ l, (op = .jump l ∨ op = .branchIfZero l) ∧ t = .label l := by
  cases op with
  | prologue | epilogue | bind l | add amount | reset =>
    simp [ofOperation, prologue, epilogue, plain] at h
  | move count wrap => cases wrap <;> simp [ofOperation, move, plain] at h
  | jump l | branchIfZero l =>
    simp [ofOperation] at h
    exact .inr ⟨l, by simp, h.2⟩
  | read index | write index =>
    cases linkage <;> simp [ofOperation, read, write, callHook, moveByte, plain] at h <;>
      exact .inl h.2

namespace Assembler

variable {a : Assembler} {linkage : Linkage} {fs : List Fragment} {x : Nat × Target}

/-! ## Filling in -/

/-- The displacement of a field, or why there is none. -/
def displacementAt (a : Assembler) (x : Nat × Target) : Except BuildError Int32 :=
  displacement a.places a.code.size (x.1 + 4) x.2

theorem fill_cons (a : Assembler) (code : Array UInt8) (x : Nat × Target)
    (rest : List (Nat × Target)) :
    a.fill code (x :: rest) =
      match a.displacementAt x with
      | .ok d => a.fill (overwrite code x.1 (bytes32 d.toUInt32)) rest
      | .error e => .error e := rfl

/-- As many bytes are written over. -/
theorem toList_overwrite {code : Array UInt8} {front old bytes behind : List UInt8}
    (h : code.toList = front ++ (old ++ behind)) (hlength : old.length = bytes.length) :
    (overwrite code front.length bytes).toList = front ++ (bytes ++ behind) := by
  induction bytes generalizing code front old with
  | nil =>
    obtain rfl := List.length_eq_zero_iff.mp hlength
    exact h
  | cons byte bytes ih =>
    obtain ⟨first, old, rfl⟩ := List.exists_cons_of_length_eq_add_one hlength
    have hset : (code.setIfInBounds front.length byte).toList =
        (front ++ [byte]) ++ (old ++ behind) := by
      rw [Array.toList_setIfInBounds, h, List.set_append_right _ _ (Nat.le_refl _), Nat.sub_self]
      simp
    have hrest := ih hset (Nat.succ.inj hlength)
    rw [List.length_append, List.length_singleton] at hrest
    rw [overwrite, hrest]
    simp

/-- All fields are filled in if each has a displacement. -/
theorem exists_fill {xs : List (Nat × Target)} (h : ∀ x ∈ xs, ∃ d, a.displacementAt x = .ok d)
    (code : Array UInt8) : ∃ out, a.fill code xs = .ok out := by
  induction xs generalizing code with
  | nil => exact ⟨code, rfl⟩
  | cons x rest ih =>
    obtain ⟨d, hd⟩ := h x List.mem_cons_self
    obtain ⟨out, hout⟩ := ih (fun y hy => h y (List.mem_cons_of_mem x hy))
      (overwrite code x.1 (bytes32 d.toUInt32))
    exact ⟨out, by rw [fill_cons, hd]; exact hout⟩

/-- The first field without a displacement is what is wrong. -/
theorem fill_eq_error {earlier later : List (Nat × Target)} {e : BuildError}
    (h : ∀ y ∈ earlier, ∃ d, a.displacementAt y = .ok d) (hx : a.displacementAt x = .error e)
    (code : Array UInt8) : a.fill code (earlier ++ x :: later) = .error e := by
  induction earlier generalizing code with
  | nil => rw [List.nil_append, fill_cons, hx]
  | cons y rest ih =>
    obtain ⟨d, hd⟩ := h y List.mem_cons_self
    rw [List.cons_append, fill_cons, hd]
    exact ih (fun z hz => h z (List.mem_cons_of_mem y hz)) _

theorem displacementAt_of_fill {xs : List (Nat × Target)} {code out : Array UInt8}
    (h : a.fill code xs = .ok out) : ∀ x ∈ xs, ∃ d, a.displacementAt x = .ok d := by
  induction xs generalizing code with
  | nil => exact nofun
  | cons x rest ih =>
    rw [fill_cons] at h
    cases hd : a.displacementAt x with
    | error e =>
      rw [hd] at h
      cases h
    | ok d =>
      rw [hd] at h
      exact List.forall_mem_cons.mpr ⟨⟨d, hd⟩, ih h⟩

theorem exists_of_fill_error {xs : List (Nat × Target)} {code : Array UInt8} {e : BuildError}
    (h : a.fill code xs = .error e) : ∃ x ∈ xs, a.displacementAt x = .error e := by
  induction xs generalizing code with
  | nil => cases h
  | cons x rest ih =>
    rw [fill_cons] at h
    cases hd : a.displacementAt x with
    | error e' =>
      rw [hd] at h
      cases h
      exact ⟨x, List.mem_cons_self, hd⟩
    | ok d =>
      rw [hd] at h
      obtain ⟨y, hy, he⟩ := ih h
      exact ⟨y, List.mem_cons_of_mem x hy, he⟩

/-- Behind finished code, open code is filled in as it is assembled with all places known. -/
theorem fill_blanks {offset : Nat} {done code : Array UInt8} (hdone : done.size = offset)
    (hcode : code.toList = done.toList ++ blanks fs) :
    a.fill code (fields offset fs) = bytesFrom a.places a.code.size offset done fs := by
  induction fs generalizing offset done code with
  | nil =>
    rw [fields, fill, bytesFrom]
    exact congrArg _ (Array.ext' (hcode.trans (List.append_nil _)))
  | cons f fs ih =>
    rw [blanks_cons] at hcode
    cases f with
    | instr i =>
      refine @ih _ (done.appendList i.encode) code ?_ (by simpa [blank] using hcode)
      rw [← hdone, Instr.size, ← Array.length_toList, ← Array.length_toList]
      simp
    | mark target =>
      exact ih hdone hcode
    | branch b target =>
      have hstop : offset + (Fragment.branch b target).size = offset + b.opcode.length + 4 := by
        rw [Fragment.size, Nat.add_assoc]
      rw [fields, fill_cons, bytesFrom, bytesAt, hstop, displacementAt]
      cases hd : displacement a.places a.code.size (offset + b.opcode.length + 4) target with
      | error e => rfl
      | ok d =>
        have hfront : (done.toList ++ b.opcode).length = offset + b.opcode.length := by
          rw [List.length_append, Array.length_toList, hdone]
        have hopen : code.toList = (done.toList ++ b.opcode) ++ (gap ++ blanks fs) := by
          rw [hcode, blank]
          simp
        have hfilled := toList_overwrite hopen (length_bytes32 d.toUInt32).symm
        rw [hfront] at hfilled
        refine ih ?_ ?_
        · rw [← hdone, ← Array.length_toList, ← Array.length_toList]
          simp [Instr.encode, length_bytes32, Nat.add_assoc]
        · rw [hfilled]
          simp [Instr.encode]

/-- A displacement from behind the field `x` to offset `k` fits into 32 bits. -/
def Fits (x : Nat × Target) (k : Nat) : Prop :=
  -2 ^ 31 ≤ (k - (x.1 + 4 : Nat) : Int) ∧ (k - (x.1 + 4 : Nat) : Int) < 2 ^ 31

/-- The displacement of the field `x` can be filled in. -/
def Resolves (fs : List Fragment) (x : Nat × Target) : Prop := ∃ k, PlacedAt fs x.2 k ∧ Fits x k

/-! ## Emitting -/

/-- The fragments that calls put behind the code, `next` being the first unused label. -/
def emitted (linkage : Linkage) (next : Label) : List Call → List Fragment
  | [] => []
  | c :: rest => c.fragments linkage next ++ emitted linkage (next + c.created) rest

theorem Call.fragments_operation {op : Operation} (h : op ≠ .epilogue) (linkage : Linkage)
    (next : Label) : (operation op).fragments linkage next = Block.ofOperation linkage op := by
  cases op <;> first | contradiction | rfl

/-- What fragments leave behind. -/
structure Holds (a : Assembler) (fs : List Fragment) : Prop where
  code : a.code.toList = blanks fs
  places : a.places = placesFrom 0 ∅ fs
  fixups : a.fixups.toList = fields 0 fs

@[simp] theorem linkage_foldl_put (a : Assembler) (fs : List Fragment) :
    (fs.foldl put a).linkage = a.linkage := by
  induction fs generalizing a with
  | nil => rfl
  | cons f fs ih => cases f <;> exact ih _

@[simp] theorem created_foldl_put (a : Assembler) (fs : List Fragment) :
    (fs.foldl put a).created = a.created := by
  induction fs generalizing a with
  | nil => rfl
  | cons f fs ih => cases f <;> exact ih _

@[simp] theorem linkage_apply (a : Assembler) (c : Call) : (a.apply c).linkage = a.linkage :=
  linkage_foldl_put _ _

@[simp] theorem created_apply (a : Assembler) (c : Call) :
    (a.apply c).created = a.created + c.created := created_foldl_put _ _

theorem holds_start (linkage : Linkage) : Holds (start linkage) [] := ⟨rfl, rfl, rfl⟩

namespace Holds

theorem size (h : Holds a fs) : a.code.size = sizes fs := by
  rw [← Array.length_toList, h.code, length_blanks]

theorem put (h : Holds a fs) (f : Fragment) : Holds (a.put f) (fs ++ [f]) := by
  have hsize := h.size
  obtain ⟨hcode, hplaces, hfixups⟩ := h
  refine ⟨?_, ?_, ?_⟩
  · rw [blanks_append, ← hcode]
    cases f <;> simp [Assembler.put, blanks, blank]
  · rw [placesFrom_append, ← hplaces, Nat.zero_add, ← hsize]
    cases f <;> rfl
  · rw [fields_append, ← hfixups, Nat.zero_add, ← hsize]
    cases f <;> simp [Assembler.put, fields]

theorem foldl_put (h : Holds a fs) (gs : List Fragment) :
    Holds (gs.foldl Assembler.put a) (fs ++ gs) := by
  induction gs generalizing a fs with
  | nil => rwa [List.append_nil]
  | cons f gs ih =>
    have hput := ih (h.put f)
    rwa [List.append_assoc] at hput

theorem apply (h : Holds a fs) (c : Call) :
    Holds (a.apply c) (fs ++ c.fragments a.linkage a.created) := by
  have hsame : Holds { a with created := a.created + c.created } fs := ⟨h.code, h.places, h.fixups⟩
  exact hsame.foldl_put _

theorem run (h : Holds a fs) (calls : List Call) :
    Holds (a.run calls) (fs ++ emitted a.linkage a.created calls) := by
  induction calls generalizing a fs with
  | nil => rwa [emitted, List.append_nil]
  | cons c rest ih =>
    have hrest := ih (h.apply c)
    rwa [linkage_apply, created_apply, List.append_assoc] at hrest

/-! ## Finishing -/

/-- The code is that of the fragments, with the displacements filled in. -/
theorem finish_eq (h : Holds a fs) : a.finish = assemble fs.toArray := by
  have hfill := @fill_blanks a fs 0 #[] a.code rfl h.code
  rw [finish, h.fixups, hfill, assemble, Assembly.size_eq, h.size, ← h.places]

theorem displacementAt_eq_ok (h : Holds a fs) {d : Int32} :
    a.displacementAt x = .ok d ↔
      ∃ k, PlacedAt fs x.2 k ∧ Fits x k ∧ d = .ofInt (k - (x.1 + 4 : Nat)) := by
  rw [displacementAt, displacement_eq_ok, h.places]
  simp only [← placedAt_iff, Fits, and_assoc]

/-- A field without a displacement: its target is placed nowhere, or too far away. -/
theorem displacementAt_of_not (h : Holds a fs) (hx : ¬ Resolves fs x) :
    ((∀ k, ¬ PlacedAt fs x.2 k) ∧ a.displacementAt x = .error .unboundLabel) ∨
      ((∃ k, PlacedAt fs x.2 k) ∧ a.displacementAt x = .error (.programTooLarge a.code.size)) := by
  cases hplace : a.places[x.2]? with
  | none =>
    refine .inl ⟨fun k hk => ?_, ?_⟩
    · rw [placedAt_iff, ← h.places, hplace] at hk
      cases hk
    · rw [displacementAt, displacement, hplace]
  | some k =>
    have hk : PlacedAt fs x.2 k := by rw [placedAt_iff, ← h.places, hplace]
    refine .inr ⟨⟨k, hk⟩, ?_⟩
    rw [displacementAt, displacement, hplace]
    exact if_neg fun hfits => hx ⟨k, hk, hfits⟩

theorem resolves_iff (h : Holds a fs) : Resolves fs x ↔ ∃ d, a.displacementAt x = .ok d := by
  simp only [h.displacementAt_eq_ok]
  exact ⟨fun ⟨k, hk, hfits⟩ => ⟨_, k, hk, hfits, rfl⟩, fun ⟨_, k, hk, hfits, _⟩ => ⟨k, hk, hfits⟩⟩

/-- In code that is not too long, every place can be reached from every field. -/
theorem fits (h : Holds a fs) (hsize : a.code.size < 2 ^ 31) (hx : x ∈ fields 0 fs) {k : Nat}
    (hk : PlacedAt fs x.2 k) : Fits x k := by
  obtain ⟨before, after, hfs, -, rfl⟩ := hk
  have hinside := (fields_inside hx).2
  have hbefore : sizes before ≤ sizes fs := by
    rw [hfs, sizes_append]
    exact Nat.le_add_right _ _
  rw [h.size] at hsize
  constructor <;> omega

/-- If the target of every branch is marked, then each is found. -/
theorem ne_unboundLabel (h : Holds a fs)
    (hmarked : ∀ b target, .branch b target ∈ fs → target ∈ marks fs) :
    a.finish ≠ .error .unboundLabel := by
  intro hunbound
  rw [finish, h.fixups] at hunbound
  obtain ⟨x, hx, he⟩ := exists_of_fill_error hunbound
  obtain ⟨before, b, after, hfs, -⟩ := exists_of_mem_fields hx
  have hmem : Fragment.branch b x.2 ∈ fs := by simp [hfs]
  obtain ⟨front, behind, hplace⟩ := exists_last_mark (hmarked b x.2 hmem)
  have hplaced : PlacedAt fs x.2 (sizes front) := ⟨front, behind, hplace.1, hplace.2, rfl⟩
  rw [displacementAt, displacement, h.places, placedAt_iff.mp hplaced] at he
  dsimp only at he
  split at he <;> cases he

end Holds

/-- What is finished of code with these fragments. -/
structure Finishes (a : Assembler) (fs : List Fragment) : Prop where
  /-- The code is that of the fragments, with zeros in the fields. -/
  code : a.code.toList = blanks fs
  inside : ∀ x ∈ fields 0 fs, x.1 + 4 ≤ a.code.size
  disjoint : (fields 0 fs).Pairwise fun x y => x.1 + 4 ≤ y.1
  succeeds : (∃ code, a.finish = .ok code) ↔ ∀ x ∈ fields 0 fs, Resolves fs x
  /-- The first field that cannot be filled in says what is wrong. -/
  fails : ∀ earlier x later, fields 0 fs = earlier ++ x :: later →
    (∀ y ∈ earlier, Resolves fs y) → ¬ Resolves fs x →
    ((∀ k, ¬ PlacedAt fs x.2 k) ∧ a.finish = .error .unboundLabel) ∨
      ((∃ k, PlacedAt fs x.2 k) ∧ a.finish = .error (.programTooLarge a.code.size))
  size : ∀ code, a.finish = .ok code → code.size = a.code.size
  /-- Outside the fields nothing is changed. -/
  kept : ∀ code, a.finish = .ok code →
    ∀ i, (∀ x ∈ fields 0 fs, i < x.1 ∨ x.1 + 4 ≤ i) → code[i]? = a.code[i]?
  /-- A field holds the way from its end to the place of its target. -/
  filled : ∀ code, a.finish = .ok code → ∀ x ∈ fields 0 fs, ∃ k v, PlacedAt fs x.2 k ∧
    word32? (code.toList.drop x.1) = some v ∧ v.toInt32.toInt = k - (x.1 + 4 : Nat)
  small : a.code.size < 2 ^ 31 → ∀ n, a.finish ≠ .error (.programTooLarge n)
  /-- It is what is assembled of the fragments all at once. -/
  assembled : a.finish = assemble fs.toArray

theorem Holds.finishes (h : Holds a fs) : Finishes a fs where
  code := h.code
  inside x hx := by
    have hinside := (fields_inside hx).2
    rw [h.size]
    omega
  disjoint := fields_disjoint 0 fs
  succeeds := by
    simp only [h.resolves_iff]
    rw [finish, h.fixups]
    exact ⟨fun ⟨_, hout⟩ => displacementAt_of_fill hout, fun hall => exists_fill hall _⟩
  fails earlier x later hfields hearlier hx := by
    have hdone : ∀ y ∈ earlier, ∃ d, a.displacementAt y = .ok d :=
      fun y hy => h.resolves_iff.mp (hearlier y hy)
    rw [finish, h.fixups, hfields]
    exact (h.displacementAt_of_not hx).imp (And.imp_right fun he => fill_eq_error hdone he _)
      (And.imp_right fun he => fill_eq_error hdone he _)
  size code hcode := by
    rw [h.finish_eq] at hcode
    rw [size_assemble hcode, h.size]
  kept code hcode i hi := by
    rw [h.finish_eq] at hcode
    rw [← Array.getElem?_toList, ← Array.getElem?_toList, toList_assemble hcode, h.code]
    exact getElem?_resolve (by simpa only [Nat.zero_add] using hi)
  filled code hcode x hx := by
    have hd := displacementAt_of_fill hcode x (by rwa [h.fixups])
    obtain ⟨k, hk, hlower, hupper⟩ := h.resolves_iff.mpr hd
    rw [h.finish_eq] at hcode
    obtain ⟨rest, hrest⟩ := @field_resolve x (placeIn fs) fs hx
    have hplace : placeIn fs x.2 = k := by
      rw [placeIn, placedAt_iff.mp hk, Option.getD_some]
    refine ⟨k, (Int32.ofInt (k - (x.1 + 4 : Nat))).toUInt32, hk, ?_, ?_⟩
    · rw [toList_assemble hcode, hrest, hplace, word32?_bytes32]
    · exact Int32.toInt_ofInt_of_le hlower hupper
  small hsize n hn := by
    rw [finish, h.fixups] at hn
    obtain ⟨x, hx, he⟩ := exists_of_fill_error hn
    have hnot : ¬ Resolves fs x := fun hr => by
      obtain ⟨d, hd⟩ := h.resolves_iff.mp hr
      cases hd.symm.trans he
    rcases h.displacementAt_of_not hnot with ⟨-, he'⟩ | ⟨⟨k, hk⟩, -⟩
    · cases he.symm.trans he'
    · exact hnot ⟨k, hk, h.fits hsize hx hk⟩
  assembled := h.finish_eq

/-- Whatever is asked for, code that was written stays as it is, and is finished as its fragments
say. -/
theorem finishes_run (linkage : Linkage) (calls : List Call) :
    (∀ earlier, earlier <+: calls →
      ((start linkage).run earlier).code.toList <+: ((start linkage).run calls).code.toList) ∧
    Finishes ((start linkage).run calls) (emitted linkage 0 calls) := by
  refine ⟨?_, ((holds_start linkage).run calls).finishes⟩
  rintro earlier ⟨later, rfl⟩
  have hearlier := (holds_start linkage).run earlier
  have hboth := hearlier.run later
  have hrun : (start linkage).run (earlier ++ later) = ((start linkage).run earlier).run later :=
    List.foldl_append ..
  rw [hrun, hearlier.code, hboth.code, blanks_append (_ ++ _)]
  exact List.prefix_append _ _

/-- A jump ahead, to a label that is bound twice, leads to where it was bound last. -/
theorem finishes_run_rebound : ∃ code,
    ((start .freestanding).run [.newLabel, .operation (.jump 0), .operation (.bind 0),
      .operation .reset, .operation (.bind 0)]).finish = .ok code ∧
    code.size = 10 ∧ word32? (code.toList.drop 1) = some 5 := by
  obtain ⟨-, h⟩ := finishes_run .freestanding [.newLabel, .operation (.jump 0),
    .operation (.bind 0), .operation .reset, .operation (.bind 0)]
  have hfields : fields 0 (emitted .freestanding 0 [.newLabel, .operation (.jump 0),
      .operation (.bind 0), .operation .reset, .operation (.bind 0)]) = [(1, .label 0)] := rfl
  have hplaced : PlacedAt (emitted .freestanding 0 [.newLabel, .operation (.jump 0),
      .operation (.bind 0), .operation .reset, .operation (.bind 0)]) (.label 0) 10 :=
    ⟨[.branch .jump (.label 0), .mark (.label 0), .instr (.movByte Block.cell 0)], [], rfl,
      by simp, by decide⟩
  obtain ⟨code, hcode⟩ := h.succeeds.mpr (by
    rw [hfields, List.forall_mem_singleton]
    exact ⟨10, hplaced, by decide, by decide⟩)
  obtain ⟨k, v, hk, hv, hway⟩ := h.filled code hcode (1, .label 0) (by simp [hfields])
  obtain rfl : k = 10 := Option.some.inj ((placedAt_iff.mp hk).symm.trans (placedAt_iff.mp hplaced))
  have hfive : v.toInt32 = 5 := Int32.toInt_inj.mp hway
  obtain rfl : v = 5 := congrArg Int32.toUInt32 hfive
  refine ⟨code, hcode, ?_, hv⟩
  rw [h.size code hcode]
  rfl

end Assembler

end TapeLang
