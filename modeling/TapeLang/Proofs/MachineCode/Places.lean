import Mathlib.Data.List.Nodup
import TapeLang.Proofs.MachineCode.Blocks

/-!
# Where blocks and targets are

The fragments of an accepted instruction list are those of the prologue, of its instructions one
behind the other, and of the epilogue. Where a block starts is known from the lengths of those in
front of it, and with it where the targets of branches are placed.

* `offset`, `routine`: where the block of an instruction starts, and the fragments of the whole.
* `nodup_marks_routine`, `sound_routine`: each label is marked once, and only marked ones are jumped
  to.
* `place_top`, `place_behind`, `place_fail`: where the targets of branches are placed.
* `goalAt`: where the branch of an instruction leads.
-/

namespace TapeLang

open X86 Lowering

namespace MachineCode

variable {linkage : Linkage} {wrap : Wrap} {ops : List Op} {op : Op} {j k m : Nat}

/-! ## Offsets -/

/-- Where the block of the instruction at index `k` starts. -/
def offset (linkage : Linkage) (wrap : Wrap) (ops : List Op) (k : Nat) : Nat :=
  21 + ((ops.take k).map (blockLength linkage wrap)).sum

theorem offset_succ (h : ops[k]? = some op) :
    offset linkage wrap ops (k + 1) = offset linkage wrap ops k + blockLength linkage wrap op := by
  rw [offset, offset, List.take_add_one, h, List.map_append, List.sum_append]
  simp [Nat.add_assoc]

theorem offset_le_succ (k : Nat) : offset linkage wrap ops k ≤ offset linkage wrap ops (k + 1) := by
  cases h : ops[k]? with
  | none =>
    rw [offset, offset, List.take_add_one, h]
    simp
  | some op =>
    rw [offset_succ h]
    exact Nat.le_add_right ..

theorem offset_mono (h : j ≤ k) : offset linkage wrap ops j ≤ offset linkage wrap ops k := by
  induction h with
  | refl => exact Nat.le_refl _
  | step _ ih => exact Nat.le_trans ih (offset_le_succ _)

/-! ## Fragments -/

/-- The fragments of the instructions in front of index `j`. -/
def body (linkage : Linkage) (wrap : Wrap) (ops : List Op) (j : Nat) : List Fragment :=
  (operationsBefore wrap ops j).flatMap (Block.ofOperation linkage)

theorem body_succ (h : ops[j]? = some op) :
    body linkage wrap ops (j + 1) = body linkage wrap ops j ++
      fragmentsOf linkage wrap j (loopAt ops (startOf ops j)) op := by
  rw [body, operationsBefore_succ, List.flatMap_append, operationsAt_eq h]
  rfl

theorem prefix_body (h : j ≤ k) (hk : k ≤ ops.length) :
    body linkage wrap ops j <+: body linkage wrap ops k := by
  induction h with
  | refl => exact List.prefix_refl _
  | @step k _ ih =>
    rw [body_succ (List.getElem?_eq_getElem hk)]
    exact (ih (Nat.le_of_succ_le hk)).trans (List.prefix_append ..)

theorem sizes_body (h : j ≤ ops.length) :
    21 + Fragment.sizes (body linkage wrap ops j) = offset linkage wrap ops j := by
  induction j with
  | zero => rfl
  | succ j ih =>
    have hop := List.getElem?_eq_getElem h
    rw [body_succ hop, Fragment.sizes_append, sizes_fragmentsOf, ← Nat.add_assoc,
      ih (Nat.le_of_succ_le h), offset_succ hop]

/-- The fragments of a whole list. -/
def routine (linkage : Linkage) (wrap : Wrap) (ops : List Op) : List Fragment :=
  Block.prologue ++ (body linkage wrap ops ops.length ++ Block.epilogue)

theorem prefix_routine (h : j ≤ ops.length) :
    Block.prologue ++ body linkage wrap ops j <+: routine linkage wrap ops := by
  rw [routine, List.prefix_append_right_inj]
  exact (prefix_body h (Nat.le_refl _)).trans (List.prefix_append ..)

theorem sizes_before (h : j ≤ ops.length) :
    Fragment.sizes (Block.prologue ++ body linkage wrap ops j) = offset linkage wrap ops j := by
  rw [Fragment.sizes_append, ← sizes_body h]
  rfl

/-! ## Marks -/

/-- The target that an instruction marks. -/
def markOf (loop : Loop) : Op → Option Target
  | .loopStart => some (.label loop.top)
  | .loopEnd => some (.label loop.behind)
  | _ => none

theorem marks_fragmentsOf (linkage : Linkage) (wrap : Wrap) (index : Nat) (loop : Loop)
    (op : Op) :
    Fragment.marks (fragmentsOf linkage wrap index loop op) = (markOf loop op).toList := by
  cases op <;> cases linkage <;> cases wrap <;> rfl

def markAt (ops : List Op) (k : Nat) : Option Target :=
  ops[k]?.bind (markOf (loopAt ops (startOf ops k)))

theorem marks_body (h : j ≤ ops.length) :
    Fragment.marks (body linkage wrap ops j) = (List.range j).filterMap (markAt ops) := by
  induction j with
  | zero => rfl
  | succ j ih =>
    have hop := List.getElem?_eq_getElem h
    have hmark : (List.filterMap (markAt ops) [j]) =
        (markOf (loopAt ops (startOf ops j)) ops[j]).toList := by
      rw [List.filterMap_cons, markAt, hop, Option.bind_some, List.filterMap_nil]
      cases markOf (loopAt ops (startOf ops j)) ops[j] <;> rfl
    rw [body_succ hop, Fragment.marks_append, marks_fragmentsOf, ih (Nat.le_of_succ_le h),
      List.range_succ, List.filterMap_append, hmark]

/-- What an instruction marks is a label of its loop: the first one if it is even. -/
theorem markAt_eq_some {t : Target} (h : markAt ops k = some t) :
    ops[k]? = some .loopStart ∧ t = .label (labelAt ops k) ∨
      ops[k]? = some .loopEnd ∧ t = .label (labelAt ops (startOf ops k) + 1) := by
  obtain ⟨op, hop, hmark⟩ := Option.bind_eq_some_iff.mp h
  cases op with
  | loopStart =>
    rw [startOf_loopStart hop] at hmark
    cases hmark
    exact .inl ⟨hop, rfl⟩
  | loopEnd =>
    cases hmark
    exact .inr ⟨hop, rfl⟩
  | _ => cases hmark

/-- No two instructions mark the same label. -/
theorem markAt_injective (hn : Nested ops) {t : Target} (hj : markAt ops j = some t)
    (hk : markAt ops k = some t) : j = k := by
  have hparity (a b : Nat) : labelAt ops a ≠ labelAt ops b + 1 := by
    unfold labelAt
    intro h
    have h : 2 * (ops.take a).count .loopStart = 2 * (ops.take b).count .loopStart + 1 := h
    omega
  rcases markAt_eq_some hj with ⟨hja, rfl⟩ | ⟨hja, rfl⟩ <;>
    rcases markAt_eq_some hk with ⟨hka, ht⟩ | ⟨hka, ht⟩
  · exact labelAt_injective hja hka (Target.label.inj ht)
  · exact absurd (Target.label.inj ht) (hparity _ _)
  · exact absurd (Target.label.inj ht).symm (hparity _ _)
  · have hcj := closes_startOf hn hja
    have hck := closes_startOf hn hka
    have hsame := labelAt_injective hcj.opening hck.opening
      (Nat.succ.inj (Target.label.inj ht))
    rw [hsame] at hcj
    exact hcj.unique_end hck

theorem marks_routine : Fragment.marks (routine linkage wrap ops) =
    (List.range ops.length).filterMap (markAt ops) ++ [.fail] := by
  rw [routine, Fragment.marks_append, Fragment.marks_append, marks_body (Nat.le_refl _)]
  rfl

theorem nodup_marks_routine (hn : Nested ops) :
    (Fragment.marks (routine linkage wrap ops)).Nodup := by
  rw [marks_routine, List.nodup_append]
  refine ⟨List.Nodup.filterMap (fun a b t ha hb => markAt_injective hn ha hb) List.nodup_range,
    List.nodup_singleton _, fun t ht u hu htu => ?_⟩
  obtain ⟨i, -, hi⟩ := List.mem_filterMap.mp ht
  rw [List.mem_singleton.mp hu] at htu
  rcases markAt_eq_some hi with ⟨-, rfl⟩ | ⟨-, rfl⟩ <;> cases htu

/-! ## Targets -/

/-- The top of a loop is where the block of its start begins. -/
theorem place_top (hn : Nested ops) (hk : ops[k]? = some .loopStart) :
    Assembly.placeIn (routine linkage wrap ops) (.label (labelAt ops k)) =
      offset linkage wrap ops k := by
  have hlt : k < ops.length := (List.getElem?_eq_some_iff.mp hk).1
  have hmark : Block.prologue ++ body linkage wrap ops k ++
      [.mark (.label (labelAt ops k))] <+: routine linkage wrap ops := by
    refine .trans ?_ (prefix_routine (show k + 1 ≤ ops.length from hlt))
    rw [body_succ hk, startOf_loopStart hk, ← List.append_assoc,
      List.prefix_append_right_inj]
    exact List.prefix_append [_] _
  rw [placeIn_mark (nodup_marks_routine hn) hmark, sizes_before (Nat.le_of_lt hlt)]

/-- The label behind a loop is behind the block of its end. -/
theorem place_behind (hn : Nested ops) (h : Closes ops k m) :
    Assembly.placeIn (routine linkage wrap ops) (.label (labelAt ops k + 1)) =
      offset linkage wrap ops (m + 1) := by
  have hlt : m < ops.length := (List.getElem?_eq_some_iff.mp h.closing).1
  have hstart : startOf ops m = k :=
    (closes_startOf hn h.closing).unique_start h
  have hmark : Block.prologue ++ body linkage wrap ops m ++
      [.branch .jump (.label (labelAt ops k))] ++
        [.mark (.label (labelAt ops k + 1))] <+: routine linkage wrap ops := by
    refine .trans ?_ (prefix_routine (show m + 1 ≤ ops.length from hlt))
    rw [body_succ h.closing, hstart, ← List.append_assoc, List.append_assoc _ [_],
      List.prefix_append_right_inj]
    exact List.prefix_refl _
  rw [placeIn_mark (nodup_marks_routine hn) hmark, Fragment.sizes_append,
    sizes_before (Nat.le_of_lt hlt), offset_succ h.closing]
  rfl

/-- The exit after a failure is in the epilogue. -/
theorem place_fail (hn : Nested ops) :
    Assembly.placeIn (routine linkage wrap ops) .fail =
      offset linkage wrap ops ops.length + 15 := by
  have hmark : Block.prologue ++ body linkage wrap ops ops.length ++
      Block.plain (.xor .dword .rax .rax :: Block.leave) ++ [.mark .fail] <+:
        routine linkage wrap ops := by
    rw [routine, ← List.append_assoc, List.append_assoc _ (Block.plain _),
      List.prefix_append_right_inj]
    exact List.prefix_append ..
  rw [placeIn_mark (nodup_marks_routine hn) hmark, Fragment.sizes_append,
    sizes_before (Nat.le_refl _)]
  rfl

/-- Where the branch of the instruction at index `k` leads. -/
def goalAt (linkage : Linkage) (wrap : Wrap) (ops : List Op) (k : Nat) : Nat :=
  match ops[k]? with
  | none => 0
  | some op =>
    Assembly.placeIn (routine linkage wrap ops)
      (goalOf (loopAt ops (startOf ops k)) op)

theorem goalAt_loopStart (hn : Nested ops) (h : Closes ops k m) :
    goalAt linkage wrap ops k = offset linkage wrap ops (m + 1) := by
  rw [goalAt, h.opening, startOf_loopStart h.opening]
  exact place_behind hn h

theorem goalAt_loopEnd (hn : Nested ops) (h : Closes ops k m) :
    goalAt linkage wrap ops m = offset linkage wrap ops k := by
  rw [goalAt, h.closing, (closes_startOf hn h.closing).unique_start h]
  exact place_top hn h.opening

theorem goalAt_transfer (hn : Nested ops) (hop : ops[k]? = some op) (h : op = .read ∨ op = .write) :
    goalAt linkage wrap ops k = offset linkage wrap ops ops.length + 15 := by
  rw [goalAt, hop, ← place_fail hn]
  rcases h with rfl | rfl <;> rfl

theorem mem_body {f : Fragment} (hj : j ≤ ops.length) (hf : f ∈ body linkage wrap ops j) :
    ∃ k op, ops[k]? = some op ∧
      f ∈ fragmentsOf linkage wrap k (loopAt ops (startOf ops k)) op := by
  induction j with
  | zero => cases hf
  | succ j ih =>
    have hop := List.getElem?_eq_getElem hj
    rw [body_succ hop] at hf
    rcases List.mem_append.mp hf with hf | hf
    · exact ih (Nat.le_of_succ_le hj) hf
    · exact ⟨j, _, hop, hf⟩

theorem goalOf_mem_marks (hn : Nested ops) (hop : ops[k]? = some op) :
    goalOf (loopAt ops (startOf ops k)) op ∈
      Fragment.marks (routine linkage wrap ops) := by
  have hmarked {i : Nat} {t : Target} (h : markAt ops i = some t) :
      t ∈ Fragment.marks (routine linkage wrap ops) := by
    have hlt : i < ops.length := by
      obtain ⟨op, hi, -⟩ := Option.bind_eq_some_iff.mp h
      exact (List.getElem?_eq_some_iff.mp hi).1
    rw [marks_routine]
    exact List.mem_append_left _ (List.mem_filterMap.mpr ⟨i, List.mem_range.mpr hlt, h⟩)
  cases op with
  | loopStart =>
    obtain ⟨m, hm⟩ := hn.exists_closes hop
    apply @hmarked m
    rw [markAt, hm.closing, (closes_startOf hn hm.closing).unique_start hm,
      startOf_loopStart hop]
    rfl
  | loopEnd =>
    have hopening := (closes_startOf hn hop).opening
    apply @hmarked (startOf ops k)
    rw [markAt, hopening, startOf_loopStart hopening]
    rfl
  | _ =>
    rw [marks_routine]
    exact List.mem_append_right _ (List.mem_singleton.mpr rfl)

theorem sound_routine (hn : Nested ops) :
    ∀ f ∈ routine linkage wrap ops, f.Sound (Fragment.marks (routine linkage wrap ops)) := by
  have hfail : .fail ∈ Fragment.marks (routine linkage wrap ops) := by
    rw [marks_routine]
    exact List.mem_append_right _ (List.mem_singleton.mpr rfl)
  apply Fragment.sound_enclosed
  intro f hf
  obtain ⟨k, op, hop, hfk⟩ := mem_body (Nat.le_refl _) hf
  exact sound_fragmentsOf hfail (goalOf_mem_marks hn hop) f hfk

end MachineCode

end TapeLang
