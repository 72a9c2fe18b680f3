import TapeLang.Proofs.MachineCode.Places

/-!
# The layout of machine code

The code of an accepted instruction list is the prologue, the blocks of its instructions one behind
the other, and the epilogue. Each branch leads where the brackets of the list say, and the list can
be told from the code.

* `toList_assemble_routine`: the bytes of the code.
* `Leads`, `leads_of_branch`: a branch in the code and where it leads.
* `Layout`, `layout_assemble`: all that is said of the code of an accepted list.
-/

namespace TapeLang

open X86 Lowering

namespace MachineCode

variable {linkage : Linkage} {wrap : Wrap} {ops : List Op} {op : Op} {j k m : Nat}

/-! ## Bytes -/

/-- The displacement of the branch of the instruction at index `k`. -/
def displacementAt (linkage : Linkage) (wrap : Wrap) (ops : List Op) (k : Nat) : Int32 :=
  match ops[k]? with
  | none => 0
  | some op =>
    .ofInt (goalAt linkage wrap ops k - (offset linkage wrap ops k + branchEnd linkage op : Nat))

theorem resolve_body (h : j ≤ ops.length) :
    Assembly.resolve (Assembly.placeIn (routine linkage wrap ops)) 21 (body linkage wrap ops j) =
      codeFrom linkage wrap (displacementAt linkage wrap ops) 0 (ops.take j) := by
  induction j with
  | zero => rfl
  | succ j ih =>
    have hop := List.getElem?_eq_getElem h
    have hlength : (ops.take j).length = j := List.length_take_of_le (Nat.le_of_succ_le h)
    rw [body_succ hop, Assembly.resolve_append, ih (Nat.le_of_succ_le h),
      sizes_body (Nat.le_of_succ_le h), resolve_fragmentsOf, List.take_add_one, hop,
      codeFrom_append, hlength, Nat.zero_add]
    congr 1
    rw [Option.toList_some, codeFrom_cons, displacementAt, hop, goalAt, hop]
    exact (List.append_nil _).symm

theorem blocks_split (d : Nat → Int32) (h : ops[k]? = some op) :
    blocks linkage wrap d 0 ops = blocks linkage wrap d 0 (ops.take k) ++
      (block linkage wrap k (d k) op ++ blocks linkage wrap d (k + 1) (ops.drop (k + 1))) := by
  obtain ⟨hlt, hop⟩ := List.getElem?_eq_some_iff.mp h
  have hsplit : ops = ops.take k ++ op :: ops.drop (k + 1) := by
    rw [← hop, List.getElem_cons_drop, List.take_append_drop]
  have hlength : (ops.take k).length = k := List.length_take_of_le (Nat.le_of_lt hlt)
  have hzip := congrArg List.zipIdx hsplit
  rw [List.zipIdx_append, hlength, Nat.zero_add, List.zipIdx_cons] at hzip
  rw [blocks, hzip, List.flatMap_append, List.flatMap_cons]
  rfl

/-- The bytes of a routine. -/
theorem toList_assemble_routine {fs : Array Fragment} (hfs : fs.toList = routine linkage wrap ops)
    {code : Array UInt8} (h : assemble fs = .ok code) :
    code.toList =
      prologue ++ blocks linkage wrap (displacementAt linkage wrap ops) 0 ops ++ epilogue := by
  have hparts (place : Target → Nat) : Assembly.resolve place 0 (routine linkage wrap ops) =
      prologueCode ++ (Assembly.resolve place 21 (body linkage wrap ops ops.length) ++
        epilogueCode) := by
    rw [routine, Assembly.resolve_append, Assembly.resolve_append]
    rfl
  have hbody := @resolve_body linkage wrap ops ops.length (Nat.le_refl _)
  rw [List.take_length] at hbody
  rw [toList_assemble h, hfs, hparts, hbody, encodeAll_append, encodeAll_append,
    encodeAll_prologueCode, encodeAll_codeFrom, encodeAll_epilogueCode, List.append_assoc]

/-- What lowering and assembling make of an accepted list. -/
theorem toList_fragments {operations : Array Operation}
    (h : operations.toList =
      .prologue :: (operationsBefore wrap ops ops.length ++ [.epilogue])) :
    (fragments linkage operations).toList = routine linkage wrap ops := by
  rw [fragments, Array.toList_flatMap, h, routine, body, List.flatMap_cons, List.flatMap_append,
    List.flatMap_singleton]
  rfl

/-! ## Branches -/

/-- The instruction `i` stands in the code at `start`. -/
def Stands (code : List UInt8) (start : Nat) (i : Instr) : Prop := i.encode <+: code.drop start

/-- At `start` stands a branch whose displacement, counted from its end, leads to `goal`. -/
def Leads (code : List UInt8) (start : Nat) (b : Branch) (goal : Nat) : Prop :=
  ∃ d : Int32, Stands code start (.branch b d) ∧
    ((start + (b.opcode.length + 4) : Nat) : Int) + d.toInt = goal

theorem length_before (d : Nat → Int32) (k : Nat) :
    (prologue ++ blocks linkage wrap d 0 (ops.take k)).length = offset linkage wrap ops k := by
  rw [List.length_append, length_blocks]
  rfl

section Code

variable {code : List UInt8} {d : Nat → Int32}
  (hcode : code = prologue ++ blocks linkage wrap d 0 ops ++ epilogue)
include hcode

theorem length_code : code.length = offset linkage wrap ops ops.length + 25 := by
  rw [hcode, List.length_append, ← length_before d, List.take_length]
  rfl

theorem prefix_epilogue : epilogue <+: code.drop (offset linkage wrap ops ops.length) := by
  have hdrop : code.drop (offset linkage wrap ops ops.length) = epilogue := by
    rw [hcode, ← length_before d, List.take_length, List.drop_left]
  exact ⟨[], by rw [List.append_nil, hdrop]⟩

theorem prefix_block (h : ops[k]? = some op) :
    block linkage wrap k (d k) op <+: code.drop (offset linkage wrap ops k) := by
  have hsplit : code = prologue ++ blocks linkage wrap d 0 (ops.take k) ++
      (block linkage wrap k (d k) op ++
        (blocks linkage wrap d (k + 1) (ops.drop (k + 1)) ++ epilogue)) := by
    rw [hcode, blocks_split d h]
    simp only [List.append_assoc]
  rw [hsplit, ← length_before d, List.drop_left]
  exact List.prefix_append ..

end Code

/-- What stands in a piece of the code stands in the code. -/
theorem stands_of_piece {code piece : List UInt8} {o start : Nat} {i : Instr}
    (h : piece <+: code.drop o) (hi : i.encode <+: piece.drop start) :
    Stands code (o + start) i := by
  obtain ⟨after, hafter⟩ := h
  rw [Stands, ← List.drop_drop, ← hafter, List.drop_append]
  exact hi.trans (List.prefix_append ..)

theorem branchEnd_eq {start : Nat} {b : Branch} (h : branchOf? linkage op = some (start, b)) :
    branchEnd linkage op = start + (b.opcode.length + 4) := by rw [branchEnd, h]

theorem branchEnd_le (linkage : Linkage) (wrap : Wrap) (op : Op) :
    branchEnd linkage op ≤ blockLength linkage wrap op := by
  cases op <;> cases linkage <;> cases wrap <;> exact Nat.le_of_ble_eq_true rfl

/-- A branch in code that is not too long leads where its target is placed. -/
theorem leads_of_branch {code : List UInt8}
    (hcode : code =
      prologue ++ blocks linkage wrap (displacementAt linkage wrap ops) 0 ops ++ epilogue)
    (hsize : code.length < 2 ^ 31) (hop : ops[k]? = some op) {start : Nat} {b : Branch}
    (hb : branchOf? linkage op = some (start, b)) {goal : Nat}
    (hgoal : goalAt linkage wrap ops k = goal)
    (hle : goal ≤ offset linkage wrap ops ops.length + 25) :
    Leads code (offset linkage wrap ops k + start) b goal := by
  have hlt : k + 1 ≤ ops.length := (List.getElem?_eq_some_iff.mp hop).1
  rw [length_code hcode] at hsize
  have hend : offset linkage wrap ops k + branchEnd linkage op ≤
      offset linkage wrap ops ops.length := by
    have hnext := @offset_mono linkage wrap ops _ _ hlt
    have hblock := branchEnd_le linkage wrap op
    rw [offset_succ hop] at hnext
    omega
  refine ⟨displacementAt linkage wrap ops k,
    stands_of_piece (prefix_block hcode hop) (branch_in_block hb), ?_⟩
  rw [displacementAt, hop, hgoal]
  simp only
  rw [Int32.toInt_ofInt_of_le (by omega) (by omega), Nat.add_assoc, ← branchEnd_eq hb]
  omega

/-! ## The layout -/

/-- How the code of an instruction list is laid out. -/
structure Layout (linkage : Linkage) (wrap : Wrap) (ops : List Op) (code : List UInt8) : Prop where
  bytes : ∃ d : Nat → Int32, code = prologue ++ blocks linkage wrap d 0 ops ++ epilogue
  length : code.length = offset linkage wrap ops ops.length + 25
  /-- Each block is where the lengths in front of it put it. -/
  found : ∀ k op, ops[k]? = some op → ∃ d,
    block linkage wrap k d op <+: code.drop (offset linkage wrap ops k) ∧
      (block linkage wrap k d op).length = blockLength linkage wrap op
  /-- The start of a loop leads behind its end. -/
  loopStart : ∀ k, ops[k]? = some .loopStart → ∃ m, Closes ops k m ∧
    Leads code (offset linkage wrap ops k + 5) (.jumpIf .equal) (offset linkage wrap ops (m + 1))
  /-- The end of a loop leads to its start. -/
  loopEnd : ∀ m, ops[m]? = some .loopEnd → ∃ k, Closes ops k m ∧
    Leads code (offset linkage wrap ops m) .jump (offset linkage wrap ops k)
  /-- A transfer that fails leads to `mov eax, 1` in the epilogue. -/
  transfer : ∀ k op, ops[k]? = some op → op = .read ∨ op = .write →
    ∃ start b, branchOf? linkage op = some (start, b) ∧
      Leads code (offset linkage wrap ops k + start) b (offset linkage wrap ops ops.length + 15)
  failing : Stands code (offset linkage wrap ops ops.length + 15) (.movImm32 .rax 1)
  /-- From there the epilogue goes back to where it stores the pointer. -/
  joining : Leads code (offset linkage wrap ops ops.length + 20) .jump
    (offset linkage wrap ops ops.length + 2)
  leaving : Stands code (offset linkage wrap ops ops.length + 2) (.store .r14 .r12)
  /-- A move that need not wrap around skips the rest of its block. -/
  skipping : ∀ k n cells, ops[k]? = some (.move n) → wrap = .length cells →
    Stands code (offset linkage wrap ops k + 14) (.jumpShort .below 7) ∧
      offset linkage wrap ops k + 14 + 2 + 7 = offset linkage wrap ops (k + 1)

theorem layout_of_bytes (hn : Nested ops) {code : List UInt8}
    (hcode : code =
      prologue ++ blocks linkage wrap (displacementAt linkage wrap ops) 0 ops ++ epilogue)
    (hsize : code.length < 2 ^ 31) : Layout linkage wrap ops code where
  bytes := ⟨_, hcode⟩
  length := length_code hcode
  found k op hop := ⟨_, prefix_block hcode hop, length_block ..⟩
  loopStart k hk := by
    obtain ⟨m, hm⟩ := hn.exists_closes hk
    have hlt : m + 1 ≤ ops.length := (List.getElem?_eq_some_iff.mp hm.closing).1
    have hle := @offset_mono linkage wrap ops _ _ hlt
    exact ⟨m, hm, leads_of_branch hcode hsize hk rfl (goalAt_loopStart hn hm) (by omega)⟩
  loopEnd m hm := by
    have hc := closes_startOf hn hm
    have hlt : startOf ops m < ops.length := (List.getElem?_eq_some_iff.mp hc.opening).1
    have hle := @offset_mono linkage wrap ops _ _ (Nat.le_of_lt hlt)
    exact ⟨_, hc, leads_of_branch hcode hsize hm rfl (goalAt_loopEnd hn hc) (by omega)⟩
  transfer k op hop h := by
    obtain ⟨start, b, hb⟩ : ∃ start b, branchOf? linkage op = some (start, b) := by
      rcases h with rfl | rfl <;> cases linkage <;> exact ⟨_, _, rfl⟩
    exact ⟨start, b, hb, leads_of_branch hcode hsize hop hb (goalAt_transfer hn hop h) (by omega)⟩
  failing := stands_of_piece (prefix_epilogue hcode) (by decide)
  joining := by
    have hback : (-23 : Int32).toInt = -23 := rfl
    refine ⟨-23, stands_of_piece (prefix_epilogue hcode) (by decide), ?_⟩
    rw [hback, Branch.opcode, List.length_singleton]
    omega
  leaving := stands_of_piece (prefix_epilogue hcode) (by decide)
  skipping k n cells hk hw := by
    subst hw
    refine ⟨stands_of_piece (prefix_block hcode hk) ⟨_, rfl⟩, ?_⟩
    rw [offset_succ hk]
    rfl

/-! ## Accepted lists -/

section Accepted

variable {length : Nat} (haccepted : (lower ops length).error = none)
  (hmoves : ∀ n, .move n ∈ ops → n < length)
include haccepted hmoves

/-- An accepted list can be told from its code. -/
theorem readBack_assemble {code : Array UInt8}
    (h : assemble (fragments linkage (lower ops length).operations) = .ok code) :
    readBack code.toList = (ops.map carried).zipIdx := by
  obtain ⟨wrap, hw, hmany, -, hoperations⟩ := lower_accepted haccepted
  have hlength := Wrap.le_of_ofTapeLength hw
  unfold maxInstructions at hmany
  unfold maxTapeLength at hlength
  have hcounts (n : Nat) (hn : .move n ∈ ops) : n < 2 ^ 32 := by
    have := hmoves n hn
    omega
  rw [toList_assemble_routine (toList_fragments hoperations) h]
  exact readBack_blocks (by omega) hcounts _

/-- The code of an accepted list is laid out block by block, and the list can be told from it. -/
theorem layout_assemble
    (hsize : Assembly.size (fragments linkage (lower ops length).operations) < 2 ^ 31) :
    ∃ wrap code, Wrap.ofTapeLength length = .ok wrap ∧
      assemble (fragments linkage (lower ops length).operations) = .ok code ∧
      Layout linkage wrap ops code.toList ∧ readBack code.toList = (ops.map carried).zipIdx ∧
      ∀ (ops' : List Op) (length' : Nat) (linkage' : Linkage),
        (lower ops' length').error = none → (∀ n, .move n ∈ ops' → n < length') →
        (∀ n, .add n ∈ ops → n < cellModulus) → (∀ n, .add n ∈ ops' → n < cellModulus) →
        assemble (fragments linkage' (lower ops' length').operations) = .ok code → ops' = ops := by
  obtain ⟨wrap, hw, -, hn, hoperations⟩ := lower_accepted haccepted
  have hfs := @toList_fragments linkage wrap ops _ hoperations
  rw [Assembly.size_eq, hfs] at hsize
  obtain ⟨code, hcode⟩ : ∃ code,
      assemble (fragments linkage (lower ops length).operations) = .ok code := by
    apply exists_assemble <;> rw [hfs]
    · exact nodup_marks_routine hn
    · exact sound_routine hn
    · exact hsize
  have hread := readBack_assemble haccepted hmoves hcode
  refine ⟨wrap, code, hw, hcode, ?_, hread, ?_⟩
  · apply layout_of_bytes hn (toList_assemble_routine hfs hcode)
    rwa [Array.length_toList, size_assemble hcode, hfs]
  · intro ops' length' linkage' haccepted' hmoves' hadds hadds' hcode'
    have hread' := readBack_assemble haccepted' hmoves' hcode'
    have hzip : (ops'.map carried).zipIdx = (ops.map carried).zipIdx := hread'.symm.trans hread
    have hsame := congrArg (List.map Prod.fst) hzip
    rwa [List.zipIdx_map_fst, List.zipIdx_map_fst, map_carried hadds', map_carried hadds] at hsame

end Accepted

/-- Counting down a cell that was read, on a tape whose length is not a power of two. -/
theorem layout_assemble_countdown :
    ∃ wrap code, Wrap.ofTapeLength 10 = .ok wrap ∧
      assemble (fragments (.hosted 0x40000 0x40010)
        (lower [.read, .loopStart, .write, .add 255, .loopEnd, .move 9] 10).operations) = .ok code ∧
      Layout (.hosted 0x40000 0x40010) wrap
        [.read, .loopStart, .write, .add 255, .loopEnd, .move 9] code.toList ∧
      readBack code.toList =
        [(.read, 0), (.loopStart, 1), (.write, 2), (.add 255, 3), (.loopEnd, 4), (.move 9, 5)] := by
  obtain ⟨wrap, code, hw, hcode, hlayout, hread, -⟩ :=
    @layout_assemble (.hosted 0x40000 0x40010)
      [.read, .loopStart, .write, .add 255, .loopEnd, .move 9] 10 rfl (by simp) (by decide +kernel)
  exact ⟨wrap, code, hw, hcode, hlayout, hread⟩

end MachineCode

end TapeLang
