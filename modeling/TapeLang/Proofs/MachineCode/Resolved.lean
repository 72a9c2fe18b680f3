import TapeLang.Proofs.Layout

/-!
# The instructions of assembled code

Assembled code is the encoding of a list of instructions: those of its fragments, each branch with
the displacement to the place of its target. Regular instructions can be read back from it.

* `resolve`: the instructions of fragments; `toList_assemble`: the code encodes them.
* `placeIn`, `placeIn_mark`: where a target is placed.
* `disassemble`, `disassemble_encodeAll`: instructions read back from a piece of code.
-/

namespace TapeLang

open X86 Fragment

/-! ## Writing instructions -/

namespace X86

theorem encodeAll_cons (i : Instr) (code : List Instr) :
    encodeAll (i :: code) = i.encode ++ encodeAll code := List.flatMap_cons

theorem encodeAll_append (code more : List Instr) :
    encodeAll (code ++ more) = encodeAll code ++ encodeAll more := List.flatMap_append

theorem length_encodeAll (code : List Instr) : (encodeAll code).length = codeSize code := by
  induction code with
  | nil => rfl
  | cons i code ih => rw [encodeAll_cons, List.length_append, ih, codeSize_cons, Instr.size]

/-- A text that has the bytes of straight code at an offset has the code there. -/
theorem Text.hasAt_plain {base : UInt64} {bytes : Array UInt8} {before behind : List UInt8}
    {code : List Instr} (place : Target → Nat) (hcode : ∀ i ∈ code, i.Regular)
    (hbytes : bytes.toList = before ++ (encodeAll code ++ behind))
    (hsize : before.length + codeSize code < 2 ^ 64) :
    (Text.ofBytes base bytes).HasAt place before.length (Block.plain code) := by
  induction code generalizing before with
  | nil => trivial
  | cons i rest ih =>
    rw [codeSize_cons] at hsize
    rw [encodeAll_cons, List.append_assoc] at hbytes
    have hi := decode_encode (hcode i List.mem_cons_self) (encodeAll rest ++ behind)
    have hbehind : (before ++ i.encode).length = before.length + i.size := List.length_append
    have hrest := @ih (before ++ i.encode) (fun j hj => hcode j (List.mem_cons_of_mem i hj))
      (by rw [hbytes, List.append_assoc]) (by omega)
    rw [hbehind] at hrest
    exact ⟨fetch?_ofBytes hbytes hi (by omega), hrest⟩

/-! ## Reading instructions -/

/-- The instructions that stand one behind the other from the first byte on, up to bytes that cannot
be read. -/
def disassemble : List UInt8 → List Instr
  | [] => []
  | b :: rest =>
    match decode (b :: rest) with
    | none => []
    | some (i, n) => i :: disassemble (rest.drop (n - 1))
termination_by bytes => bytes.length
decreasing_by
  rw [List.length_drop, List.length_cons]
  omega

theorem disassemble_encode {i : Instr} (hi : i.Regular) (rest : List UInt8) :
    disassemble (i.encode ++ rest) = i :: disassemble rest := by
  have hd := decode_encode hi rest
  cases he : i.encode with
  | nil =>
    have hnil := decode_encode hi []
    rw [he] at hnil
    cases hnil
  | cons b more =>
    have hsize : i.size - 1 = more.length := by
      rw [Instr.size, he, List.length_cons, Nat.add_sub_cancel]
    rw [he] at hd
    rw [List.cons_append] at hd ⊢
    rw [disassemble, hd]
    simp only [hsize, List.drop_left]

/-- Regular instructions read back, whatever stands behind them. -/
theorem disassemble_encodeAll {code : List Instr} (h : ∀ i ∈ code, i.Regular) (rest : List UInt8) :
    disassemble (encodeAll code ++ rest) = code ++ disassemble rest := by
  induction code with
  | nil => rfl
  | cons i code ih =>
    rw [encodeAll_cons, List.append_assoc, disassemble_encode (h i List.mem_cons_self),
      ih fun j hj => h j (List.mem_cons_of_mem i hj), List.cons_append]

end X86

/-! ## Resolving branches -/

namespace Assembly

/-- The instructions of fragments, the first of them at `offset`. -/
def resolve (place : Target → Nat) (offset : Nat) : List Fragment → List Instr
  | [] => []
  | .instr i :: rest => i :: resolve place (offset + i.size) rest
  | .branch b target :: rest =>
    let stop := offset + (Fragment.branch b target).size
    .branch b (.ofInt (place target - stop)) :: resolve place stop rest
  | .mark _ :: rest => resolve place offset rest

variable {place : Target → Nat} {offset : Nat}

theorem resolve_append (fs gs : List Fragment) :
    resolve place offset (fs ++ gs) =
      resolve place offset fs ++ resolve place (offset + sizes fs) gs := by
  induction fs generalizing offset with
  | nil => rfl
  | cons f fs ih =>
    cases f with
    | instr i =>
      rw [List.cons_append, resolve, ih, resolve, sizes_cons, ← Nat.add_assoc]
      rfl
    | branch b target =>
      rw [List.cons_append, resolve, ih, resolve, sizes_cons, ← Nat.add_assoc]
      rfl
    | mark target =>
      rw [List.cons_append, resolve, ih, resolve, sizes_cons, ← Nat.add_assoc]
      rfl

theorem codeSize_resolve (fs : List Fragment) : codeSize (resolve place offset fs) = sizes fs := by
  induction fs generalizing offset with
  | nil => rfl
  | cons f fs ih =>
    cases f with
    | instr i => rw [resolve, codeSize_cons, ih, sizes_cons, Fragment.size]
    | branch b target =>
      rw [resolve, codeSize_cons, ih, sizes_cons, size_branch, Fragment.size]
    | mark target => rw [resolve, ih, sizes_cons, Fragment.size, Nat.zero_add]

/-- Where a target is placed among `fragments`, or 0 if it is not. -/
def placeIn (fragments : List Fragment) (target : Target) : Nat :=
  (placesFrom 0 ∅ fragments)[target]?.getD 0

/-- What has been written is the encoding of what was resolved. -/
theorem toList_bytesFrom {places : Std.HashMap Target Nat} {size : Nat} {done out : Array UInt8}
    {fs : List Fragment} (h : bytesFrom places size offset done fs = .ok out) :
    out.toList = done.toList ++ encodeAll (resolve (fun t => places[t]?.getD 0) offset fs) := by
  induction fs generalizing offset done with
  | nil =>
    cases h
    exact (List.append_nil _).symm
  | cons f fs ih =>
    cases f with
    | instr i =>
      rw [ih h, resolve, encodeAll_cons, Array.appendList_eq_append, Array.toList_appendList,
        List.append_assoc]
      rfl
    | mark target =>
      rw [ih h, resolve, Array.appendList_eq_append, Array.toList_appendList, List.append_nil]
      rfl
    | branch b target =>
      rw [bytesFrom] at h
      split at h
      case h_2 => cases h
      case h_1 bytes hb =>
        simp only [bytesAt] at hb
        split at hb
        case h_2 => cases hb
        case h_1 d hd =>
          cases hb
          obtain ⟨goal, hgoal, -, -, rfl⟩ := displacement_eq_ok.mp hd
          rw [ih h, resolve, encodeAll_cons, Array.appendList_eq_append, Array.toList_appendList,
            List.append_assoc]
          simp only [hgoal, Option.getD_some]

end Assembly

open Assembly

theorem toList_assemble {fs : Array Fragment} {code : Array UInt8} (h : assemble fs = .ok code) :
    code.toList = encodeAll (resolve (placeIn fs.toList) 0 fs.toList) := toList_bytesFrom h

theorem size_assemble {fs : Array Fragment} {code : Array UInt8} (h : assemble fs = .ok code) :
    code.size = sizes fs.toList := by
  rw [← Array.length_toList, toList_assemble h, length_encodeAll, codeSize_resolve]

/-- A target is placed where what stands in front of its mark ends. -/
theorem placeIn_mark {fs before : List Fragment} {t : Target} (hn : (marks fs).Nodup)
    (h : before ++ [.mark t] <+: fs) : placeIn fs t = sizes before := by
  obtain ⟨after, hafter⟩ := h
  rw [List.append_assoc] at hafter
  rw [placeIn, @placesFrom_of_nodup fs.toArray hn before after t hafter.symm, Option.getD_some]

end TapeLang
