import TapeLang.Assembly
import TapeLang.Proofs.Course
import TapeLang.Proofs.X86.Cpu
import TapeLang.Proofs.X86.Decode

/-!
# Fragments in machine code

Assembled code holds at each offset what the fragments say, and each branch leads to the place of
its target. This is said for a text that may have more bytes on both sides.

* `Text.HasAt`: the fragments that a text has at an offset.
* `Text.Boundary`: the offsets at which its instructions start.
* `hasAt_assemble`: the code of fragments, each target of which is marked once, has them wherever it
  stands.
* `assemble_spec`: such fragments can be assembled if their code is not too long.
-/

namespace TapeLang

open X86

/-! ## Sizes and marks -/

namespace Fragment

def sizes (fs : List Fragment) : Nat := fs.foldr (fun f n => f.size + n) 0

@[simp] theorem sizes_nil : sizes [] = 0 := rfl

@[simp] theorem sizes_cons (f : Fragment) (fs : List Fragment) :
    sizes (f :: fs) = f.size + sizes fs := rfl

@[simp] theorem sizes_append (fs gs : List Fragment) : sizes (fs ++ gs) = sizes fs + sizes gs := by
  induction fs with
  | nil => exact (Nat.zero_add _).symm
  | cons f fs ih => rw [List.cons_append, sizes_cons, sizes_cons, ih, Nat.add_assoc]

theorem sizes_plain (code : List Instr) : sizes (Block.plain code) = codeSize code := by
  rw [sizes, Block.plain, List.foldr_map]
  rfl

def target? : Fragment → Option Target
  | mark t => some t
  | _ => none

def marks (fs : List Fragment) : List Target := fs.filterMap target?

@[simp] theorem marks_nil : marks [] = [] := rfl

@[simp] theorem marks_instr (i : Instr) (fs : List Fragment) : marks (.instr i :: fs) = marks fs :=
  rfl

@[simp] theorem marks_branch (b : Branch) (t : Target) (fs : List Fragment) :
    marks (.branch b t :: fs) = marks fs := rfl

@[simp] theorem marks_mark (t : Target) (fs : List Fragment) :
    marks (.mark t :: fs) = t :: marks fs := rfl

@[simp] theorem marks_append (fs gs : List Fragment) : marks (fs ++ gs) = marks fs ++ marks gs := by
  simp [marks]

@[simp] theorem marks_plain (code : List Instr) : marks (Block.plain code) = [] := by
  simp [marks, Block.plain, List.filterMap_map, Function.comp_def, target?]

/-- It can be encoded if these targets are marked. -/
def Sound (marked : List Target) : Fragment → Prop
  | instr i => i.Regular
  | branch _ t => t ∈ marked
  | mark _ => True

theorem sound_plain {code : List Instr} (h : ∀ i ∈ code, i.Regular) (marked : List Target) :
    ∀ f ∈ Block.plain code, f.Sound marked := by
  intro f hf
  obtain ⟨i, hi, rfl⟩ := List.mem_map.mp hf
  exact h i hi

/-- What stands around the body of a routine can be encoded. -/
theorem sound_enclosed {fs : List Fragment} {marked : List Target} (h : ∀ f ∈ fs, f.Sound marked) :
    ∀ f ∈ Block.prologue ++ (fs ++ Block.epilogue), f.Sound marked := by
  intro f hf
  rw [Block.epilogue] at hf
  simp only [List.mem_append, List.mem_singleton] at hf
  rcases hf with hf | hf | (hf | rfl) | hf
  · exact sound_plain (by decide) marked f hf
  · exact h f hf
  · exact sound_plain (by decide) marked f hf
  · trivial
  · exact sound_plain (by decide) marked f hf

end Fragment

open Fragment

theorem Assembly.size_eq (fs : Array Fragment) : Assembly.size fs = sizes fs.toList := by
  have h (n : Nat) (fs : List Fragment) :
      fs.foldl (fun n f => n + f.size) n = n + sizes fs := by
    induction fs generalizing n with
    | nil => rfl
    | cons f fs ih => rw [List.foldl_cons, ih, sizes_cons, Nat.add_assoc]
  rw [size, ← Array.foldl_toList, h, Nat.zero_add]

/-! ## Places -/

theorem Assembly.placesFrom_cons (offset : Nat) (found : Std.HashMap Target Nat) (f : Fragment)
    (fs : List Fragment) :
    placesFrom offset found (f :: fs) =
      placesFrom (offset + f.size)
        (match f with
        | .mark target => found.insert target offset
        | _ => found) fs := rfl

theorem Assembly.placesFrom_of_not_mem {fs : List Fragment} {t : Target} (h : t ∉ marks fs)
    (offset : Nat) (found : Std.HashMap Target Nat) :
    (placesFrom offset found fs)[t]? = found[t]? := by
  induction fs generalizing offset found with
  | nil => rfl
  | cons f fs ih =>
    have hf : t ∉ marks fs := fun hm => h (by
      rw [marks, List.filterMap_cons]
      split
      · exact hm
      · exact List.mem_cons_of_mem _ hm)
    rw [placesFrom_cons, ih hf]
    cases f with
    | instr i => rfl
    | branch b u => rfl
    | mark u =>
      have hu : u ≠ t := fun e => h (by simp [marks, target?, e])
      simp [Std.HashMap.getElem?_insert, hu]

/-- A target that is marked once has the place of its mark. -/
theorem Assembly.placesFrom_mark {before after : List Fragment} {t : Target}
    (h : t ∉ marks after) (offset : Nat) (found : Std.HashMap Target Nat) :
    (placesFrom offset found (before ++ .mark t :: after))[t]? = some (offset + sizes before) := by
  induction before generalizing offset found with
  | nil =>
    rw [List.nil_append, placesFrom_cons, placesFrom_of_not_mem h]
    simp
  | cons f before ih => rw [List.cons_append, placesFrom_cons, ih, sizes_cons, Nat.add_assoc]

/-! ## Texts -/

namespace X86.Text

/-- The address at an offset. -/
def address (t : Text) (k : Nat) : UInt64 := t.base + k.toUInt64

theorem address_add (t : Text) (k n : Nat) : t.address k + n.toUInt64 = t.address (k + n) := by
  rw [address, address, UInt64.add_assoc, ← show (k + n).toUInt64 = _ from UInt64.ofNat_add k n]

theorem fetch?_eq (t : Text) (a : UInt64) :
    t.fetch? a = t.instructions[(a - t.base).toNat]?.join := by
  rw [fetch?]
  rcases t.instructions[(a - t.base).toNat]? with _ | _ | i <;> rfl

theorem fetch?_ofBytes {base : UInt64} {bytes : Array UInt8} {before behind : List UInt8}
    {r : Instr × Nat} (hb : bytes.toList = before ++ behind) (hd : decode behind = some r)
    (hl : before.length < 2 ^ 64) :
    (ofBytes base bytes).fetch? ((ofBytes base bytes).address before.length) = some r := by
  have hoffset : ((ofBytes base bytes).address before.length - base).toNat = before.length := by
    show (base + _ - base).toNat = _
    rw [UInt64.add_comm, UInt64.add_sub_cancel]
    simp
    omega
  have hne : behind ≠ [] := by
    rintro rfl
    cases hd
  have hk : before.length < bytes.toList.length := by
    have := List.length_pos_iff.mpr hne
    rw [hb, List.length_append]
    omega
  have hfound := getElem?_decodeAll #[] hk
  rw [hb, List.drop_left, hd, Array.size_empty, Nat.zero_add] at hfound
  rw [fetch?_eq]
  show (decodeAll #[] bytes.toList)[((ofBytes base bytes).address _ - base).toNat]?.join = some r
  rw [hoffset, hb, hfound]
  rfl

/-- Nothing is found outside. -/
theorem fetch?_outside {base : UInt64} {bytes : Array UInt8} {a : UInt64}
    (h : bytes.size ≤ (a - base).toNat) : (ofBytes base bytes).fetch? a = none := by
  have hsize : (decodeAll #[] bytes.toList).size = bytes.size := by
    rw [size_decodeAll, Array.size_empty, Nat.zero_add, Array.length_toList]
  rw [fetch?_eq]
  show (decodeAll #[] bytes.toList)[(a - base).toNat]?.join = none
  rw [Array.getElem?_eq_none (by omega)]
  rfl

/-- At offset `k` the text has these fragments, the targets being at the offsets that `place`
says. -/
def HasAt (t : Text) (place : Target → Nat) (k : Nat) : List Fragment → Prop
  | [] => True
  | .instr i :: rest =>
    t.fetch? (t.address k) = some (i, i.size) ∧ t.HasAt place (k + i.size) rest
  | .branch b target :: rest =>
    (∃ d, t.fetch? (t.address k) = some (.branch b d, (Fragment.branch b target).size) ∧
      t.address (k + (Fragment.branch b target).size) + signed32 d = t.address (place target)) ∧
      t.HasAt place (k + (Fragment.branch b target).size) rest
  | .mark target :: rest => place target = k ∧ t.HasAt place k rest

variable {t : Text} {place : Target → Nat} {k : Nat}

theorem hasAt_append (fs gs : List Fragment) :
    t.HasAt place k (fs ++ gs) ↔ t.HasAt place k fs ∧ t.HasAt place (k + sizes fs) gs := by
  induction fs generalizing k with
  | nil => simp [HasAt]
  | cons f fs ih =>
    cases f with
    | instr i => simp [HasAt, ih, and_assoc, Nat.add_assoc, Fragment.size]
    | branch b target => simp [HasAt, ih, and_assoc, Nat.add_assoc]
    | mark target => simp [HasAt, ih, and_assoc, Fragment.size]

/-- A displacement from `stop` leads to `goal`. -/
theorem address_displacement (t : Text) (shift : Nat) {stop goal : Nat}
    (hl : -2 ^ 31 ≤ (goal - stop : Int)) (hu : (goal - stop : Int) < 2 ^ 31) :
    t.address (shift + stop) + signed32 (.ofInt (goal - stop)) = t.address (shift + goal) := by
  apply UInt64.toNat_inj.mp
  rw [UInt64.toNat_add, toNat_signed32, Int32.toInt_ofInt_of_le hl hu]
  simp only [address, UInt64.toNat_add, Nat.toUInt64, UInt64.toNat_ofNat']
  omega

/-- The offsets at which an instruction starts, if the text is read from its start on. -/
inductive Boundary (t : Text) : Nat → Prop
  | start : t.Boundary 0
  | next {k n : Nat} {i : Instr} :
    t.Boundary k → t.fetch? (t.address k) = some (i, n) → t.Boundary (k + n)

/-- From one fragment to the next. -/
theorem Boundary.behind (hk : t.Boundary k) {fs : List Fragment} (hc : t.HasAt place k fs) :
    t.Boundary (k + sizes fs) := by
  induction fs generalizing k with
  | nil => exact hk
  | cons f fs ih =>
    rw [sizes_cons, ← Nat.add_assoc]
    cases f with
    | instr i => exact ih (hk.next hc.1) hc.2
    | branch b target =>
      obtain ⟨d, hf, -⟩ := hc.1
      exact ih (hk.next hf) hc.2
    | mark target => exact ih hk hc.2

end X86.Text

/-! ## Assembled code -/

namespace Assembly

variable {places : Std.HashMap Target Nat} {marked : List Target} {size offset : Nat}

theorem displacement_eq_ok {stop : Nat} {target : Target} {d : Int32} :
    displacement places size stop target = .ok d ↔
      ∃ goal, places[target]? = some goal ∧ -2 ^ 31 ≤ (goal - stop : Int) ∧
        (goal - stop : Int) < 2 ^ 31 ∧ d = .ofInt (goal - stop) := by
  unfold displacement
  cases places[target]? with
  | none => simp
  | some goal =>
    dsimp only
    constructor
    · intro h
      split at h
      case isTrue hd =>
        cases h
        exact ⟨goal, rfl, hd.1, hd.2, rfl⟩
      case isFalse => cases h
    · rintro ⟨goal', hgoal, hlower, hupper, rfl⟩
      cases hgoal
      exact if_pos ⟨hlower, hupper⟩

/-- A text with the bytes `code` at `offset`, counted from `shift` on, has the fragments `fs`
there. -/
def Says (places : Std.HashMap Target Nat) (offset : Nat) (code : List UInt8)
    (fs : List Fragment) : Prop :=
  ∀ (base : UInt64) (bytes : Array UInt8) (before behind : List UInt8) (shift : Nat),
    bytes.toList = before ++ (code ++ behind) → before.length = shift + offset → shift < 2 ^ 32 →
    (Text.ofBytes base bytes).HasAt (fun t => shift + (places[t]?).getD 0) (shift + offset) fs

theorem says_bytesAt {f : Fragment} {code : List UInt8} (h : bytesAt places size offset f = .ok code)
    (hf : f.Sound marked) (hmark : ∀ t, f = .mark t → places[t]? = some offset)
    (hs : offset < 2 ^ 63) : code.length = f.size ∧ Says places offset code [f] := by
  cases f with
  | instr i =>
    cases h
    refine ⟨rfl, fun base bytes before behind shift hb hl hshift => ⟨?_, trivial⟩⟩
    rw [← hl]
    exact Text.fetch?_ofBytes hb (decode_encode hf behind) (by omega)
  | branch br target =>
    simp only [bytesAt] at h
    split at h
    case h_1 d hd =>
      cases h
      obtain ⟨goal, hgoal, hlower, hupper, he⟩ := displacement_eq_ok.mp hd
      have hsize : (Instr.branch br d).size = (Fragment.branch br target).size := size_branch br d
      refine ⟨hsize, fun base bytes before behind shift hb hl hshift => ⟨⟨d, ?_, ?_⟩, trivial⟩⟩
      · rw [← hl, ← hsize]
        exact Text.fetch?_ofBytes hb (decode_encode_branch br d behind) (by omega)
      · rw [he, Nat.add_assoc, Text.address_displacement _ _ hlower hupper]
        simp only [hgoal, Option.getD_some]
    case h_2 => cases h
  | mark target =>
    cases h
    refine ⟨rfl, fun base bytes before behind shift hb hl hshift => ⟨?_, trivial⟩⟩
    simp only [hmark target rfl, Option.getD_some]

theorem Says.append {code more : List UInt8} {fs gs : List Fragment}
    (h : Says places offset code fs) (hlen : code.length = sizes fs)
    (h' : Says places (offset + sizes fs) more gs) :
    Says places offset (code ++ more) (fs ++ gs) := by
  intro base bytes before behind shift hb hl hshift
  rw [Text.hasAt_append]
  refine ⟨h base bytes before (more ++ behind) shift (by simp [hb]) hl hshift, ?_⟩
  have := h' base bytes (before ++ code) behind shift (by simp [hb])
    (by rw [List.length_append, hl, hlen, Nat.add_assoc]) hshift
  rwa [← Nat.add_assoc] at this

theorem says_bytesFrom {fs : List Fragment} {done out : Array UInt8}
    (h : bytesFrom places size offset done fs = .ok out) (hsound : ∀ f ∈ fs, f.Sound marked)
    (hmarks : ∀ before t after, fs = before ++ .mark t :: after →
      places[t]? = some (offset + sizes before))
    (hs : offset + sizes fs < 2 ^ 63) :
    ∃ code, out = done.appendList code ∧ code.length = sizes fs ∧ Says places offset code fs := by
  induction fs generalizing offset done with
  | nil =>
    cases h
    exact ⟨[], by simp, rfl, fun _ _ _ _ _ _ _ _ => trivial⟩
  | cons f fs ih =>
    rw [sizes_cons] at hs
    rw [bytesFrom] at h
    split at h
    case h_1 b hb =>
      obtain ⟨hlen, hsays⟩ := says_bytesAt hb (hsound f (List.mem_cons_self ..))
        (fun t he => by rw [hmarks [] t fs (by rw [he]; rfl)]; rfl) (by omega)
      obtain ⟨code, rfl, hcl, hrest⟩ := ih h (fun g hg => hsound g (List.mem_cons_of_mem f hg))
        (fun before t after he => by
          rw [hmarks (f :: before) t after (by rw [he]; rfl), sizes_cons, Nat.add_assoc])
        (by omega)
      have hf : f.size = sizes [f] := by simp
      refine ⟨b ++ code, Array.ext' (by simp), by simp [hlen, hcl], ?_⟩
      rw [hf] at hlen hrest
      exact hsays.append hlen hrest
    case h_2 => cases h

theorem exists_bytesFrom {fs : List Fragment} (hsound : ∀ f ∈ fs, f.Sound marked)
    (hplaces : ∀ t ∈ marked, ∃ k, places[t]? = some k ∧ k < 2 ^ 31)
    (hs : offset + sizes fs < 2 ^ 31) (done : Array UInt8) :
    ∃ out, bytesFrom places size offset done fs = .ok out := by
  induction fs generalizing offset done with
  | nil => exact ⟨done, rfl⟩
  | cons f fs ih =>
    rw [sizes_cons] at hs
    obtain ⟨b, hb⟩ : ∃ b, bytesAt places size offset f = .ok b := by
      have hf := hsound f (List.mem_cons_self ..)
      cases f with
      | instr i => exact ⟨_, rfl⟩
      | mark target => exact ⟨_, rfl⟩
      | branch br target =>
        obtain ⟨goal, hgoal, hlt⟩ := hplaces target hf
        obtain ⟨stop, hstop⟩ : ∃ stop, stop = offset + (Fragment.branch br target).size := ⟨_, rfl⟩
        have hd := @displacement_eq_ok places size stop target _ |>.mpr
          ⟨goal, hgoal, by omega, by omega, rfl⟩
        exact ⟨_, by simp only [bytesAt, ← hstop, hd]; rfl⟩
    obtain ⟨out, hout⟩ := @ih (offset + f.size)
      (fun g hg => hsound g (List.mem_cons_of_mem f hg)) (by omega) (done.appendList b)
    exact ⟨out, by rw [bytesFrom, hb]; exact hout⟩

end Assembly

section Assemble

variable {fs : Array Fragment} (hn : (marks fs.toList).Nodup)
include hn

theorem placesFrom_of_nodup {before after : List Fragment} {t : Target}
    (he : fs.toList = before ++ .mark t :: after) :
    (Assembly.placesFrom 0 ∅ fs.toList)[t]? = some (sizes before) := by
  have hnot : t ∉ marks after := by
    rw [he, marks_append, marks_mark] at hn
    exact (List.nodup_cons.mp (List.nodup_append.mp hn).2.1).1
  rw [he, Assembly.placesFrom_mark hnot, Nat.zero_add]

/-- A text around the code of fragments, of which each target is marked once, has them. -/
theorem hasAt_assemble (hsound : ∀ f ∈ fs.toList, f.Sound (marks fs.toList))
    (hs : sizes fs.toList < 2 ^ 63) {code : Array UInt8} (h : assemble fs = .ok code) :
    code.size = sizes fs.toList ∧
      ∀ shift < 2 ^ 32, ∃ place,
        ∀ (base : UInt64) (bytes : Array UInt8) (before behind : List UInt8),
        bytes.toList = before ++ code.toList ++ behind → before.length = shift →
        (Text.ofBytes base bytes).HasAt place shift fs.toList := by
  obtain ⟨code, rfl, hlen, hsays⟩ := Assembly.says_bytesFrom h hsound
    (fun before t after he => by rw [placesFrom_of_nodup hn he, Nat.zero_add])
    (by rwa [Nat.zero_add])
  refine ⟨by simp [hlen], fun shift hshift =>
    ⟨fun t => shift + ((Assembly.placesFrom 0 ∅ fs.toList)[t]?).getD 0, ?_⟩⟩
  intro base bytes before behind hb hl
  exact hsays base bytes before behind shift (by simpa using hb) hl hshift

theorem exists_assemble (hsound : ∀ f ∈ fs.toList, f.Sound (marks fs.toList))
    (hs : sizes fs.toList < 2 ^ 31) : ∃ code, assemble fs = .ok code := by
  refine Assembly.exists_bytesFrom hsound (fun t ht => ?_) (by rwa [Nat.zero_add]) #[]
  obtain ⟨f, hf, hft⟩ := List.mem_filterMap.mp ht
  obtain ⟨before, after, he⟩ := List.append_of_mem hf
  cases f with
  | instr i => cases hft
  | branch b u => cases hft
  | mark u =>
    cases hft
    refine ⟨_, placesFrom_of_nodup hn he, ?_⟩
    rw [he, sizes_append] at hs
    omega

/-- Fragments of which each target is marked once make code if it is not too long, and a text around
the code has them. -/
theorem assemble_spec (hsound : ∀ f ∈ fs.toList, f.Sound (marks fs.toList))
    (hs : sizes fs.toList < 2 ^ 31) :
    ∃ code, assemble fs = .ok code ∧ code.size = sizes fs.toList ∧
      ∀ shift < 2 ^ 32, ∃ place,
        ∀ (base : UInt64) (bytes : Array UInt8) (before behind : List UInt8),
        bytes.toList = before ++ code.toList ++ behind → before.length = shift →
        (Text.ofBytes base bytes).HasAt place shift fs.toList := by
  obtain ⟨code, hcode⟩ := exists_assemble hn hsound hs
  exact ⟨code, hcode, hasAt_assemble hn hsound (by omega) hcode⟩

end Assemble

end TapeLang
