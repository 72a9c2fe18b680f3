import Mathlib.Algebra.Group.Int.Defs
import Mathlib.Algebra.Group.Nat.Defs
import TapeLang.X86.Memory

/-!
# Spans of memory

What writing does to memory, said for spans of addresses, which may wrap round the end of the address
space.

* `Span`: a row of addresses; `Span.Apart`: two rows without a common address.
* `Memory.shape`: the regions without their bytes. No write changes it, and it says what is covered.
* `Memory.load_storeWord`, `Memory.loadWord_storeWord`: a word reads back, and no other byte changes.
* `Memory.Carries`: a row of cells in memory.
-/

namespace TapeLang.X86

structure Span where
  base : UInt64
  length : Nat

namespace Span

/-- The address `x` is in the span. -/
def Has (s : Span) (x : UInt64) : Prop := (x - s.base).toNat < s.length

instance (s : Span) (x : UInt64) : Decidable (s.Has x) := inferInstanceAs (Decidable (_ < _))

/-- Everything in `s` is in `t`. -/
def Inside (s t : Span) : Prop := ∀ x, s.Has x → t.Has x

def Apart (s t : Span) : Prop := ∀ x, s.Has x → ¬ t.Has x

theorem Apart.mono {s s' t t' : Span} (h : s.Apart t) (hs : s'.Inside s) (ht : t'.Inside t) :
    s'.Apart t' := fun x hx hx' => h x (hs x hx) (ht x hx')

/-- A span in another, `offset` behind its base. -/
theorem inside_of_offset {a b : UInt64} {n m : Nat} (offset : Nat) (hb : (b - a).toNat = offset)
    (h : offset + n ≤ m) : Inside ⟨b, n⟩ ⟨a, m⟩ := by
  intro x hx
  simp only [Has, UInt64.toNat_sub] at hx hb ⊢
  have := x.toNat_lt
  have := a.toNat_lt
  have := b.toNat_lt
  omega

/-- Of two spans with the same base the shorter is in the longer. -/
theorem inside_of_le {a : UInt64} {n m : Nat} (h : n ≤ m) : Inside ⟨a, n⟩ ⟨a, m⟩ :=
  fun _ hx => Nat.lt_of_lt_of_le hx h

/-- Two spans of which neither reaches the other. -/
theorem apart_of_le {s t : Span} (hs : s.length ≤ (t.base - s.base).toNat)
    (ht : t.length ≤ (s.base - t.base).toNat) : s.Apart t := by
  intro x hx hx'
  simp only [Has, UInt64.toNat_sub] at hx hx' hs ht
  have := x.toNat_lt
  have := s.base.toNat_lt
  have := t.base.toNat_lt
  omega

/-! Spans below the top of a stack, said by how far below it they start. -/

theorem sub_sub_bytes (top : UInt64) (x y : Nat) :
    top - x.toUInt64 - y.toUInt64 = top - (x + y).toUInt64 := by
  apply UInt64.toNat_inj.mp
  simp only [UInt64.toNat_sub, Nat.toUInt64, UInt64.toNat_ofNat']
  have := top.toNat_lt
  omega

theorem inside_of_sub (top : UInt64) (x y : Nat) {n m : Nat} (h : y ≤ x ∧ x - y + n ≤ m) :
    Inside ⟨top - y.toUInt64, n⟩ ⟨top - x.toUInt64, m⟩ := by
  intro a ha
  simp only [Has, UInt64.toNat_sub, Nat.toUInt64, UInt64.toNat_ofNat'] at ha ⊢
  have := a.toNat_lt
  have := top.toNat_lt
  omega

theorem inside_of_top (top : UInt64) (x : Nat) {n m : Nat} (h : x + n ≤ m) :
    Inside ⟨top, n⟩ ⟨top - x.toUInt64, m⟩ := by
  simpa using inside_of_sub top x 0 ⟨Nat.zero_le x, h⟩

theorem apart_of_sub (top : UInt64) (x : Nat) {n m : Nat} (h : m ≤ x ∧ x + n ≤ 2 ^ 64) :
    Apart ⟨top, n⟩ ⟨top - x.toUInt64, m⟩ := by
  intro a ha ha'
  simp only [Has, UInt64.toNat_sub, Nat.toUInt64, UInt64.toNat_ofNat'] at ha ha'
  have := a.toNat_lt
  have := top.toNat_lt
  omega

/-- What is below the top of a stack, down to its base, is apart from what is above. -/
theorem apart_of_top {base top : UInt64} {n : Nat} (h : (top - base).toNat + n ≤ 2 ^ 64) :
    Apart ⟨top, n⟩ ⟨base, (top - base).toNat⟩ := by
  intro x hx hx'
  simp only [Has, UInt64.toNat_sub] at hx hx' h
  have := x.toNat_lt
  have := top.toNat_lt
  have := base.toNat_lt
  omega

/-- The last `n` bytes below the top of a stack. -/
theorem inside_of_sub_top {base top : UInt64} {n : Nat} (h : n ≤ (top - base).toNat) :
    Inside ⟨top - n.toUInt64, n⟩ ⟨base, (top - base).toNat⟩ := by
  intro x hx
  simp only [Has, UInt64.toNat_sub, Nat.toUInt64, UInt64.toNat_ofNat'] at hx h ⊢
  have := x.toNat_lt
  have := top.toNat_lt
  have := base.toNat_lt
  omega

theorem has_add {a : UInt64} {n i : Nat} (hi : i < n) (hn : n ≤ 2 ^ 64) :
    Has ⟨a, n⟩ (a + i.toUInt64) := by
  have : (a + i.toUInt64 - a).toNat = i := by
    rw [UInt64.add_comm, UInt64.add_sub_cancel]
    simp
    omega
  rw [Has, this]
  exact hi

/-- The first address and the rest. -/
theorem has_succ {a x : UInt64} {n : Nat} : Has ⟨a, n + 1⟩ x ↔ x = a ∨ Has ⟨a + 1, n⟩ x := by
  simp only [Has, UInt64.toNat_sub, UInt64.toNat_add, UInt64.reduceToNat, ← UInt64.toNat_inj]
  have := x.toNat_lt
  have := a.toNat_lt
  omega

theorem not_has_rest {a : UInt64} {n : Nat} (h : n < 2 ^ 64) : ¬ Has ⟨a + 1, n⟩ a := by
  simp only [Has, UInt64.toNat_sub, UInt64.toNat_add, UInt64.reduceToNat]
  have := a.toNat_lt
  omega

end Span

namespace Memory

open TapeLang.X86.Span

variable {m m' : Memory}

/-! ## Shapes -/

def shape (m : Memory) : List (UInt64 × Nat) := m.regions.map fun r => (r.base, r.bytes.size)

theorem covers_eq_any_shape (m : Memory) (x : UInt64) :
    m.covers x = m.shape.any fun s => (x - s.1).toNat < s.2 := by
  rw [covers, shape, List.any_map]
  rfl

theorem covers_of_shape (h : m.shape = m'.shape) (x : UInt64) : m.covers x = m'.covers x := by
  rw [covers_eq_any_shape, covers_eq_any_shape, h]

@[simp] theorem shape_store (m : Memory) (a : UInt64) (v : UInt8) :
    (m.store a v).shape = m.shape := by
  obtain ⟨regions⟩ := m
  simp only [shape, store]
  induction regions with
  | nil => rfl
  | cons r rest ih =>
    unfold storeIn
    split
    · rfl
    · simp only [List.map_cons, ih]

theorem shape_storeBytes (m : Memory) (a v : UInt64) (n : Nat) :
    (m.storeBytes a v n).shape = m.shape := by
  induction n generalizing m a v with
  | zero => rfl
  | succ n ih => rw [storeBytes, ih, shape_store]

theorem shape_storeList (m : Memory) (a : UInt64) (bytes : List UInt8) :
    (m.storeList a bytes).shape = m.shape := by
  induction bytes generalizing m a with
  | nil => rfl
  | cons b rest ih => rw [storeList, ih, shape_store]

@[simp] theorem shape_storeWord (m : Memory) (a v : UInt64) : (m.storeWord a v).shape = m.shape :=
  shape_storeBytes m a v 8

/-! ## Bytes -/

/-- There is a byte at each address of the span. -/
def Covers (m : Memory) (s : Span) : Prop := ∀ x, s.Has x → m.covers x

theorem Covers.mono {s t : Span} (h : m.Covers s) (ht : t.Inside s) : m.Covers t :=
  fun x hx => h x (ht x hx)

theorem Covers.of_shape {s : Span} (h : m.Covers s) (hs : m'.shape = m.shape) : m'.Covers s :=
  fun x hx => (covers_of_shape hs x).trans (h x hx)

theorem covers_region {r : Region} (h : r ∈ m.regions) : m.Covers ⟨r.base, r.bytes.size⟩ := by
  intro x hx
  exact List.any_eq_true.mpr ⟨r, h, decide_eq_true hx⟩

/-- Another region in front takes nothing away. -/
theorem Covers.cons {s : Span} (h : m.Covers s) (r : Region) : Covers ⟨r :: m.regions⟩ s := by
  intro x hx
  have := h x hx
  rw [covers] at this ⊢
  rw [List.any_cons, this, Bool.or_true]

theorem coversBytes_iff (m : Memory) (a : UInt64) (n : Nat) :
    m.coversBytes a n ↔ m.Covers ⟨a, n⟩ := by
  induction n generalizing a with
  | zero => simp [coversBytes, Covers, Has]
  | succ n ih =>
    simp only [coversBytes, Bool.and_eq_true, ih, Covers, has_succ]
    exact ⟨fun h x hx => hx.elim (fun e => e ▸ h.1) (h.2 x),
      fun h => ⟨h a (.inl rfl), fun x hx => h x (.inr hx)⟩⟩

theorem coversWord_iff (m : Memory) (a : UInt64) : m.coversWord a ↔ m.Covers ⟨a, 8⟩ :=
  coversBytes_iff m a 8

/-- A write changes no other byte, whether or not there is one at its address. -/
theorem load_store_of_ne (m : Memory) {a x : UInt64} (hx : x ≠ a) (v : UInt8) :
    (m.store a v).load x = m.load x := by
  obtain ⟨regions⟩ := m
  simp only [load, store]
  induction regions with
  | nil => rfl
  | cons r rest ih =>
    unfold storeIn
    split
    next hr => simp only [loadIn, Region.covers_store, Region.load_store r hr, if_neg hx.symm]
    next => simp only [loadIn, ih]

/-- The first byte is there, and once it is written the others still are. -/
theorem Covers.store {a : UInt64} {n : Nat} (h : m.Covers ⟨a, n + 1⟩) (v : UInt8) :
    m.covers a ∧ (m.store a v).Covers ⟨a + 1, n⟩ :=
  ⟨h a (has_succ.mpr (.inl rfl)),
    .of_shape (fun x hx => h x (has_succ.mpr (.inr hx))) (shape_store m a v)⟩

theorem load_storeBytes (m : Memory) {a : UInt64} {n : Nat} (v : UInt64) {x : UInt64}
    (hx : ¬ Has ⟨a, n⟩ x) : (m.storeBytes a v n).load x = m.load x := by
  induction n generalizing m a v with
  | zero => rfl
  | succ n ih =>
    rw [has_succ, not_or] at hx
    rw [storeBytes, ih _ _ hx.2, load_store_of_ne m hx.1]

theorem load_storeList (m : Memory) {a : UInt64} {bytes : List UInt8} {x : UInt64}
    (hx : ¬ Has ⟨a, bytes.length⟩ x) : (m.storeList a bytes).load x = m.load x := by
  induction bytes generalizing m a with
  | nil => rfl
  | cons b rest ih =>
    rw [List.length_cons, has_succ, not_or] at hx
    rw [storeList, ih _ hx.2, load_store_of_ne m hx.1]

theorem loadBytes_congr {a : UInt64} {n : Nat} (h : ∀ x, Has ⟨a, n⟩ x → m.load x = m'.load x) :
    m.loadBytes a n = m'.loadBytes a n := by
  induction n generalizing a with
  | zero => rfl
  | succ n ih =>
    rw [loadBytes, loadBytes, h a (has_succ.mpr (.inl rfl)),
      ih fun x hx => h x (has_succ.mpr (.inr hx))]

/-- What was written to `n` bytes reads back, but for what did not fit. -/
theorem toNat_loadBytes_storeBytes {a : UInt64} {n : Nat} (hn : n ≤ 8) (h : m.Covers ⟨a, n⟩)
    (v : UInt64) : ((m.storeBytes a v n).loadBytes a n).toNat = v.toNat % 2 ^ (8 * n) := by
  induction n generalizing m a v with
  | zero => simp [loadBytes, Nat.mod_one]
  | succ n ih =>
    obtain ⟨ha, hrest⟩ := h.store v.toUInt8
    have hfirst : (m.storeBytes a v (n + 1)).load a = v.toUInt8 := by
      rw [storeBytes, load_storeBytes _ _ (not_has_rest (by omega)), load_store m ha, if_pos rfl]
    have hupper : ((m.storeBytes a v (n + 1)).loadBytes (a + 1) n).toNat =
        v.toNat / 256 % 2 ^ (8 * n) := by
      rw [storeBytes, ih (by omega) hrest]
      simp [UInt64.toNat_shiftRight, Nat.shiftRight_eq_div_pow]
    have hlt : v.toNat / 256 % 2 ^ (8 * n) < 2 ^ (8 * n) := Nat.mod_lt _ (Nat.two_pow_pos _)
    have hpow : 2 ^ (8 * n) ≤ 2 ^ 56 := Nat.pow_le_pow_right (by decide) (by omega)
    have hbyte : v.toNat % 256 < 2 ^ 8 := Nat.mod_lt _ (by decide)
    rw [loadBytes, hfirst, UInt64.toNat_or, UInt64.toNat_shiftLeft, hupper]
    simp only [UInt64.reduceToNat, UInt8.toNat_toUInt64, UInt64.toNat_toUInt8, Nat.reducePow,
      Nat.reduceMod]
    rw [Nat.mod_eq_of_lt (by rw [Nat.shiftLeft_eq]; omega), ← Nat.shiftLeft_add_eq_or_of_lt hbyte,
      Nat.shiftLeft_eq, show 8 * (n + 1) = 8 + 8 * n by omega, Nat.pow_add,
      show (2 : Nat) ^ 8 = 256 from rfl, Nat.mod_mul]
    omega

/-! ## Words -/

theorem load_storeWord (m : Memory) {a : UInt64} (v : UInt64) {x : UInt64}
    (hx : ¬ Has ⟨a, 8⟩ x) : (m.storeWord a v).load x = m.load x :=
  load_storeBytes m v hx

theorem loadWord_congr {a : UInt64} (h : ∀ x, Has ⟨a, 8⟩ x → m.load x = m'.load x) :
    m.loadWord a = m'.loadWord a :=
  loadBytes_congr h

theorem loadWord_storeWord {a : UInt64} (h : m.Covers ⟨a, 8⟩) (v : UInt64) :
    (m.storeWord a v).loadWord a = v := by
  apply UInt64.toNat_inj.mp
  rw [loadWord, storeWord, toNat_loadBytes_storeBytes (Nat.le_refl 8) h]
  exact Nat.mod_eq_of_lt v.toNat_lt

theorem loadWord_storeWord_of_apart (m : Memory) {a b : UInt64} (v : UInt64)
    (hb : Apart ⟨b, 8⟩ ⟨a, 8⟩) : (m.storeWord a v).loadWord b = m.loadWord b :=
  loadWord_congr fun x hx => load_storeWord m v (hb x hx)

/-! ## Rows of cells -/

/-- The cells stand in memory from `base` on. -/
def Carries (m : Memory) (base : UInt64) (cells : Cells) : Prop :=
  ∀ x (h : (x - base).toNat < cells.size), m.load x = cells.get (x - base).toNat h

namespace Carries

variable {base : UInt64} {cells : Cells}

theorem congr (h : m.Carries base cells)
    (hm : ∀ x, Has ⟨base, cells.size⟩ x → m'.load x = m.load x) : m'.Carries base cells :=
  fun x hx => (hm x hx).trans (h x hx)

/-- The first region counts. -/
theorem head (r : Region) (rest : List Region) : Carries ⟨r :: rest⟩ r.base r.bytes := by
  intro x hx
  have hcovers : r.covers x := decide_eq_true hx
  rw [load, loadIn, if_pos hcovers, Region.load, Cells.getD, Region.offset, dif_pos hx]

theorem load_add (h : m.Carries base cells) {i : Nat} (hi : i < cells.size) (hi' : i < 2 ^ 64) :
    m.load (base + i.toUInt64) = cells.get i hi := by
  have hsub : (base + i.toUInt64 - base).toNat = i := by
    rw [UInt64.add_comm, UInt64.add_sub_cancel]
    simp
    omega
  have hx : Has ⟨base, cells.size⟩ (base + i.toUInt64) := by rwa [Has, hsub]
  have := h _ hx
  simpa only [hsub] using this

theorem unique {cells' : Cells} (h : m.Carries base cells) (h' : m.Carries base cells')
    (hs : cells.size = cells'.size) (hl : cells.size < 2 ^ 64) : cells = cells' := by
  refine Cells.ext_get hs fun i hi hi' => ?_
  rw [← h.load_add hi (Nat.lt_trans hi hl), ← h'.load_add hi' (Nat.lt_trans hi hl)]

theorem store (h : m.Carries base cells) {i : Nat} (hi' : i < 2 ^ 64)
    (hc : m.covers (base + i.toUInt64)) (v : UInt8) :
    (m.store (base + i.toUInt64) v).Carries base (cells.set i v) := by
  intro x hx
  rw [load_store m hc, Cells.get_set]
  have hiff : base + i.toUInt64 = x ↔ i = (x - base).toNat := by
    simp only [← UInt64.toNat_inj, UInt64.toNat_add, UInt64.toNat_sub, UInt64.toNat_ofNat']
    have := x.toNat_lt
    have := base.toNat_lt
    omega
  by_cases hix : i = (x - base).toNat
  · rw [if_pos (hiff.mpr hix), if_pos hix]
  · rw [if_neg (mt hiff.mp hix), if_neg hix]
    exact h x hx

end Carries

end Memory

end TapeLang.X86
