import TapeLang.Cells

/-!
# Memory

Memory is a list of regions, each a row of bytes at its own base address. Outside them there is
nothing: a read gives zero and a write is lost, and `Memory.covers` tells who asks first. Words of
eight bytes have the least significant byte first.

* `Memory.covers_store`, `Memory.load_store`: a write changes the byte at its address and no other,
  and leaves the same addresses in use.
-/

namespace TapeLang.X86

structure Region where
  base : UInt64
  bytes : Cells
deriving DecidableEq

namespace Region

/-- How far behind the base an address lies, counted round the address space. -/
def offset (r : Region) (address : UInt64) : Nat := (address - r.base).toNat

def covers (r : Region) (address : UInt64) : Bool := r.offset address < r.bytes.size

def load (r : Region) (address : UInt64) : UInt8 := r.bytes.getD (r.offset address) 0

def store : Region → UInt64 → UInt8 → Region
  | ⟨base, bytes⟩, address, v => ⟨base, bytes.set (address - base).toNat v⟩

theorem offset_inj (r : Region) {a b : UInt64} : r.offset a = r.offset b ↔ a = b := by
  rw [offset, offset, UInt64.toNat_inj]
  constructor
  · intro h
    rw [← UInt64.sub_add_cancel a r.base, h, UInt64.sub_add_cancel]
  · rintro rfl
    rfl

@[simp] theorem offset_store (r : Region) (a b : UInt64) (v : UInt8) :
    (r.store a v).offset b = r.offset b := rfl

@[simp] theorem covers_store (r : Region) (a b : UInt64) (v : UInt8) :
    (r.store a v).covers b = r.covers b := rfl

theorem load_store (r : Region) {a : UInt64} (h : r.covers a) (b : UInt64) (v : UInt8) :
    (r.store a v).load b = if a = b then v else r.load b := by
  have h := Cells.getD_set r.bytes (by simpa [covers] using h) (r.offset b) v 0
  simp only [r.offset_inj] at h
  exact h

end Region

structure Memory where
  regions : List Region
deriving DecidableEq

namespace Memory

def loadIn (address : UInt64) : List Region → UInt8
  | [] => 0
  | r :: rest => if r.covers address then r.load address else loadIn address rest

def storeIn (address : UInt64) (v : UInt8) : List Region → List Region
  | [] => []
  | r :: rest =>
    if r.covers address then r.store address v :: rest else r :: storeIn address v rest

/-- Whether there is a byte at `address`. -/
def covers (m : Memory) (address : UInt64) : Bool := m.regions.any (·.covers address)

/-- The first region that covers an address is the one that counts. -/
def load (m : Memory) (address : UInt64) : UInt8 := loadIn address m.regions

def store : Memory → UInt64 → UInt8 → Memory
  | ⟨regions⟩, address, v => ⟨storeIn address v regions⟩

theorem covers_storeIn (a b : UInt64) (v : UInt8) (regions : List Region) :
    (storeIn a v regions).any (·.covers b) = regions.any (·.covers b) := by
  induction regions with
  | nil => rfl
  | cons r rest ih =>
    unfold storeIn
    split
    · simp
    · simp [ih]

theorem loadIn_storeIn (a b : UInt64) (v : UInt8) {regions : List Region}
    (h : regions.any (·.covers a)) :
    loadIn b (storeIn a v regions) = if a = b then v else loadIn b regions := by
  induction regions with
  | nil => simp at h
  | cons r rest ih =>
    unfold storeIn
    by_cases hr : r.covers a
    · simp only [hr, if_pos, loadIn, Region.covers_store, Region.load_store r hr]
      by_cases hab : a = b
      · subst hab
        simp [hr]
      · simp [hab]
    · have hrest : rest.any (·.covers a) := by simpa [hr] using h
      rw [if_neg hr]
      simp only [loadIn, ih hrest]
      by_cases hab : a = b
      · subst hab
        simp [hr]
      · simp [hab]

@[simp] theorem covers_store (m : Memory) (a b : UInt64) (v : UInt8) :
    (m.store a v).covers b = m.covers b := covers_storeIn a b v m.regions

theorem load_store (m : Memory) {a : UInt64} (h : m.covers a) (b : UInt64) (v : UInt8) :
    (m.store a v).load b = if a = b then v else m.load b := loadIn_storeIn a b v h

/-- Whether there are `count` bytes from `address` on. -/
def coversBytes (m : Memory) (address : UInt64) : Nat → Bool
  | 0 => true
  | count + 1 => m.covers address && m.coversBytes (address + 1) count

/-- The number with the `count` bytes from `address` on. -/
def loadBytes (m : Memory) (address : UInt64) : Nat → UInt64
  | 0 => 0
  | count + 1 => m.loadBytes (address + 1) count <<< 8 ||| (m.load address).toUInt64

/-- Write the `count` lowest bytes of `v` from `address` on. -/
def storeBytes (m : Memory) (address v : UInt64) : Nat → Memory
  | 0 => m
  | count + 1 => (m.store address v.toUInt8).storeBytes (address + 1) (v >>> 8) count

def coversWord (m : Memory) (address : UInt64) : Bool := m.coversBytes address 8

def loadWord (m : Memory) (address : UInt64) : UInt64 := m.loadBytes address 8

def storeWord (m : Memory) (address v : UInt64) : Memory := m.storeBytes address v 8

/-- The list of the `count` bytes from `address` on. -/
def toList (m : Memory) (address : UInt64) : Nat → List UInt8
  | 0 => []
  | count + 1 => m.load address :: m.toList (address + 1) count

/-- Write `bytes` one by one from `address` on. -/
def storeList (m : Memory) (address : UInt64) : List UInt8 → Memory
  | [] => m
  | b :: rest => (m.store address b).storeList (address + 1) rest

end Memory

end TapeLang.X86
