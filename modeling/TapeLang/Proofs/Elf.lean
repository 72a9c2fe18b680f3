import Mathlib.Algebra.Group.Int.Defs
import Mathlib.Algebra.Group.Nat.Defs
import TapeLang.Elf

/-!
# Images read back

What the headers of an image say is what was written: the whole file, where it is loaded, and where
execution starts.
-/

namespace TapeLang.Elf

open LittleEndian

namespace Image

variable (i : Image)

/-- The bytes of an image as one list. -/
theorem toList_bytes :
    i.bytes.toList = i.fileHeader ++ (i.programHeader ++ (i.code.toList ++ i.trailer.toList)) := by
  simp [bytes]

theorem length_fileHeader : i.fileHeader.length = headerSize.toNat := rfl

theorem length_programHeader : i.programHeader.length = programHeaderSize.toNat := rfl

theorem size_bytes : i.bytes.size = i.size := by
  rw [← Array.length_toList, toList_bytes]
  simp only [List.length_append, length_fileHeader, length_programHeader, Array.length_toList, size,
    codeOffset]
  omega

end Image

section Steps

variable {α β : Type}

theorem bind_of {o : Option α} {a : α} (h : o = some a) (f : α → Option β) : (o >>= f) = f a := by
  rw [h]
  rfl

theorem guard_of {c : Prop} [Decidable c] (h : c) (f : Unit → Option β) : (guard c >>= f) = f () :=
  bind_of (if_pos h) f

end Steps

/-- The headers of an image describe the whole of it. -/
theorem Segment.ofBytes?_bytes (i : Image) (h : i.size < 2 ^ 64) :
    Segment.ofBytes? i.bytes = some ⟨i.entryAddress, baseAddress, i.bytes⟩ := by
  have hheader : i.bytes.toList.take headerSize.toNat = i.fileHeader := by
    rw [i.toList_bytes, ← i.length_fileHeader, List.take_left]
  have hprogram : (i.bytes.toList.drop headerSize.toUInt64.toNat).take programHeaderSize.toNat =
      i.programHeader := by
    rw [i.toList_bytes, UInt16.toNat_toUInt64, ← i.length_fileHeader, List.drop_left,
      ← i.length_programHeader, List.take_left]
  have hsize : i.size.toUInt64.toNat = i.size := by
    simp
    omega
  have hidentification : i.fileHeader.take 16 = Image.identification := rfl
  have hkind : word16? (i.fileHeader.drop 16) = some 2 := word16?_bytes16 2 _
  have hmachine : word16? (i.fileHeader.drop 18) = some 0x3E := word16?_bytes16 0x3E _
  have hentry : word64? (i.fileHeader.drop 24) = some i.entryAddress :=
    word64?_bytes64 i.entryAddress _
  have hoffset : word64? (i.fileHeader.drop 32) = some headerSize.toUInt64 :=
    word64?_bytes64 headerSize.toUInt64 _
  have hentrySize : word16? (i.fileHeader.drop 54) = some programHeaderSize :=
    word16?_bytes16 programHeaderSize _
  have hcount : word16? (i.fileHeader.drop 56) = some 1 := word16?_bytes16 1 _
  have htype : word32? i.programHeader = some 1 := word32?_bytes32 1 _
  have hflags : word32? (i.programHeader.drop 4) = some 5 := word32?_bytes32 5 _
  have hstart : word64? (i.programHeader.drop 8) = some 0 := word64?_bytes64 0 _
  have hbase : word64? (i.programHeader.drop 16) = some baseAddress :=
    word64?_bytes64 baseAddress _
  have hfile : word64? (i.programHeader.drop 32) = some i.size.toUInt64 :=
    word64?_bytes64 i.size.toUInt64 _
  have hmemory : word64? (i.programHeader.drop 40) = some i.size.toUInt64 :=
    word64?_bytes64 i.size.toUInt64 _
  have hcontent : i.bytes.extract 0 i.size = i.bytes := by
    rw [← i.size_bytes, Array.extract_size]
  have hwithin : (0 : UInt64).toNat + i.size.toUInt64.toNat ≤ i.bytes.size ∧
      i.size.toUInt64 ≤ i.size.toUInt64 := by
    rw [hsize, i.size_bytes]
    exact ⟨Nat.le_of_eq (Nat.zero_add _), UInt64.le_refl _⟩
  have hrest : i.bytes.extract (0 : UInt64).toNat ((0 : UInt64).toNat + i.size.toUInt64.toNat) ++
      Array.replicate (i.size.toUInt64 - i.size.toUInt64).toNat 0 = i.bytes := by
    rw [hsize, UInt64.sub_self]
    exact (Array.append_empty ..).trans ((congrArg _ (Nat.zero_add _)).trans hcontent)
  have hpages : baseAddress % pageSize = 0 % pageSize := by decide
  unfold Segment.ofBytes?
  dsimp only
  rw [hheader, guard_of hidentification, bind_of hkind, bind_of hmachine, guard_of ⟨rfl, rfl⟩,
    bind_of hentry, bind_of hoffset, bind_of hentrySize, bind_of hcount, guard_of ⟨rfl, rfl⟩,
    hprogram, bind_of htype, bind_of hflags, guard_of ⟨rfl, rfl⟩, bind_of hstart, bind_of hbase,
    bind_of hfile, bind_of hmemory, guard_of hwithin, guard_of hpages, hrest]
  rfl

end TapeLang.Elf
