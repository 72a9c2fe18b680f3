import TapeLang.LittleEndian

/-!
# Executable images

An ELF image for a 64-bit processor with a single loadable segment: the file header, one program
header, the code, and trailing bytes that are loaded but never run. The whole file is mapped,
readable and executable, at one address.

* `Image.bytes` writes an image, `Segment.ofBytes?` reads what the headers of one say.
-/

namespace TapeLang.Elf

open LittleEndian

def baseAddress : UInt64 := 0x400000

def headerSize : UInt16 := 64
def programHeaderSize : UInt16 := 56
def pageSize : UInt64 := 0x1000

/-- The offset of the first code byte in the file. -/
def codeOffset : Nat := headerSize.toNat + programHeaderSize.toNat

structure Image where
  code : Array UInt8
  /-- The offset of the first instruction in the code. -/
  entry : Nat
  trailer : Array UInt8
deriving DecidableEq

namespace Image

def size (i : Image) : Nat := codeOffset + i.code.size + i.trailer.size

def entryAddress (i : Image) : UInt64 := baseAddress + (codeOffset + i.entry).toUInt64

/-- The magic number, then: 64-bit words, least significant byte first, version 1. -/
def identification : List UInt8 := [0x7F, 0x45, 0x4C, 0x46, 2, 1, 1, 0, 0, 0, 0, 0, 0, 0, 0, 0]

/-- An executable file for x86-64 without sections. -/
def fileHeader (i : Image) : List UInt8 :=
  identification ++ bytes16 2 ++ bytes16 0x3E ++ bytes32 1 ++ bytes64 i.entryAddress ++
    bytes64 headerSize.toUInt64 ++ bytes64 0 ++ bytes32 0 ++ bytes16 headerSize ++
    bytes16 programHeaderSize ++ bytes16 1 ++ bytes16 64 ++ bytes16 0 ++ bytes16 0

/-- Load the whole file, to be read and executed, page by page. -/
def programHeader (i : Image) : List UInt8 :=
  bytes32 1 ++ bytes32 5 ++ bytes64 0 ++ bytes64 baseAddress ++ bytes64 baseAddress ++
    bytes64 i.size.toUInt64 ++ bytes64 i.size.toUInt64 ++ bytes64 pageSize

def bytes (i : Image) : Array UInt8 :=
  (i.fileHeader ++ i.programHeader).toArray ++ i.code ++ i.trailer

end Image

/-- A segment in memory and the address where the program starts. -/
structure Segment where
  entry : UInt64
  base : UInt64
  bytes : Array UInt8
deriving DecidableEq

/-- The segment that the headers of a file describe, if they are of the kind above, the segment lies
within the file, and its pages are pages of the file. -/
def Segment.ofBytes? (file : Array UInt8) : Option Segment := do
  let header := file.toList.take headerSize.toNat
  guard (header.take 16 = Image.identification)
  guard ((← word16? (header.drop 16)) = 2 ∧ (← word16? (header.drop 18)) = 0x3E)
  let entry ← word64? (header.drop 24)
  let programOffset ← word64? (header.drop 32)
  guard ((← word16? (header.drop 54)) = programHeaderSize ∧ (← word16? (header.drop 56)) = 1)
  let program := (file.toList.drop programOffset.toNat).take programHeaderSize.toNat
  guard ((← word32? program) = 1 ∧ (← word32? (program.drop 4)) = 5)
  let offset ← word64? (program.drop 8)
  let base ← word64? (program.drop 16)
  let fileSize ← word64? (program.drop 32)
  let memorySize ← word64? (program.drop 40)
  guard (offset.toNat + fileSize.toNat ≤ file.size ∧ fileSize ≤ memorySize)
  guard (base % pageSize = offset % pageSize)
  let content := file.extract offset.toNat (offset.toNat + fileSize.toNat)
  return ⟨entry, base, content ++ Array.replicate (memorySize - fileSize).toNat 0⟩

end TapeLang.Elf
