/-!
# Words as bytes

Words of two, four and eight bytes, the least significant byte first, written as byte lists and read
back from the start of one.

* `word16?_bytes16`, `word32?_bytes32`, `word64?_bytes64`: a written word reads back.
-/

namespace TapeLang.LittleEndian

def bytes16 (v : UInt16) : List UInt8 := [v.toUInt8, (v >>> 8).toUInt8]

def bytes32 (v : UInt32) : List UInt8 :=
  [v.toUInt8, (v >>> 8).toUInt8, (v >>> 16).toUInt8, (v >>> 24).toUInt8]

def bytes64 (v : UInt64) : List UInt8 :=
  bytes32 v.toUInt32 ++ bytes32 (v >>> 32).toUInt32

def word16? : List UInt8 → Option UInt16
  | a :: b :: _ => some (a.toUInt16 ||| b.toUInt16 <<< 8)
  | _ => none

def word32? : List UInt8 → Option UInt32
  | a :: b :: c :: d :: _ =>
    some (a.toUInt32 ||| b.toUInt32 <<< 8 ||| c.toUInt32 <<< 16 ||| d.toUInt32 <<< 24)
  | _ => none

def word64? (bytes : List UInt8) : Option UInt64 :=
  match word32? bytes, word32? (bytes.drop 4) with
  | some lower, some upper => some (lower.toUInt64 ||| upper.toUInt64 <<< 32)
  | _, _ => none

theorem word16?_bytes16 (v : UInt16) (rest : List UInt8) :
    word16? (bytes16 v ++ rest) = some v := by
  simp only [bytes16, word16?, List.cons_append, List.nil_append, Option.some.injEq]
  apply UInt16.toBitVec_inj.mp
  simp only [UInt16.toBitVec_or, UInt16.toBitVec_shiftLeft, UInt8.toBitVec_toUInt16,
    UInt16.toBitVec_toUInt8, UInt16.toBitVec_shiftRight]
  ext i hi
  by_cases h : i < 8
  · simp [h, BitVec.getLsbD_eq_getElem hi]
  · simp [h, show 8 + (i - 8) = i by omega, show i - 8 < 8 by omega, BitVec.getLsbD_eq_getElem hi]

theorem word32?_bytes32 (v : UInt32) (rest : List UInt8) :
    word32? (bytes32 v ++ rest) = some v := by
  simp only [bytes32, word32?, List.cons_append, List.nil_append, Option.some.injEq]
  apply UInt32.toBitVec_inj.mp
  simp only [UInt32.toBitVec_or, UInt32.toBitVec_shiftLeft, UInt8.toBitVec_toUInt32,
    UInt32.toBitVec_toUInt8, UInt32.toBitVec_shiftRight]
  ext i hi
  have back (n : Nat) (h : n ≤ i) : n + (i - n) = i := by omega
  rcases show i < 8 ∨ 8 ≤ i ∧ i < 16 ∨ 16 ≤ i ∧ i < 24 ∨ 24 ≤ i by omega with h | h | h | h
  · simp [h, show i < 16 by omega, show i < 24 by omega, BitVec.getLsbD_eq_getElem hi]
  · simp [show ¬ i < 8 by omega, h.2, show i < 24 by omega, back 8 h.1, show i - 8 < 8 by omega,
      BitVec.getLsbD_eq_getElem hi]
  · simp [show ¬ i < 8 by omega, show ¬ i < 16 by omega, h.2, back 16 h.1,
      show ¬ i - 8 < 8 by omega, show i - 16 < 8 by omega, BitVec.getLsbD_eq_getElem hi]
  · simp [show ¬ i < 8 by omega, show ¬ i < 16 by omega, show ¬ i < 24 by omega, back 24 h,
      show ¬ i - 8 < 8 by omega, show ¬ i - 16 < 8 by omega, show i - 24 < 8 by omega,
      BitVec.getLsbD_eq_getElem hi]

theorem word64?_bytes64 (v : UInt64) (rest : List UInt8) :
    word64? (bytes64 v ++ rest) = some v := by
  have h : (bytes64 v ++ rest).drop 4 = bytes32 (v >>> 32).toUInt32 ++ rest := by
    simp only [bytes64, bytes32, List.cons_append, List.nil_append, List.drop_succ_cons,
      List.drop_zero]
  rw [word64?, h, word32?_bytes32, bytes64, List.append_assoc, word32?_bytes32]
  simp only [Option.some.injEq]
  apply UInt64.toBitVec_inj.mp
  have s : UInt64.toBitVec 32 % 64 = 32#64 := rfl
  simp only [UInt64.toBitVec_or, UInt64.toBitVec_shiftLeft, UInt32.toBitVec_toUInt64,
    UInt64.toBitVec_toUInt32, UInt64.toBitVec_shiftRight, s, BitVec.shiftLeft_eq',
    BitVec.ushiftRight_eq', BitVec.toNat_ofNat, Nat.reducePow, Nat.reduceMod]
  ext i hi
  simp only [BitVec.getElem_or, BitVec.getElem_setWidth, BitVec.getElem_shiftLeft,
    BitVec.getLsbD_setWidth, BitVec.getLsbD_ushiftRight]
  by_cases h : i < 32
  · simp [h, BitVec.getLsbD_eq_getElem hi]
  · rw [show 32 + (i - 32) = i by omega]
    simp [h, show i - 32 < 32 by omega, BitVec.getLsbD_eq_getElem hi]

end TapeLang.LittleEndian
