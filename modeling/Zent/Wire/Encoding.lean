import Mathlib.Algebra.Ring.Nat
import Zent.Wire.MsgTx

/-!
# Byte encodings

The encodings of numbers, hashes and addresses in scripts have a fixed length, and different values
have different encodings.
-/

namespace Zent

open List UInt32 BitVec Nat

theorem toNat_byte (x : UInt32) (i : Nat) (hi : i < 32) :
    (x >>> UInt32.ofNat i).toUInt8.toNat = x.toNat / 2 ^ i % 256 := by
  rw [UInt32.toNat_toUInt8, UInt32.toNat_shiftRight, UInt32.toNat_ofNat', shiftRight_eq_div_pow]
  rw [mod_eq_of_lt (by omega : i < 2 ^ 32), mod_eq_of_lt hi]

theorem putUint32_injective {x y : UInt32} (h : putUint32 x = putUint32 y) : x = y := by
  rw [putUint32, putUint32] at h
  simp only [cons.injEq, and_true] at h
  obtain ⟨h0, h1, h2, h3⟩ := h
  have hx := x.toNat_lt
  have hy := y.toNat_lt
  have b0 := congrArg UInt8.toNat h0
  have b1 := congrArg UInt8.toNat h1
  have b2 := congrArg UInt8.toNat h2
  have b3 := congrArg UInt8.toNat h3
  rw [toNat_toUInt8, toNat_toUInt8] at b0
  rw [show (8 : UInt32) = ofNat 8 from rfl, toNat_byte _ _ (by decide),
    toNat_byte _ _ (by decide)] at b1
  rw [show (16 : UInt32) = ofNat 16 from rfl, toNat_byte _ _ (by decide),
    toNat_byte _ _ (by decide)] at b2
  rw [show (24 : UInt32) = ofNat 24 from rfl, toNat_byte _ _ (by decide),
    toNat_byte _ _ (by decide)] at b3
  rw [← UInt32.toNat_inj]
  omega

/-- The four bytes of a number, put together. -/
theorem or_bytes (x : UInt32) :
    x.toUInt8.toUInt32 ||| ((x >>> 8).toUInt8.toUInt32 <<< 8) |||
      ((x >>> 16).toUInt8.toUInt32 <<< 16) ||| ((x >>> 24).toUInt8.toUInt32 <<< 24) = x := by
  apply UInt32.toBitVec_inj.mp
  apply eq_of_getLsbD_eq
  intro i hi
  simp only [UInt32.toBitVec_or, UInt32.toBitVec_shiftLeft, UInt8.toBitVec_toUInt32,
    UInt32.toBitVec_toUInt8, UInt32.toBitVec_shiftRight, getLsbD_or]
  simp [getLsbD_setWidth, getLsbD_shiftLeft, getLsbD_ushiftRight]
  grind

@[simp] theorem littleEndianUint32_putUint32 {ε : Type} (x : UInt32) :
    littleEndianUint32 (ε := ε) (putUint32 x) = .ok x := by
  simp only [putUint32, littleEndianUint32, or_bytes]

/-- A bit vector is determined by its bytes. -/
theorem eq_of_bytes {n : Nat} {x y : BitVec (8 * n)}
    (h : ∀ i, i < n → x.extractLsb' (8 * i) 8 = y.extractLsb' (8 * i) 8) : x = y := by
  apply eq_of_getLsbD_eq
  intro j hj
  have hbit := congrArg (fun b => getLsbD b (j % 8)) (h (j / 8) (by omega))
  simp only [getLsbD_extractLsb', mod_lt j (by decide : 8 > 0), decide_true,
    Bool.true_and, div_add_mod] at hbit
  exact hbit

@[simp] theorem length_hashBytes (x : Hash) : (hashBytes x).length = 32 := by
  rw [hashBytes, length_map, length_range]

theorem hashBytes_injective {x y : Hash} (h : hashBytes x = hashBytes y) : x = y := by
  rw [hashBytes, hashBytes, map_inj_left] at h
  apply eq_of_bytes (n := 32)
  intro i hi
  exact congrArg UInt8.toBitVec (h i (mem_range.mpr hi))

theorem addressBytes_injective {x y : Address} (h : addressBytes x = addressBytes y) : x = y := by
  rw [addressBytes, addressBytes, map_inj_left] at h
  apply eq_of_bytes (n := 20)
  intro i hi
  have hbyte := congrArg UInt8.toBitVec (h (19 - i) (mem_range.mpr (by omega)))
  rwa [show 19 - (19 - i) = i by omega] at hbyte

end Zent
