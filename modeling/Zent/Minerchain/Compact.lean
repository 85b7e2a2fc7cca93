import Mathlib.Data.Nat.Bitwise
import Zent.Blockchain.ProofOfWork
import Zent.Number.Leading

/-!
# Targets in compact form

`BigToCompact` writes a number as a mantissa of 23 bits and an exponent in bytes. What
`CompactToBig` reads back is the number rounded down to the leading bytes that fit.
-/

namespace Zent.Minerchain

open UInt32 Nat

/-- `len(n.Bytes())` -/
def byteLen (n : Nat) : Nat := if n = 0 then 0 else log2 n / 8 + 1

/-- The mantissa and the exponent, before the sign bit of the mantissa is freed. -/
def mantissaOf (n : Int) (exponent : Nat) : UInt32 :=
  if exponent ≤ 3 then ofNat n.natAbs <<< ofNat (8 * (3 - exponent))
  else ofNat (n >>> (8 * (exponent - 3))).natAbs

def bigToCompact (n : Int) : UInt32 :=
  if n = 0 then 0
  else
    let exponent := byteLen n.natAbs
    let mantissa := mantissaOf n exponent
    let (mantissa, exponent) :=
      if mantissa &&& 0x00800000 ≠ 0 then (mantissa >>> 8, exponent + 1) else (mantissa, exponent)
    let compact := ofNat exponent <<< 24 ||| mantissa
    if n < 0 then compact ||| 0x00800000 else compact

-- the limits of the networks are rounded down to two bytes
example : compactToBig (bigToCompact (2 ^ 240 - 1)) = 0xffff * 2 ^ 224 := by decide +kernel

/-! ## Packing -/

theorem toNat_pack {e : Nat} {m : UInt32} (he : e < 256) (hm : m.toNat < 2 ^ 24) :
    (UInt32.ofNat e <<< 24 ||| m).toNat = e * 2 ^ 24 + m.toNat := by
  have hmod : e % 2 ^ 32 = e := mod_eq_of_lt (by omega)
  rw [UInt32.toNat_or, UInt32.toNat_shiftLeft, UInt32.toNat_ofNat', hmod]
  show e <<< 24 % 2 ^ 32 ||| m.toNat = _
  rw [mod_eq_of_lt (by rw [shiftLeft_eq]; omega), ← shiftLeft_add_eq_or_of_lt hm, shiftLeft_eq]

variable {c : UInt32}

theorem and_signBit_eq_zero : c &&& 0x00800000 = 0 ↔ c.toNat / 2 ^ 23 % 2 = 0 := by
  rw [← UInt32.toNat_inj, UInt32.toNat_and]
  show c.toNat &&& 2 ^ 23 = 0 ↔ _
  rw [and_two_pow, testBit_eq_decide_div_mod_eq]
  simp

/-- What is read from an exponent and a mantissa. -/
theorem compactToBig_pack {e m : Nat} (hc : c.toNat = e * 2 ^ 24 + m) (hm : m < 2 ^ 23) :
    compactToBig c =
      (if e ≤ 3 then m / 2 ^ (8 * (3 - e)) else m * 2 ^ (8 * (e - 3)) : Nat) := by
  have hmant : (c &&& 0x007fffff).toNat = m := by
    rw [UInt32.toNat_and, hc]
    show (e * 2 ^ 24 + m) &&& (2 ^ 23 - 1) = m
    rw [and_two_pow_sub_one_eq_mod]
    omega
  have hexp : (c >>> 24).toNat = e := by
    rw [UInt32.toNat_shiftRight, hc]
    show (e * 2 ^ 24 + m) >>> 24 = e
    omega
  have hsign : c &&& 0x00800000 = 0 := and_signBit_eq_zero.mpr (by omega)
  simp only [compactToBig, hmant, hexp, hsign, ne_eq, not_true, if_false,
    shiftRight_eq_div_pow, shiftLeft_eq]

/-! ## The mantissa -/

section

variable {n : Nat} (hn : n ≠ 0)

include hn

theorem byteLen_eq : byteLen n = log2 n / 8 + 1 := by rw [byteLen, if_neg hn]

theorem lt_pow_byteLen : n < 2 ^ (8 * byteLen n) := by
  rw [byteLen_eq hn]
  exact Nat.lt_log2_self.trans_le (Nat.pow_le_pow_right (by decide) (by omega))

/-- The mantissa holds the three leading bytes. -/
theorem toNat_mantissaOf : (mantissaOf n (byteLen n)).toNat =
    if byteLen n ≤ 3 then n * 2 ^ (8 * (3 - byteLen n)) else n / 2 ^ (8 * (byteLen n - 3)) := by
  have hlt := lt_pow_byteLen hn
  rw [mantissaOf]
  split
  case isTrue hle =>
    have hshift : n * 2 ^ (8 * (3 - byteLen n)) < 2 ^ 24 :=
      calc n * 2 ^ (8 * (3 - byteLen n))
          < 2 ^ (8 * byteLen n) * 2 ^ (8 * (3 - byteLen n)) := by gcongr
        _ = 2 ^ 24 := by rw [← Nat.pow_add]; congr 1; omega
    have hsmall : n < 2 ^ 24 := lt_of_le_of_lt (Nat.le_mul_of_pos_right n (by positivity)) hshift
    have hcount : (ofNat (8 * (3 - byteLen n))).toNat = 8 * (3 - byteLen n) := by
      rw [UInt32.toNat_ofNat', Nat.mod_eq_of_lt (by omega)]
    rw [UInt32.toNat_shiftLeft, hcount, Int.natAbs_natCast, UInt32.toNat_ofNat',
      mod_eq_of_lt (by omega : n < 2 ^ 32), shiftLeft_eq,
      mod_eq_of_lt (by omega : 8 * (3 - byteLen n) < 32), mod_eq_of_lt (by omega)]
  case isFalse hgt =>
    have hdiv : n / 2 ^ (8 * (byteLen n - 3)) < 2 ^ 24 := by
      rw [Nat.div_lt_iff_lt_mul (by positivity), ← Nat.pow_add]
      refine hlt.trans_le (Nat.pow_le_pow_right (by decide) ?_)
      omega
    have hcast : ((n : Int) >>> (8 * (byteLen n - 3))).natAbs = n / 2 ^ (8 * (byteLen n - 3)) := by
      rw [Int.shiftRight_eq_div_pow, ← Int.natCast_ediv, Int.natAbs_natCast]
    rw [hcast, toNat_ofNat', mod_eq_of_lt (by omega)]

/-- The mantissa has its sign bit set if the number fills its leading byte. -/
theorem mantissaOf_bounds :
    (mantissaOf n (byteLen n)).toNat < 2 ^ 24 ∧
      (2 ^ 23 ≤ (mantissaOf n (byteLen n)).toNat ↔ log2 n + 1 = 8 * byteLen n) := by
  have hlt := lt_pow_byteLen hn
  have hpos : 1 ≤ byteLen n := by
    rw [byteLen_eq hn]
    omega
  have hfull : 2 ^ (8 * byteLen n - 1) ≤ n ↔ log2 n + 1 = 8 * byteLen n := by
    rw [← le_log2 hn]
    have := (log2_lt hn).mpr hlt
    omega
  rw [toNat_mantissaOf hn, ← hfull]
  split
  case isTrue hle =>
    have htop : 2 ^ 24 = 2 ^ (8 * byteLen n) * 2 ^ (8 * (3 - byteLen n)) := by
      rw [← pow_add]
      congr 1
      omega
    have hhalf : 2 ^ 23 = 2 ^ (8 * byteLen n - 1) * 2 ^ (8 * (3 - byteLen n)) := by
      rw [← pow_add]
      congr 1
      omega
    rw [htop, hhalf]
    exact ⟨Nat.mul_lt_mul_of_pos_right hlt (by positivity),
      Nat.mul_le_mul_right_iff (by positivity)⟩
  case isFalse hgt =>
    have htop : 2 ^ (8 * byteLen n) = 2 ^ 24 * 2 ^ (8 * (byteLen n - 3)) := by
      rw [← pow_add]
      congr 1
      omega
    have hhalf : 2 ^ (8 * byteLen n - 1) = 2 ^ 23 * 2 ^ (8 * (byteLen n - 3)) := by
      rw [← pow_add]
      congr 1
      omega
    rw [div_lt_iff_lt_mul (by positivity), le_div_iff_mul_le (by positivity), ← htop, ← hhalf]
    exact ⟨hlt, Iff.rfl⟩

end

/-- **What is read back**: the number, rounded down to its leading bytes. -/
theorem compactToBig_bigToCompact {n : Nat} (hbound : n < 2 ^ 256) :
    compactToBig (bigToCompact n) = Number.floorLeading 8 2 n := by
  by_cases hn : n = 0
  · subst hn
    decide
  have hint : (n : Int) ≠ 0 := Int.natCast_ne_zero.mpr hn
  have hnonneg : ¬ (n : Int) < 0 := not_lt.mpr (Int.natCast_nonneg n)
  have hlen := byteLen_eq hn
  have hlog : log2 n < 256 := (log2_lt hn).mpr hbound
  obtain ⟨hlt, hsign⟩ := mantissaOf_bounds hn
  have hm := toNat_mantissaOf hn
  simp only [bigToCompact, if_neg hint, if_neg hnonneg, Int.natAbs_natCast]
  by_cases hfull : log2 n + 1 = 8 * byteLen n
  · -- the sign bit is freed, with one byte of the mantissa
    have hbit : (mantissaOf n (byteLen n)).toNat / 2 ^ 23 % 2 = 1 := by
      omega
    have hshift : (mantissaOf n (byteLen n) >>> 8).toNat =
        (mantissaOf n (byteLen n)).toNat / 2 ^ 8 := by
      rw [UInt32.toNat_shiftRight]
      show _ >>> 8 = _
      rw [shiftRight_eq_div_pow]
    have htrailing : Number.trailing 8 2 n = byteLen n - 2 := by
      rw [Number.trailing, hfull]
      omega
    rw [if_pos (by rw [ne_eq, and_signBit_eq_zero]; omega)]
    dsimp only
    rw [compactToBig_pack (toNat_pack (by omega) (by omega)) (by omega), hshift, hm, Nat.cast_inj,
      Number.floorLeading, htrailing]
    rcases (by omega : byteLen n ≤ 2 ∨ byteLen n = 3 ∨ 3 < byteLen n) with hle | heq | hgt
    · have hsplit : 2 ^ (8 * (3 - byteLen n)) = 2 ^ (8 * (3 - (byteLen n + 1))) * 2 ^ 8 := by
        rw [← pow_add]
        congr 1
        omega
      rw [if_pos (by omega), if_pos (by omega), hsplit, ← Nat.mul_assoc,
        Nat.mul_div_cancel _ (by positivity), Nat.mul_div_cancel _ (by positivity),
        Nat.sub_eq_zero_of_le hle, Nat.mul_zero, Nat.pow_zero, Nat.div_one, Nat.mul_one]
    · rw [heq]
      simp
    · have hexp : 8 * (byteLen n - 3) + 8 = 8 * (byteLen n - 2) := by omega
      rw [if_neg (by omega), if_neg (by omega), Nat.div_div_eq_div_mul, ← Nat.pow_add, hexp]
      rfl
  · have hbit : (mantissaOf n (byteLen n)).toNat / 2 ^ 23 % 2 = 0 := by
      omega
    have htrailing : Number.trailing 8 2 n = byteLen n - 3 := by
      rw [Number.trailing]
      omega
    rw [if_neg (not_not.mpr (and_signBit_eq_zero.mpr hbit))]
    dsimp only
    rw [compactToBig_pack (toNat_pack (by omega) (by omega)) (by omega), hm, Nat.cast_inj,
      Number.floorLeading, htrailing]
    by_cases hle : byteLen n ≤ 3
    · rw [if_pos hle, if_pos hle, Nat.mul_div_cancel _ (by positivity), Nat.sub_eq_zero_of_le hle,
        Nat.mul_zero, Nat.pow_zero, Nat.div_one, Nat.mul_one]
    · rw [if_neg hle, if_neg hle]

/-- **Rounding keeps the order.** Of two targets that fit 256 bits, the larger one is not the
smaller one after it has been written in compact form and read back. -/
theorem compactToBig_mono {a b : Int} (ha : 0 ≤ a) (hab : a ≤ b) (hb : b < 2 ^ 256) :
    compactToBig (bigToCompact a) ≤ compactToBig (bigToCompact b) := by
  obtain ⟨n, rfl⟩ := Int.eq_ofNat_of_zero_le ha
  obtain ⟨n', rfl⟩ := Int.eq_ofNat_of_zero_le (ha.trans hab)
  have hle : n ≤ n' := Int.ofNat_le.mp hab
  have hlt : n' < 2 ^ 256 := by exact_mod_cast hb
  rw [compactToBig_bigToCompact (hle.trans_lt hlt), compactToBig_bigToCompact hlt]
  exact Int.ofNat_le.mpr (Number.floorLeading_mono (by decide) (by decide) hle)

end Zent.Minerchain
