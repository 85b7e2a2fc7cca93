import Mathlib.Data.Nat.Digits.Lemmas
import Mathlib.FieldTheory.Finite.Basic
import Zent.Wire.Encoding

/-!
# Exponentiation of big numbers

`Exp` of `omega/ovm/instructions.go` squares and multiplies along the words of the exponent. It
reduces by `tt256`, which is 2 shifted by 256, and squares the operand itself.
-/

namespace Zent.Ovm

open Nat

/-- `new(big.Int).Lsh(big.NewInt(2), 256)` -/
def tt256 : Nat := 2 <<< 256

/-- `U256` -/
def u256 (y : Nat) : Nat := y &&& (tt256 - 1)

/-- The loop over the lowest bits of a word, on the result and the base. -/
def expWord : Nat → Nat → Nat × Nat → Nat × Nat
  | 0, _, s => s
  | i + 1, word, (result, base) =>
    expWord i (word >>> 1)
      (if word &&& 1 = 1 then u256 (result * base) else result, u256 (base * base))

/-- `Exp`: the power, and what the object of the base holds afterwards. -/
def exp (base exponent : Nat) : Nat × Nat :=
  -- `exponent.Bits()`, words of 64 bits
  (digits (2 ^ 64) exponent).foldl (fun s word => expWord 64 word s) (1, base)

/-- What `opEval256` does with its result. -/
def storeBig (num : Nat) : Except String Hash :=
  if 32 < (digits 256 num).length then .error "Big number overflow" else .ok (BitVec.ofNat 256 num)

/-- The exponent is one too large. -/
theorem tt256_eq : ∃ n, n = 257 ∧ tt256 = 2 ^ n :=
  ⟨256 + 1, rfl, (shiftLeft_eq 2 256).trans (pow_succ' 2 256).symm⟩

theorem u256_eq (y : Nat) : u256 y = y % tt256 := by
  obtain ⟨n, -, hn⟩ := tt256_eq
  rw [u256, hn, and_two_pow_sub_one_eq_mod]

theorem u256_lt (y : Nat) : u256 y < tt256 := by
  rw [u256_eq]
  exact mod_lt y (by decide)

/-- The lowest `i` bits of a word are used up. -/
theorem expWord_eq : ∀ (i word : Nat) {result base : Nat}, result < tt256 → base < tt256 →
    expWord i word (result, base) =
      (result * base ^ (word % 2 ^ i) % tt256, base ^ 2 ^ i % tt256)
  | 0, word, result, base, hr, hb => by
    simp [expWord, mod_one, mod_eq_of_lt hr, mod_eq_of_lt hb]
  | i + 1, word, result, base, hr, hb => by
    have hword : word % 2 ^ (i + 1) = word % 2 + 2 * (word / 2 % 2 ^ i) := by
      rw [pow_succ', mod_mul]
    have hlt : (if word &&& 1 = 1 then u256 (result * base) else result) < tt256 := by
      split
      · exact u256_lt _
      · exact hr
    rw [expWord, expWord_eq i _ hlt (u256_lt _), u256_eq, u256_eq, ← pow_two, and_one_is_mod,
      shiftRight_one, hword, pow_succ' 2 i, pow_add, pow_mul, pow_mul, ← pow_mod, mul_mod,
      ← pow_mod]
    rcases mod_two_eq_zero_or_one word with hbit | hbit
    · simp [hbit, mul_mod]
    · simp [hbit, mul_mod, ← mul_assoc]

/-- The words are used up, lowest first. -/
theorem foldl_expWord : ∀ {words : List Nat} {result base : Nat}, (∀ w ∈ words, w < 2 ^ 64) →
    result < tt256 → base < tt256 →
    words.foldl (fun s word => expWord 64 word s) (result, base) =
      (result * base ^ ofDigits (2 ^ 64) words % tt256, base ^ (2 ^ 64) ^ words.length % tt256)
  | [], result, base, _, hr, hb => by simp [mod_eq_of_lt hr, mod_eq_of_lt hb]
  | word :: words, result, base, hw, hr, hb => by
    obtain ⟨hword, hwords⟩ := List.forall_mem_cons.mp hw
    have hpos : 0 < tt256 := by decide
    rw [List.foldl_cons, expWord_eq 64 word hr hb, mod_eq_of_lt hword,
      foldl_expWord hwords (mod_lt _ hpos) (mod_lt _ hpos), ofDigits_cons, List.length_cons,
      pow_succ' (2 ^ 64), pow_add, pow_mul, pow_mul, ← pow_mod, mod_mul_mod, ← mul_assoc]
    simp [mul_mod, pow_mod]

/-- **What `Exp` computes**: the power, and what the operand then holds. -/
theorem exp_eq {base : Nat} (hb : base < tt256) (exponent : Nat) :
    exp base exponent = (base ^ exponent % tt256,
      base ^ (2 ^ 64) ^ (digits (2 ^ 64) exponent).length % tt256) := by
  rw [exp, foldl_expWord (fun w => digits_lt_base (by decide)) (by decide) hb, one_mul,
    ofDigits_digits]

theorem storeBig_eq_ok {num : Nat} {h : Hash} :
    storeBig num = .ok h ↔ num < 2 ^ 256 ∧ BitVec.ofNat 256 num = h := by
  have hlen := digits_length_le_iff (b := 256) (k := 32) (by decide) num
  rw [storeBig]
  split <;> simp <;> omega

/-- A power is stored, modulo `2 ^ 256`, if its bit 256 is not set. -/
theorem stored_iff {base : Nat} (hb : base < tt256) (exponent : Nat) :
    storeBig (exp base exponent).1 = .ok (BitVec.ofNat 256 (base ^ exponent)) ↔
      base ^ exponent % tt256 < 2 ^ 256 := by
  rw [exp_eq hb, storeBig_eq_ok, and_iff_left]
  refine BitVec.eq_of_toNat_eq ?_
  rw [BitVec.toNat_ofNat, BitVec.toNat_ofNat]
  exact mod_mod_of_dvd _ (by decide)

/-- Repeated squaring comes back to 0 and 1 only. -/
theorem le_one_of_pow_modEq {base k : Nat} (hb : base < tt256) (hk : k ≠ 0)
    (h : base ^ (2 ^ 64) ^ k ≡ base [MOD tt256]) : base ≤ 1 := by
  have hiter : ∀ m, base ^ ((2 ^ 64) ^ k) ^ m ≡ base [MOD tt256] := by
    intro m
    induction m with
    | zero => rw [pow_zero, pow_one]
    | succ m ih =>
      rw [pow_succ, pow_mul]
      exact (ih.pow _).trans h
  obtain ⟨n, hn, htt⟩ := tt256_eq
  have hmany : 2 ^ n ∣ ((2 ^ 64) ^ k) ^ 5 := by
    rw [← pow_mul, ← pow_mul]
    exact pow_dvd_pow 2 (by omega)
  have hle : 2 ^ n ≤ ((2 ^ 64) ^ k) ^ 5 := le_of_dvd (by positivity) hmany
  -- so many squarings of an even number give 0, and of an odd one 1
  have hback := hiter 5
  generalize ((2 ^ 64) ^ k) ^ 5 = many at hmany hle hback
  rw [htt] at hback hb
  rcases even_or_odd base with heven | hodd
  · have hzero : 2 ^ n ∣ base ^ many := (pow_dvd_pow 2 (Nat.lt_two_pow_self.le.trans hle)).trans
      (pow_dvd_pow_of_dvd heven.two_dvd many)
    have hmod := hback.symm.trans (modEq_zero_iff_dvd.mpr hzero)
    exact (hmod.eq_of_lt_of_lt hb (Nat.two_pow_pos n)).trans_le zero_le_one
  · obtain ⟨c, rfl⟩ := (pow_dvd_pow 2 (Nat.sub_le n 1)).trans hmany
    have hphi : φ (2 ^ n) = 2 ^ (n - 1) :=
      (totient_prime_pow prime_two (by omega)).trans (mul_one _)
    have hone := (ModEq.pow_totient (hodd.coprime_two_right.pow_right n)).pow c
    rw [hphi, one_pow, ← pow_mul] at hone
    exact ((hback.symm.trans hone).eq_of_lt_of_lt hb (Nat.one_lt_two_pow (by omega))).le

/-- The power modulo `2 ^ 256` is stored, and the operand is left alone. -/
def ExpExact (base exponent : Hash) : Prop :=
  storeBig (exp base.toNat exponent.toNat).1 =
      .ok (BitVec.ofNat 256 (base.toNat ^ exponent.toNat)) ∧
    (exp base.toNat exponent.toNat).2 = base.toNat

/-- **Exponentiation is exact for trivial operands only**: the exponent is zero, or the base is zero
or one. For all others the power is refused, or the operand does not stay as it was. -/
theorem expExact_iff (base exponent : Hash) :
    ExpExact base exponent ↔ exponent = 0 ∨ base ≤ 1 := by
  have hb : base.toNat < tt256 := base.isLt.trans (by decide)
  have hzero : exponent.toNat = 0 → exponent = 0 := fun h => BitVec.eq_of_toNat_eq h
  rw [ExpExact, stored_iff hb, exp_eq hb, BitVec.le_def, or_iff_not_imp_left]
  constructor
  · rintro ⟨-, hsame⟩ hne
    refine le_one_of_pow_modEq hb (k := (digits (2 ^ 64) exponent.toNat).length) ?_ ?_
    · rw [ne_eq, List.length_eq_zero_iff, digits_eq_nil_iff_eq_zero]
      exact hne ∘ hzero
    · rw [ModEq, mod_eq_of_lt hb]
      exact hsame
  · intro h
    by_cases he : exponent = 0
    · subst he
      simp [mod_eq_of_lt hb]
      decide
    · have hself : ∀ m, m ≠ 0 → base.toNat ^ m = base.toNat := by
        intro m hm
        rcases le_one_iff_eq_zero_or_eq_one.mp (h he) with hone | hone <;> simp [hone, hm]
      rw [hself _ (he ∘ hzero), hself _ (pow_ne_zero _ (by decide)),
        mod_eq_of_lt hb]
      exact ⟨base.isLt, rfl⟩

/-- `2 ^ 256` is refused instead of stored as 0, and the operand 2 has become 0. -/
theorem exp_overflows : ¬ ExpExact 2 256 ∧
    storeBig (exp 2 256).1 = .error "Big number overflow" ∧ (exp 2 256).2 = 0 := by
  have hbase : (exp 2 256).2 = 0 := by decide +kernel
  refine ⟨?_, by decide +kernel, hbase⟩
  rintro ⟨-, hsame⟩
  cases hbase.symm.trans hsame

end Zent.Ovm
