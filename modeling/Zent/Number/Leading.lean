import Mathlib.Data.Nat.Log
import Mathlib.Tactic.Positivity

/-!
# Rounding down to the leading digits

A number written with digits of `w` bits is cut to its leading digits: how many digits are cleared
depends on its length, so it is not obvious that a larger number stays the larger one.

* `trailing w p n` — how many digits of `n` are cleared, for a length that is `p` digits more.
* `floorLeading w p n` — `n` with these digits cleared.
-/

namespace Number

open Nat

/-- The number of digits that are cleared. -/
def trailing (w p n : Nat) : Nat := (log2 n + 1) / w - p

/-- The number with its last digits cleared. -/
def floorLeading (w p n : Nat) : Nat :=
  n / 2 ^ (w * trailing w p n) * 2 ^ (w * trailing w p n)

variable {w p n n' : Nat}

theorem floorLeading_le (w p n : Nat) : floorLeading w p n ≤ n := div_mul_le_self _ _

theorem log2_mono (h : n ≤ n') : log2 n ≤ log2 n' := by
  rw [log2_eq_log_two, log2_eq_log_two]
  exact log_mono_right h

/-- The leading bit of a number is not cleared. -/
theorem pow_log2_le_floorLeading (hw : 0 < w) (hp : 0 < p) (hn : n ≠ 0) :
    2 ^ log2 n ≤ floorLeading w p n := by
  have hlen : w * trailing w p n ≤ log2 n := by
    have hdiv : w * ((Nat.log2 n + 1) / w) ≤ Nat.log2 n + 1 := Nat.mul_div_le _ _
    rw [trailing, Nat.mul_sub]
    have hone : 1 ≤ w * p := Nat.mul_pos hw hp
    omega
  obtain ⟨c, hc⟩ := pow_dvd_pow 2 hlen
  have hle : c ≤ n / 2 ^ (w * trailing w p n) := by
    rw [le_div_iff_mul_le (by positivity), mul_comm, ← hc]
    exact log2_self_le hn
  calc 2 ^ log2 n = c * 2 ^ (w * trailing w p n) := by rw [hc, mul_comm]
    _ ≤ _ := mul_le_mul_right _ hle

/-- **Cutting keeps the order**, although the longer number has more digits cleared. -/
theorem floorLeading_mono (hw : 0 < w) (hp : 0 < p) (h : n ≤ n') :
    floorLeading w p n ≤ floorLeading w p n' := by
  by_cases hsame : trailing w p n = trailing w p n'
  · rw [floorLeading, floorLeading, hsame]
    exact Nat.mul_le_mul_right _ (Nat.div_le_div_right h)
  -- otherwise `n'` is longer, and its leading bit is more than `n`
  have hlog : Nat.log2 n < Nat.log2 n' := by
    refine lt_of_le_of_ne (log2_mono h) fun heq => hsame ?_
    rw [trailing, trailing, heq]
  have hn' : n' ≠ 0 := by
    rintro rfl
    exact absurd hlog (by rw [log2_zero]; exact not_lt_zero _)
  calc floorLeading w p n ≤ n := floorLeading_le w p n
    _ ≤ 2 ^ (Nat.log2 n + 1) := Nat.lt_log2_self.le
    _ ≤ 2 ^ Nat.log2 n' := Nat.pow_le_pow_right (by decide) hlog
    _ ≤ floorLeading w p n' := pow_log2_le_floorLeading hw hp hn'

end Number
