import Mathlib.Data.List.Basic
import Mathlib.Tactic.Ring

/-!
# Sliding windows

The last `d` values of a sequence over the integers, oldest first, and how the window moves by one
in either direction.
-/

namespace Chain

open List

universe u

variable {α : Type u}

/-- The values at the `d` places up to `r`. -/
def window (f : Int → α) (d : Nat) (r : Int) : List α :=
  (List.range d).map fun i : Nat => f (r - d + 1 + i)

variable (f : Int → α) (d : Nat) (r : Int)

@[simp] theorem length_window : (window f d r).length = d := by
  rw [window, length_map, length_range]

/-- A window from its oldest value on. -/
theorem window_eq_cons : window f (d + 1) r = f (r - d) :: window f d r := by
  rw [window, window, range_succ_eq_map, map_cons, map_map]
  refine congrArg₂ List.cons (congrArg f (by push_cast; ring)) (map_congr_left fun i _ => ?_)
  exact congrArg f (by push_cast; ring)

/-- A window up to its newest value. -/
theorem window_eq_append : window f (d + 1) r = window f d (r - 1) ++ [f r] := by
  rw [window, window, range_succ, map_append, map_singleton]
  refine congrArg₂ HAppend.hAppend (map_congr_left fun i _ => ?_) (congrArg (fun x => [f x]) ?_)
  · exact congrArg f (by push_cast; ring)
  · push_cast
    ring

/-- Forward, the oldest value goes and the next one comes. -/
theorem window_succ : window f (d + 1) (r + 1) = (window f (d + 1) r).tail ++ [f (r + 1)] := by
  rw [window_eq_append, window_eq_cons, tail_cons, add_sub_cancel_right]

/-- Backward, the newest value goes and an older one comes back. -/
theorem window_pred :
    window f (d + 1) (r - 1) = f (r - 1 - d) :: (window f (d + 1) r).dropLast := by
  rw [window_eq_cons, window_eq_append, dropLast_concat]

/-- A window depends on the values in it only. -/
theorem window_congr {f f' : Int → α} (h : ∀ i, r - d < i → i ≤ r → f i = f' i) :
    window f d r = window f' d r := by
  refine map_congr_left fun i hi => h _ ?_ ?_ <;>
  · have := mem_range.mp hi
    omega

end Chain
