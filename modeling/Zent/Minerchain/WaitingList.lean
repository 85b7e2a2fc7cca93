import Zent.Blockchain.Series

/-!
# The waiting list of the miner chain

Miner blocks whose miners have not yet joined the committee wait. How many wait is read off the
transaction chain in two places: `factorPOW`, which scales the target of a new miner block, and
`calcNextRequiredDifficulty`, which corrects the time between miner blocks for it. Both walk down
from a block of the transaction chain to the last rotation block.

* `factorHeight_eq` and `waitingHeight_eq` say what they compute on an accepted chain: the first
  adds two for every POW block it passes, genesis included where it gets there; the second takes
  two off.
-/

namespace Zent

open List Branch Nat

def DESIRABLE_MINER_CANDIDATES : Int32 := 100

def SCALEFACTORCAP : Int32 := 48

/-! ## The factor of the proof of work -/

/-- The walk of `factorPOW` from a node: `d` is what the POW blocks add to the height that a
rotation block carries. -/
def factorHeight (g : Int32) (d : Int32) : Node → Int32
  | [] =>
    if g > 0 then 0 + (d + 2)
    else if g ≤ -MINER_RORATE_FREQ then -(g + MINER_RORATE_FREQ) + d
    else 0 + d
  | x :: p =>
    if x.nonce > 0 then factorHeight g (d + 2) p
    else if x.nonce ≤ -MINER_RORATE_FREQ then -(x.nonce + MINER_RORATE_FREQ) + d
    else factorHeight g d p

/-- The factor the target of a miner block is scaled with: `best` is the block of the transaction
chain it names, `none` where that is not known. -/
def factorPOW (g : Int32) (baseh : UInt32) (best : Option Node) : Int64 :=
  let h := (best.map (factorHeight g 0)).getD 0
  if h < 0 then -1
  else
    let d := baseh.toInt32 - h
    if d - DESIRABLE_MINER_CANDIDATES > SCALEFACTORCAP then 1 <<< SCALEFACTORCAP.toInt64
    else if d < DESIRABLE_MINER_CANDIDATES then
      let m := DESIRABLE_MINER_CANDIDATES - d
      (-1) <<< (if m > SCALEFACTORCAP then SCALEFACTORCAP else m).toInt64
    else 1 <<< (d - DESIRABLE_MINER_CANDIDATES).toInt64

/-! ## The correction of the time span -/

/-- The node of the best chain as far below a node as its negative nonce says. -/
def nodeBelow (tip mb : Node) (nonce : Int32) : Option Node :=
  let h := (height mb : Int) + nonce.toInt
  if h < 0 then none else nodeByHeight tip h.toNat

/-- `ParentNode`; genesis has none. -/
def parentNode : Node → Option Node
  | [] => none
  | _ :: p => some p

/-- The walk of `calcNextRequiredDifficulty`: over a series in one jump, over a POW block to its
parent, down to a rotation block. Without fuel it has not ended. -/
def waitingHeight (g : Int32) (tip : Node) : Nat → Int32 → Option Node → Option Int32
  | 0, _, _ => none
  | _ + 1, dh, none => some (-1 + dh)
  | fuel + 1, dh, some mb =>
    let nonce := Node.nonceFrom g mb
    if nonce > -MINER_RORATE_FREQ then
      if nonce < 0 then waitingHeight g tip fuel dh (nodeBelow tip mb nonce)
      else waitingHeight g tip fuel (dh - 2) (parentNode mb)
    else some (-nonce - MINER_RORATE_FREQ + dh)

/-! ## What the walks compute -/

section

variable {g : Int32}

/-- The nonce of a rotation block, read back. -/
theorem AcceptedChain.neg_nonce {x : NodeData} {p : Node} (h : AcceptedChain g (x :: p))
    (hx : x.isRotation = true) : -(x.nonce + MINER_RORATE_FREQ) = Int32.ofInt (rot (x :: p)) := by
  have hn : x.nonce = Int32.ofInt (-(rot (x :: p) + 20 : Int)) := by
    rw [← h.toInt_nonce hx, Int32.ofInt_toInt]
  have hfreq : MINER_RORATE_FREQ = Int32.ofInt 20 := rfl
  rw [hn, hfreq, ← Int32.ofInt_add, ← Int32.ofInt_neg]
  congr 1
  omega

/-- The rotation of the last rotation block and two for every POW block passed, genesis among
them where the walk gets there. -/
def factorValue (n : Node) : Int :=
  match lastRotationBlock n with
  | some q => rot q + 2 * powsSince n
  | none => 2 * (powsSince n + 1)

theorem factorHeight_eq (hg : 0 < g) : ∀ {n : Node} (d : Int32), AcceptedChain g n →
    factorHeight g d n = Int32.ofInt (factorValue n) + d
  | [], d, _ => by
    rw [factorHeight, if_pos hg, Int32.zero_add, Int32.add_comm]
    rfl
  | x :: p, d, h => by
    have ih := fun d => factorHeight_eq hg d h.tail
    rw [factorHeight]
    rcases kind_cases x with hx | hx | hx
    · have hv : factorValue (x :: p) = factorValue p + 2 := by
        rw [factorValue, factorValue, lastRotationBlock_of_not p (isRotation_of_isPow hx),
          powsSince_pow p hx]
        cases lastRotationBlock p <;> dsimp only <;> omega
      rw [if_pos (of_decide_eq_true hx), ih, hv, Int32.ofInt_add, Int32.add_assoc,
        Int32.add_comm d 2]
      rfl
    · rw [if_neg (of_decide_eq_false (isPow_of_isRotation hx)), if_pos (of_decide_eq_true hx),
        h.neg_nonce hx, factorValue, lastRotationBlock_rotation p hx, powsSince_rotation p hx]
      simp only [cast_zero, mul_zero, add_zero]
    · obtain ⟨hnp, hnr⟩ := kinds_of_isSeries hx
      rw [if_neg (of_decide_eq_false hnp), if_neg (of_decide_eq_false hnr), ih, factorValue,
        factorValue, lastRotationBlock_of_not p hnr, powsSince_series p hx]

/-- The rotation of the last rotation block, less two for every POW block passed; on a chain
without one genesis is passed as well and the walk ends below it. -/
def waitingValue (n : Node) : Int :=
  match lastRotationBlock n with
  | some q => rot q - 2 * powsSince n
  | none => -1 - 2 * (powsSince n + 1)

theorem beforeSeries_suffix : ∀ n : Node, beforeSeries n <:+ n
  | [] => suffix_refl _
  | x :: p => by
    rw [beforeSeries]
    split
    · exact (beforeSeries_suffix p).trans (suffix_cons x p)
    · exact suffix_refl _

theorem nodeBelow_series {tip p : Node} {x : NodeData} (hg : 0 < g) (h : AcceptedChain g (x :: p))
    (hx : x.isSeries = true) (htip : x :: p <:+ tip) :
    nodeBelow tip (x :: p) x.nonce = some (beforeSeries p) := by
  obtain ⟨hle, hdrop⟩ := h.drop_series hg hx
  have hneg := h.toInt_nonce_neg (kinds_of_isSeries hx).1
  have hlen : (beforeSeries p).length = (x :: p).length - x.nonce.toInt.natAbs := by
    rw [← hdrop, length_drop]
  have hheight : ((height (x :: p) : Int) + x.nonce.toInt).toNat =
      height (beforeSeries p) := by
    rw [height, height]
    omega
  have hnonneg : ¬(height (x :: p) : Int) + x.nonce.toInt < 0 := by
    rw [height]
    omega
  rw [nodeBelow, if_neg hnonneg, hheight]
  apply (nodeByHeight_eq_some _ _).mpr
  exact ((beforeSeries_suffix p).trans (suffix_cons x p)).trans htip

theorem waitingHeight_none {tip : Node} (dh : Int32) {fuel : Nat} (hfuel : 1 ≤ fuel) :
    waitingHeight g tip fuel dh none = some (-1 + dh) := by
  obtain ⟨fuel, rfl⟩ := exists_eq_succ_of_ne_zero (ne_of_gt hfuel)
  rw [waitingHeight]

theorem waitingHeight_cons (tip : Node) (fuel : Nat) (dh : Int32) (x : NodeData) (p : Node) :
    waitingHeight g tip (fuel + 1) dh (some (x :: p)) =
      if x.nonce > -MINER_RORATE_FREQ then
        if x.nonce < 0 then waitingHeight g tip fuel dh (nodeBelow tip (x :: p) x.nonce)
        else waitingHeight g tip fuel (dh - 2) (some p)
      else some (-x.nonce - MINER_RORATE_FREQ + dh) := rfl

/-- With a step for every block the walk ends. -/
theorem waitingHeight_eq {tip : Node} (hg : 0 < g) : ∀ {fuel : Nat} {n : Node} (dh : Int32),
    AcceptedChain g n → n <:+ tip → height n + 2 ≤ fuel →
    waitingHeight g tip fuel dh (some n) = some (Int32.ofInt (waitingValue n) + dh)
  | fuel + 1, [], dh, _, _, hfuel => by
    have hlow : Node.nonceFrom g [] > -MINER_RORATE_FREQ := Int32.lt_trans (by decide) hg
    have hneg : ¬Node.nonceFrom g [] < 0 := Int32.not_lt.mpr (Int32.le_of_lt hg)
    have hone : 1 ≤ fuel := by
      omega
    rw [waitingHeight]
    simp only [if_pos hlow, if_neg hneg, parentNode]
    rw [waitingHeight_none _ hone, Int32.sub_eq_add_neg, Int32.add_comm dh, ← Int32.add_assoc]
    rfl
  | fuel + 1, x :: p, dh, h, htip, hfuel => by
    have hp : p <:+ tip := (suffix_cons x p).trans htip
    rw [height_cons] at hfuel
    rw [waitingHeight_cons]
    rcases kind_cases x with hx | hx | hx
    · have hpos := isPow_iff.mp hx
      have hlow := nonce_gt_of_not (isRotation_of_isPow hx)
      have hneg : ¬x.nonce < 0 := by
        rw [Int32.lt_iff_toInt_lt, Int32.toInt_zero]
        omega
      have hv : waitingValue (x :: p) = waitingValue p + -2 := by
        rw [waitingValue, waitingValue, lastRotationBlock_of_not p (isRotation_of_isPow hx),
          powsSince_pow p hx]
        cases lastRotationBlock p <;> dsimp only <;> omega
      rw [if_pos hlow, if_neg hneg, waitingHeight_eq hg _ h.tail hp (by omega), hv,
        Int32.ofInt_add, Int32.sub_eq_add_neg, Int32.add_assoc, Int32.add_comm dh]
      rfl
    · have hlow : ¬x.nonce > -MINER_RORATE_FREQ := Int32.not_lt.mpr (of_decide_eq_true hx)
      have hnonce : -x.nonce - MINER_RORATE_FREQ = -(x.nonce + MINER_RORATE_FREQ) := by
        rw [Int32.neg_add, Int32.sub_eq_add_neg]
      rw [if_neg hlow, hnonce, h.neg_nonce hx, waitingValue, lastRotationBlock_rotation p hx,
        powsSince_rotation p hx]
      simp only [cast_zero, mul_zero, sub_zero]
    · have hkind := kinds_of_isSeries hx
      have hlow := nonce_gt_of_not hkind.2
      have hneg : x.nonce < 0 := by
        rw [Int32.lt_iff_toInt_lt]
        exact h.toInt_nonce_neg hkind.1
      have hs := beforeSeries_suffix p
      have hle : height (beforeSeries p) ≤ height p := hs.length_le
      obtain ⟨hlast, hpows⟩ := lastRotationBlock_beforeSeries p
      rw [if_pos hlow, if_pos hneg, nodeBelow_series hg h hx htip,
        waitingHeight_eq hg _ (h.tail.suffix hs) (hs.trans hp) (by omega), waitingValue,
        waitingValue, hlast, hpows, lastRotationBlock_of_not p hkind.2, powsSince_series p hx]

end

end Zent
