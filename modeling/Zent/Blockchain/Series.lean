import Zent.Blockchain.SignedChain

/-!
# Chains whose nonces follow the series rules

A block of the transaction chain is a POW block (positive nonce), a rotation block (nonce at
most `-MINER_RORATE_FREQ`, which carries the rotation it brings), or a block of the series that
counts down between two rotations. The rule for the next nonce is the one `checkProofOfWork`
enforces; here it is taken as the definition of an accepted chain, over the nonce of genesis.

* `AcceptedChain g n`: every block of the branch follows its parent, and the rotation stays a
  height of the miner chain.
* `lastRotationBlock` / `powsSince`: the rotation block a walk down a branch meets first, and the
  POW blocks above it; `AcceptedChain.rot_eq` gives the rotation in these terms.
-/

namespace Zent

open List Int32 Bool Node

/-- The nonce of a node, over that of genesis. -/
def Node.nonceFrom (g : Int32) : Node → Int32
  | [] => g
  | x :: _ => x.nonce

/-- The block keeps the rule for the nonce after a node. -/
def Follows (g : Int32) (p : Node) (x : NodeData) : Prop :=
  0 < x.nonce ∨ x.nonce ≤ 0 ∧ InSeries (nonceFrom g p) x.nonce (rotation p).toNat

/-- A chain whose blocks keep the rule. The rotation is a height of the miner chain, an `int32`:
a POW block must not move it past the miner tip, and a rotation block carries it in its nonce. -/
inductive AcceptedChain (g : Int32) : Node → Prop where
  | genesis : AcceptedChain g []
  | block {x : NodeData} {p : Node} : AcceptedChain g p → Follows g p x →
    (rotation (x :: p)).toNat < 2 ^ 31 → AcceptedChain g (x :: p)

/-- The rotation of a node as a number. -/
def rot (n : Node) : Nat := (rotation n).toNat

/-- The kinds of blocks. -/
def NodeData.isPow (x : NodeData) : Bool := 0 < x.nonce

def NodeData.isRotation (x : NodeData) : Bool := x.nonce ≤ -MINER_RORATE_FREQ

/-- A block of a series, between two rotations. -/
def NodeData.isSeries (x : NodeData) : Bool := !x.isPow && !x.isRotation

theorem toInt_freq : (-MINER_RORATE_FREQ).toInt = -20 := rfl

variable {x : NodeData}

theorem isPow_iff : x.isPow = true ↔ 0 < x.nonce.toInt := by
  rw [NodeData.isPow, decide_eq_true_iff, lt_iff_toInt_lt, toInt_zero]

theorem isRotation_iff : x.isRotation = true ↔ x.nonce.toInt ≤ -20 := by
  rw [NodeData.isRotation, decide_eq_true_iff, le_iff_toInt_le, toInt_freq]

theorem isSeries_iff : x.isSeries = true ↔ -20 < x.nonce.toInt ∧ x.nonce.toInt ≤ 0 := by
  rw [NodeData.isSeries, and_eq_true, not_eq_true', not_eq_true',
    ← not_eq_true, ← not_eq_true, isPow_iff, isRotation_iff]
  omega

theorem advance_pow (p : Node) (h : x.isPow = true) : advance (x :: p) = 2 := by
  have hpos : nonce (x :: p) > 0 := of_decide_eq_true h
  rw [advance, if_pos hpos]
  rfl

theorem advance_rotation (p : Node) (h : x.isRotation = true) : advance (x :: p) = 1 := by
  have hle : nonce (x :: p) ≤ -MINER_RORATE_FREQ := of_decide_eq_true h
  have hpos : ¬nonce (x :: p) > 0 := Int32.not_lt.mpr (Int32.le_trans hle (by decide))
  rw [advance, if_neg hpos, if_pos hle]

theorem advance_series (p : Node) (h : x.isSeries = true) : advance (x :: p) = 0 := by
  rw [NodeData.isSeries, and_eq_true, not_eq_true', not_eq_true'] at h
  have hpos : ¬nonce (x :: p) > 0 := of_decide_eq_false h.1
  have hle : ¬nonce (x :: p) ≤ -MINER_RORATE_FREQ := of_decide_eq_false h.2
  rw [advance, if_neg hpos, if_neg hle]

theorem kind_cases (x : NodeData) : x.isPow = true ∨ x.isRotation = true ∨ x.isSeries = true := by
  rw [isPow_iff, isRotation_iff, isSeries_iff]
  omega

/-! ## AcceptedChain chains -/

namespace AcceptedChain

variable {g : Int32} {x : NodeData} {p n : Node}

theorem tail (h : AcceptedChain g (x :: p)) : AcceptedChain g p := by
  cases h with
  | block hp _ _ => exact hp

theorem follows (h : AcceptedChain g (x :: p)) : Follows g p x := by
  cases h with
  | block _ hx _ => exact hx

theorem suffix (h : AcceptedChain g n) (hs : p <:+ n) : AcceptedChain g p := by
  induction h with
  | genesis =>
    rw [suffix_nil.mp hs]
    exact .genesis
  | block hq hx hr ih =>
    rcases suffix_cons_iff.mp hs with rfl | hs
    · exact .block hq hx hr
    · exact ih hs

theorem rot_lt (h : AcceptedChain g n) : rot n < 2 ^ 31 := by
  cases h with
  | genesis => decide
  | block _ _ hr => exact hr

section

variable (h : AcceptedChain g (x :: p))

include h

/-- On an accepted chain no rotation wraps. -/
theorem rot_cons : rot (x :: p) = rot p + advance (x :: p) := by
  have hp : rot p < 2 ^ 31 := h.tail.rot_lt
  have hadv : advance (x :: p) ≤ 2 := by
    rcases kind_cases x with hx | hx | hx
    · rw [advance_pow p hx]
    · rw [advance_rotation p hx]; decide
    · rw [advance_series p hx]; decide
  rw [rot] at hp
  rw [rot, rotation_cons, UInt32.toNat_add, UInt32.toNat_ofNat', rot]
  omega

theorem rot_pow (hx : x.isPow = true) : rot (x :: p) = rot p + 2 := by
  rw [h.rot_cons, advance_pow p hx]

theorem rot_rotation (hx : x.isRotation = true) : rot (x :: p) = rot p + 1 := by
  rw [h.rot_cons, advance_rotation p hx]

theorem rot_series (hx : x.isSeries = true) : rot (x :: p) = rot p := by
  rw [h.rot_cons, advance_series p hx, Nat.add_zero]

/-- A block that is not a POW block keeps its place in the series. -/
theorem inSeries (hx : x.isPow = false) : InSeries (nonceFrom g p) x.nonce (rot p) := by
  rcases h.follows with hpos | ⟨-, hs⟩
  · exact absurd hpos (of_decide_eq_false hx)
  · exact hs

/-- A rotation block carries the rotation it brings. -/
theorem toInt_nonce (hx : x.isRotation = true) : x.nonce.toInt = -(rot (x :: p) + 20 : Int) := by
  have hrot := isRotation_iff.mp hx
  have hnp : x.isPow = false := by
    rw [← not_eq_true, isPow_iff]
    omega
  have hs := h.inSeries hnp
  rw [h.rot_rotation hx]
  rcases series_cases (nonceFrom g p) with hp | hp | ⟨hle, hgt⟩
  · rw [hs.starts hp] at hrot
    exact absurd hrot (by decide)
  · rw [hs.rotates hp]
    show -((rot p : Int) + 1 + 20) = _
    omega
  · obtain ⟨heq, hlow, -⟩ := toInt_sub_one_of_goesOn hle hgt
    rw [hs.goesOn hle hgt] at hrot
    omega

theorem toInt_nonce_neg (hx : x.isPow = false) : x.nonce.toInt < 0 :=
  (h.inSeries hx).toInt_neg (Int.natCast_nonneg _)

end

end AcceptedChain

/-! ## The last rotation block -/

/-- The rotation block that a walk down the branch meets first. -/
def lastRotationBlock : Node → Option Node
  | [] => none
  | x :: p => if x.isRotation then some (x :: p) else lastRotationBlock p

/-- The POW blocks above it, or on the whole branch where there is none. -/
def powsSince : Node → Nat
  | [] => 0
  | x :: p => if x.isRotation then 0 else if x.isPow then powsSince p + 1 else powsSince p

/-- The rotation of the last rotation block. -/
def baseRotation (n : Node) : Nat := ((lastRotationBlock n).map rot).getD 0

section

variable {x : NodeData} (p : Node)

theorem isRotation_of_isPow (h : x.isPow = true) : x.isRotation = false := by
  rw [isPow_iff] at h
  rw [← not_eq_true, isRotation_iff]
  omega

theorem isPow_of_isRotation (h : x.isRotation = true) : x.isPow = false := by
  rw [isRotation_iff] at h
  rw [← not_eq_true, isPow_iff]
  omega

theorem kinds_of_isSeries (h : x.isSeries = true) : x.isPow = false ∧ x.isRotation = false := by
  rwa [NodeData.isSeries, and_eq_true, not_eq_true', not_eq_true'] at h

theorem nonce_gt_of_not (h : x.isRotation = false) : x.nonce > -MINER_RORATE_FREQ :=
  Int32.not_le.mp (of_decide_eq_false h)

theorem lastRotationBlock_rotation (h : x.isRotation = true) :
    lastRotationBlock (x :: p) = some (x :: p) := by
  rw [lastRotationBlock, if_pos h]

theorem lastRotationBlock_of_not (h : x.isRotation = false) :
    lastRotationBlock (x :: p) = lastRotationBlock p := by
  rw [lastRotationBlock, h]
  rfl

theorem powsSince_rotation (h : x.isRotation = true) : powsSince (x :: p) = 0 := by
  rw [powsSince, if_pos h]

theorem powsSince_pow (h : x.isPow = true) : powsSince (x :: p) = powsSince p + 1 := by
  rw [powsSince, isRotation_of_isPow h, if_neg Bool.false_ne_true, if_pos h]

theorem powsSince_series (h : x.isSeries = true) : powsSince (x :: p) = powsSince p := by
  obtain ⟨hpow, hrot⟩ := kinds_of_isSeries h
  rw [powsSince, hrot, hpow]
  rfl

end

theorem lastRotationBlock_spec {q : Node} : ∀ {n : Node}, lastRotationBlock n = some q →
    q <:+ n ∧ ∃ x p, q = x :: p ∧ x.isRotation = true
  | x :: p, h => by
    rw [lastRotationBlock] at h
    split at h
    case isTrue hx =>
      cases h
      exact ⟨suffix_refl _, x, p, rfl, hx⟩
    · obtain ⟨hs, hq⟩ := lastRotationBlock_spec h
      exact ⟨hs.trans (suffix_cons x p), hq⟩

variable {g : Int32}

/-- The rotation of a block is that of the last rotation block and two for every POW block
since. -/
theorem AcceptedChain.rot_eq {n : Node} (h : AcceptedChain g n) :
    rot n = baseRotation n + 2 * powsSince n := by
  induction h with
  | genesis => rfl
  | block hp hx hr ih =>
    rename_i x p
    have hn : AcceptedChain g (x :: p) := .block hp hx hr
    rcases kind_cases x with hk | hk | hk
    · rw [hn.rot_pow hk, ih, powsSince_pow p hk, baseRotation, baseRotation,
        lastRotationBlock_of_not p (isRotation_of_isPow hk)]
      omega
    · rw [powsSince_rotation p hk, baseRotation, lastRotationBlock_rotation p hk]
      rfl
    · rw [hn.rot_series hk, ih, powsSince_series p hk, baseRotation, baseRotation,
        lastRotationBlock_of_not p (kinds_of_isSeries hk).2]

/-! ## Below a series -/

/-- The node that a series starts from. -/
def beforeSeries : Node → Node
  | [] => []
  | x :: p => if x.isSeries then beforeSeries p else x :: p

theorem lastRotationBlock_beforeSeries : ∀ n : Node,
    lastRotationBlock (beforeSeries n) = lastRotationBlock n ∧
      powsSince (beforeSeries n) = powsSince n
  | [] => ⟨rfl, rfl⟩
  | x :: p => by
    rw [beforeSeries]
    split
    case isTrue hx =>
      obtain ⟨hl, hp⟩ := lastRotationBlock_beforeSeries p
      rw [lastRotationBlock_of_not p (kinds_of_isSeries hx).2, powsSince_series p hx]
      exact ⟨hl, hp⟩
    · exact ⟨rfl, rfl⟩

theorem beforeSeries_of_starts : ∀ {p : Node},
    0 < nonceFrom g p ∨ nonceFrom g p ≤ -MINER_RORATE_FREQ → beforeSeries p = p
  | [], _ => rfl
  | y :: q, h => by
    have hy : y.isSeries ≠ true := by
      rw [Ne, isSeries_iff]
      rcases h with h | h
      · have := isPow_iff.mp (decide_eq_true h)
        omega
      · have := isRotation_iff.mp (decide_eq_true h)
        omega
    rw [beforeSeries, if_neg hy]

/-- **The nonce of a block of a series counts back** to the node the series started from: so many
blocks below is the node before the series. -/
theorem AcceptedChain.drop_series (hg : 0 < g) : ∀ {p : Node} {x : NodeData},
    AcceptedChain g (x :: p) → x.isSeries = true →
    x.nonce.toInt.natAbs ≤ (x :: p).length ∧
      (x :: p).drop x.nonce.toInt.natAbs = beforeSeries p
  | p, x, h, hx => by
    have hs := h.inSeries (kinds_of_isSeries hx).1
    rcases series_cases (nonceFrom g p) with hp | hp | ⟨hle, hgt⟩
    · rw [hs.starts hp, beforeSeries_of_starts hp]
      exact ⟨Nat.le_add_left 1 p.length, rfl⟩
    · have hlow := (isSeries_iff.mp hx).1
      rw [hs.rotates hp] at hlow
      change -20 < -((rot p : Int) + 1 + 20) at hlow
      omega
    cases p with
    | nil => exact absurd hg (Int32.not_lt.mpr hle)
    | cons y q =>
      -- the series went on from its parent, one further down
      obtain ⟨heq, hlow, hneg⟩ := toInt_sub_one_of_goesOn hle hgt
      change (y.nonce - 1).toInt = y.nonce.toInt - 1 at heq
      change -20 < y.nonce.toInt - 1 at hlow
      have hy : y.isSeries = true := isSeries_iff.mpr
        ⟨by omega, by rw [le_iff_toInt_le] at hle; exact hle⟩
      have hyneg := h.tail.toInt_nonce_neg (kinds_of_isSeries hy).1
      have habs : x.nonce.toInt.natAbs = y.nonce.toInt.natAbs + 1 := by
        rw [hs.goesOn hle hgt]
        show (y.nonce - 1).toInt.natAbs = _
        omega
      obtain ⟨hlen, hdrop⟩ := h.tail.drop_series hg hy
      rw [habs, drop_succ_cons, beforeSeries, if_pos hy]
      exact ⟨Nat.succ_le_succ hlen, hdrop⟩

end Zent
