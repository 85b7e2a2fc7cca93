import Zent.Minerchain.WaitingList

/-!
# The computations of the rotation

The rotation at a block is kept in the best state while the block is the tip, and computed again
from the nonces in four other places: `Rotation`, the fork walk of `checkProofOfWork`, and the two
walks of the miner chain for its waiting list.

* `rotationOf` models `Rotation`; `rotationOf_eq` says that it is exact.
* `rotations_agree_iff`: they agree at a block exactly if there is a rotation block at or below it
  and no POW block since. The walk of `calcNextRequiredDifficulty` takes off what the POW blocks
  add, and the walk of `factorPOW` counts genesis as a POW block.
-/

namespace Zent

open Go Option Int32 Branch Nat

variable {S : Type}

/-! ## `Rotation` -/

/-- The walk of `Rotation` down to a node; below genesis it has missed it. -/
def rotationWalk (target : Node) (rotate : Int32) : Node → Int32
  | [] => if target = [] then rotate else -1
  | x :: p =>
    if x :: p = target then rotate
    else if x.nonce > 0 then rotationWalk target (rotate - 2) p
    else if x.nonce ≤ -MINER_RORATE_FREQ then
      rotationWalk target (-(x.nonce + MINER_RORATE_FREQ) - 1) p
    else rotationWalk target rotate p

/-- `Rotation`: the rotation at a node, from that of the best state. -/
def rotationOf (st : ChainState S) (target : Node) : Int32 :=
  rotationWalk target st.snapshot.lastRotation.toInt32 st.snapshot.node

theorem rotationWalk_eq {g : Int32} {target : Node} : ∀ {n : Node}, AcceptedChain g n →
    target <:+ n → rotationWalk target (ofInt (rot n)) n = ofInt (rot target)
  | [], _, hs => by
    rw [List.suffix_nil.mp hs]
    rfl
  | x :: p, h, hs => by
    rw [rotationWalk]
    split
    case isTrue heq => rw [heq]
    rename_i hne
    have hp : target <:+ p := (List.suffix_cons_iff.mp hs).resolve_left fun he => hne he.symm
    have ih := rotationWalk_eq h.tail hp
    have hone : (1 : Int32) = ofInt 1 := rfl
    have htwo : (2 : Int32) = ofInt 2 := rfl
    rcases kind_cases x with hx | hx | hx
    · rw [if_pos (of_decide_eq_true hx), h.rot_pow hx, htwo, ← ofInt_sub, cast_add,
        cast_ofNat, add_sub_cancel_right, ih]
    · rw [if_neg (of_decide_eq_false (isPow_of_isRotation hx)), if_pos (of_decide_eq_true hx),
        h.neg_nonce hx, h.rot_rotation hx, hone, ← Int32.ofInt_sub, cast_add, cast_one,
        add_sub_cancel_right, ih]
    · obtain ⟨hnp, hnr⟩ := kinds_of_isSeries hx
      rw [if_neg (of_decide_eq_false hnp), if_neg (of_decide_eq_false hnr), h.rot_series hx, ih]

variable {st : ChainState S}

/-- `Rotation` is exact for every block of the best chain. -/
theorem rotationOf_eq {g : Int32} {target : Node} (hw : WellRotated st)
    (hacc : AcceptedChain g st.tip) (ht : target <:+ st.tip) :
    rotationOf st target = (rotation target).toInt32 := by
  rw [rotationOf, hw.last, hw.node, toInt32_eq_ofInt, toInt32_eq_ofInt]
  exact rotationWalk_eq hacc ht

/-- The fork walk is exact for every block it is made for. -/
theorem parentRotation_ok {pow : PowEnv S} {target : Node} (hw : WellRotated st) (hash : Hash)
    (ht : target = st.tip ∨ pow.cutoff < height target) :
    parentRotation pow st hash (some target) = .ok (rotation target) := by
  rw [parentRotation, hw.node, hw.last]
  split
  case isTrue heq => rw [heq]
  rename_i hne
  have hcut : ¬height target ≤ pow.cutoff := not_le.mpr (ht.resolve_left hne)
  rw [orphanIf, failIf, if_neg hcut, rotateTo_findFork]
  rfl

/-! ## The agreement -/

/-- A state from which others are reached by disconnecting blocks. -/
inductive Disconnects : ChainState S → ChainState S → Prop where
  | done (st : ChainState S) : Disconnects st st
  | block {st st' st'' : ChainState S} {env : ChainEnv S} {views : S} : st.tip ≠ [] →
    disconnectBlock env st st.tip views = .ok st' → Disconnects st' st'' → Disconnects st st''

theorem Reached.disconnects {st' : ChainState S} (h : Reached st) (hd : Disconnects st st') :
    Reached st' := by
  induction hd with
  | done _ => exact h
  | block hne hstep _ ih => exact ih (h.disconnect hne hstep)

/-- All computations of the rotation at a block of the best chain give the same number. -/
structure SameRotation (g : Int32) (pow : PowEnv S) (st : ChainState S) (target : Node)
    (r : UInt32) : Prop where
  /-- the best state, when the block is the tip -/
  tip : ∀ before : ChainState S, Reached before → before.tip = target →
    before.snapshot.lastRotation = r
  /-- `Rotation`, from the tip of this state -/
  later : rotationOf st target = r.toInt32
  /-- the fork walk, for a child of the block -/
  child : ∀ hash, target = st.tip ∨ pow.cutoff < height target →
    parentRotation pow st hash (some target) = .ok r
  /-- the height of `factorPOW` -/
  factor : factorHeight g 0 target = r.toInt32
  /-- the height of `calcNextRequiredDifficulty` -/
  waiting : waitingHeight g st.tip (height target + 2) 0 (some target) = some r.toInt32
  /-- the best state, after the blocks above have been disconnected -/
  back : ∀ after, Disconnects st after → after.tip = target → after.snapshot.lastRotation = r

/-- Two numbers with one `int32` differ by a multiple of its range. -/
theorem emod_sub_of_ofInt_eq {a b : Int} (h : ofInt a = ofInt b) : (a - b) % 2 ^ 32 = 0 := by
  have ht := congrArg toInt h
  have hsize : Int32.size = 2 ^ 32 := rfl
  rw [toInt_ofInt, toInt_ofInt, hsize, Int.bmod_eq_bmod_iff_bmod_sub_eq_zero] at ht
  exact Int.emod_eq_zero_of_dvd (Int.dvd_of_bmod_eq_zero ht)

section

variable {g : Int32} {n : Node}

/-- The walk of `factorPOW` ends with the rotation if it ends at a rotation block. -/
theorem factorHeight_eq_iff (hg : 0 < g) (h : AcceptedChain g n) :
    factorHeight g 0 n = Int32.ofInt (rot n) ↔ (lastRotationBlock n).isSome = true := by
  rw [factorHeight_eq hg 0 h, Int32.add_zero, factorValue, h.rot_eq, baseRotation]
  cases lastRotationBlock n with
  | some q => simp
  | none =>
    refine ⟨fun heq => ?_, fun hsome => absurd hsome Bool.false_ne_true⟩
    have hmod := emod_sub_of_ofInt_eq heq
    simp only [map_none, getD_none] at hmod
    omega

/-- The walk of `calcNextRequiredDifficulty` ends with the rotation if it ends at a rotation block
and has passed no POW block. -/
theorem waitingHeight_eq_iff {tip : Node} (hg : 0 < g) (h : AcceptedChain g n) (htip : n <:+ tip) :
    waitingHeight g tip (height n + 2) 0 (some n) = some (ofInt (rot n)) ↔
      (lastRotationBlock n).isSome = true ∧ powsSince n = 0 := by
  have hrot := h.rot_lt
  rw [waitingHeight_eq hg 0 h htip (le_refl _), Int32.add_zero, some_inj, waitingValue]
  rw [h.rot_eq, baseRotation] at hrot ⊢
  cases lastRotationBlock n with
  | some q =>
    simp only [map_some, getD_some, isSome_some, true_and] at hrot ⊢
    refine ⟨fun heq => ?_, fun hpows => by simp [hpows]⟩
    have hmod := emod_sub_of_ofInt_eq heq
    omega
  | none =>
    simp only [map_none, getD_none, isSome_none] at hrot ⊢
    refine ⟨fun heq => ?_, fun hsome => absurd hsome.1 Bool.false_ne_true⟩
    have hmod := emod_sub_of_ofInt_eq heq
    omega

end

/-- **The computations of the rotation agree at a block** exactly if there is a rotation block at or
below it and no POW block since, in every state of the chain that can be reached. -/
theorem rotations_agree_iff {g : Int32} (pow : PowEnv S) {st : ChainState S} {target : Node}
    (hg : 0 < g) (hst : Reached st) (hacc : AcceptedChain g st.tip) (ht : target <:+ st.tip) :
    (∃ r, SameRotation g pow st target r) ↔
      (lastRotationBlock target).isSome = true ∧ powsSince target = 0 := by
  have hw := hst.wellRotated
  have htarget := hacc.suffix ht
  have hrot : (rotation target).toInt32 = ofInt (rot target) := toInt32_eq_ofInt _
  constructor
  · rintro ⟨r, hr⟩
    have hwait := hr.waiting
    rw [← hr.later, rotationOf_eq hw hacc ht, hrot] at hwait
    exact (waitingHeight_eq_iff hg htarget ht).mp hwait
  · intro hcond
    exact ⟨rotation target, {
      tip := fun before hb heq => heq ▸ hb.wellRotated.last
      later := rotationOf_eq hw hacc ht
      child := fun hash hcut => parentRotation_ok hw hash hcut
      factor := hrot ▸ (factorHeight_eq_iff hg htarget).mpr hcond.1
      waiting := hrot ▸ (waitingHeight_eq_iff hg htarget ht).mpr hcond
      back := fun after hd heq => heq ▸ (hst.disconnects hd).wellRotated.last }⟩

/-! ## One POW block -/

theorem accepted_powState : AcceptedChain 1 powState.tip :=
  .block .genesis (.inl (by decide)) (by decide)

/-- After a first POW block the rotation is 2; the miner chain computes 4 and -5 for it. -/
theorem rotations_of_powState :
    Reached powState ∧ powState.snapshot.lastRotation = 2 ∧ rotationOf powState powState.tip = 2 ∧
      factorHeight 1 0 powState.tip = 4 ∧
      waitingHeight 1 powState.tip 3 0 (some powState.tip) = some (-5) :=
  ⟨reached_powState, rfl, by decide, by decide, by decide⟩

theorem not_agree_powState : ¬∃ r, SameRotation 1 .toy powState powState.tip r := by
  rw [rotations_agree_iff .toy (by decide) reached_powState accepted_powState (List.suffix_refl _)]
  decide

end Zent
