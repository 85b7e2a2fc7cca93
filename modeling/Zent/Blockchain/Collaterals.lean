import Zent.Go.Returns
import Zent.Chain.Window
import Zent.Blockchain.Series
import Zent.Wire.MingingRight

/-!
# Locked collaterals

The collaterals of the last `ViolationReportDeadline` miner blocks must not be spent. The chain
keeps their outpoints in a list that slides with `LastRotation`: by one for a rotation block, by two
for a POW block, and back again when such a block is disconnected.

It is right (`Held`) if it is the window of the miner blocks up to `LastRotation`, and the locked
outpoints are those in it.
-/

namespace Zent

open Go Chain List Int32 Except AList Nat

/-- `wire.OutPoint{}` -/
def zeroOutPoint : OutPoint := ⟨zerohash, 0⟩

/-- The miner chain by height; nothing where there is no block. -/
abbrev MinerIndex := Int32 → Option MingingRightBlock

/-- The list of collaterals and the set of those that are locked. -/
structure Collaterals where
  collaterals : List OutPoint
  lockedCollaterals : Map OutPoint Unit

section

variable (miners : MinerIndex) (deadline nonce : Int32) (rot : UInt32) (s : Collaterals)

/-- The collateral of the miner block at a height, if there are both. -/
def collateralAt (height : Int32) : Option OutPoint := (miners height).bind fun mb => mb.utxos

/-- One miner block of `InitCollateral`. -/
def initStep (i : Nat) : Collaterals :=
  match collateralAt miners (rot.toInt32 - ofNat i) with
  | none => { s with collaterals := [zeroOutPoint] ++ s.collaterals }
  | some c => ⟨[c] ++ s.collaterals, s.lockedCollaterals.insert c ()⟩

def initCollateral (locked : Map OutPoint Unit) : Collaterals :=
  (range deadline.toInt.toNat).foldl (initStep miners rot) ⟨[], locked⟩

/-- Locks what is in the list. -/
def lock (collaterals : List OutPoint) : Map OutPoint Unit :=
  putAll ∅ (collaterals.map fun c => (c, ()))

/-- By how much a block moves the list on. -/
def advances : Nat :=
  if nonce > 0 then POWRotate.toNat else if nonce ≤ -MINER_RORATE_FREQ then 1 else 0

/-- One miner block of `connectBlock`. -/
def slideOn (collaterals : List OutPoint) (i : Nat) : Result (List OutPoint) := do
  let collaterals ← if ofNat collaterals.length = deadline
    then slice collaterals 1 collaterals.length else pure collaterals
  return collaterals ++
    [(collateralAt miners (rot.toInt32 + ofNat i + 1)).getD zeroOutPoint]

/-- The part of `connectBlock` on collaterals; `rot` is the rotation before the block. -/
def connectCollaterals : Result Collaterals := do
  let m := advances nonce
  let collaterals ← (range m).foldlM (slideOn miners deadline rot) s.collaterals
  return ⟨collaterals, if m ≠ 0 then lock collaterals else s.lockedCollaterals⟩

/-- By how much a block moves the list back. -/
def retreats : Nat :=
  if nonce ≥ 0 then POWRotate.toNat else if nonce ≤ -MINER_RORATE_FREQ then 1 else 0

/-- The variables of the loop in `disconnectBlock`: the list, a length of its own, and the height of
the miner block that comes back. -/
structure Undo where
  collaterals : List OutPoint
  n : Int32
  bot : Int32

/-- One miner block of `disconnectBlock`. -/
def slideBack (s : Undo) : Result Undo := do
  let (collaterals, n) ← if s.n > 0
    then do pure (← slice s.collaterals 0 (s.n - 1).toInt.toNat, s.n - 1)
    else pure (s.collaterals, s.n)
  return ⟨[(collateralAt miners s.bot).getD zeroOutPoint] ++ collaterals, n, s.bot - 1⟩

/-- The part of `disconnectBlock` on collaterals; `rot` is the rotation before the step. -/
def disconnectCollaterals :
    Result Collaterals := do
  let m := retreats nonce
  let u ← (range m).foldlM (fun u _ => slideBack miners u)
    ⟨s.collaterals, ofNat s.collaterals.length, rot.toInt32 - deadline⟩
  return ⟨u.collaterals, if m > 0 then lock u.collaterals else s.lockedCollaterals⟩

end

/-! ## The window -/

/-- The outpoint of the miner block at a height, zero if there is none. -/
def outPointAt (miners : MinerIndex) (height : Int) : OutPoint :=
  (collateralAt miners (ofInt height)).getD zeroOutPoint

/-- The outpoints that are locked are those in the list. -/
def Covers (s : Collaterals) : Prop :=
  ∀ c, c ≠ zeroOutPoint → (c ∈ s.lockedCollaterals ↔ c ∈ s.collaterals)

/-- The list is the window of the miner blocks up to the rotation. -/
structure Held (miners : MinerIndex) (deadline : Int32) (rot : Int) (s : Collaterals) : Prop where
  window : s.collaterals = window (outPointAt miners) deadline.toInt.toNat rot
  covers : Covers s

section

variable {miners : MinerIndex} {deadline : Int32} {rot : UInt32} {s : Collaterals}

theorem mem_lock {collaterals : List OutPoint} {c : OutPoint} :
    c ∈ lock collaterals ↔ c ∈ collaterals := by
  rw [lock, mem_putAll, map_map]
  simp [Function.comp_def, notMem_empty]

theorem covers_lock (collaterals : List OutPoint) : Covers ⟨collaterals, lock collaterals⟩ :=
  fun _ _ => mem_lock

theorem toInt32_sub (rot : UInt32) (i : Nat) : rot.toInt32 - ofNat i = ofInt (rot.toNat - i) := by
  rw [toInt32_eq_ofInt, ← ofInt_eq_ofNat, ← ofInt_sub]

theorem initStep_window {k : Nat} (hs : s.collaterals = window (outPointAt miners) k rot.toNat)
    (hc : Covers s) :
    (initStep miners rot s k).collaterals = window (outPointAt miners) (k + 1) rot.toNat ∧
      Covers (initStep miners rot s k) := by
  rw [window_eq_cons, outPointAt, ← toInt32_sub, ← hs, initStep]
  cases collateralAt miners (rot.toInt32 - ofNat k) with
  | none =>
    refine ⟨rfl, fun c hzero => (hc c hzero).trans ?_⟩
    exact ⟨fun h => mem_cons_of_mem _ h, fun h => (mem_cons.mp h).resolve_left hzero⟩
  | some c =>
    refine ⟨rfl, fun c' hzero => ?_⟩
    show c' ∈ s.lockedCollaterals.insert c () ↔ c' ∈ c :: s.collaterals
    rw [mem_insert, mem_cons, hc c' hzero]

/-- **The start**: `InitCollateral` fills the window. -/
theorem held_initCollateral :
    Held miners deadline rot.toNat (initCollateral miners deadline rot ∅) := by
  have hfill : ∀ k, ((range k).foldl (initStep miners rot) ⟨[], ∅⟩).collaterals =
      window (outPointAt miners) k rot.toNat ∧
      Covers ((range k).foldl (initStep miners rot) ⟨[], ∅⟩) := by
    intro k
    induction k with
    | zero =>
      exact ⟨rfl, fun c _ => ⟨fun h => absurd h (notMem_empty c), fun h => by cases h⟩⟩
    | succ k ih =>
      rw [range_succ, foldl_append]
      exact initStep_window ih.1 ih.2
  exact ⟨(hfill _).1, (hfill _).2⟩

theorem toInt32_add (rot : UInt32) (i : Nat) :
    rot.toInt32 + ofNat i + 1 = ofInt (rot.toNat + i + 1) := by
  rw [toInt32_eq_ofInt, ← ofInt_eq_ofNat, show (1 : Int32) = ofInt 1 from rfl,
    ← ofInt_add, ← ofInt_add]

theorem retreats_eq {nonce : Int32} (h : nonce ≠ 0) : retreats nonce = advances nonce := by
  rw [retreats, advances]
  by_cases hpos : nonce > 0
  · rw [if_pos hpos, if_pos (Int32.le_of_lt hpos)]
  · have hneg : ¬nonce ≥ 0 := fun hge => h (Int32.le_antisymm (Int32.not_lt.mp hpos) hge)
    rw [if_neg hpos, if_neg hneg]

section

variable (hdeadline : 0 < deadline) {cs : List OutPoint}

include hdeadline

theorem exists_width : ∃ d, deadline.toInt.toNat = d + 1 ∧ ofNat (d + 1) = deadline := by
  have hpos := lt_iff_toInt_lt.mp hdeadline
  rw [toInt_zero] at hpos
  refine ⟨deadline.toInt.toNat - 1, by omega, ?_⟩
  rw [show deadline.toInt.toNat - 1 + 1 = deadline.toInt.toNat by omega, ← ofInt_eq_ofNat,
    Int.toNat_of_nonneg hpos.le, ofInt_toInt]

theorem slideOn_window {i : Nat}
    (h : cs = window (outPointAt miners) deadline.toInt.toNat (rot.toNat + i)) :
    slideOn miners deadline rot cs i =
      .ok (window (outPointAt miners) deadline.toInt.toNat (rot.toNat + (i + 1 : Nat))) := by
  obtain ⟨d, hwidth, hd⟩ := exists_width hdeadline
  rw [hwidth] at h ⊢
  obtain rfl := h
  have hlen :
      ofNat (window (outPointAt miners) (d + 1) (rot.toNat + i)).length = deadline := by
    rw [length_window, hd]
  rw [slideOn, if_pos hlen, slice_one (by rw [length_window]; exact succ_pos d), cast_succ,
    ← add_assoc, window_succ, outPointAt, ← toInt32_add]
  rfl

/-- The loop of `connectBlock` moves the window on. -/
theorem foldlM_slideOn (h : cs = window (outPointAt miners) deadline.toInt.toNat rot.toNat)
    (m : Nat) :
    (range m).foldlM (slideOn miners deadline rot) cs =
      .ok (window (outPointAt miners) deadline.toInt.toNat (rot.toNat + m)) := by
  induction m with
  | zero =>
    rw [h, cast_zero, add_zero]
    rfl
  | succ m ih =>
    rw [range_succ, foldlM_append_eq_ok]
    refine ⟨_, ih, ?_⟩
    rw [foldlM_cons, slideOn_window hdeadline rfl]
    rfl

theorem toInt_pred : (deadline - 1).toInt = deadline.toInt - 1 := by
  have hpos := lt_iff_toInt_lt.mp hdeadline
  have hlt := deadline.toInt_lt
  rw [toInt_zero] at hpos
  rw [show deadline - 1 = ofInt (deadline.toInt - 1) by
    rw [ofInt_sub, ofInt_toInt]; rfl]
  exact toInt_ofInt_of_le (by omega) (by omega)

/-- One miner block back, while the length is that of the list. -/
theorem slideBack_window {r : Int} {u : Undo}
    (hcs : u.collaterals = window (outPointAt miners) deadline.toInt.toNat r) (hn : u.n = deadline)
    (hbot : u.bot = ofInt r - deadline) :
    slideBack miners u = .ok ⟨window (outPointAt miners) deadline.toInt.toNat (r - 1), deadline - 1,
      u.bot - 1⟩ := by
  obtain ⟨d, hwidth, hd⟩ := exists_width hdeadline
  have hpred : (u.n - 1).toInt.toNat = d := by
    rw [hn, toInt_pred hdeadline]
    omega
  have hlen : u.collaterals.length = d + 1 := by rw [hcs, length_window, hwidth]
  have hold : (collateralAt miners u.bot).getD zeroOutPoint = outPointAt miners (r - 1 - d) := by
    rw [outPointAt, hbot, ← hd, ← ofInt_eq_ofNat, ← ofInt_sub]
    exact congrArg (fun h => (collateralAt miners (ofInt h)).getD zeroOutPoint) (by push_cast; ring)
  have hdrop : u.collaterals.take d = u.collaterals.dropLast := by
    rw [dropLast_eq_take, hlen, Nat.add_sub_cancel]
  rw [slideBack, if_pos (hn ▸ hdeadline), hpred, slice_zero (by omega), hold, hwidth, window_pred,
    hdrop, hcs, hwidth, hn]
  rfl

/-- One miner block back, after the length has fallen behind: the list has a wrong length. -/
theorem slideBack_short {u : Undo} (hlen : u.collaterals.length = deadline.toInt.toNat)
    (hn : u.n = deadline - 1) :
    ∃ u', slideBack miners u = .ok u' ∧ u'.collaterals.length ≠ deadline.toInt.toNat := by
  obtain ⟨d, hwidth, -⟩ := exists_width hdeadline
  by_cases hpos : u.n > 0
  · have hpred : (u.n - 1).toInt.toNat < d := by
      have hu := lt_iff_toInt_lt.mp hpos
      rw [toInt_pred hpos, hn, toInt_pred hdeadline]
      rw [hn, toInt_pred hdeadline, toInt_zero] at hu
      omega
    rw [slideBack, if_pos hpos, slice_zero (by omega)]
    refine ⟨_, rfl, ?_⟩
    rw [length_append, length_take, length_singleton]
    omega
  · rw [slideBack, if_neg hpos]
    refine ⟨_, rfl, ?_⟩
    dsimp only
    rw [length_append, length_singleton, hlen]
    omega

variable (h : Held miners deadline rot.toNat s)

include h

/-- **One block connected.** The list slides by as many places as the block moves the rotation on,
and is again the window up to it. -/
theorem held_connect (nonce : Int32) :
    ∃ s', connectCollaterals miners deadline nonce rot s = .ok s' ∧
      Held miners deadline (rot.toNat + advances nonce) s' := by
  refine ⟨_, bind_eq_ok.mpr ⟨_, foldlM_slideOn hdeadline h.window (advances nonce), rfl⟩, rfl, ?_⟩
  by_cases hm : advances nonce = 0
  · rw [if_neg (not_not.mpr hm), hm, cast_zero, add_zero, ← h.window]
    exact h.covers
  · rw [if_pos hm]
    exact covers_lock _

/-- The first miner block back, from the window at the tip. -/
theorem slideBack_held :
    slideBack miners ⟨s.collaterals, ofNat s.collaterals.length,
        ofInt rot.toNat - deadline⟩ =
      .ok ⟨window (outPointAt miners) deadline.toInt.toNat (rot.toNat - 1), deadline - 1,
        ofInt rot.toNat - deadline - 1⟩ := by
  have hlen : ofNat s.collaterals.length = deadline := by
    obtain ⟨d, hwidth, hd⟩ := exists_width hdeadline
    rw [h.window, length_window, hwidth, hd]
  exact slideBack_window hdeadline h.window hlen rfl

/-- **One block disconnected**, if it is not a POW block. -/
theorem held_disconnect {nonce : Int32} (hle : retreats nonce ≤ 1) :
    ∃ s', disconnectCollaterals miners deadline nonce rot s = .ok s' ∧
      Held miners deadline (rot.toNat - retreats nonce) s' := by
  rw [disconnectCollaterals, toInt32_eq_ofInt]
  rcases le_one_iff_eq_zero_or_eq_one.mp hle with hm | hm
  · rw [hm]
    refine ⟨s, rfl, ?_⟩
    exact h
  rw [hm]
  refine ⟨_, bind_eq_ok.mpr ⟨_, bind_eq_ok.mpr ⟨_, slideBack_held hdeadline h, rfl⟩, rfl⟩, ?_,
    covers_lock _⟩
  rw [cast_one]

/-- **A POW block disconnected**: the list has a wrong length. -/
theorem not_held_disconnect {nonce : Int32} (htwo : retreats nonce = 2) :
    ∃ s', disconnectCollaterals miners deadline nonce rot s = .ok s' ∧
      ∀ r, ¬Held miners deadline r s' := by
  obtain ⟨u, hu, hshort⟩ := slideBack_short hdeadline
    (u := ⟨window (outPointAt miners) deadline.toInt.toNat (rot.toNat - 1), deadline - 1,
      ofInt rot.toNat - deadline - 1⟩) (length_window _ _ _) rfl
  rw [disconnectCollaterals, toInt32_eq_ofInt, htwo]
  refine ⟨_, bind_eq_ok.mpr ⟨u, bind_eq_ok.mpr ⟨_, slideBack_held hdeadline h,
    bind_eq_ok.mpr ⟨u, hu, rfl⟩⟩, rfl⟩, ?_⟩
  intro r hheld
  have hwindow : u.collaterals = _ := hheld.window
  rw [hwindow, length_window] at hshort
  exact hshort rfl

end

/-- The window reads the miner chain up to the rotation only. -/
theorem Held.congr {miners' : MinerIndex} {r : Nat} (hr : r < 2 ^ 31)
    (h : Held miners deadline r s) (hsame : ∀ height, height ≤ ofInt r →
      miners' height = miners height) : Held miners' deadline r s := by
  refine ⟨h.window.trans (window_congr _ _ fun i hlow hhigh => ?_), h.covers⟩
  have hmax := deadline.toInt_lt
  have hle : ofInt i ≤ ofInt r := by
    rw [le_iff_toInt_le, toInt_ofInt_of_le (by omega) (by omega),
      toInt_ofInt_of_le (by omega) (by omega)]
    exact hhigh
  rw [outPointAt, outPointAt, collateralAt, collateralAt, hsame _ hle]

end

/-! ## Runs -/

/-- The best chain with its collaterals, beside the miner chain. -/
structure LockState where
  node : Node
  miners : MinerIndex
  lastRotation : UInt32
  held : Collaterals

/-- What can happen: a block is connected or disconnected, or the miner chain changes. -/
inductive Change where
  | connect (x : NodeData)
  | disconnect
  | mine (miners : MinerIndex)

def LockState.apply (deadline : Int32) (st : LockState) : Change → Result LockState
  | .connect x => do
    let held ← connectCollaterals st.miners deadline x.nonce st.lastRotation st.held
    return ⟨x :: st.node, st.miners, rotationAfter (x :: st.node) st.lastRotation, held⟩
  | .disconnect =>
    match st.node with
    | [] => fail (assertText "Genesis can not be disconnected")
    | x :: p => do
      let held ← disconnectCollaterals st.miners deadline x.nonce st.lastRotation st.held
      return ⟨p, st.miners, rotationBefore (x :: p) st.lastRotation, held⟩
  | .mine miners => .ok { st with miners }

/-- A block that is connected follows the rules, and the miner chain keeps the blocks up to the
rotation. -/
def Change.Valid (g : Int32) (st : LockState) : Change → Prop
  | .connect x => AcceptedChain g (x :: st.node)
  | .disconnect => True
  | .mine miners => ∀ height, height ≤ st.lastRotation.toInt32 → miners height = st.miners height

/-- The state after `InitCollateral`. -/
def LockState.init (deadline : Int32) (node : Node) (miners : MinerIndex) : LockState :=
  ⟨node, miners, rotation node, initCollateral miners deadline (rotation node) ∅⟩

/-- The states that are reached by valid changes. -/
inductive LockRun (g deadline : Int32) (s₀ : LockState) : List Change → LockState → Prop where
  | start : LockRun g deadline s₀ [] s₀
  | change {done : List Change} {st st' : LockState} {e : Change} : LockRun g deadline s₀ done st →
    e.Valid g st → st.apply deadline e = .ok st' → LockRun g deadline s₀ (done ++ [e]) st'

/-- The list is the window up to `LastRotation`. -/
def LockState.Held (deadline : Int32) (st : LockState) : Prop :=
  Zent.Held st.miners deadline st.lastRotation.toNat st.held

/-- The chain is an accepted one and the rotation is that of its tip. -/
structure LockState.Sound (g : Int32) (st : LockState) : Prop where
  accepted : AcceptedChain g st.node
  last : st.lastRotation = rotation st.node

section

variable {g deadline : Int32} {st st' : LockState} {x : NodeData} {p : Node} {e : Change}

theorem rotationAfter_accepted (h : AcceptedChain g (x :: p)) :
    rotationAfter (x :: p) (rotation p) = rotation (x :: p) := by
  refine rotationAfter_cons fun hrot => ?_
  have hx : x.isRotation = true := decide_eq_true hrot
  have hnonce := h.toInt_nonce hx
  have hlt := h.tail.rot_lt
  have hnat : (rotation p + 1 + MINER_RORATE_FREQ.toUInt32).toNat = rot p + 1 + 20 := by
    show ((rot p + 1) % 2 ^ 32 + 20) % 2 ^ 32 = _
    omega
  rw [toInt32_eq_ofInt, hnat, ← ofInt_neg, ← ofInt_toInt x.nonce, hnonce, h.rot_rotation hx]
  rfl

theorem nonce_ne_zero (h : AcceptedChain g (x :: p)) : x.nonce ≠ 0 := by
  intro hzero
  by_cases hx : x.isPow = true
  · have hpos := isPow_iff.mp hx
    rw [hzero] at hpos
    exact absurd hpos (by decide)
  · have hneg := h.toInt_nonce_neg (Bool.not_eq_true _ ▸ hx)
    rw [hzero] at hneg
    exact absurd hneg (by decide)

/-- A block that is not a POW block moves the rotation by one at most. -/
theorem retreats_le_one (h : AcceptedChain g (x :: p)) (hx : x.isPow = false) :
    retreats x.nonce ≤ 1 := by
  have hback : retreats x.nonce = Node.advance (x :: p) := retreats_eq (nonce_ne_zero h)
  rw [hback]
  rcases kind_cases x with hpow | hrotation | hseries
  · rw [hx] at hpow
    cases hpow
  · rw [advance_rotation p hrotation]
  · rw [advance_series p hseries]
    decide

theorem LockState.apply_cases (h : st.apply deadline e = .ok st') :
    (∃ x held, e = .connect x ∧
      connectCollaterals st.miners deadline x.nonce st.lastRotation st.held = .ok held ∧
      st' = ⟨x :: st.node, st.miners, rotationAfter (x :: st.node) st.lastRotation, held⟩) ∨
    (∃ x p held, e = .disconnect ∧ st.node = x :: p ∧
      disconnectCollaterals st.miners deadline x.nonce st.lastRotation st.held = .ok held ∧
      st' = ⟨p, st.miners, rotationBefore (x :: p) st.lastRotation, held⟩) ∨
    ∃ miners, e = .mine miners ∧ st' = { st with miners } := by
  cases e with
  | connect x =>
    obtain ⟨held, hheld, h⟩ := of_bind h
    exact .inl ⟨x, held, rfl, hheld, (ok.inj h).symm⟩
  | disconnect =>
    rw [LockState.apply] at h
    split at h
    · cases h
    case h_2 x p hnode =>
      obtain ⟨held, hheld, h⟩ := of_bind h
      exact .inr (.inl ⟨x, p, held, rfl, hnode, hheld, (ok.inj h).symm⟩)
  | mine miners => exact .inr (.inr ⟨miners, rfl, (ok.inj h).symm⟩)

/-- Every change keeps the rotation. -/
theorem LockState.Sound.apply (h : st.Sound g) (hvalid : e.Valid g st)
    (happly : st.apply deadline e = .ok st') : st'.Sound g := by
  obtain ⟨haccepted, hlast⟩ := h
  rcases st.apply_cases happly with ⟨x, held, rfl, -, rfl⟩ | ⟨x, p, held, rfl, hnode, -, rfl⟩ |
    ⟨miners, rfl, rfl⟩
  · rw [hlast]
    exact ⟨hvalid, rotationAfter_accepted hvalid⟩
  · rw [hnode] at haccepted hlast
    rw [hlast]
    exact ⟨haccepted.tail, rotationBefore_cons (nonce_ne_zero haccepted)⟩
  · exact ⟨haccepted, hlast⟩

theorem LockState.init_sound {node : Node} (h : AcceptedChain g node) (miners : MinerIndex) :
    (LockState.init deadline node miners).Sound g := ⟨h, rfl⟩

theorem LockRun.sound {s₀ : LockState} {done : List Change} (hrun : LockRun g deadline s₀ done st)
    (h : s₀.Sound g) : st.Sound g := by
  induction hrun with
  | start => exact h
  | change _ hvalid happly ih => exact ih.apply hvalid happly

variable (hdeadline : 0 < deadline)

include hdeadline

/-- A change that disconnects no POW block keeps the window. -/
theorem LockState.Held.apply (h : st.Held deadline) (hs : st.Sound g) (hvalid : e.Valid g st)
    (hkeep : e = .disconnect → ∀ x p, st.node = x :: p → x.isPow = false)
    (happly : st.apply deadline e = .ok st') : st'.Held deadline := by
  obtain ⟨haccepted, hlast⟩ := hs
  rw [LockState.Held] at h ⊢
  rcases st.apply_cases happly with ⟨x, held, rfl, hconnect, rfl⟩ |
    ⟨x, p, held, rfl, hnode, hundo, rfl⟩ | ⟨miners, rfl, rfl⟩
  · obtain ⟨held', hconnect', hheld⟩ := held_connect hdeadline h x.nonce
    obtain rfl := ok.inj (hconnect.symm.trans hconnect')
    have hrot := AcceptedChain.rot_cons hvalid
    rw [hlast] at hheld ⊢
    rw [rotationAfter_accepted hvalid, ← rot, hrot]
    exact_mod_cast hheld
  · rw [hnode] at haccepted hlast
    have hle := retreats_le_one haccepted (hkeep rfl x p hnode)
    obtain ⟨held', hundo', hheld⟩ := held_disconnect hdeadline h hle
    obtain rfl := ok.inj (hundo.symm.trans hundo')
    have hback : retreats x.nonce = Node.advance (x :: p) := retreats_eq (nonce_ne_zero haccepted)
    have hrot := haccepted.rot_cons
    rw [hlast] at hheld ⊢
    dsimp only
    rw [rotationBefore_cons (nonce_ne_zero haccepted), ← rot]
    convert hheld using 1
    show (rot p : Int) = (rot (x :: p) : Int) - _
    omega
  · rw [hlast] at h ⊢
    refine Zent.Held.congr haccepted.rot_lt h fun height hle => hvalid height ?_
    rw [hlast, toInt32_eq_ofInt]
    exact hle

/-- Disconnecting a POW block loses the window. -/
theorem LockState.Held.undo_pow (h : st.Held deadline) (hs : st.Sound g) (hnode : st.node = x :: p)
    (hx : x.isPow = true) :
    ∃ st', st.apply deadline .disconnect = .ok st' ∧ ¬st'.Held deadline := by
  obtain ⟨node, miners, lastRotation, held⟩ := st
  obtain rfl := hnode
  obtain ⟨haccepted, hlast⟩ := hs
  dsimp only at haccepted hlast
  have htwo : retreats x.nonce = 2 :=
    (retreats_eq (nonce_ne_zero haccepted)).trans (advance_pow p hx)
  obtain ⟨held', hundo, hnot⟩ := not_held_disconnect hdeadline h htwo
  exact ⟨_, bind_eq_ok.mpr ⟨held', hundo, rfl⟩, hnot _⟩

/-- **The locked collaterals.** From `InitCollateral` on, the window is right in every state of a
run exactly if no POW block is disconnected in it. -/
theorem held_iff {node : Node} (hnode : AcceptedChain g node) (miners : MinerIndex)
    (changes : List Change) :
    (∀ done st, done <+: changes → LockRun g deadline (.init deadline node miners) done st →
      st.Held deadline) ↔
    ∀ done st x p, done ++ [.disconnect] <+: changes →
      LockRun g deadline (.init deadline node miners) done st → st.node = x :: p →
      x.isPow = false := by
  have hsound : (LockState.init deadline node miners).Sound g := LockState.init_sound hnode miners
  constructor
  · intro hheld done st x p hprefix hrun htip
    by_contra hx
    have hdone := hheld done st ((prefix_append _ _).trans hprefix) hrun
    obtain ⟨st', happly, hnot⟩ :=
      hdone.undo_pow hdeadline (hrun.sound hsound) htip (Bool.not_eq_false _ ▸ hx)
    exact hnot (hheld _ st' hprefix (.change hrun trivial happly))
  · intro hkeep done st hprefix hrun
    induction hrun with
    | start => exact held_initCollateral
    | @change done st st' e hrun hvalid happly ih =>
      have hdone := ih ((prefix_append _ _).trans hprefix)
      refine hdone.apply hdeadline (hrun.sound hsound) hvalid (fun he x p htip => ?_) happly
      subst he
      exact hkeep done st x p hprefix hrun htip

end

/-! ## A POW block is disconnected -/

/-- Two POW blocks over genesis. -/
def twoPows : Node := [powBlock 1, powBlock 1]

theorem accepted_twoPows : AcceptedChain 1 twoPows :=
  .block (.block .genesis (.inl (by decide)) (by decide)) (.inl (by decide)) (by decide)

/-- Every miner block has a collateral of its own. -/
def signers : MinerIndex := fun h =>
  if 0 < h then some { MingingRightBlock.zero with
    height := h, utxos := some ⟨BitVec.ofInt 256 h.toInt, 0⟩ } else none

/-- Back at rotation 2 the collateral of the miner block at height 2 is not locked any more. -/
theorem twoPows_unlocked : ∃ st, LockRun 1 10 (.init 10 twoPows signers) [.disconnect] st ∧
    st.lastRotation = 2 ∧ collateralAt signers 2 = some ⟨2, 0⟩ ∧
    (⟨2, 0⟩ : OutPoint) ∉ st.held.lockedCollaterals ∧ st.held.collaterals.length = 9 := by
  obtain ⟨st, happly, hrot, hlocked, hlen⟩ :
      Ends ((LockState.init 10 twoPows signers).apply 10 .disconnect) fun st =>
        st.lastRotation = 2 ∧ (⟨2, 0⟩ : OutPoint) ∉ st.held.lockedCollaterals ∧
        st.held.collaterals.length = 9 := by
    decide +kernel
  exact ⟨st, .change .start trivial happly, hrot, by decide +kernel, hlocked, hlen⟩

/-- Another POW block on top of them keeps the window. -/
theorem twoPows_held : AcceptedChain 1 twoPows ∧ ∀ done st, done <+: [.connect (powBlock 1)] →
    LockRun 1 10 (.init 10 twoPows signers) done st → st.Held 10 := by
  refine ⟨accepted_twoPows, (held_iff (by decide) accepted_twoPows signers _).mpr ?_⟩
  intro done st x p hprefix
  -- the only change connects a block
  have hmem : Change.disconnect ∈ [Change.connect (powBlock 1)] :=
    hprefix.subset (mem_append_right done (mem_singleton_self _))
  cases mem_singleton.mp hmem

end Zent
