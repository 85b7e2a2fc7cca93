import Zent.Blockchain.Reorg

/-!
# The signers of a side branch

While `doReorganizeChain` walks a side branch it keeps the committee of the next block in a
window of optional members. Each block is first put to the signer test `signedBy`, then to the
other checks, and shifts the window by its `advance`.

`rosterAt` is the committee as it should be, read from the miner chain at the heights up to the
rotation reached; the window holds it along any branch whose POW blocks find two miner blocks, the
first with collateral. The signer test asks that every signer differs from *some* member.
-/

namespace Zent

open Go List

variable {S : Type} {env : ChainEnv S} {st : ChainState S} {detach attach : List Node}
  {s : Scratch S} {n : Node} {w : Window}

/-! ## What the signer test decides -/

/-- **The signer test.** A signer is let through by any member with another address. -/
theorem signedBy_iff {signers : List Address} {miners : List (Option Address)} :
    signedBy signers miners = true ↔
      ∀ a ∈ signers, ∃ m, some m ∈ miners ∧ m ≠ a := by
  unfold signedBy
  rw [all_eq_true]
  refine forall₂_congr fun a _ => ?_
  rw [any_eq_true]
  constructor
  · rintro ⟨sig, hsig, hne⟩
    cases sig with
    | none => cases hne
    | some m => exact ⟨m, hsig, fun h => of_decide_eq_true hne h.symm⟩
  · rintro ⟨m, hm, hne⟩
    exact ⟨some m, hm, decide_eq_true hne.symm⟩

theorem attachStep_eq_ok_iff {s' : Scratch S} :
    attachStep env s n = .ok s' ↔
      env.fetchBlock n = .ok () ∧ signedBy n.signers s.miners = true ∧
        checkAttach env s n = .ok s' := by
  simp only [attachStep, bind_eq_ok, mapError_eq_ok, throwIf_eq_ok]
  constructor
  · rintro ⟨_, hfetch, _, hsigned, hrest⟩
    exact ⟨hfetch, by simpa using hsigned, hrest⟩
  · rintro ⟨hfetch, hsigned, hrest⟩
    exact ⟨(), hfetch, (), by simpa using hsigned, hrest⟩

/-- No later check reports a block as unsigned. -/
theorem checkAttach_ne_unsigned (s : Scratch S) (n : Node) :
    checkAttach env s n ≠ .error .unsigned := by
  simp [checkAttach, bind_eq_error, throwIf_eq_error, mapError_eq_error, pure, Except.pure]

/-- **When a block is skipped.** It could be read, and the signer test fails. -/
theorem attachStep_eq_unsigned_iff :
    attachStep env s n = .error .unsigned ↔
      env.fetchBlock n = .ok () ∧ signedBy n.signers s.miners = false := by
  simp only [attachStep, bind_eq_error, mapError_eq_error, mapError_eq_ok,
    throwIf_eq_error, checkAttach_ne_unsigned, reduceCtorEq, and_false, exists_false, and_true,
    or_false, false_or, Bool.not_eq_eq_eq_not, Bool.not_true]
  exact ⟨fun ⟨_, h⟩ => h, fun h => ⟨(), h⟩⟩

/-! ## The committee of a block -/

/-- The committee of the next block: its members, oldest first, the rotation, and the block the
collateral of newcomers is checked at. -/
structure Roster where
  members : List (Option Address)
  rotate : UInt32
  newBest : Node

/-- By how many places blocks move the committee on. -/
def moved (l : List Node) : UInt32 := l.foldl (fun r n => r + UInt32.ofNat n.advance) 0

/-- Where the collateral of a member was checked that has `age` younger ones: at the block before
the one that brought it in, or at the fork. The latest of the blocks comes first. -/
def admittedAt (fork : Node) : List Node → Nat → Node
  | [], _ => fork
  | n :: before, age =>
    if age < n.advance then before.headD fork else admittedAt fork before (age - n.advance)

/-- The committee after the blocks `done` on a fork with the rotation `r`: the miners of the last
`CommitteeSize` heights of the miner chain up to the rotation reached, where their collateral
passed. -/
def rosterAt (env : ChainEnv S) (fork : Node) (r : UInt32) (done : List Node) : Roster where
  members := (range CommitteeSize).reverse.map fun age =>
    memberAt env (admittedAt fork done.reverse age) (r + moved done - UInt32.ofNat age).toInt32
  rotate := r + moved done
  newBest := done.reverse.headD fork

/-- A block that a run of `doReorganizeChain` comes to in its check phase: the blocks before it
were let through. -/
structure Visit (env : ChainEnv S) (st : ChainState S) (detach attach : List Node) where
  start : Scratch S
  done : List Node
  block : Node
  rest : List Node
  scratch : Scratch S
  lists : checkLists st.tip detach attach = none
  detached : checkDetach env st detach = .ok start
  split : attach = done ++ block :: rest
  run : done.foldlM (attachStep env) start = .ok scratch

/-- A POW block finds both of its miner blocks, and the first one has its collateral. -/
def CleanShift (env : ChainEnv S) (c : Roster) (n : Node) : Prop :=
  n.nonce > 0 → (memberAt env c.newBest (c.rotate + 1).toInt32).isSome ∧
    (env.blockByHeight (c.rotate + 2).toInt32).isSome

namespace Visit

variable (v : Visit env st detach attach)

/-- The committee after some blocks of the branch. The rotation of the fork is that of the tip
without the blocks to detach. -/
def rosterAfter (done : List Node) : Roster :=
  rosterAt env v.start.newBest (st.snapshot.lastRotation - moved detach) done

/-- The committee of the block. -/
def roster : Roster := v.rosterAfter v.done

/-- Every POW block on the way shifts cleanly. -/
def Clean : Prop := ∀ before n after, v.done = before ++ n :: after →
  CleanShift env (v.rosterAfter before) n

/-- A miner of the committee. -/
def Member (a : Address) : Prop := some a ∈ v.roster.members

/-- Every signer is a member whose collateral check passed. -/
def WellSigned : Prop := ∀ a ∈ v.block.signers, v.Member a

instance (a : Address) : Decidable (v.Member a) := inferInstanceAs (Decidable (_ ∈ _))

instance : Decidable v.WellSigned := List.decidableBAll v.Member v.block.signers

/-- The block is let through. -/
def Attached : Prop := ∃ s', attachStep env v.scratch v.block = .ok s'

/-- Each signer differs from some member, which is what the signer test asks for. -/
def Passes : Prop := ∀ a ∈ v.block.signers, ∃ m, v.Member m ∧ m ≠ a

/-- What the signer test is for: a signed block that is let through has only members of its
committee as signers, and a block with only such signers is not skipped. -/
def Signed : Prop :=
  (v.block.nonce < 0 → v.Attached → v.WellSigned) ∧
    (v.WellSigned → attachStep env v.scratch v.block ≠ .error .unsigned)

/-- Nothing else speaks against a signed block: the miner block of a rotation is there, and the
block passes its own checks on the views and on the block before it. -/
def Acceptable : Prop :=
  (v.block.nonce ≤ -MINER_RORATE_FREQ →
      (env.blockByHeight (v.roster.rotate + 1).toInt32).isSome) ∧
    env.checkProofOfWork v.block v.roster.newBest = .ok false ∧
    ∃ views views', env.checkConnectBlock v.scratch.views v.block = .ok views ∧
      env.connectTransactions views v.block = .ok views'

/-- The situations in which the signer test does what it is for: nobody signs, or there is no
member; all the signers are members, and there are two of them at least; or some signer is none,
and the block is not a signed one, is refused for another reason, or has the only member among its
signers. -/
def Judged : Prop :=
  env.fetchBlock v.block = .ok () →
    v.block.signers = [] ∨ (∀ a, ¬v.Member a) ∨
    (v.WellSigned ∧ ∃ a b, v.Member a ∧ v.Member b ∧ a ≠ b) ∨
    ¬v.WellSigned ∧ (0 ≤ v.block.nonce ∨ ¬v.Acceptable ∨
      ∃ a ∈ v.block.signers, v.Member a ∧ ∀ b, v.Member b → b = a)

end Visit

/-! ## The window holds the committee -/

theorem advance_cases (n : Node) :
    (n.nonce > 0 ∧ n.advance = 2) ∨ n.advance = 1 ∨ n.advance = 0 := by
  unfold Node.advance
  split
  case isTrue h => exact .inl ⟨h, rfl⟩
  · split
    · exact .inr (.inl rfl)
    · exact .inr (.inr rfl)

variable {newBest : Node} {h : Int32} {blk : MinerBlock}

theorem exists_of_memberAt (hm : (memberAt env newBest h).isSome) :
    ∃ blk, env.blockByHeight h = some blk ∧ env.checkCollateral blk newBest = true := by
  rw [memberAt] at hm
  cases hblk : env.blockByHeight h with
  | none => simp [hblk] at hm
  | some blk => exact ⟨blk, rfl, by simpa [hblk] using hm⟩

/-- The place is filled with the next member; without a collateral it stays the next to fill. -/
theorem admitMiner_of_block {shift : Nat}
    (hblk : env.blockByHeight (w.rotate + 1).toInt32 = some blk) :
    admitMiner env newBest shift w =
      .ok ⟨w.miners.set w.slot (memberAt env newBest (w.rotate + 1).toInt32),
        if env.checkCollateral blk newBest then w.slot + 1 else w.slot, w.rotate + 1⟩ := by
  simp only [admitMiner, memberAt, hblk]
  split <;> rfl

variable {a b c : Option Address} {rotate : UInt32}

/-- A shift by one place fills the last place with the next member. -/
theorem shiftMiners_one (h : shiftMiners env newBest 1 [a, b, c] rotate = .ok w) :
    w.miners = [b, c, memberAt env newBest (rotate + 1).toInt32] ∧ w.rotate = rotate + 1 := by
  have hone : shiftMiners env newBest 1 [a, b, c] rotate =
      admitMiner env newBest 1 ⟨[b, c, c], 2, rotate⟩ >>= pure := rfl
  obtain ⟨w', h, hw⟩ := of_bind (hone.symm.trans h)
  cases hw
  cases hblk : env.blockByHeight (rotate + 1).toInt32 with
  | none => simp only [admitMiner, hblk, if_true, reduceCtorEq] at h
  | some blk =>
    rw [admitMiner_of_block hblk] at h
    cases h
    exact ⟨rfl, rfl⟩

/-- A shift by two places, when the first newcomer is a member and the second block is there,
fills the last two places. -/
theorem shiftMiners_two (hfirst : (memberAt env newBest (rotate + 1).toInt32).isSome)
    (hsecond : (env.blockByHeight (rotate + 2).toInt32).isSome)
    (h : shiftMiners env newBest 2 [a, b, c] rotate = .ok w) :
    w.miners = [c, memberAt env newBest (rotate + 1).toInt32,
        memberAt env newBest (rotate + 2).toInt32] ∧
      w.rotate = rotate + 2 := by
  obtain ⟨blk, hblk, hcoll⟩ := exists_of_memberAt hfirst
  obtain ⟨blk', hblk'⟩ := Option.isSome_iff_exists.mp hsecond
  have htwo : rotate + 1 + 1 = rotate + 2 := UInt32.add_assoc _ _ _
  have hshift : shiftMiners env newBest 2 [a, b, c] rotate =
      admitMiner env newBest 2 ⟨[c, b, c], 1, rotate⟩ >>= fun w =>
        admitMiner env newBest 2 w >>= pure := rfl
  obtain ⟨w₁, h₁, h⟩ := of_bind (hshift.symm.trans h)
  rw [admitMiner_of_block hblk, if_pos hcoll] at h₁
  cases h₁
  obtain ⟨w₂, h₂, hw⟩ := of_bind h
  cases hw
  rw [admitMiner_of_block (by rw [htwo]; exact hblk')] at h₂
  cases h₂
  rw [← htwo]
  exact ⟨rfl, rfl⟩

/-- The window, the rotation and the best node of the check phase agree with a roster. -/
structure Holds (s : Scratch S) (c : Roster) : Prop where
  miners : s.miners = c.members
  rotate : s.rotate = c.rotate
  newBest : s.newBest = c.newBest

theorem moved_concat (l : List Node) (n : Node) :
    moved (l ++ [n]) = moved l + UInt32.ofNat n.advance := by
  rw [moved, foldl_concat]
  rfl

theorem checkAttach_eq_ok {s' : Scratch S} (h : checkAttach env s n = .ok s') :
    ∃ w, nextWindow env s n = .ok w ∧ s'.miners = w.miners ∧ s'.rotate = w.rotate ∧
      s'.newBest = n := by
  simp only [checkAttach, bind_eq_ok, mapError_eq_ok, throwIf_eq_ok] at h
  obtain ⟨_, -, w, hw, _, -, _, -, _, -, _, -, h⟩ := h
  cases h
  exact ⟨w, hw, rfl, rfl, rfl⟩

/-- **One block** moves the committee on: the older members stay, and the younger ones are those of
the next heights. -/
theorem member_concat (env : ChainEnv S) (fork : Node) (r : UInt32) (done : List Node) (age : Nat) :
    memberAt env (admittedAt fork (done ++ [n]).reverse age)
        (r + moved (done ++ [n]) - UInt32.ofNat age).toInt32 =
      if age < n.advance then
        memberAt env (done.reverse.headD fork)
          (r + moved done + UInt32.ofNat (n.advance - age)).toInt32
      else memberAt env (admittedAt fork done.reverse (age - n.advance))
        (r + moved done - UInt32.ofNat (age - n.advance)).toInt32 := by
  rw [reverse_append, reverse_singleton, singleton_append, admittedAt, moved_concat]
  split
  case isTrue hlt =>
    obtain ⟨k, hk⟩ := Nat.exists_eq_add_of_le hlt.le
    rw [hk, Nat.add_sub_cancel_left, UInt32.ofNat_add]
    congr 2
    grind
  case isFalse hge =>
    obtain ⟨k, rfl⟩ := Nat.exists_eq_add_of_le (Nat.le_of_not_lt hge)
    rw [Nat.add_sub_cancel_left, UInt32.ofNat_add]
    congr 2
    grind

/-- **One shift of the window** is one step of the committee. -/
theorem Holds.next {s' : Scratch S} {fork : Node} {r : UInt32} {done : List Node}
    (hold : Holds s (rosterAt env fork r done))
    (hclean : CleanShift env (rosterAt env fork r done) n) (h : attachStep env s n = .ok s') :
    Holds s' (rosterAt env fork r (done ++ [n])) := by
  obtain ⟨w, hw, hminers, hrotate, hnew⟩ := checkAttach_eq_ok (attachStep_eq_ok_iff.mp h).2.2
  have hmembers : (rosterAt env fork r (done ++ [n])).members =
      (range CommitteeSize).reverse.map fun age =>
        if age < n.advance then
          memberAt env (done.reverse.headD fork)
            (r + moved done + UInt32.ofNat (n.advance - age)).toInt32
        else memberAt env (admittedAt fork done.reverse (age - n.advance))
          (r + moved done - UInt32.ofNat (age - n.advance)).toInt32 :=
    map_congr_left fun age _ => member_concat env fork r done age
  have hturned : (rosterAt env fork r (done ++ [n])).rotate =
      r + moved done + UInt32.ofNat n.advance := by
    rw [rosterAt, moved_concat]
    exact (UInt32.add_assoc _ _ _).symm
  rw [nextWindow, hold.rotate, hold.newBest, hold.miners] at hw
  have hwindow : w.miners = (rosterAt env fork r (done ++ [n])).members ∧
      w.rotate = (rosterAt env fork r (done ++ [n])).rotate := by
    rw [hmembers, hturned]
    rcases advance_cases n with ⟨hpow, hadv⟩ | hadv | hadv <;> rw [hadv] at hw ⊢
    · obtain ⟨hfirst, hsecond⟩ := hclean hpow
      exact shiftMiners_two hfirst hsecond hw
    · exact shiftMiners_one hw
    · cases hw
      exact ⟨rfl, (UInt32.add_zero _).symm⟩
  refine ⟨hminers.trans hwindow.1, hrotate.trans hwindow.2, ?_⟩
  rw [hnew, rosterAt, reverse_append]
  rfl

theorem checkDetach_eq_ok (h : checkDetach env st detach = .ok s) :
    s.miners = initMiners env s.rotate s.newBest ∧
      s.rotate = st.snapshot.lastRotation - moved detach := by
  obtain ⟨t, hrun, h⟩ := of_bind h
  cases h
  refine ⟨rfl, ?_⟩
  refine foldlM_induction (P := fun done t => t.rotate = st.snapshot.lastRotation - moved done)
    (UInt32.sub_zero _).symm (fun done n t t' hold hstep => ?_) hrun
  rw [moved_concat]
  rw [detachStep] at hstep
  split at hstep
  case isTrue hn =>
    cases hstep
    rw [hold, hn]
    exact congrArg _ (UInt32.add_zero _).symm
  · simp only [bind_eq_ok] at hstep
    obtain ⟨_, -, _, -, _, -, _, -, hstep⟩ := hstep
    cases hstep
    show t.rotate - _ = _
    rw [hold]
    grind

/-- The window that the check phase starts with is the committee at the fork. -/
theorem holds_start (h : checkDetach env st detach = .ok s) :
    Holds s (rosterAt env s.newBest (st.snapshot.lastRotation - moved detach) []) := by
  obtain ⟨hminers, hrotate⟩ := checkDetach_eq_ok h
  have hzero : s.rotate + moved [] = s.rotate := UInt32.add_zero _
  have hsize : ∀ i ∈ range CommitteeSize,
      Int32.ofNat CommitteeSize = Int32.ofNat (2 - i) + Int32.ofNat i + 1 := by decide
  rw [← hrotate]
  refine ⟨?_, hzero.symm, rfl⟩
  rw [hminers, rosterAt, hzero]
  refine map_congr_left
    (g := fun i => memberAt env s.newBest (s.rotate.toInt32 - Int32.ofNat (2 - i))) fun i hi => ?_
  rw [hsize i hi]
  congr 1
  grind

/-- **A run of shifts.** From the committee at the fork, clean shifts lead to the committee after
the blocks. -/
theorem Holds.run {start : Scratch S} {fork : Node} {r : UInt32} {done : List Node}
    (hold : Holds start (rosterAt env fork r []))
    (hclean : ∀ before n after, done = before ++ n :: after →
      CleanShift env (rosterAt env fork r before) n)
    (h : done.foldlM (attachStep env) start = .ok s) : Holds s (rosterAt env fork r done) := by
  refine foldlM_induction_run (P := fun done s => Holds s (rosterAt env fork r done)) hold ?_ h
  intro before n after t t' hsplit _ hold hstep
  exact hold.next (hclean before n after hsplit) hstep

/-- **The window holds the committee.** On the way to a block, if every POW block shifts cleanly,
the window has in its places the members of the last `CommitteeSize` heights up to the rotation of
the block before. -/
theorem Visit.miners_eq_committee (v : Visit env st detach attach) (hclean : v.Clean) :
    Holds v.scratch v.roster :=
  (holds_start v.detached).run hclean v.run

/-! ## When the test is right -/

/-- A signed block moves the window on where the miner block of its rotation is there. -/
theorem nextWindow_ok_iff (hneg : n.nonce < 0) : (∃ w, nextWindow env s n = .ok w) ↔
    (n.nonce ≤ -MINER_RORATE_FREQ → (env.blockByHeight (s.rotate + 1).toInt32).isSome) := by
  have hone : shiftMiners env s.newBest 1 s.miners s.rotate = admitMiner env s.newBest 1
      ⟨s.miners.drop 1 ++ s.miners.drop 2, 2, s.rotate⟩ >>= pure := rfl
  rw [nextWindow, Node.advance, if_neg (Int32.lt_asymm hneg)]
  by_cases hrot : n.nonce ≤ -MINER_RORATE_FREQ
  · rw [if_pos hrot, if_pos Nat.one_pos, hone]
    cases hblk : env.blockByHeight (s.rotate + 1).toInt32 with
    | none =>
      refine iff_of_false (fun ⟨_, h⟩ => ?_) fun h => nomatch h hrot
      simp only [admitMiner, hblk, if_true] at h
      cases h
    | some blk => exact iff_of_true ⟨_, by rw [admitMiner_of_block hblk]; rfl⟩ fun _ => rfl
  · rw [if_neg hrot]
    exact iff_of_true ⟨_, rfl⟩ fun h => absurd h hrot

namespace Visit

variable (v : Visit env st detach attach)

variable {v} in
theorem checkAttach_ok_iff (hneg : v.block.nonce < 0) (hold : Holds v.scratch v.roster) :
    (∃ s', checkAttach env v.scratch v.block = .ok s') ↔ v.Acceptable := by
  rw [Acceptable, ← hold.rotate, ← hold.newBest, ← nextWindow_ok_iff hneg]
  simp only [checkAttach, bind_eq_ok, mapError_eq_ok, throwIf_eq_ok]
  constructor
  · rintro ⟨_, _, -, w, hw, views, hviews, mkorphan, hpow, _, horphan, views', hput, -⟩
    rw [Bool.eq_false_iff.mpr horphan] at hpow
    exact ⟨⟨w, hw⟩, hpow, views, views', hviews, hput⟩
  · rintro ⟨⟨w, hw⟩, hpow, views, views', hviews, hput⟩
    exact ⟨_, (), fun h => Int32.lt_asymm hneg h.1, w, hw, views, hviews, false, hpow, (), nofun,
      views', hput, rfl⟩

variable {a m : Address}

theorem passes_iff (hws : v.WellSigned) (ha : a ∈ v.block.signers) :
    v.Passes ↔ ∃ b c, v.Member b ∧ v.Member c ∧ b ≠ c := by
  constructor
  · intro hpass
    obtain ⟨b, hb, hne⟩ := hpass a ha
    exact ⟨b, a, hb, hws a ha, hne⟩
  · rintro ⟨b, c, hb, hc, hne⟩ d -
    by_cases hbd : b = d
    · exact ⟨c, hc, fun hcd => hne (hbd.trans hcd.symm)⟩
    · exact ⟨b, hb, hbd⟩

theorem not_passes_iff (hm : v.Member m) :
    ¬v.Passes ↔ ∃ a ∈ v.block.signers, v.Member a ∧ ∀ b, v.Member b → b = a := by
  simp only [Passes, not_forall, not_exists, not_and, not_not, exists_prop]
  refine exists_congr fun a => and_congr_right fun _ => ⟨fun h => ⟨?_, h⟩, And.right⟩
  exact h m hm ▸ hm

end Visit

/-! ## Two committees -/

/-- The best chain is genesis and one block. -/
def oneBlock : ChainState Unit :=
  let tip : Node := [signedBlock 1 [7, 7]]
  ⟨tip, ⟨tip, 1, 2, 5⟩, ()⟩

/-- The miner block of each height is by another miner. -/
def membersEnv : ChainEnv Unit where
  blockByHeight h := some ⟨BitVec.ofInt 160 h.toInt, 0⟩
  __ := ChainEnv.permissive

/-- A POW block, and a block on it that the miners 6 and 7 have signed. -/
def powThenSigned : List Node :=
  let n : Node := ⟨3, 1, [], 1, 0⟩ :: oneBlock.tip
  [n, signedBlock 4 [6, 7] :: n]

/-- The visit of the second block; the window has moved from the heights 3 to 5 to 5 to 7. -/
def visitSecond : Visit membersEnv oneBlock [] powThenSigned where
  start := ⟨(), 5, oneBlock.tip, [some 3, some 4, some 5]⟩
  done := powThenSigned.take 1
  block := signedBlock 4 [6, 7] :: ⟨3, 1, [], 1, 0⟩ :: oneBlock.tip
  rest := []
  scratch := ⟨(), 7, ⟨3, 1, [], 1, 0⟩ :: oneBlock.tip, [some 5, some 6, some 7]⟩
  lists := rfl
  detached := by rfl
  split := rfl
  run := by rfl

theorem visitSecond_clean : visitSecond.Clean := fun _ _ _ _ _ => ⟨rfl, rfl⟩

/-- Before the second block the window holds the miners 5, 6 and 7. -/
theorem visitSecond_committee : Holds visitSecond.scratch visitSecond.roster :=
  visitSecond.miners_eq_committee visitSecond_clean

/-- A block signed twice by one key. -/
def signedOn (a : Address) : Node := signedBlock 2 [a, a] :: oneBlock.tip

/-- The visit of a block put alone on the best chain. -/
def visitFirst (n : Node) : Visit ChainEnv.permissive oneBlock [] [n] where
  start := ⟨(), 5, oneBlock.tip, [some 7, some 7, some 7]⟩
  done := []
  block := n
  rest := []
  scratch := ⟨(), 5, oneBlock.tip, [some 7, some 7, some 7]⟩
  lists := rfl
  detached := rfl
  split := rfl
  run := rfl

end Zent
