import Zent.Blockchain.RotationWalks
import Zent.Minerchain.ProofOfWork

/-!
# The solver of miner blocks

`generateBlocks` and `solveBlock` of `omega/minerchain/mining.go` scale the target of a new block
themselves. They take the waiting list from `Rotation`, where `checkProofOfWork` walks the nonces,
and compare the collateral with that of the parent, where `checkProofOfWork` takes the block's own.
-/

namespace Zent.Minerchain

open Go BitVec

variable {S : Type}

/-- The factor for a waiting list of length `d`. -/
def waitingScale (d : Int32) : Int64 :=
  if d - DESIRABLE_MINER_CANDIDATES > SCALEFACTORCAP then 1 <<< SCALEFACTORCAP.toInt64
  else if d < DESIRABLE_MINER_CANDIDATES then
    let m := DESIRABLE_MINER_CANDIDATES - d
    (-1) <<< (if m > SCALEFACTORCAP then SCALEFACTORCAP else m).toInt64
  else 1 <<< (d - DESIRABLE_MINER_CANDIDATES).toInt64

/-- `factorPOW` of `CPUMiner`. -/
def minerFactorPOW (st : ChainState S) (prevh : Int32) (best : Option Node) : Int64 :=
  let h := (best.map (rotationOf st)).getD (-1)
  -- the best block is not in the chain
  if h < 0 then 1 <<< SCALEFACTORCAP.toInt64 else waitingScale (prevh - h)

variable (env : PowChain) (st : ChainState S) (db : Reports) (prev header : PowHeader) (h : Int64)

/-- The part of `generateBlocks` on the factors `h1` and `h2`, for a block after `prev`. -/
def solverFactor : Result Int64 := do
  let v ← checkCollateral env.chain (some prev.toMingingRightBlock) header.toMingingRightBlock none
  let h1 := collateralFactor v prev.collateral
  let r := (tpsReportFromDB db header.miner prev.height.toUInt32).1
  .ok (h1 + tphFactor (minScore prev.meanTPH) r)

/-- The test of a hash in `solveBlock`. -/
def solves
    (hash : Hash) : Bool :=
  let factor := minerFactorPOW st prev.height (env.nodeByHash header.bestBlock)
  let target := compactToBig header.bits
  let (target, factor) :=
    if factor < 0 then (target * (-factor).toInt, 1) else (target, factor)
  let target := target * h.toInt
  let target := if target > env.powLimit then env.powLimit else target
  let res := hashToBig hash
  if res ≥ env.powLimit then false else res * factor.toInt ≤ target

/-- The solver and the rule say the same of every hash below the limit of all targets. -/
def SolverAgrees : Prop :=
  ∀ hash, hashToBig hash < env.powLimit → (solves env st prev header h hash = true ↔
    checkProofOfWork env db { header with hash } BFWatingFactor = .ok ())

/-! ## When they agree -/

variable {env st db prev header h} {parents : List PowHeader} {v : UInt32}

/-- An output that is there at the tip is found without the walk back. -/
theorem checkCollateral_latest {txHash : MsgTx → Hash} {chain : BestChain txHash}
    {mb : Option MingingRightBlock} {block : MingingRightBlock} (latest : Option Hash)
    (h : checkCollateral chain mb block none = .ok v) :
    checkCollateral chain mb block latest = .ok v := by
  simp only [checkCollateral] at h ⊢
  cases hutxos : block.utxos with
  | none => simpa only [hutxos] using h
  | some o =>
    cases mb with
    | none =>
      simp only [hutxos] at h
      cases h
    | some mb =>
      cases hentry : chain.utxos.lookupEntry o with
      | none =>
        simp only [hutxos, hentry] at h
        cases h
      | some e => simpa only [hutxos, hentry] using h

/-- The largest hash that the solver looks for, before the limit of all targets. -/
def solverLimit (env : PowChain) (st : ChainState S) (prev header : PowHeader) (h : Int64) : Int :=
  let factor := minerFactorPOW st prev.height (env.nodeByHash header.bestBlock)
  if factor < 0 then min (compactToBig header.bits * (-factor).toInt * h.toInt) env.powLimit
  else min (compactToBig header.bits * h.toInt) env.powLimit / factor.toInt

/-- The count of a shift is taken modulo the width. -/
theorem toNat_smod_lt (s : BitVec 64) : (s.smod 64#64).toNat < 64 := by
  have hmsb : (64#64).msb = false := by decide
  have hlt : ∀ t : BitVec 64, (t.umod 64#64).toNat < 64 := by
    intro t
    exact Nat.mod_lt _ (by decide)
  rw [smod_eq, hmsb]
  cases s.msb with
  | false => exact hlt s
  | true =>
    have hneg := hlt (-s)
    dsimp only
    split
    · exact hneg
    rename_i hne
    have hpos : ((-s).umod 64#64).toNat ≠ 0 := fun h0 => hne (eq_of_toNat_eq h0)
    rw [toNat_sub]
    simp only [toNat_ofNat]
    omega

/-- An odd number shifted to the left keeps a bit. -/
theorem shiftLeft_ne_zero {a : Int64} (ha : a.toBitVec[0] = true) (s : Int64) : a <<< s ≠ 0 := by
  intro h
  have hbit := congrArg (fun x => x.toBitVec.getLsbD (s.toBitVec.smod 64#64).toNat) h
  simp only [Int64.toBitVec_shiftLeft, getLsbD_shiftLeft', toNat_smod_lt] at hbit
  simp [ha] at hbit

theorem waitingScale_ne_zero (d : Int32) : waitingScale d ≠ 0 := by
  simp only [waitingScale]
  split
  · exact shiftLeft_ne_zero (by decide) _
  · split <;> exact shiftLeft_ne_zero (by decide) _

theorem minerFactorPOW_ne_zero (st : ChainState S) (prevh : Int32) (best : Option Node) :
    minerFactorPOW st prevh best ≠ 0 := by
  simp only [minerFactorPOW]
  split
  · decide
  · exact waitingScale_ne_zero _

theorem solves_iff {hash : Hash} (hhash : hashToBig hash < env.powLimit) :
    solves env st prev header h hash = true ↔
      hashToBig hash ≤ solverLimit env st prev header h := by
  have hne := minerFactorPOW_ne_zero st prev.height (env.nodeByHash header.bestBlock)
  simp only [solves, solverLimit, clamp_eq_min, if_neg (not_le.mpr hhash), ge_iff_le,
    decide_eq_true_iff]
  split
  · simp only [Int64.toInt_one, mul_one]
  rename_i hneg
  have hpos : 0 < (minerFactorPOW st prev.height (env.nodeByHash header.bestBlock)).toInt := by
    have hle := Int64.le_iff_toInt_le.mp (Int64.not_lt.mp hneg)
    rw [Int64.toInt_zero] at hle
    have hne' := mt Int64.toInt_inj.mp hne
    rw [Int64.toInt_zero] at hne'
    omega
  exact (Int.le_ediv_iff_mul_le hpos).symm

/-- The largest hash that `checkProofOfWork` accepts; none with a target out of range. -/
def acceptLimit (env : PowChain) (db : Reports) (prev header : PowHeader) (v : UInt32) : Int :=
  if 0 < compactToBig header.bits ∧ compactToBig header.bits ≤ env.powLimit then
    headerLimit env db header prev BFWatingFactor v
  else -1

/-- The part of a limit that the hashes below the limit of all targets see. -/
def clip (powLimit l : Int) : Int := min (max l (-1)) (powLimit - 1)

theorem clip_eq_iff {powLimit l l' : Int} (hlow : 0 ≤ powLimit) (hhigh : powLimit < 2 ^ 256) :
    clip powLimit l = clip powLimit l' ↔
      ∀ hash : Hash, hashToBig hash < powLimit → (hashToBig hash ≤ l ↔ hashToBig hash ≤ l') := by
  simp only [clip]
  constructor
  · intro heq hash hhash
    have hnonneg : 0 ≤ hashToBig hash := Int.natCast_nonneg _
    omega
  · intro h
    have heq : max (min l (powLimit - 1)) (-1) = max (min l' (powLimit - 1)) (-1) := by
      refine limit_eq_of_forall (by omega) (by omega) fun hash => ?_
      have hhash := h hash
      omega
    omega

/-- What `checkProofOfWork` accepts, where the collateral is there at the tip. -/
theorem accepts_iff_acceptLimit {hash : Hash}
    (hprev : env.lookupNode header.prevBlock = some (prev, parents))
    (hv : checkCollateral env.chain (some prev.toMingingRightBlock) header.toMingingRightBlock
      none =
      .ok v) :
    checkProofOfWork env db { header with hash } BFWatingFactor = .ok () ↔
      hashToBig hash ≤ acceptLimit env db prev header v := by
  rw [acceptLimit]
  split
  case isTrue hrange =>
    have hweighed : Weighed env { header with hash } BFWatingFactor prev v :=
      ⟨hrange.1, .inl hrange.2, by decide, by simp only [hprev, Option.map_some],
        checkCollateral_latest _ hv⟩
    exact hweighed.ok_iff
  rename_i hrange
  have hnonneg : 0 ≤ hashToBig hash := Int.natCast_nonneg _
  refine iff_of_false (fun hok => hrange ?_) (by omega)
  obtain ⟨_, hlow, hok⟩ := of_bind hok
  obtain ⟨_, hhigh, -⟩ := of_bind hok
  have heasy : BFWatingFactor &&& BFEasyBlocks = 0 := by decide
  exact ⟨not_le.mp (failIf_eq_ok.mp hlow), not_lt.mp fun hgt => failIf_eq_ok.mp hhigh ⟨hgt, heasy⟩⟩

/-- The factor of the miner, for a collateral of `v` coins. -/
def solverScale (db : Reports) (prev header : PowHeader) (v : UInt32) : Int64 :=
  collateralFactor v prev.collateral +
    tphFactor (minScore prev.meanTPH) (tpsReportFromDB db header.miner prev.height.toUInt32).1

/-- **When the solver and the rule agree** on a template: the largest hashes that they admit are the
same. -/
theorem solver_agrees_iff (env : PowChain) (st : ChainState S) (db : Reports)
    (prev header : PowHeader) (parents : List PowHeader) (v : UInt32)
    (hprev : env.lookupNode header.prevBlock = some (prev, parents))
    (hv : checkCollateral env.chain (some prev.toMingingRightBlock) header.toMingingRightBlock
      none =
      .ok v) :
    solverFactor env db prev header = .ok (solverScale db prev header v) ∧
      (SolverAgrees env st db prev header (solverScale db prev header v) ↔
        clip env.powLimit (solverLimit env st prev header (solverScale db prev header v)) =
          clip env.powLimit (acceptLimit env db prev header v)) := by
  refine ⟨bind_eq_ok.mpr ⟨v, hv, rfl⟩, ?_⟩
  rw [clip_eq_iff env.powLimit_nonneg env.powLimit_lt]
  refine forall_congr' fun hash => forall_congr' fun hhash => ?_
  rw [solves_iff hhash, accepts_iff_acceptLimit hprev hv]

/-- **They agree where the waiting lists and the collaterals do**, and the target is in range. -/
theorem solverLimit_eq (hpos : 0 < compactToBig header.bits)
    (hle : compactToBig header.bits ≤ env.powLimit)
    (hfactor : minerFactorPOW st prev.height (env.nodeByHash header.bestBlock) =
      waitingFactor env prev header BFWatingFactor)
    (hcollateral : collateralFactor v prev.collateral = collateralFactor v header.collateral) :
    solverLimit env st prev header (solverScale db prev header v) =
      acceptLimit env db prev header v := by
  have hne := minerFactorPOW_ne_zero st prev.height (env.nodeByHash header.bestBlock)
  rw [hfactor] at hne
  simp only [acceptLimit, if_pos (And.intro hpos hle), headerLimit, solverLimit, solverScale,
    hashLimit, hfactor, hcollateral]
  by_cases hneg : waitingFactor env prev header BFWatingFactor < 0
  · have hnot : ¬ waitingFactor env prev header BFWatingFactor > 0 :=
      Int64.not_lt.mpr (Int64.le_of_lt hneg)
    simp only [if_pos hneg, if_neg hnot, mul_assoc]
  · have hgt : waitingFactor env prev header BFWatingFactor > 0 :=
      Int64.lt_of_le_of_ne (Int64.not_lt.mp hneg) (Ne.symm hne)
    simp only [if_neg hneg, if_pos hgt]

/-- **A miner finds what the rule accepts**, hash by hash, where the waiting lists and the
collaterals agree: no valid block is missed, and no invalid one is found. -/
theorem solverAgrees_of_same
    (hprev : env.lookupNode header.prevBlock = some (prev, parents))
    (hv : checkCollateral env.chain (some prev.toMingingRightBlock) header.toMingingRightBlock
      none = .ok v)
    (hpos : 0 < compactToBig header.bits) (hle : compactToBig header.bits ≤ env.powLimit)
    (hfactor : minerFactorPOW st prev.height (env.nodeByHash header.bestBlock) =
      waitingFactor env prev header BFWatingFactor)
    (hcollateral : collateralFactor v prev.collateral = collateralFactor v header.collateral) :
    SolverAgrees env st db prev header (solverScale db prev header v) := by
  intro hash hhash
  rw [solves_iff hhash, accepts_iff_acceptLimit hprev hv,
    solverLimit_eq hpos hle hfactor hcollateral]

/-! ## Miner blocks on genesis -/

/-- A miner block at a height, with the mean of genesis. -/
def minerAt (height : Int32) : PowHeader where
  toMingingRightBlock := { MingingRightBlock.zero with hash := 1, height }
  prevBlock := 0
  bestBlock := 0
  bits := 0x09000001
  meanTPH := 1000
  tphReports := []

/-- The transaction chain is at genesis, and one miner block is known. -/
def genesisChain (height : Int32) : PowChain where
  lookupNode hash := if hash = 1 then some (minerAt height, []) else none
  nodeByHash _ := some []
  genesisNonce := 1
  txHash _ := 0
  chain := ⟨[], .nil⟩
  powLimit := 2 ^ 240 - 1
  powLimit_nonneg := by decide
  powLimit_lt := by decide

def genesisState : ChainState Unit := ⟨[], ⟨[], 0, 0, 0⟩, ()⟩

/-- A template after the block. -/
def template (height : Int32) : PowHeader := { minerAt (height + 1) with prevBlock := 1 }

/-- With a long waiting list both factors are at the cap. -/
theorem solver_agrees_long :
    solverFactor (genesisChain 200) ∅ (minerAt 200) (template 200) = .ok 2 ∧
    SolverAgrees (genesisChain 200) genesisState ∅ (minerAt 200) (template 200) 2 := by
  obtain ⟨hfactor, hagrees⟩ := solver_agrees_iff (genesisChain 200) genesisState ∅ (minerAt 200)
    (template 200) [] 0 rfl rfl
  exact ⟨hfactor, hagrees.mpr (by decide +kernel)⟩

theorem solverAgrees_long : SolverAgrees (genesisChain 200) genesisState ∅ (minerAt 200)
    (template 200) (solverScale ∅ (minerAt 200) (template 200) 0) := by
  refine solverAgrees_of_same rfl rfl ?_ ?_ ?_ ?_ <;> decide +kernel

/-- **A block that the solver does not find**: `checkProofOfWork` counts genesis as a POW block, so
it sees a waiting list that is shorter by two. -/
theorem genesis_solver_differs :
    solverFactor (genesisChain 120) ∅ (minerAt 120) (template 120) = .ok 2 ∧
    ¬ SolverAgrees (genesisChain 120) genesisState ∅ (minerAt 120) (template 120) 2 := by
  refine ⟨by rfl, fun h => ?_⟩
  have hmissed : solves (genesisChain 120) genesisState (minerAt 120) (template 120) 2 (1 <<< 30) =
      false := by decide +kernel
  have haccepted : checkProofOfWork (genesisChain 120) ∅ { template 120 with hash := 1 <<< 30 }
      BFWatingFactor = .ok () := by decide +kernel
  rw [← h (1 <<< 30) (by decide +kernel), hmissed] at haccepted
  cases haccepted

end Zent.Minerchain
