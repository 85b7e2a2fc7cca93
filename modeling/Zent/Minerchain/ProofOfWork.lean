import Mathlib.Data.List.Sort
import Zent.Blockchain.CheckCollateral

/-!
# The proof of work of a miner block

`checkProofOfWork` of `omega/minerchain/accept.go`. The target of a miner block is scaled up with
its collateral and with the transactions per hour that other miners have reported of its miner, and
the hash or the target with the length of the waiting list.
-/

namespace Zent.Minerchain

open Go

/-- The fields of a `wire.MingingRightBlock` that its proof of work rests on. -/
structure PowHeader extends MingingRightBlock where
  prevBlock : Hash
  bestBlock : Hash
  bits : UInt32
  meanTPH : UInt32
  tphReports : List UInt32
  deriving DecidableEq

/-- `blockchain.TPSrv` -/
structure TPSrv where
  height : UInt32
  reporter : Address
  val : UInt32
  deriving DecidableEq

/-- The bucket `tphreports`: who reported what, by the miner reported of and the height of the
reporting block. -/
abbrev Reports : Type := Map (Address × UInt32) (Address × UInt32)

/-- A record about a miner from a height up to `h`. -/
def readReport (miner : Address) (h : UInt32) (e : (_ : Address × UInt32) × (Address × UInt32)) :
    Option TPSrv :=
  if e.1.1 = miner ∧ e.1.2 ≤ h then some ⟨e.1.2, e.2.1, e.2.2⟩ else none

/-- The records about a miner from heights up to `h`, the most recent first. -/
def reportsUpTo (db : Reports) (miner : Address) (h : UInt32) : List TPSrv :=
  (db.entries.filterMap (readReport miner h)).insertionSort fun a b => b.height ≤ a.height

/-- `TPSreportFromDB`: a hundred reports; those beyond a thousand are deleted. -/
def tpsReportFromDB (db : Reports) (miner : Address) (h : UInt32) : List TPSrv × Reports :=
  let values := reportsUpTo db miner h
  (values.take 100, (values.drop 1000).foldl (fun db r => db.erase (miner, r.height)) db)

/-- An eighth of the mean, at least one. -/
def minScore (meanTPH : UInt32) : UInt32 := if meanTPH >>> 3 = 0 then 1 else meanTPH >>> 3

/-- The factor `h2`: the reports are filled up to a hundred, and the middle half counts. -/
def tphFactor (minscore : UInt32) (r : List TPSrv) : Int64 :=
  let vals := (r.map TPSrv.val ++ List.replicate (100 - r.length) minscore).insertionSort (· ≤ ·)
  let sum := ((vals.drop 25).take 50).foldl (· + ·) 0 / 50
  if sum ≤ minscore then 1 else (sum / minscore).toUInt64.toInt64

/-- The factor `h1`: the coins pledged, in units of a collateral. -/
def collateralFactor (v collateral : UInt32) : Int64 :=
  let c := if collateral = 0 then 1 else collateral
  let h1 := (v / c).toUInt64.toInt64
  if h1 < 1 then 1 else h1

/-- What two nodes share that hold the same miner blocks and the same transaction chain. -/
structure PowChain where
  /-- `index.LookupNode`: a miner block with its ancestors -/
  lookupNode : Hash → Option (PowHeader × List PowHeader)
  /-- `NodeByHash` of the transaction chain -/
  nodeByHash : Hash → Option Node
  genesisNonce : Int32
  txHash : MsgTx → Hash
  chain : BestChain txHash
  powLimit : Int
  powLimit_nonneg : 0 ≤ powLimit
  powLimit_lt : powLimit < 2 ^ 256

def BFWatingFactor : BehaviorFlags := 0x80

section

variable (env : PowChain)

/-- The factor of the waiting list. -/
def waitingFactor (prev header : PowHeader) (flags : BehaviorFlags) : Int64 :=
  if flags &&& BFWatingFactor = BFWatingFactor then
    factorPOW env.genesisNonce prev.height.toUInt32 (env.nodeByHash header.bestBlock)
  else 1

/-- The last part of the check: the hash and the target are scaled and compared. -/
def checkHash (hash : Hash) (target : Int) (factor h : Int64) : Result Unit :=
  let (hashNum, target) :=
    if factor > 0 then (hashToBig hash * factor.toInt, target * h.toInt)
    else (hashToBig hash, target * ((-factor).toInt * h.toInt))
  let target := if target > env.powLimit then env.powLimit else target
  ruleIf (hashNum > target) .errHighHash
    "block hash of %064x is higher than expected max of %064x" [.int hashNum, .int target]

/-- `checkProofOfWork`, over the reports that the node has recorded. -/
def checkProofOfWork (db : Reports) (header : PowHeader) (flags : BehaviorFlags) :
    Result Unit := do
  let target := compactToBig header.bits
  ruleIf (target ≤ 0) .errUnexpectedDifficulty
    "MinerChain.checkProofOfWork: block target difficulty of %064x is too low" [.int target]
  ruleIf (target > env.powLimit ∧ flags &&& BFEasyBlocks = 0) .errUnexpectedDifficulty
    "MinerChain.checkProofOfWork: block target difficulty of %064x is higher than max of %064x"
    [.int target, .int env.powLimit]
  if flags &&& BFNoPoWCheck = BFNoPoWCheck then .ok ()
  else
    match env.lookupNode header.prevBlock with
    | none => crash
    | some (prev, _) => do
      let v ← checkCollateral env.chain (some prev.toMingingRightBlock)
        header.toMingingRightBlock (some header.bestBlock)
      let h1 := collateralFactor v header.collateral
      let r := (tpsReportFromDB db header.miner prev.height.toUInt32).1
      let h2 := tphFactor (minScore prev.meanTPH) r
      checkHash env header.hash target (waitingFactor env prev header flags) (h1 + h2)

end

/-! ## The hashes that pass -/

variable {env : PowChain} {db : Reports} {header prev : PowHeader} {flags : BehaviorFlags}

/-- The largest hash that meets a target under a factor of the waiting list and one of the miner. -/
def hashLimit (powLimit target : Int) (factor h : Int64) : Int :=
  if factor > 0 then min (target * h.toInt) powLimit / factor.toInt
  else min (target * ((-factor).toInt * h.toInt)) powLimit

theorem clamp_eq_min (a b : Int) : (if a > b then b else a) = min a b := by
  by_cases h : a > b
  · rw [if_pos h, min_eq_right h.le]
  · rw [if_neg h, min_eq_left (not_lt.mp h)]

theorem checkHash_ok_iff {hash : Hash} {target : Int} {factor h : Int64} :
    checkHash env hash target factor h = .ok () ↔
      hashToBig hash ≤ hashLimit env.powLimit target factor h := by
  simp only [checkHash, ruleIf, failIf_eq_ok, hashLimit, clamp_eq_min, gt_iff_lt, not_lt]
  by_cases hpos : 0 < factor
  · have hint : 0 < factor.toInt := Int64.lt_iff_toInt_lt.mp hpos
    simp only [if_pos hpos]
    exact (Int.le_ediv_iff_mul_le hint).symm
  · simp only [if_neg hpos]

/-- The tests before the work pass, and the work is looked at. -/
structure Weighed (env : PowChain) (header : PowHeader) (flags : BehaviorFlags) (prev : PowHeader)
    (v : UInt32) : Prop where
  pos : 0 < compactToBig header.bits
  le : compactToBig header.bits ≤ env.powLimit ∨ flags &&& BFEasyBlocks ≠ 0
  checked : flags &&& BFNoPoWCheck ≠ BFNoPoWCheck
  parent : (env.lookupNode header.prevBlock).map Prod.fst = some prev
  collateral : checkCollateral env.chain (some prev.toMingingRightBlock)
    header.toMingingRightBlock (some header.bestBlock) = .ok v

/-- The limit for a header, by the reports recorded. -/
def headerLimit (env : PowChain) (db : Reports) (header prev : PowHeader) (flags : BehaviorFlags)
    (v : UInt32) : Int :=
  hashLimit env.powLimit (compactToBig header.bits) (waitingFactor env prev header flags)
    (collateralFactor v header.collateral +
      tphFactor (minScore prev.meanTPH)
        (tpsReportFromDB db header.miner prev.height.toUInt32).1)

/-- **Where the work is looked at, the hashes up to a limit pass.** The limit depends on the reports
about the miner, the collateral and the waiting list, but not on the hash. -/
theorem Weighed.ok_iff {v : UInt32} (h : Weighed env header flags prev v) :
    checkProofOfWork env db header flags = .ok () ↔
      hashToBig header.hash ≤ headerLimit env db header prev flags v := by
  obtain ⟨hpos, hle, hchecked, hparent, hcollateral⟩ := h
  obtain ⟨⟨prev', parents⟩, hlookup, rfl⟩ := Option.map_eq_some_iff.mp hparent
  have hlow : ¬ compactToBig header.bits ≤ 0 := not_le.mpr hpos
  have hhigh : ¬ (compactToBig header.bits > env.powLimit ∧ flags &&& BFEasyBlocks = 0) := by
    rintro ⟨hgt, heasy⟩
    exact hle.elim (fun hle => absurd hle (not_le.mpr hgt)) (fun hne => hne heasy)
  rw [headerLimit, ← checkHash_ok_iff]
  simp only [checkProofOfWork, ruleIf, failIf, if_neg hlow, if_neg hhigh, if_neg hchecked, hlookup,
    hcollateral, ok_bind]

/-- Elsewhere the reports are not read. -/
theorem checkProofOfWork_congr {db' : Reports} (h : ∀ prev v, ¬ Weighed env header flags prev v) :
    checkProofOfWork env db header flags = checkProofOfWork env db' header flags := by
  by_cases hlow : compactToBig header.bits ≤ 0
  · simp only [checkProofOfWork, ruleIf, failIf, if_pos hlow, fail, error_bind]
  by_cases hhigh : compactToBig header.bits > env.powLimit ∧ flags &&& BFEasyBlocks = 0
  · simp only [checkProofOfWork, ruleIf, failIf, if_neg hlow, if_pos hhigh, ok_bind, fail,
      error_bind]
  by_cases hchecked : flags &&& BFNoPoWCheck = BFNoPoWCheck
  · simp only [checkProofOfWork, if_pos hchecked]
  cases hlookup : env.lookupNode header.prevBlock with
  | none => simp only [checkProofOfWork, hlookup]
  | some n =>
    obtain ⟨prev, parents⟩ := n
    cases hcollateral : checkCollateral env.chain (some prev.toMingingRightBlock)
        header.toMingingRightBlock (some header.bestBlock) with
    | error e =>
      simp only [checkProofOfWork, hlookup, hcollateral, error_bind]
    | ok v =>
      refine absurd ⟨not_le.mp hlow, ?_, hchecked, by rw [hlookup]; rfl, hcollateral⟩ (h prev v)
      by_cases heasy : flags &&& BFEasyBlocks = 0
      · exact .inl (not_lt.mp fun hgt => hhigh ⟨hgt, heasy⟩)
      · exact .inr heasy

/-- Two limits that no hash tells apart are equal, or negative. -/
theorem limit_eq_of_forall {l l' : Int} (hl : l < 2 ^ 256) (hl' : l' < 2 ^ 256)
    (h : ∀ hash : Hash, hashToBig hash ≤ l ↔ hashToBig hash ≤ l') : max l (-1) = max l' (-1) := by
  have key : ∀ {a b : Int}, a < 2 ^ 256 → (∀ hash : Hash, hashToBig hash ≤ a → hashToBig hash ≤ b) →
      max a (-1) ≤ max b (-1) := by
    intro a b ha hab
    by_cases hneg : a < 0
    · omega
    -- the largest hash that `a` admits
    have hnat : (BitVec.ofNat 256 a.toNat).toNat = a.toNat := by
      rw [BitVec.toNat_ofNat, Nat.mod_eq_of_lt (by omega)]
    have hle := hab (BitVec.ofNat 256 a.toNat)
    rw [hashToBig, hnat] at hle
    omega
  exact le_antisymm (key hl fun hash => (h hash).mp) (key hl' fun hash => (h hash).mpr)

end Zent.Minerchain
