import Zent.Minerchain.Retarget
import Zent.Minerchain.Solver
import Zent.Minerchain.ViolationReports

/-!
# The context of a miner block

`checkBlockContext` and `ValidateOps` of `omega/minerchain/accept.go`, the second round of checks of
a miner block: the gap between blocks of a miner, the difficulty, the work, the reports once more,
the version and the instructions. The version of the next block (`NextBlockVersion`) and the reading
of JSON are parameters.
-/

namespace Zent.Minerchain

open Go List

def BFFastAdd : BehaviorFlags := 0x1

def MinerGap : Nat := 3

def MedianTimeBlocks : Nat := 11

/-- What a node knows when it checks the context of a miner block. -/
structure ContextEnv extends CheckEnv where
  /-- the test, simulation or regression network -/
  easyNet : Bool
  blockHeightByHash : Hash → Except ChainError Int32
  codeVersion : UInt32
  nextBlockVersion : IndexNode → Except ChainError UInt32
  /-- `json.Unmarshal` into a new descriptor: what it holds then, and the error -/
  unmarshal : Bytes → ChainDescriptor × Option ChainError
  /-- `AllChains[b.chainParams.ChainID]` -/
  chains : Option FOCMap
  /-- nodes of the index have been accepted -/
  line : ∀ {h n}, lookupNode h = some n → ∃ line : MinerLine retarget,
    line.nodes = (n.1 :: n.2).map MinerMsg.toTimed

section

variable (env : ContextEnv) (cache : Cache) (db : Reports) (block : MinerMsg) (prev : IndexNode)
  (flags : BehaviorFlags)

/-! ## Up to the work -/

def checkGap : Result Unit :=
  ((prev.1 :: prev.2).take MinerGap).forM fun h => do
    ruleIf (0 < block.connection.length ∧ 0 < h.connection.length ∧
        h.connection = block.connection) .errRotationViolation
      "Miner's IP/port has appeared in the past %d blocks" [.int MinerGap]
    ruleIf (h.miner = block.miner) .errRotationViolation
      "Miner has appeared in the past %d blocks" [.int MinerGap]

def calcPastMedianTime (n : IndexNode) : Result UInt32 :=
  let timestamps :=
    (((n.1 :: n.2).take MedianTimeBlocks).map MinerMsg.timestamp).insertionSort (· ≤ ·)
  index timestamps (timestamps.length / 2)

def checkDifficulty : Result Unit := do
  -- the error is ignored
  let (r, _) ← calcNextRequiredDifficulty env.retarget cache
    ((prev.1 :: prev.2).map MinerMsg.toTimed)
  ruleIf (block.bits ≠ r.bits) .errUnexpectedDifficulty
    "block difficulty of %d is not the expected value of %d"
    [.int block.bits.toNat, .int r.bits.toNat]
  ruleIf (block.collateral ≠ r.coll) .errUnexpectedDifficulty
    "block collateral of %d is not the expected value of %d"
    [.int block.collateral.toNat, .int r.coll.toNat]
  let medianTime ← calcPastMedianTime prev
  ruleIf (¬ block.timestamp > medianTime) .errTimeTooOld
    "block timestamp of %v is not after expected %v"
    [.int block.timestamp.toNat, .int medianTime.toNat]

/-- The flags of the check of the work. -/
def ContextEnv.powFlags : BehaviorFlags :=
  flags ||| if env.easyNet then BFWatingFactor ||| BFEasyBlocks else BFWatingFactor

/-- The checks up to that of the work. -/
def provesWork : Result Unit := do
  checkGap block prev
  if env.isSVP then .ok ()
  else do
    checkDifficulty env cache block prev
    checkProofOfWork env.pow db block.toTimed.toPowHeader (env.powFlags flags)

/-! ## The reports -/

/-- The blocks that an earlier miner block has reported of the same miner block, off the main
chain. -/
def noteReports (mrBlock : Hash) (uniq : Map (Hash × Hash) Unit) (q : MinerMsg) :
    Map (Hash × Hash) Unit :=
  ((q.violationReport.filter fun s => s.mrBlock = mrBlock).flatMap fun s => s.blocks).foldl
    (fun uniq tx =>
      match env.blockHeightByHash tx with
      | .error _ => uniq.insert (mrBlock, tx) ()
      | .ok _ => uniq) uniq

/-- From the parent down to the height of the violator's block; `BlockByHash` of the `PrevBlock`
is the next block of the best chain. -/
def earlierReports (mrBlock : Hash) (height : Int32) :
    Map (Hash × Hash) Unit → List MinerMsg → Result (Map (Hash × Hash) Unit)
  -- the height of a block that is not there is read
  | _, [] => crash
  | uniq, q :: rest =>
    if q.height > height then earlierReports mrBlock height (noteReports env mrBlock uniq q) rest
    else .ok uniq

def blackListIf (c : Prop) [Decidable c] (format : String) (args : List Arg) : Result Unit :=
  ruleIf c .errBlackList format args

/-- A block of a report must be new, or the only one on the main chain. -/
def noteListed (p : Report) (s : Map (Hash × Hash) Unit × Bool) (tx : Hash) :
    Result (Map (Hash × Hash) Unit × Bool) :=
  match env.blockHeightByHash tx with
  | .error _ => do
    blackListIf ((p.mrBlock, tx) ∈ s.1) "Violating block already reported before: %s" [.hash tx]
    return (s.1.insert (p.mrBlock, tx) (), s.2)
  | .ok _ => do
    blackListIf (s.2 = true) "Duplicated block in blacklist: %s" [.hash tx]
    return (s.1, true)

def checkListed (p : Report) (miner : Address) (s : Map (Hash × Hash) Unit × Bool) (tx : Hash) :
    Result (Map (Hash × Hash) Unit × Bool) := do
  let s ← noteListed env p s tx
  match env.hashToBlock tx with
  | .error _ => ruleError .errBlackList "Invalid height of violating block: %s" [.hash tx]
  | .ok tb => do
    blackListIf (tb.height ≠ p.height) "Invalid height of violating block: %s" [.hash tx]
    let found ← findSigner env.toCheckEnv tb miner
    blackListIf (found = none) "Invalid report: %s" [.hash tx]
    return s

def checkListing (uniq : Map (Hash × Hash) Unit) (p : Report) :
    Result (Map (Hash × Hash) Unit) := do
  let mh := ((env.blockHeightByHash block.bestBlock).toOption).getD 0
  blackListIf (p.height ≤ 0) "Invalid height: %d" [.int p.height.toInt]
  blackListIf (p.height > mh) "Invalid height: %d" [.int p.height.toInt]
  blackListIf (p.blocks.length < 2) "Invalid evidence: %d blocks" [.int p.blocks.length]
  match env.nodeByHash p.mrBlock with
  | none => ruleError .errBlackList "Invalid evidence: block %s not in MR chain" [.hash p.mrBlock]
  | some (mb, _) => do
    blackListIf (mb.height < block.height - 99)
      "Report of violation more than 99 blocks older not allowed. %d" [.int mb.height.toInt]
    let uniq ← earlierReports env p.mrBlock mb.height uniq (env.mynode block).tail
    let (uniq, _) ← p.blocks.foldlM (checkListed env p mb.miner) (uniq, false)
    return uniq

def checkBlackList : Result Unit := do
  let _ ← block.violationReport.foldlM (checkListing env block) ∅

/-! ## The version and the instructions -/

def checkVersion : Result Unit :=
  let bad : Result Unit := fail (errText "Incorrect block version")
  match env.nextBlockVersion prev with
  | .error _ => bad
  | .ok next =>
    if block.version &&& 0xFFFF0000 < next &&& 0xFFFF0000 ∨
        (block.version > next ∧ block.version > env.codeVersion) then bad
    else .ok ()

/-- The chain that a seed is added to, before the error of the reading is looked at. -/
def validateDns (ac : ChainDescriptor) : Result Unit :=
  let bad := errText "Incorrect op data"
  match env.chains with
  | none => fail bad
  | some chains =>
    match chains.lookup ac.chainID with
    -- the magic number of a chain that is not there is read
    | none => crash
    | some d => do
      failIf (d.magic ≠ ac.magic) bad
      failIf (ac.dns = "") bad

/-- The error of the reading. -/
def unmarshalled (op : Instruction) : Result Unit :=
  match (env.unmarshal op.instData).2 with
  | some e => fail e
  | none => .ok ()

def validateOp (op : Instruction) : Result Unit :=
  if op.instCode = AddDns then do
    failIf (op.instData = []) (errText "Incorrect op data")
    validateDns env (env.unmarshal op.instData).1
    unmarshalled env op
  else if op.instCode = AddChain then do
    failIf (op.instData = []) (errText "Incorrect op data")
    unmarshalled env op
  else .ok ()

def validateOps : Result Unit := do
  failIf (255 < block.instructions.length) (errText "Too many ops in MR block")
  block.instructions.foldlM (fun _ op => validateOp env op) ()

/-- The checks up to the instructions. -/
def contextHead : Result Unit := do
  provesWork env cache db block prev flags
  if env.isSVP then .ok () else checkBlackList env block
  checkVersion env block prev

def checkBlockContext : Result Unit :=
  if flags &&& BFFastAdd = BFFastAdd then .ok ()
  else do
    contextHead env cache db block prev flags
    validateOps env block

/-! ## When the checks return -/

variable {env cache db block prev flags} {best : TxNode} {h : Hash}

theorem checkGap_returns : Returns (checkGap block prev) :=
  returns_forM fun _ _ => returns_bind.mpr ⟨returns_failIf _ _, fun _ _ => returns_failIf _ _⟩

theorem calcPastMedianTime_returns : Returns (calcPastMedianTime prev) := by
  have hlen : 0 < ((((prev.1 :: prev.2).take MedianTimeBlocks).map MinerMsg.timestamp).insertionSort
      (· ≤ ·)).length := by
    rw [length_insertionSort]
    simp [MedianTimeBlocks]
  exact returns_index.mpr (Nat.div_lt_self hlen (by decide))

/-- The work is checked without a panic once the collateral can be read. -/
theorem checkProofOfWork_returns (hprev : env.lookupNode block.prevBlock = some prev)
    (hcoll : CollateralReadable env.toCheckEnv block) :
    Returns (checkProofOfWork env.pow db block.toTimed.toPowHeader flags) := by
  refine returns_bind.mpr ⟨returns_failIf _ _, fun _ _ => returns_bind.mpr ⟨returns_failIf _ _,
    fun _ _ => returns_ite.mpr ⟨fun _ => returns_ok _, fun _ => ?_⟩⟩⟩
  have hlookup : env.pow.lookupNode block.toTimed.toPowHeader.prevBlock =
      some (prev.1.toTimed.toPowHeader, prev.2.map fun m => m.toTimed.toPowHeader) := by
    rw [env.pow_lookup]
    show (env.lookupNode block.prevBlock).map _ = _
    rw [hprev]
    rfl
  rw [hlookup]
  have hret := CheckEnv.checkCollateral_returns.mpr hcoll
  rw [CheckEnv.checkCollateral, hprev] at hret
  exact returns_bind.mpr ⟨hret, fun _ _ => returns_failIf _ _⟩

section

variable (hrun : CacheRun env.retarget.blocksPerRetarget cache)

include hrun

theorem calc_returns (hprev : env.lookupNode h = some prev) :
    Returns (calcNextRequiredDifficulty env.retarget cache
      ((prev.1 :: prev.2).map MinerMsg.toTimed)) := by
  obtain ⟨line, hline⟩ := env.line hprev
  rw [← hline]
  by_cases hat : line.AtRetarget
  · rw [MinerLine.calc_retarget hat hrun.empty]
    exact returns_ok _
  · obtain ⟨r, cache', hcalc, -⟩ := MinerLine.calc_between hat cache
    rw [hcalc]
    exact returns_ok _

theorem checkDifficulty_returns (hprev : env.lookupNode h = some prev) :
    Returns (checkDifficulty env cache block prev) := by
  refine returns_bind.mpr ⟨calc_returns hrun hprev, fun r _ => returns_bind.mpr ⟨returns_failIf _ _,
    fun _ _ => returns_bind.mpr ⟨returns_failIf _ _, fun _ _ => returns_bind.mpr
      ⟨calcPastMedianTime_returns, fun _ _ => returns_failIf _ _⟩⟩⟩⟩

theorem provesWork_returns (hprev : env.lookupNode block.prevBlock = some prev)
    (hcoll : env.isSVP = false → CollateralReadable env.toCheckEnv block) :
    Returns (provesWork env cache db block prev flags) := by
  refine returns_bind.mpr ⟨checkGap_returns, fun _ _ => returns_ite.mpr ⟨fun _ => returns_ok _,
    fun hsvp => returns_bind.mpr ⟨checkDifficulty_returns hrun hprev, fun _ _ => ?_⟩⟩⟩
  exact checkProofOfWork_returns hprev (hcoll (Bool.eq_false_iff.mpr hsvp))

end

/-! ### The reports -/

theorem earlierReports_returns {mrBlock : Hash} {height : Int32} :
    ∀ {chain : List MinerMsg} {uniq : Map (Hash × Hash) Unit},
      Returns (earlierReports env mrBlock height uniq chain) ↔ ∃ q ∈ chain, ¬ q.height > height
  | [], uniq => by simp [earlierReports]
  | q :: rest, uniq => by
    rw [earlierReports, returns_ite, exists_mem_cons_iff, earlierReports_returns]
    by_cases hq : q.height > height
    · simp [hq]
    · simp [hq]

theorem exists_not_above {h' : Hash} {n : IndexNode} (hprev : env.lookupNode h = some prev)
    (hn : env.lookupNode h' = some n) : ∃ q ∈ prev.1 :: prev.2, ¬ q.height > n.1.height := by
  obtain ⟨line, hline⟩ := env.line hprev
  obtain ⟨line', hline'⟩ := env.line hn
  have hmem : n.1.toTimed ∈ line'.nodes := by
    rw [hline']
    exact mem_cons_self
  have hnonneg : 0 ≤ n.1.height.toInt := line'.height_nonneg hmem
  obtain ⟨g, hg, hzero⟩ := line.climbs.exists_zero
  obtain ⟨x, hx, rfl⟩ := mem_map.mp hg
  have hx : x ∈ line.nodes := hx
  rw [hline] at hx
  obtain ⟨q, hq, rfl⟩ := mem_map.mp hx
  refine ⟨q, hq, fun hgt => ?_⟩
  have hq0 : q.height.toInt = 0 := congrArg Int32.toInt hzero
  have := Int32.lt_iff_toInt_lt.mp hgt
  omega

variable (env) in
/-- A block of a report: its signatures can be read. -/
def ListedReadable (p : Report) (miner : Address) (s : Map (Hash × Hash) Unit × Bool) (tx : Hash) :
    Prop :=
  (∃ s', noteListed env p s tx = .ok s') → ∀ tb, env.hashToBlock tx = .ok tb →
    tb.height = p.height → SignersReadable env.toCheckEnv miner tb

variable {p : Report} {s : Map (Hash × Hash) Unit × Bool}

theorem noteListed_returns {tx : Hash} : Returns (noteListed env p s tx) := by
  rw [noteListed]
  split
  · exact returns_bind.mpr ⟨returns_failIf _ _, fun _ _ => returns_pure _⟩
  · exact returns_bind.mpr ⟨returns_failIf _ _, fun _ _ => returns_pure _⟩

theorem checkListed_returns {miner : Address} {tx : Hash} :
    Returns (checkListed env p miner s tx) ↔ ListedReadable env p miner s tx := by
  rw [checkListed, returns_bind, and_iff_right noteListed_returns, ListedReadable,
    forall_exists_index]
  refine forall₂_congr fun s' _ => ?_
  cases env.hashToBlock tx with
  | error e => simp [ruleError]
  | ok tb =>
    simp only [Except.ok.injEq, forall_eq']
    rw [returns_bind, blackListIf, ruleIf, and_iff_right (returns_failIf _ _)]
    simp only [failIf_eq_ok, not_not, forall_const]
    refine imp_congr_right fun _ => ?_
    rw [returns_bind, findSigner_returns]
    exact and_iff_left fun _ _ => returns_bind.mpr ⟨returns_failIf _ _, fun _ _ => returns_pure _⟩

variable (env block) in
/-- A report that passes the first tests: the parent of the block is on the best chain, and the
signatures can be read. -/
def ListingReadable (uniq : Map (Hash × Hash) Unit) (p : Report) : Prop :=
  0 < p.height → p.height ≤ ((env.blockHeightByHash block.bestBlock).toOption).getD 0 →
    2 ≤ p.blocks.length → ∀ mb rest, env.nodeByHash p.mrBlock = some (mb, rest) →
    ¬ mb.height < block.height - 99 →
      (env.nodeByHash block.prevBlock).isSome ∧
        ∀ uniq', earlierReports env p.mrBlock mb.height uniq (env.mynode block).tail = .ok uniq' →
          ∀ done tx rest s, p.blocks = done ++ tx :: rest →
            done.foldlM (checkListed env p mb.miner) (uniq', false) = .ok s →
            ListedReadable env p mb.miner s tx

variable {uniq : Map (Hash × Hash) Unit}

theorem earlierReports_mynode_returns {mb : MinerMsg} {rest : List MinerMsg}
    (hmb : env.nodeByHash p.mrBlock = some (mb, rest)) :
    Returns (earlierReports env p.mrBlock mb.height uniq (env.mynode block).tail) ↔
      (env.nodeByHash block.prevBlock).isSome := by
  rw [earlierReports_returns, CheckEnv.mynode, tail_cons]
  cases hprev : env.nodeByHash block.prevBlock with
  | none => simp
  | some n =>
    refine iff_of_true ?_ rfl
    obtain ⟨q, hq, hle⟩ := exists_not_above (n := (mb, rest)) (env.lookupNode_of_nodeByHash hprev)
      (env.lookupNode_of_nodeByHash hmb)
    exact ⟨q, hq, hle⟩

theorem checkListing_returns :
    Returns (checkListing env block uniq p) ↔ ListingReadable env block uniq p := by
  rw [checkListing, ListingReadable]
  simp only [returns_bind, blackListIf, ruleIf, returns_failIf, failIf_eq_ok, forall_const,
    true_and,
    gt_iff_lt, not_lt, Int32.not_le, Int32.not_lt]
  refine imp_congr_right fun _ => imp_congr_right fun _ => imp_congr_right fun _ => ?_
  cases hmb : env.nodeByHash p.mrBlock with
  | none => simp [ruleError]
  | some n =>
    obtain ⟨mb, rest⟩ := n
    simp only [returns_bind, returns_failIf, failIf_eq_ok, forall_const, true_and, returns_pure,
      implies_true, and_true, earlierReports_mynode_returns hmb, returns_foldlM,
      checkListed_returns]
    constructor
    · intro hret mb' rest' hmb' hold
      cases hmb'
      exact hret (Int32.not_lt.mpr hold)
    · intro hret hold
      exact hret mb rest rfl (Int32.not_lt.mp hold)

/-! ### The instructions -/

variable (env) in
/-- The chain of an instruction that adds a seed is in the map, whatever could be read of it. -/
def OpReadable (op : Instruction) : Prop :=
  op.instCode = AddDns → op.instData ≠ [] → ∀ chains, env.chains = some chains →
    (chains.lookup (env.unmarshal op.instData).1.chainID).isSome

theorem validateDns_returns {ac : ChainDescriptor} : Returns (validateDns env ac) ↔
    ∀ chains, env.chains = some chains → (chains.lookup ac.chainID).isSome := by
  rw [validateDns]
  cases env.chains with
  | none => simp
  | some chains =>
    simp only [Option.some_inj, forall_eq']
    cases chains.lookup ac.chainID with
    | none => simp
    | some d =>
      refine iff_of_true ?_ rfl
      exact returns_bind.mpr ⟨returns_failIf _ _, fun _ _ => returns_failIf _ _⟩

theorem unmarshalled_returns {op : Instruction} : Returns (unmarshalled env op) := by
  rw [unmarshalled]
  split
  · exact returns_fail _
  · exact returns_ok _

theorem validateOp_returns {op : Instruction} :
    Returns (validateOp env op) ↔ OpReadable env op := by
  rw [validateOp, OpReadable, returns_ite]
  refine (and_iff_left fun _ => ?_).trans (imp_congr_right fun _ => ?_)
  · refine returns_ite.mpr ⟨fun _ => ?_, fun _ => returns_ok _⟩
    exact returns_bind.mpr ⟨returns_failIf _ _, fun _ _ => unmarshalled_returns⟩
  · simp only [returns_bind, returns_failIf, failIf_eq_ok, forall_const, true_and,
      validateDns_returns, unmarshalled_returns, implies_true, and_true, ne_eq]

variable (env block) in
/-- The instructions can be read as far as they are looked at. -/
def OpsReadable : Prop :=
  block.instructions.length ≤ 255 → ∀ done op rest, block.instructions = done ++ op :: rest →
    done.foldlM (fun _ op => validateOp env op) () = .ok () → OpReadable env op

theorem validateOps_returns : Returns (validateOps env block) ↔ OpsReadable env block := by
  rw [validateOps, OpsReadable, returns_bind, and_iff_right (returns_failIf _ _)]
  simp only [failIf_eq_ok, not_lt, forall_const, returns_foldlM, validateOp_returns]
  refine imp_congr_right fun _ => forall₃_congr fun done op rest => ?_
  exact ⟨fun h hsplit hdone => h () hsplit hdone, fun h _ hsplit hdone => h hsplit hdone⟩

/-! ### Both checks -/

variable (env block) in
/-- The reports can be read in the second round. -/
def ListingsReadable : Prop :=
  ∀ done p rest uniq, block.violationReport = done ++ p :: rest →
    done.foldlM (checkListing env block) ∅ = .ok uniq → ListingReadable env block uniq p

theorem checkBlackList_returns :
    Returns (checkBlackList env block) ↔ ListingsReadable env block := by
  rw [checkBlackList, returns_bind, and_iff_left fun _ _ => returns_pure _, returns_foldlM,
    ListingsReadable]
  exact forall₄_congr fun _ _ _ _ => forall₂_congr fun _ _ => checkListing_returns

theorem checkVersion_returns : Returns (checkVersion env block prev) := by
  rw [checkVersion]
  split
  · exact returns_fail _
  · exact returns_ite.mpr ⟨fun _ => returns_fail _, fun _ => returns_ok _⟩

/-- A miner block that no check panics at. -/
structure Harmless (env : ContextEnv) (cache : Cache) (db : Reports) (block : MinerMsg)
    (parent : IndexNode) (best : TxNode) (flags : BehaviorFlags) : Prop where
  collateral : env.isSVP = false → CollateralReadable env.toCheckEnv block
  reports : env.isSVP = false → admitted env.toCheckEnv block parent = .ok () →
    ReportsReadable env.toCheckEnv block best
  listings : flags &&& BFFastAdd ≠ BFFastAdd → env.isSVP = false →
    provesWork env cache db block parent flags = .ok () → ListingsReadable env block
  ops : flags &&& BFFastAdd ≠ BFFastAdd → contextHead env cache db block parent flags = .ok () →
    OpsReadable env block

variable {parent : IndexNode}

theorem harmless_of_nil (hutxos : block.utxos = none) (hreports : block.violationReport = [])
    (hops : block.instructions = []) :
    Harmless env cache db block parent best flags where
  collateral _ o _ _ ho := by
    rw [hutxos] at ho
    cases ho
  reports _ _ done v rest _ hsplit := by simp [hreports] at hsplit
  listings _ _ _ done p rest _ hsplit := by simp [hreports] at hsplit
  ops _ _ _ done op rest hsplit := by simp [hops] at hsplit

theorem contextHead_returns (hwork : Returns (provesWork env cache db block parent flags)) :
    Returns (contextHead env cache db block parent flags) ↔ (env.isSVP = false →
      provesWork env cache db block parent flags = .ok () → ListingsReadable env block) := by
  rw [contextHead, returns_bind, and_iff_right hwork, Unique.forall_iff]
  simp only [returns_bind, checkVersion_returns, implies_true, and_true, returns_ite, returns_ok,
    true_and, Bool.not_eq_true, checkBlackList_returns]
  exact ⟨fun h hsvp hwork => h hwork hsvp, fun h hwork hsvp => h hsvp hwork⟩

/-- **No check panics, just when the block is harmless**: what it names and what is stored can be
read as far as the checks get. -/
theorem checks_return_iff {parent : IndexNode}
    (hparent : env.lookupNode block.prevBlock = some parent)
    (hbest : env.txNode block.bestBlock = some best)
    (hrun : CacheRun env.retarget.blocksPerRetarget cache) :
    Returns (checkV2 env.toCheckEnv block parent) ∧
      Returns (checkBlockContext env cache db block parent flags) ↔
    Harmless env cache db block parent best flags := by
  rw [checkV2_returns hbest, checkBlockContext, returns_ite, and_iff_right fun _ => returns_ok _,
    returns_bind, validateOps_returns]
  constructor
  · rintro ⟨hv2, hcontext⟩
    have hwork : Returns (provesWork env cache db block parent flags) :=
      provesWork_returns hrun hparent fun hsvp => (hv2 hsvp).1
    exact ⟨fun hsvp => (hv2 hsvp).1, fun hsvp => (hv2 hsvp).2,
      fun hfast => (contextHead_returns hwork).mp (hcontext hfast).1,
      fun hfast => (hcontext hfast).2 ()⟩
  · rintro ⟨hcoll, hreports, hlistings, hops⟩
    have hwork : Returns (provesWork env cache db block parent flags) :=
      provesWork_returns hrun hparent hcoll
    exact ⟨fun hsvp => ⟨hcoll hsvp, hreports hsvp⟩,
      fun hfast => ⟨(contextHead_returns hwork).mpr (hlistings hfast), fun _ => hops hfast⟩⟩

end

/-! ## At genesis -/

/-- A block on the genesis block of the miner chain, whose hash is 1. -/
def plainBlock : MinerMsg where
  hash := 2
  height := -1
  version := 0x10000
  prevBlock := 1
  bestBlock := 7
  timestamp := 60
  bits := 0x1e0fffff
  miner := 5
  connection := []
  collateral := 0
  meanTPH := 1
  utxos := none
  violationReport := []
  tphReports := []
  instructions := []

def genesisBlock : MinerMsg :=
  { plainBlock with hash := 1, height := 0, prevBlock := 0, miner := 4 }

def genesisLine : MinerLine testnet where
  last := genesisBlock.toTimed
  below := []
  climbs := .genesis rfl
  child := by decide
  bits_pos := by decide
  known := fun _ _ => ⟨[], rfl⟩
  indexed := fun _ _ _ _ => ⟨_, rfl⟩

/-- A node of the test network that knows both genesis blocks. -/
def freshNode : ContextEnv where
  isSVP := false
  violationReportDeadline := 10
  sigs := ⟨fun _ => none, fun _ => false, fun _ _ _ => false, fun b => b⟩
  hash160 := fun _ => 0
  txNode := fun h => if h = 7 then some (⟨7, 0⟩, []) else none
  txByHeight := fun _ => none
  haveNode := fun h => h = 7
  hashToBlock := fun _ => .error (errText "block is not in the block chain")
  lookupNode := fun h => if h = 1 then some (genesisBlock, []) else none
  bestChain := [genesisBlock]
  retarget := testnet
  pow :=
    { genesisChain 0 with
      lookupNode := fun h =>
        (if h = 1 then some (genesisBlock, ([] : List MinerMsg)) else none).map fun n =>
          (n.1.toTimed.toPowHeader, n.2.map fun m => m.toTimed.toPowHeader)
      nodeByHash := testnet.nodeByHash
      genesisNonce := testnet.genesisNonce
      powLimit := testnet.powLimit
      powLimit_nonneg := by decide
      powLimit_lt := testnet.powLimit_lt }
  pow_lookup := fun _ => rfl
  linked := by
    intro h n hn
    split at hn
    · cases hn
      exact isChain_singleton _
    · cases hn
  below := by
    intro h n k hn hlow hhigh
    split at hn
    · cases hn
      exact absurd hlow (not_le.mpr hhigh)
    · cases hn
  height_nonneg := nofun
  numeric := nofun
  journal_numeric := nofun
  easyNet := true
  blockHeightByHash := fun h => if h = 7 then .ok 0 else .error (errText "not in the main chain")
  codeVersion := 0x10000
  nextBlockVersion := fun _ => .ok 0x10000
  unmarshal := fun _ => (newDescriptor, none)
  chains := none
  line := by
    intro h n hn
    split at hn
    · cases hn
      exact ⟨genesisLine, rfl⟩
    · cases hn

/-- A block without reports and instructions. -/
theorem checks_return_iff_plain :
    Returns (checkV2 freshNode.toCheckEnv plainBlock (genesisBlock, [])) ∧
      Returns (checkBlockContext freshNode ⟨emptyCollaterals, -1⟩ ∅ plainBlock (genesisBlock, [])
        0) := by
  have hiff : _ ↔ Harmless freshNode ⟨emptyCollaterals, -1⟩ ∅ plainBlock (genesisBlock, [])
    (⟨7, 0⟩, []) 0 := checks_return_iff rfl rfl .start
  exact hiff.mpr (harmless_of_nil rfl rfl rfl)

/-- A report about a miner block that is not there, with no other fault needed. -/
def reportBlock : MinerMsg := { plainBlock with violationReport := [⟨⟨99, []⟩, 1⟩] }

/-- The report makes the node panic before it looks at the work. -/
theorem reportBlock_panics :
    (freshNode.lookupNode reportBlock.prevBlock).isSome ∧
      (freshNode.txNode reportBlock.bestBlock).isSome ∧
      ¬ Returns (checkV2 freshNode.toCheckEnv reportBlock (genesisBlock, [])) := by
  decide +kernel

end Zent.Minerchain
