import Zent.Minerchain.Difficulty
import Zent.Blockchain.ExecOps

/-!
# Reports of violations

`checkV2` and `validateVioldationReports` of `omega/minerchain/process.go`, which every miner block
from the network goes through once its parent and its `BestBlock` are known. They follow hashes that
the block names, walk down both chains and read the signatures of stored blocks.
-/

namespace Zent.Minerchain

open Go List Option Except Nat

/-- `wire.Violations`, with the height of the blocks signed. -/
structure Report extends Violations where
  height : Int32
  deriving DecidableEq

/-- A `wire.MinerBlock`, decoded. The height is set when the block is stored. -/
structure MinerMsg where
  hash : Hash
  height : Int32
  version : UInt32
  prevBlock : Hash
  bestBlock : Hash
  timestamp : UInt32
  bits : UInt32
  miner : Address
  connection : Bytes
  collateral : UInt32
  meanTPH : UInt32
  utxos : Option OutPoint
  violationReport : List Report
  tphReports : List UInt32
  instructions : List Instruction
  deriving DecidableEq

/-- What the computation of the difficulty reads. -/
def MinerMsg.toTimed (m : MinerMsg) : TimedHeader :=
  { m with violationReport := m.violationReport.map Report.toViolations }

/-- A node of the miner chain, with its ancestors: all of them are in memory. -/
abbrev IndexNode : Type := MinerMsg × List MinerMsg

/-- A node of the index of the transaction chain. -/
structure TxRef where
  hash : Hash
  height : Int32
  deriving DecidableEq

/-- A node of the index with the ancestors that its pointers lead to. They may end above genesis:
nodes of old blocks are loaded one by one. -/
abbrev TxNode : Type := TxRef × List TxRef

/-- Heights go down by one along the pointers. -/
def Linked (n : TxNode) : Prop :=
  (n.1 :: n.2).IsChain fun a b => a.height.toInt = b.height.toInt + 1

/-- A stored block of the transaction chain. -/
structure TxBlock where
  hash : Hash
  height : Int32
  prevBlock : Hash
  transactions : List MsgTx

/-- What a node knows when it checks a miner block. -/
structure CheckEnv where
  isSVP : Bool
  violationReportDeadline : Int32
  sigs : SigScheme
  hash160 : Bytes → Address
  /-- `NodeByHash` of the transaction chain -/
  txNode : Hash → Option TxNode
  /-- `NodeByHeight` of the transaction chain -/
  txByHeight : Int32 → Option TxNode
  haveNode : Hash → Bool
  hashToBlock : Hash → Except ChainError TxBlock
  /-- `index.LookupNode` of the miner chain -/
  lookupNode : Hash → Option IndexNode
  /-- the best miner chain -/
  bestChain : List MinerMsg
  retarget : RetargetEnv
  pow : PowChain
  pow_lookup : ∀ h, pow.lookupNode h = (lookupNode h).map fun n =>
    (n.1.toTimed.toPowHeader, n.2.map fun m => m.toTimed.toPowHeader)
  linked : ∀ {h n}, txNode h = some n → Linked n
  /-- the best chain goes down to genesis -/
  below : ∀ {h n k}, txNode h = some n → 0 ≤ k.toInt → k.toInt < n.1.height.toInt →
    ∃ m, txByHeight k = some m ∧ m.1.height = k ∧ Linked m
  height_nonneg : ∀ {h b}, haveNode h = true → hashToBlock h = .ok b → 0 ≤ b.height.toInt
  /-- fee coins are numbers -/
  numeric : ∀ {o e}, pow.chain.utxos.lookup o = some e → e.tokenType = FeeCoinTyp →
    ∃ val, e.amount = some (.numToken val)
  journal_numeric : ∀ p ∈ pow.chain.blocks, ∀ s ∈ p.stxos, s.tokenType = 0 →
    ∃ val, s.amount = some (.numToken val)

section

variable (env : CheckEnv) (block : MinerMsg) (parent : IndexNode)

/-- `BestChain.Contains` -/
def CheckEnv.contains (n : IndexNode) : Bool := (n.1 :: n.2).isSuffixOf env.bestChain

/-- `NodeByHash` of the miner chain: of its best chain. -/
def CheckEnv.nodeByHash (h : Hash) : Option IndexNode :=
  (env.lookupNode h).filter env.contains

theorem CheckEnv.lookupNode_of_nodeByHash {h : Hash} {n : IndexNode}
    (hn : env.nodeByHash h = some n) : env.lookupNode h = some n := by
  exact (filter_eq_some_iff.mp hn).1

/-- `MainChainHasBlock` of the miner chain. -/
def CheckEnv.mainChainHasBlock (h : Hash) : Bool := (env.nodeByHash h).isSome

/-- `ParentNode` of the transaction chain. -/
def CheckEnv.parentNode (n : TxNode) : Option TxNode :=
  match n.2 with
  | q :: p => some (q, p)
  | [] => if n.1.height = 0 then none else env.txByHeight (n.1.height - 1)

def CheckEnv.checkCollateral : Result UInt32 :=
  Zent.checkCollateral env.pow.chain
    ((env.lookupNode block.prevBlock).map fun n => n.1.toTimed.toMingingRightBlock)
    block.toTimed.toMingingRightBlock (some block.bestBlock)

/-! ## The signatures of a stored block -/

/-- `Transactions[0].SignatureScripts[1:]` -/
def signatures (txb : TxBlock) : Result (List Bytes) := do
  let tx ← index txb.transactions 0
  slice tx.signatureScripts 1 tx.signatureScripts.length

/-- The first script with the key of a miner. -/
def findSignature (hash160 : Bytes → Address) (miner : Address) :
    List Bytes → Result (Option Bytes)
  | [] => .ok none
  | sig :: rest => do
    let key ← slice sig 0 PubKeyBytesLenCompressed
    if hash160 key = miner then .ok (some sig) else findSignature hash160 miner rest

def findSigner (txb : TxBlock) (miner : Address) : Result (Option Bytes) := do
  findSignature env.hash160 miner (← signatures txb)

def notSigned : ChainError :=
  .errorf ⟨"report violation block is not signed by the reported miner", []⟩

def checkSigner (txb : TxBlock) (miner : Address) : Result Unit := do
  match ← findSigner env txb miner with
  | none => fail notSigned
  | some sig =>
    match verifySigScript env.sigs sig (makeMinerSigHash env.sigs txb.height txb.hash) with
    | .error _ => fail notSigned
    | .ok _ => .ok ()

/-! ## The reports -/

/-- Down from a node to a height; the number of steps is limited by the distance. -/
def descend (height : Int32) : Nat → TxNode → Result TxNode
  | 0, p => .ok p
  | k + 1, p =>
    if p.1.height > height then
      match env.parentNode p with
      | none => crash
      | some q => descend height k q
    else .ok p

/-- A block is among those that a miner block reports. -/
def reports (y : MinerMsg) (h : Hash) : Bool := y.violationReport.any fun v => v.blocks.contains h

/-- The loop `matching`: down the miner chain, the block itself comes first. -/
def matching (h q : Hash) : Nat → (first matched : Bool) → List MinerMsg → Result Bool
  | 0, _, matched, _ => .ok matched
  | _ + 1, _, _, [] => crash
  | k + 1, first, matched, y :: rest =>
    if !first ∧ reports y h then fail (.errorf ⟨"Duplicated report", []⟩)
    else if !matched ∧ reports y q then .ok true
    else matching h q k false matched rest

/-- The reports that have been seen, and the height of the last one. -/
structure Noted where
  vb : Map (Hash × Hash) Unit
  hoder : Int32

/-- The block with its ancestors, if its parent is on the best chain. -/
def CheckEnv.mynode : List MinerMsg :=
  block :: ((env.nodeByHash block.prevBlock).map fun n => n.1 :: n.2).getD []

/-- A block of a report. -/
def checkReported (best : TxNode) (v : Report) (miner : Address)
    (s : Map (Hash × Hash) Unit × Bool) (h : Hash) : Result (Map (Hash × Hash) Unit × Bool) := do
  failIf ((v.mrBlock, h) ∈ s.1) (.errorf ⟨"Duplicated violation report", []⟩)
  let vb := s.1.insert (v.mrBlock, h) ()
  match env.hashToBlock h with
  | .error e => fail e
  | .ok txb => do
    let vb := if env.mainChainHasBlock h then vb.erase (v.mrBlock, h) else vb
    ruleIf (txb.height ≠ v.height) .errViolationReport "Incorrect violation report height" []
    checkSigner env txb miner
    let p ← descend env v.height (best.1.height.toInt - v.height.toInt).toNat best
    if p.1.hash = h then return (vb, true)
    match p.2 with
    -- the parent of the node is read
    | [] => crash
    | q :: _ => do
      let matched ← matching h txb.prevBlock env.violationReportDeadline.toInt.toNat true
        (txb.prevBlock = q.hash) (env.mynode block)
      ruleIf (!matched) .errViolationReport "An orphan violation is reported" []
      ruleIf (!s.2) .errViolationReport "The report does not contain a best chain block" []
      return (vb, s.2)

def checkReport (s : Noted) (v : Report) : Result Noted := do
  failIf (v.height < s.hoder) (.errorf ⟨"reports are not in ascending order", []⟩)
  match env.nodeByHash v.mrBlock with
  -- the height of the miner block is read
  | none => crash
  | some (mb, _) => do
    failIf (block.height - mb.height ≥ env.violationReportDeadline)
      (.errorf ⟨"violation report exceeds time limit", []⟩)
    match env.txNode block.bestBlock with
    | none => crash
    | some best => do
      ruleIf (best.1.height < v.height) .errViolationReport
        "Can not report a violation at hight higher than bestblock" []
      failIf (v.blocks.length < 2) (.errorf ⟨"A incident must include at least two blocks", []⟩)
      let (vb, _) ← v.blocks.foldlM (checkReported env block best v mb.miner) (s.vb, false)
      return ⟨vb, v.height⟩

def validateVioldationReports : Result Unit := do
  let _ ← block.violationReport.foldlM (checkReport env block) ⟨∅, -1⟩

/-! ## The check -/

/-- The first block of the reports that is not there. -/
def CheckEnv.missing : Option Hash :=
  (block.violationReport.flatMap fun v => v.blocks).find? fun h => !env.haveNode h

/-- The collateral was named by an ancestor not long ago. -/
def CheckEnv.reused : Bool :=
  block.utxos.isSome &&
    ((parent.1 :: parent.2).take (env.violationReportDeadline.toInt + 1).toNat).any fun p =>
      p.utxos = block.utxos

/-- The verdict of `checkV2`: an error, with the hash of a block to be asked for. -/
structure Rejection where
  err : ChainError
  request : Option Hash
  deriving DecidableEq

/-- The reports may be looked at. -/
def admitted : Outcome Rejection Unit := do
  let _ ← mapFail (fun e => ⟨e, none⟩) (env.checkCollateral block)
  failIf (env.reused block parent)
    ⟨.errorf ⟨"Re-use UTXO for collateral within 100 miner blocks", []⟩, none⟩
  match env.missing block with
  | some h =>
    fail ⟨.ruleError .errViolationReport ⟨"Missing block in violation report", []⟩, some h⟩
  | none => .ok ()

def checkV2 : Outcome Rejection Unit :=
  if env.isSVP then .ok ()
  else do
    admitted env block parent
    mapFail (fun e => ⟨e, none⟩) (validateVioldationReports env block)

/-! ## When the loops return -/

/-- A public key can be read from every script up to the first of the miner. -/
def KeysReadable (hash160 : Bytes → Address) (miner : Address) (sigs : List Bytes) : Prop :=
  ∀ done sig rest, sigs = done ++ sig :: rest →
    (∀ s ∈ done, hash160 (s.take PubKeyBytesLenCompressed) ≠ miner) →
    PubKeyBytesLenCompressed ≤ sig.length

theorem keysReadable_cons {hash160 : Bytes → Address} {miner : Address} {sig : Bytes}
    {rest : List Bytes} : KeysReadable hash160 miner (sig :: rest) ↔
      PubKeyBytesLenCompressed ≤ sig.length ∧
        (hash160 (sig.take PubKeyBytesLenCompressed) ≠ miner →
          KeysReadable hash160 miner rest) := by
  constructor
  · intro h
    refine ⟨h [] sig rest rfl (by simp), fun hne done s rest' hsplit hdone => ?_⟩
    refine h (sig :: done) s rest' (by rw [hsplit, cons_append]) ?_
    exact forall_mem_cons.mpr ⟨hne, hdone⟩
  · rintro ⟨hlen, hrest⟩ done s rest' hsplit hdone
    cases done with
    | nil =>
      cases hsplit
      exact hlen
    | cons d done =>
      cases hsplit
      obtain ⟨hne, hdone⟩ := forall_mem_cons.mp hdone
      exact hrest hne done s rest' rfl hdone

theorem findSignature_returns {hash160 : Bytes → Address} {miner : Address} :
    ∀ {sigs : List Bytes}, Returns (findSignature hash160 miner sigs) ↔
      KeysReadable hash160 miner sigs
  | [] => iff_of_true (returns_ok _) fun done sig rest h => by simp at h
  | sig :: rest => by
    rw [findSignature, returns_bind, returns_slice, keysReadable_cons, and_iff_right (zero_le _)]
    refine and_congr_right fun hlen => ?_
    simp only [slice_zero hlen, ok.injEq, forall_eq', returns_ite, returns_ok, implies_true,
      true_and, findSignature_returns]

/-- The first transaction of a stored block has signatures, and their keys can be read. -/
def SignersReadable (miner : Address) (txb : TxBlock) : Prop :=
  ∃ tx rest, txb.transactions = tx :: rest ∧ tx.signatureScripts ≠ [] ∧
    KeysReadable env.hash160 miner tx.signatureScripts.tail

variable {env block parent} {best : TxNode} {v : Report}
  {miner : Address} {txb : TxBlock} {h q : Hash}

theorem signatures_returns : Returns (signatures txb) ↔
    ∃ tx rest, txb.transactions = tx :: rest ∧ tx.signatureScripts ≠ [] := by
  rw [signatures, returns_bind, returns_index]
  cases txb.transactions with
  | nil => simp
  | cons tx rest =>
    have hindex : ∀ a, index (ε := ChainError) (tx :: rest) 0 = .ok a ↔ tx = a := fun a => by
      rw [index_eq_ok, getElem?_cons_zero, some_inj]
    simp [hindex, returns_slice, one_le_iff_ne_zero]

theorem signatures_eq_ok {l : List Bytes} (hl : signatures txb = .ok l) :
    ∃ tx rest, txb.transactions = tx :: rest ∧ tx.signatureScripts ≠ [] ∧
      l = tx.signatureScripts.tail := by
  obtain ⟨tx, rest, htx, hne⟩ := signatures_returns.mp (by rw [hl]; exact returns_ok l)
  refine ⟨tx, rest, htx, hne, ?_⟩
  rw [signatures, htx, index, getElem?_cons_zero] at hl
  exact (ok.inj ((slice_one (length_pos_iff.mpr hne)).symm.trans hl)).symm

theorem findSigner_returns :
    Returns (findSigner env txb miner) ↔ SignersReadable env miner txb := by
  rw [findSigner, returns_bind, signatures_returns]
  constructor
  · rintro ⟨⟨tx, rest, htx, hne⟩, hfind⟩
    refine ⟨tx, rest, htx, hne, ?_⟩
    have hl : signatures txb = .ok tx.signatureScripts.tail := by
      rw [signatures, htx]
      exact slice_one (length_pos_iff.mpr hne)
    exact findSignature_returns.mp (hfind _ hl)
  · rintro ⟨tx, rest, htx, hne, hkeys⟩
    refine ⟨⟨tx, rest, htx, hne⟩, fun l hl => ?_⟩
    obtain ⟨tx', rest', htx', -, rfl⟩ := signatures_eq_ok hl
    rw [htx] at htx'
    cases htx'
    exact findSignature_returns.mpr hkeys

theorem checkSigner_returns :
    Returns (checkSigner env txb miner) ↔ SignersReadable env miner txb := by
  rw [checkSigner, returns_bind, findSigner_returns]
  refine and_iff_left fun found _ => ?_
  split
  · exact returns_fail _
  · split
    · exact returns_fail _
    · exact returns_ok _

/-- The loop ends before the miner chain does. -/
def SearchEnds (deadline : Nat) (h q : Hash) (matched : Bool) (chain : List MinerMsg) : Prop :=
  deadline ≤ chain.length ∨ ∃ i y, i < deadline ∧ chain[i]? = some y ∧
    (0 < i ∧ reports y h = true ∨ matched = false ∧ reports y q = true)

/-- The general case: after some iterations. -/
theorem matching_returns_from {matched : Bool} : ∀ {k : Nat} {first : Bool} {chain : List MinerMsg},
    Returns (matching h q k first matched chain) ↔ k ≤ chain.length ∨
      ∃ i y, i < k ∧ chain[i]? = some y ∧
        ((first = false ∨ 0 < i) ∧ reports y h = true ∨ matched = false ∧ reports y q = true)
  | 0, first, chain => by simp [matching]
  | k + 1, first, [] => by simp [matching]
  | k + 1, first, y :: rest => by
    have ih : Returns (matching h q k false matched rest) ↔ _ := matching_returns_from
    rw [matching, returns_ite, returns_ite, Bool.not_eq_true', Bool.not_eq_true']
    by_cases hdup : first = false ∧ reports y h = true
    · refine iff_of_true ⟨fun _ => returns_fail _, fun hn => absurd hdup hn⟩ (.inr ⟨0, y, ?_⟩)
      simpa using .inl hdup
    by_cases hmatch : matched = false ∧ reports y q = true
    · refine iff_of_true ⟨fun hn => absurd hn hdup, fun _ => ⟨fun _ => returns_ok _,
        fun hn => absurd hmatch hn⟩⟩ (.inr ⟨0, y, ?_⟩)
      simpa using .inr hmatch
    simp only [hdup, hmatch, false_imp_iff, not_false_iff, forall_const, true_and, ih,
      length_cons, add_le_add_iff_right]
    refine or_congr_right ⟨?_, ?_⟩
    · rintro ⟨i, y', hi, hy, hstop⟩
      refine ⟨i + 1, y', succ_lt_succ hi, hy, ?_⟩
      exact hstop.imp_left fun hstop => ⟨.inr (succ_pos i), hstop.2⟩
    · rintro ⟨i, y', hi, hy, hstop⟩
      cases i with
      | zero =>
        obtain rfl : y = y' := some_inj.mp hy
        simp only [lt_irrefl, or_false] at hstop
        exact absurd hstop (not_or.mpr ⟨hdup, hmatch⟩)
      | succ i =>
        exact ⟨i, y', lt_of_succ_lt_succ hi, hy,
          hstop.imp_left fun hstop => ⟨.inl trivial, hstop.2⟩⟩

theorem matching_returns {deadline : Nat} {matched : Bool} {chain : List MinerMsg} :
    Returns (matching h q deadline true matched chain) ↔
      SearchEnds deadline h q matched chain := by
  rw [matching_returns_from, SearchEnds]
  simp

/-- The heights along the pointers. -/
theorem Linked.tail {x y : TxRef} {p : List TxRef} (hn : Linked (x, y :: p)) :
    Linked (y, p) ∧ x.height.toInt = y.height.toInt + 1 := by
  obtain ⟨hxy, hp⟩ := isChain_cons_cons.mp hn
  exact ⟨hp, hxy⟩

theorem descend_ok {top : TxNode} (htop : env.txNode h = some top) {height : Int32}
    (hlow : 0 ≤ height.toInt) : ∀ {k : Nat} {p : TxNode}, Linked p →
      height.toInt + k = p.1.height.toInt → p.1.height.toInt ≤ top.1.height.toInt →
      ∃ r, descend env height k p = .ok r ∧ r.1.height = height
  | 0, p, _, hk, _ => ⟨p, rfl, Int32.toInt_inj.mp (by omega)⟩
  | k + 1, (x, rest), hp, hk, hle => by
    dsimp only at hk hle
    have habove : x.height > height := Int32.lt_iff_toInt_lt.mpr (by omega)
    rw [descend, if_pos habove]
    cases rest with
    | cons y rest =>
      obtain ⟨hy, hxy⟩ := hp.tail
      exact descend_ok htop hlow hy (by dsimp only; omega) (by dsimp only; omega)
    | nil =>
      -- nothing more in memory: by height, from the best chain
      have hone : (1 : Int32).toInt = 1 := rfl
      have hhigh := x.height.toInt_lt
      have hbelow : (x.height - 1).toInt = x.height.toInt - 1 := by
        rw [Int32.toInt_sub, hone, Int.bmod_eq_of_le (by omega) (by omega)]
      have hne : x.height ≠ 0 := fun hz => by
        have : x.height.toInt = 0 := congrArg Int32.toInt hz
        omega
      obtain ⟨m, hm, hheight, hlinked⟩ := env.below htop (k := x.height - 1) (by omega) (by omega)
      have hmh : m.1.height.toInt = x.height.toInt - 1 := by rw [hheight, hbelow]
      simp only [CheckEnv.parentNode, if_neg hne, hm]
      exact descend_ok htop hlow hlinked (by omega) (by omega)

/-! ## When the reports can be read -/

variable (env block) in
/-- A block of a report: its signatures can be read, and if it is not on the chain of the best
block then the parent of the block there is in memory, and the search for reports ends. -/
def BlockReadable (best : TxNode) (v : Report) (miner : Address) (vb : Map (Hash × Hash) Unit)
    (h : Hash) : Prop :=
  (v.mrBlock, h) ∉ vb → ∀ txb, env.hashToBlock h = .ok txb → txb.height = v.height →
    SignersReadable env miner txb ∧ (checkSigner env txb miner = .ok () →
      ∀ p, descend env v.height (best.1.height.toInt - v.height.toInt).toNat best = .ok p →
        p.1.hash ≠ h → ∃ q rest, p.2 = q :: rest ∧
          SearchEnds env.violationReportDeadline.toInt.toNat h txb.prevBlock
            (txb.prevBlock = q.hash) (env.mynode block))

theorem checkReported_returns {s : Map (Hash × Hash) Unit × Bool}
    (hbest : env.txNode block.bestBlock = some best) (hle : ¬ best.1.height < v.height)
    (hhave : env.haveNode h = true) :
    Returns (checkReported env block best v miner s h) ↔
      BlockReadable env block best v miner s.1 h := by
  rw [checkReported, BlockReadable, returns_bind, and_iff_right (returns_failIf _ _)]
  simp only [failIf_eq_ok, forall_const]
  refine imp_congr_right fun _ => ?_
  cases htxb : env.hashToBlock h with
  | error e => simp
  | ok txb =>
    simp only [ok.injEq, forall_eq']
    rw [returns_bind, ruleIf, and_iff_right (returns_failIf _ _)]
    simp only [failIf_eq_ok, not_not, forall_const]
    refine imp_congr_right fun hheight => ?_
    rw [returns_bind, checkSigner_returns]
    refine and_congr_right fun _ => ?_
    rw [Unique.forall_iff]
    refine imp_congr_right fun _ => ?_
    -- the walk ends at a node, whatever the block is
    have hnonneg : 0 ≤ v.height.toInt := hheight ▸ env.height_nonneg hhave htxb
    rw [Int32.lt_iff_toInt_lt, not_lt] at hle
    obtain ⟨p, hp, -⟩ := descend_ok hbest hnonneg
      (k := (best.1.height.toInt - v.height.toInt).toNat) (env.linked hbest) (by omega) (le_refl _)
    rw [hp, ok_bind, returns_ite]
    simp only [ok.injEq, forall_eq', returns_pure, implies_true, true_and]
    refine imp_congr_right fun _ => ?_
    cases p.2 with
    | nil => simp
    | cons q rest =>
      rw [returns_bind, matching_returns]
      constructor
      · rintro ⟨hends, -⟩
        exact ⟨q, rest, rfl, hends⟩
      · rintro ⟨q', rest', hq, hends⟩
        cases hq
        exact ⟨hends, fun _ _ => returns_bind.mpr ⟨returns_failIf _ _, fun _ _ =>
          returns_bind.mpr ⟨returns_failIf _ _, fun _ _ => returns_pure _⟩⟩⟩

variable (env block) in
/-- A report that comes to be looked at: its miner block is on the best chain, and its blocks can
be read as far as they are looked at. -/
def ReportReadable (best : TxNode) (s : Noted) (v : Report) : Prop :=
  ¬ v.height < s.hoder → ∃ mb rest, env.nodeByHash v.mrBlock = some (mb, rest) ∧
    (¬ block.height - mb.height ≥ env.violationReportDeadline → ¬ best.1.height < v.height →
      ¬ v.blocks.length < 2 → ∀ done h rest s', v.blocks = done ++ h :: rest →
        done.foldlM (checkReported env block best v mb.miner) (s.vb, false) = .ok s' →
        BlockReadable env block best v mb.miner s'.1 h)

theorem checkReport_returns {s : Noted} (hbest : env.txNode block.bestBlock = some best)
    (hhave : ∀ h ∈ v.blocks, env.haveNode h = true) :
    Returns (checkReport env block s v) ↔ ReportReadable env block best s v := by
  rw [checkReport, ReportReadable, returns_bind, and_iff_right (returns_failIf _ _)]
  simp only [failIf_eq_ok, forall_const]
  refine imp_congr_right fun _ => ?_
  cases hmb : env.nodeByHash v.mrBlock with
  | none => simp
  | some n =>
    obtain ⟨mb, rest⟩ := n
    simp only [hbest, returns_bind, ruleIf, returns_failIf, failIf_eq_ok, forall_const, true_and,
      some_inj, Prod.mk.injEq, returns_pure, implies_true, and_true]
    constructor
    · intro hret
      refine ⟨mb, rest, ⟨rfl, rfl⟩, fun htime hle hlen => ?_⟩
      have hfold := returns_foldlM.mp (hret htime hle hlen)
      intro done h rest' s' hsplit hdone
      have hmem : h ∈ v.blocks := by rw [hsplit]; simp
      exact (checkReported_returns hbest hle (hhave h hmem)).mp (hfold done h rest' s' hsplit hdone)
    · rintro ⟨mb', rest', ⟨rfl, rfl⟩, hread⟩ htime hle hlen
      refine returns_foldlM.mpr fun done h rest' s' hsplit hdone => ?_
      have hmem : h ∈ v.blocks := by rw [hsplit]; simp
      exact (checkReported_returns hbest hle (hhave h hmem)).mpr
        (hread htime hle hlen done h rest' s' hsplit hdone)

/-! ## When the check returns -/

variable (env block) in
/-- The collateral named by the block can be read. -/
def CollateralReadable : Prop :=
  ∀ o parent e, block.utxos = some o → env.lookupNode block.prevBlock = some parent →
    env.pow.chain.utxos.lookup o = some e → ScriptReadable parent.1.collateral e

theorem CheckEnv.checkCollateral_returns :
    Returns (env.checkCollateral block) ↔ CollateralReadable env block := by
  rw [CheckEnv.checkCollateral, Zent.checkCollateral_returns (fun _ _ => env.numeric)
    env.journal_numeric, CollateralReadable]
  constructor
  · intro h o parent e ho hparent he
    refine h o parent.1.toTimed.toMingingRightBlock e ho ?_ he
    rw [hparent]
    rfl
  · rintro h o mb e ho hmb he
    obtain ⟨parent, hparent, rfl⟩ := map_eq_some_iff.mp hmb
    exact h o parent e ho hparent he

theorem admitted_returns : Returns (admitted env block parent) ↔ CollateralReadable env block := by
  rw [admitted, returns_bind, returns_mapFail, CheckEnv.checkCollateral_returns]
  refine and_iff_left fun _ _ => returns_bind.mpr ⟨returns_failIf _ _, fun _ _ => ?_⟩
  split
  · exact returns_fail _
  · exact returns_ok _

theorem haveNode_of_admitted (ha : admitted env block parent = .ok ())
    (hv : v ∈ block.violationReport) (hh : h ∈ v.blocks) : env.haveNode h = true := by
  obtain ⟨_, -, ha⟩ := of_bind ha
  obtain ⟨_, -, ha⟩ := of_bind ha
  split at ha
  · cases ha
  case h_2 hnone =>
    have := find?_eq_none.mp hnone h (mem_flatMap.mpr ⟨v, hv, hh⟩)
    simpa using this

variable (env block) in
/-- The reports can be read as far as they are looked at. -/
def ReportsReadable (best : TxNode) : Prop :=
  ∀ done v rest s, block.violationReport = done ++ v :: rest →
    done.foldlM (checkReport env block) ⟨∅, -1⟩ = .ok s → ReportReadable env block best s v

/-- **What `checkV2` needs in order to return.** A full node must be able to read the collateral of
the block and, once that admits it, everything its reports of violations name. -/
theorem checkV2_returns (hbest : env.txNode block.bestBlock = some best) :
    Returns (checkV2 env block parent) ↔ (env.isSVP = false → CollateralReadable env block ∧
      (admitted env block parent = .ok () → ReportsReadable env block best)) := by
  rw [checkV2, returns_ite, and_iff_right fun _ => returns_ok _, Bool.not_eq_true, returns_bind,
    admitted_returns]
  refine imp_congr_right fun _ => and_congr_right fun _ => ?_
  rw [Unique.forall_iff]
  refine imp_congr_right fun ha => ?_
  rw [returns_mapFail, validateVioldationReports, returns_bind,
    and_iff_left fun _ _ => returns_pure _, returns_foldlM, ReportsReadable]
  refine forall₄_congr fun done v rest s => forall₂_congr fun hsplit _ => ?_
  have hv : v ∈ block.violationReport := by rw [hsplit]; simp
  exact checkReport_returns hbest fun h hh => haveNode_of_admitted ha hv hh

end

end Zent.Minerchain
