import Zent.Go.Range
import Zent.Wire.MingingRight
import Zent.Minerchain.WaitingList

/-!
# Forfeiture of collaterals

A miner that signs two blocks at one height loses its collateral. Violations are reported in miner
blocks; `ViolationReportDeadline` miner blocks after the violator has entered the committee the
next block of the transaction chain has to carry the transactions that `CompTxs` computes: one
that takes the collateral and awards the reporters, and one that files the claims of the victims,
the fees of the transactions in the abandoned blocks.

What reads the chains and the views is a field of `ForfeitEnv`, with an arbitrary answer.
-/

namespace Zent

open Go

/-- The parameters of `chaincfg.Params` that forfeiture reads. -/
structure ForfeitParams where
  violationReportDeadline : Int32
  pubKeyHashAddrID : UInt8
  scriptHashAddrID : UInt8
  multiSigAddrID : UInt8
  contractAddrID : UInt8
  /-- address of the contract that disburses, and its functions -/
  contract : Bytes
  opening : Bytes
  filing : Bytes
  contract_length : contract.length = 21
  opening_length : opening.length = 4
  filing_length : filing.length = 4

/-- What `CompTxs` asks of the rest of the node. -/
structure ForfeitEnv where
  params : ForfeitParams
  genesisNonce : Int32
  /-- `Miners.BlockByHeight` -/
  minerByHeight : Int32 → Except ChainError MingingRightBlock
  minerByHeight_height : ∀ {h blk}, minerByHeight h = .ok blk → blk.height = h
  /-- the headers from `Miners.NodeByHeight` down to genesis, none where that is nil -/
  headersFrom : Int32 → List MingingRightBlock
  /-- `Miners.BlockByHash` -/
  minerByHash : Hash → Option MingingRightBlock
  /-- whether `views.Utxo.LookupEntry` finds an entry -/
  hasEntry : OutPoint → Bool
  inBestChain : Hash → Bool
  /-- the transactions of a block of the index -/
  hashToBlock : Hash → Option (List MsgTx)
  mainChainTx : Hash → Option MsgTx
  compensatedTx : Hash → Bool
  /-- the number of transactions of a block of the chain, if it can be read -/
  blockTxns : Node → Option Nat
  /-- the usage of an address, given as its kind and hash -/
  addrUsage : Bytes → UInt32
  txHash : MsgTx → Hash
  hash160 : Bytes → Address

/-! ## The violators to be processed -/

/-- The walk from a POW block to the last rotation block: its nonce, and two for every POW block
on the way. -/
def walkToRotation (g : Int32) : Node → Nat → Option (Int32 × Nat)
  | [], m => if g > -MINER_RORATE_FREQ then none else some (g, m)
  | x :: p, m =>
    if x.nonce > -MINER_RORATE_FREQ then
      walkToRotation g p (if x.nonce > 0 then m + POWRotate.toNat else m)
    else some (x.nonce, m)

/-- Where the reports are looked for, and whose. -/
structure Reported where
  /-- the height the miner blocks are scanned from, downwards -/
  prevminer : Option Int32
  /-- the keys of `reportee` -/
  heights : List Int32
  deriving DecidableEq, Repr

/-- The violators to be processed in the block after a node; `none` where nothing is due. -/
def reported (g deadline : Int32) (prevNode : Node) : Option Reported :=
  let nonce := Node.nonceFrom g prevNode
  if nonce < -MINER_RORATE_FREQ then
    let pmh := -(nonce + MINER_RORATE_FREQ)
    if pmh ≤ deadline then none
    else some ⟨some (pmh - 1), [pmh - deadline]⟩
  else if nonce > 0 then
    match walkToRotation g prevNode 0 with
    | none => some ⟨none, []⟩
    | some (qnonce, m) =>
      let pmh := -(qnonce + MINER_RORATE_FREQ) + Int32.ofNat m
      let rbase := pmh - deadline - Int32.ofNat m
      let rbase := if rbase < 0 then 0 else rbase
      some ⟨some (pmh - 1), (List.range m).map fun j => rbase + Int32.ofNat j⟩
  else none

variable (env : ForfeitEnv)

/-- The miner blocks that are scanned for reports, in ascending order; the front of the array stays
zero near genesis. -/
def mrblks (prevminer : Option Int32) : List MingingRightBlock :=
  let n := (env.params.violationReportDeadline + POWRotate.toInt32).toInt.toNat
  let headers := (prevminer.elim [] env.headersFrom).take n
  List.replicate (n - headers.length) .zero ++ headers.reverse

/-! ## Victims -/

/-- A claim: a transaction of an abandoned block and what is still due and assured to it. -/
structure TxFee where
  tx : MsgTx
  fee : Int64
  sure : Int64
  payees : List Bytes
  deriving DecidableEq, Repr

/-- What the scan of the abandoned blocks has collected: the coins their outputs make available,
and the transactions seen, without a claim where none is due. -/
structure Victims where
  usable : Map OutPoint Int64
  processed : Map Hash (Option TxFee)

/-- The value an input brings, for the fee. -/
def inputValue (usable : Map OutPoint Int64) (txIn : TxIn) : Result Int64 :=
  if txIn.zeroHash then .ok 0
  else match usable.lookup txIn.previousOutPoint with
    | some u => .ok u
    | none => match env.mainChainTx txIn.previousOutPoint.hash with
      | none => .ok 0
      | some tk => match tk.txOut[txIn.previousOutPoint.index.toNat]? with
        | none => .ok 0
        | some out => if out.tokenType ≠ 0 then .ok 0 else numVal out.value

/-- The sum of the inputs. -/
def inputSum (usable : Map OutPoint Int64) (tx : MsgTx) : Result Int64 :=
  if tx.isCrossChain then .ok 0
  else tx.txIn.foldlM (fun sum txIn => (sum + ·) <$> inputValue env usable txIn) 0

/-- The fee coin outputs of a transaction, by index. -/
def feeOuts (tx : MsgTx) : Result (List (UInt32 × Int64)) :=
  (tx.txOut.zipIdx.filter fun o => !o.1.isSeparator && o.1.tokenType == 0).mapM
    fun o => do return (UInt32.ofNat o.2, ← numVal o.1.value)

/-- The payees of a transaction that can agree to a settlement: contracts cannot. -/
def payeesOf (tx : MsgTx) : Result (List Bytes) :=
  tx.txOut.foldlM (fun payees out => do
    if out.isSeparator then return payees
    if (← index out.pkScript 0) == env.params.contractAddrID then return payees
    return payees ++ [← slice out.pkScript 0 21]) []

/-- Leaves a transaction without claim. -/
def noClaim (s : Victims) (hash : Hash) : Victims :=
  { s with processed := s.processed.insert hash none }

/-- The fee of a transaction whose inputs bring `input`: what it paid more than it put out, ten
thousand times, is claimed for its payees. -/
def fileClaim (s : Victims) (tx : MsgTx) (input : Int64) : Result Victims := do
  let hash := env.txHash tx
  let outs ← feeOuts tx
  let out := (outs.map Prod.snd).sum
  let s := { s with usable := putAll s.usable (outs.map fun o => (⟨hash, o.1⟩, o.2)) }
  if input ≤ out then return noClaim s hash
  let payees ← payeesOf env tx
  if payees = [] then return noClaim s hash
  return { s with processed :=
    s.processed.insert hash (some ⟨tx, (input - out) * 10000, 0, payees⟩) }

/-- One transaction of an abandoned block. -/
def victimStep (s : Victims) (tx : MsgTx) : Result Victims := do
  let hash := env.txHash tx
  if tx.version &&& TxTypeMask > TxVersion || (env.mainChainTx hash).isSome then return s
  if hash ∈ s.processed then return s
  if env.compensatedTx hash then return noClaim s hash
  let input ← inputSum env s.usable tx
  if input = 0 then return noClaim s hash
  fileClaim env s tx input

/-- The transactions of an abandoned block, without its coinbase. -/
def processForfeitBlock (s : Victims) (txs : List MsgTx) : Result Victims := do
  (← slice txs 1 txs.length).foldlM (victimStep env) s

/-! ## The reports -/

/-- What the reports against a violator add up to. -/
structure Reports where
  /-- by how many blocks each reporter has proved the violation -/
  reportblks : Map Address Int
  totalblks : Int
  /-- the abandoned blocks -/
  forfeiture : List Hash

/-- The abandoned blocks of a report; a block that is not known is a nil dereference. -/
def sideBlocks (blocks : List Hash) : Result (List Hash) :=
  (blocks.filter fun b => !env.inBestChain b).mapM fun b =>
    match env.hashToBlock b with
    | none => crash
    | some _ => .ok b

/-- Whether a report is against the violator, and its collateral is still there. -/
def counts (bhash : Hash) (r : Violations) : Bool :=
  bhash == r.mrBlock &&
    match env.minerByHash r.mrBlock with
    | none => false
    | some mrb => mrb.utxos.any env.hasEntry

/-- One report. -/
def reportStep (bhash : Hash) (miner : Address) (s : Reports) (r : Violations) : Result Reports :=
  if counts env bhash r then do
    let n : Int := r.blocks.length - 1
    let side ← sideBlocks env r.blocks
    return {
      reportblks := s.reportblks.insert miner ((s.reportblks.lookup miner).getD 0 + n)
      totalblks := s.totalblks + n
      forfeiture := s.forfeiture ++ side }
  else .ok s

/-- The reports of one miner block. -/
def headerStep (bhash : Hash) (s : Reports) (u : MingingRightBlock) : Result Reports :=
  let s := if u.miner ∈ s.reportblks then s
    else { s with reportblks := s.reportblks.insert u.miner 0 }
  u.violationReport.foldlM (reportStep env bhash u.miner) s

/-- The reports against a violator. -/
def collectReports (blk : MingingRightBlock) (mrblks : List MingingRightBlock) : Result Reports :=
  mrblks.foldlM (headerStep env blk.hash) ⟨∅, 0, []⟩

/-- The reporters that get a share. -/
def Reports.shares (s : Reports) : List (Address × Int) :=
  (s.reportblks.entries.map fun e => (e.1, e.2)).filter fun e => e.2 ≠ 0

/-! ## The award transaction -/

/-- An output of the fee coin. -/
def payOut (val : Int64) (pkScript : Bytes) : TxOut :=
  ⟨⟨FeeCoinTyp, some (.numToken val), none⟩, pkScript⟩

/-- A forfeiture transaction. -/
def forfeitTx (txIn : List TxIn) (txOut : List TxOut) : MsgTx :=
  ⟨ForfeitTxVersion ||| TxNoLock ||| TxNoDefine, [], txIn, txOut, 0, []⟩

/-- The script of an output that destroys its value. -/
def burnScript : Bytes := [env.params.pubKeyHashAddrID, 1] ++ List.replicate 19 0 ++ [OP_PAY2NONE]

/-- The call that opens the account of a violator with the contract. -/
def openingScript (height : Int32) : Bytes :=
  env.params.contract ++ env.params.opening ++ (putUint32 height.toUInt32 ++ [0, 0, 0, 0])

/-- The share of a reporter. -/
def awardOut (r125 : Int64) (totalblks : Int) (share : Address × Int) : Result TxOut :=
  if totalblks = 0 then crash
  else .ok (payOut (r125 * Int64.ofInt share.2 / Int64.ofInt totalblks)
    ([env.params.pubKeyHashAddrID] ++ addressBytes share.1 ++ [OP_PAY2PKH]))

/-- The value of a collateral. -/
def collateralValue (op : OutPoint) : Result Int64 :=
  match env.mainChainTx op.hash with
  | none => crash
  | some tk => do numVal (← index tk.txOut op.index.toNat).value

/-- The transaction that takes the collateral: three quarters go to the contract, an eighth to the
reporters by the order of a range over `reportblks`, an eighth stays with the miner. -/
def awardTx (order : Shuffle (Address × Int)) (blk : MingingRightBlock) (s : Reports) :
    Result MsgTx :=
  match blk.utxos with
  | none => crash
  | some op => do
    let avail ← collateralValue env op
    let awards ← (order.run s.shares).mapM (awardOut env (avail >>> 3) s.totalblks)
    return forfeitTx [⟨op, 0xFFFFFFFF, 0xFFFFFFFF⟩]
      (payOut ((avail * 6) >>> 3) (openingScript env blk.height) :: awards)

/-- The transactions of the abandoned blocks. -/
def abandoned (forfeiture : List Hash) : Result Victims :=
  forfeiture.foldlM (fun s p => match env.hashToBlock p with
    | none => crash
    | some txs => processForfeitBlock env s txs) ⟨∅, ∅⟩

/-- One violator: the award transaction and the victims, `none` if nothing is reported. -/
def processviolator (order : Shuffle (Address × Int)) (blk : MingingRightBlock)
    (mrblks : List MingingRightBlock) : Result (Option (MsgTx × Map Hash (Option TxFee))) := do
  let s ← collectReports env blk mrblks
  if s.forfeiture = [] then return none
  let ctx ← awardTx env order blk s
  let victims ← abandoned env s.forfeiture
  return some (ctx, victims.processed)

/-! ## Claim records -/

/-- The outputs a claim is paid to. -/
def claimScripts (tx : MsgTx) : Result (List Bytes) :=
  tx.txOut.foldlM (fun scripts out => do
    if out.isSeparator then return scripts
    if (← index out.pkScript 0) == env.params.contractAddrID then return scripts
    return scripts ++ [← slice out.pkScript 0 21]) []

/-- The pay instruction for an address by its kind, zero for other kinds. -/
def payInstruction (kind : UInt8) : UInt8 :=
  if kind = env.params.multiSigAddrID then OP_PAYMULTISIG
  else if kind = env.params.scriptHashAddrID then OP_PAY2SCRIPTH
  else if kind = env.params.pubKeyHashAddrID then OP_PAY2PKH
  else 0

/-- The script a claim is paid to: the payee, or a multi-signature address of all payees. -/
def payeeScript (scripts : List Bytes) : Result Bytes :=
  match scripts with
  | [script] => do return script ++ [payInstruction env (← index script 0)]
  | _ =>
    let mn := putUint16 (UInt16.ofNat scripts.length)
    .ok ([env.params.multiSigAddrID] ++ addressBytes (env.hash160 (mn ++ mn ++ scripts.flatten)) ++
      [OP_PAYMULTISIG])

/-- The record of a claim: transaction, fee, assured amount and payee. -/
def comptx (tx : TxFee) : Result Bytes := do
  let scripts ← claimScripts env tx.tx
  return hashBytes (env.txHash tx.tx) ++ putUint64 tx.fee.toUInt64 ++ putUint64 tx.sure.toUInt64 ++
    (← payeeScript env scripts)

/-! ## Allocation -/

variable (usescores : Map Bytes UInt32)

/-- The score of a claim: the least usage among the payees that have none recorded. -/
def score (tx : TxFee) : UInt32 :=
  tx.payees.foldl (fun s adr =>
    if adr ∈ usescores then s
    else if s > (usescores.lookup adr).getD 0 then (usescores.lookup adr).getD 0 else s) 0xFFFFFFFF

/-- Records the usage of the payees of a claim. -/
def recordUsage (tx : TxFee) : Map Bytes UInt32 :=
  tx.payees.foldl (fun m adr => if adr ∈ m then m else m.insert adr (env.addrUsage adr)) usescores

/-- Takes one off the recorded usage of the payees. -/
def wearUsage (tx : TxFee) : Map Bytes UInt32 :=
  tx.payees.foldl (fun m adr =>
    if (m.lookup adr).getD 0 > 0 then m.insert adr ((m.lookup adr).getD 0 - 1) else m) usescores

/-- The variables of the loop beside the claims. -/
structure Alloc where
  bal : Int64
  count : UInt64
  usescores : Map Bytes UInt32

/-- One claim in a round: it gets a unit, or what is left of the balance, or is closed. -/
def visit (level : UInt32) (allocunit : Int64) (s : Alloc) (tx : TxFee) : Alloc × TxFee :=
  if tx.fee = tx.sure ∨ level > score s.usescores tx then (s, tx)
  else
    let allocable := if allocunit > s.bal then s.bal else allocunit
    let usescores := wearUsage s.usescores tx
    if tx.fee > allocable then
      (⟨s.bal - allocable, s.count, usescores⟩,
        ⟨tx.tx, tx.fee - allocable, tx.sure + allocable, tx.payees⟩)
    else
      (⟨s.bal - (tx.fee - tx.sure), s.count - 1, usescores⟩,
        ⟨tx.tx, 0, tx.sure + tx.fee, tx.payees⟩)

/-- A round over the claims. -/
def allocRound (level : UInt32) (allocunit : Int64) : Alloc → List TxFee → Alloc × List TxFee
  | s, [] => (s, [])
  | s, tx :: rest =>
    let (s, tx) := visit level allocunit s tx
    let (s, rest) := allocRound level allocunit s rest
    (s, tx :: rest)

/-- The best score of the claims. -/
def admitted (claims : List TxFee) : UInt32 :=
  claims.foldl (fun level tx => if score usescores tx > level then score usescores tx else level) 0

/-- What every claim gets in a round. -/
def allocUnit (avgtx : Int) (s : Alloc) : Int64 :=
  if s.count > UInt64.ofInt avgtx then s.bal / Int64.ofInt avgtx else s.bal / s.count.toInt64

/-- The loop, from its `k`-th round on, with an order for every round; `none` if it has not ended
when the fuel is used up. -/
def allocate (orders : Nat → Shuffle TxFee) (avgtx : Int) :
    Nat → Nat → Alloc → List TxFee → Option (Alloc × List TxFee)
  | 0, _, _, _ => none
  | fuel + 1, k, s, claims =>
    if s.bal > 0 ∧ s.count > 0 then
      let level := admitted s.usescores claims
      let r := allocRound level (allocUnit avgtx s) s ((orders k).run claims)
      allocate orders avgtx fuel (k + 1) r.1 r.2
    else some (s, claims)

/-! ## CompTxs -/

/-- The orders of the ranges over maps. What belongs to one violator is found by its height. -/
structure RangeOrders where
  reportee : Shuffle MingingRightBlock
  reportblks : Int32 → Shuffle (Address × Int)
  /-- of the rounds of the allocation -/
  rounds : Int32 → Nat → Shuffle TxFee
  /-- of the claim records -/
  processed : Int32 → Shuffle TxFee

/-- The walk that adds up the transactions of the last blocks; `none` where a block cannot be
read, and a nil dereference below genesis. -/
def txnsWalk : Nat → Option Node → Int → Result (Option Int)
  | 0, _, avgtx => .ok (some avgtx)
  | _ + 1, none, _ => crash
  | i + 1, some p, avgtx => match env.blockTxns p with
    | none => .ok none
    | some n => txnsWalk i (parentNode p) (avgtx + (n - 1))

/-- The average of the reporting period, at least 10. -/
def averageTxs (prevNode : Node) (avgtx : Int) : Result (Option Int) :=
  if avgtx < 0 then do
    let deadline := env.params.violationReportDeadline.toInt
    match ← txnsWalk env (deadline * MINER_RORATE_FREQ.toInt).toNat (some prevNode) avgtx with
    | none => return none
    | some sum => if deadline = 0 then crash else return some (max 10 (sum.tdiv deadline))
  else .ok (some avgtx)

/-- What the loop over the violators carries on. -/
structure CompState where
  avgtx : Int
  usescores : Map Bytes UInt32
  txs : List MsgTx

/-- The start of the filing call: contract, function, violator and number of claims. -/
def filingScript (height : Int32) (count : UInt64) : Bytes :=
  env.params.contract ++ env.params.filing ++ putUint64 height.toInt64.toUInt64 ++ putUint64 count

/-- The transaction that files claims, with what destroys the rest of the balance. -/
def filingTx (height : Int32) (count : UInt64) (leftover : List TxOut) (records : List Bytes) :
    MsgTx :=
  forfeitTx [] (leftover ++ [payOut 0 (filingScript env height count ++ records.flatten)])

/-- The claims among the transactions seen. -/
def claimsOf (x : Map Hash (Option TxFee)) : List TxFee := x.entries.filterMap Sigma.snd

/-- The sum of the claims. -/
def claimSum (claims : List TxFee) : Int64 := (claims.map TxFee.fee).sum

/-- Nothing is claimed: what was for the contract is destroyed. -/
def burnOpening (stx : MsgTx) : MsgTx :=
  { stx with txOut := stx.txOut.modify 0 fun o => { o with pkScript := burnScript env } }

/-- Claims that the balance covers. A transaction seen that has no claim is dereferenced here. -/
def fileFull (order : Shuffle TxFee) (blk : MingingRightBlock) (bal : Int64)
    (x : Map Hash (Option TxFee)) : Result MsgTx :=
  let claims := claimsOf x
  if claims.length ≠ x.entries.length then crash
  else do
    let sure := claims.map fun tx => { tx with sure := tx.fee }
    let records ← (order.run sure).mapM (comptx env)
    let leftover := if claimSum claims < bal then
      [payOut (bal - claimSum claims) (burnScript env)] else []
    return filingTx env blk.height (UInt64.ofNat claims.length) leftover records

variable (fuel : Nat) (orders : RangeOrders) (prevNode : Node)

/-- Claims that the balance does not cover; `none` where the average cannot be taken. -/
def fileShort (blk : MingingRightBlock) (bal : Int64) (claims : List TxFee) (s : CompState) :
    Result (Option CompState) := do
  match ← averageTxs env prevNode s.avgtx with
  | none => return none
  | some avgtx =>
    let count := UInt64.ofNat claims.length
    let usescores := claims.foldl (recordUsage env) s.usescores
    match allocate (orders.rounds blk.height) avgtx fuel 0 ⟨bal, count, usescores⟩ claims with
    | none => crash -- the loop has not ended
    | some (r, claims) =>
      let records ← ((orders.processed blk.height).run claims).mapM (comptx env)
      return some ⟨avgtx, r.usescores, s.txs ++ [filingTx env blk.height count [] records]⟩

/-- What a violator with award transaction `stx` and victims `x` adds. -/
def compensate (blk : MingingRightBlock) (stx : MsgTx) (x : Map Hash (Option TxFee))
    (s : CompState) : Result (Option CompState) := do
  let bal ← numVal (← index stx.txOut 0).value
  if x.entries = [] then return some { s with txs := s.txs ++ [burnOpening env stx] }
  else
    let s := { s with txs := s.txs ++ [stx] }
    if claimSum (claimsOf x) ≤ bal then
      let ctx ← fileFull env (orders.processed blk.height) blk bal x
      return some { s with txs := s.txs ++ [ctx] }
    else fileShort env fuel orders prevNode blk bal (claimsOf x) s

/-- The loop over `reportee`. -/
def compLoop (mrblks : List MingingRightBlock) :
    List MingingRightBlock → CompState → Result (List MsgTx)
  | [], s => .ok s.txs
  | blk :: rest, s => do
    match ← processviolator env (orders.reportblks blk.height) blk mrblks with
    | none => compLoop mrblks rest s
    | some (stx, x) =>
      match ← compensate env fuel orders prevNode blk stx x s with
      | none => return []
      | some s => compLoop mrblks rest s

/-- The transactions that the block after a node has to carry, for orders of the ranges over
maps. -/
def compTxs : Result (List MsgTx) :=
  match reported env.genesisNonce env.params.violationReportDeadline prevNode with
  | none => .ok []
  | some r => do
    let reportee ← (r.heights.mapM env.minerByHeight).mapError Fault.error
    compLoop env fuel orders prevNode (mrblks env r.prevminer) (orders.reportee.run reportee)
      ⟨-1, ∅, []⟩

end Zent
