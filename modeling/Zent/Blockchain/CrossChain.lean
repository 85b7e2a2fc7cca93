import Zent.Blockchain.TxChecks

/-!
# Cross-chain transactions of a block

`checkCrossChain` of `btcd/blockchain/validate.go`. It has three parts, run over
the transactions that follow the coinbase:

* the **fee loop** checks that transfers pay the miners of every chain on their
  way. It leaves the whole function, with success, at the first transaction that
  has nothing to do with other chains;
* the **pool part** compares what is imported from other chains with the
  INCOMINGPOOL bucket;
* the **asset part** compares what goes out of and comes back to a chain with the
  XCAssets bucket.

The map of chains is a parameter. Go maps are ranged over in the order of their
entries.
-/

namespace Zent

open Go

/-- chain id of the root chain -/
def ROOT : UInt32 := 1

/-- What the check asks the map of chains. -/
structure ChainMap where
  /-- this chain is in the map -/
  here : Bool
  /-- the chain is in the map -/
  known : UInt32 → Bool
  /-- `PassThru` -/
  passThru : UInt32 → UInt32 → UInt32 → Result Bool
  /-- `CtxFees` from this chain: for every chain on the way its fee script and its fee -/
  ctxFees : UInt32 → Result (List (Bytes × Int64))

/-- `return fmt.Errorf(text)` -/
def errorf {α : Type} (format : String) (args : List Arg) : Result α :=
  fail (.errorf ⟨format, args⟩)

/-- `if c { return fmt.Errorf(text) }` -/
def errorIf (c : Prop) [Decidable c] (format : String) (args : List Arg) : Result Unit :=
  failIf c (.errorf ⟨format, args⟩)

section

variable (params : Params) (chains : ChainMap)

/-! ## The fee loop -/

/-- What the scan of the outputs finds. -/
structure Scan where
  iscrosschain : Bool
  payminer : Bool
  deriving DecidableEq, Repr

/-- The pay instruction of the script is a payment to miners. -/
def paysMiner (txo : TxOut) : Result Bool := do
  return (← index txo.pkScript 21) == OP_PAYMINER

def scanStep (s : Scan) (txo : TxOut) : Result Scan := do
  if txo.isSeparator then return s
  if ← txo.isContractCall then return s
  let iscrosschain ← if s.iscrosschain then pure true else txo.isCrossChain
  let payminer ← if s.payminer then pure true else paysMiner txo
  return ⟨iscrosschain, payminer⟩

/-- Whether a transaction takes part in cross-chain traffic, and whether it pays miners. -/
def scan (tx : MsgTx) : Result Scan := tx.txOut.foldlM scanStep ⟨tx.isCrossChain, false⟩

/-- The source of an import: the previous outpoint of its only input. -/
def importSource (tx : MsgTx) : Option OutPoint :=
  match tx.txIn with
  | t :: _ => if tx.isCrossChain then some t.previousOutPoint else none
  | [] => none

/-- The chain an import comes from, 0 for other transactions. -/
def importSrc (tx : MsgTx) : UInt32 :=
  match importSource tx with
  | some o => o.index ^^^ CrossChainFalg
  | none => 0

/-- The fees paid to and needed by each chain. -/
structure Fees where
  paid : Map UInt32 Int64
  need : Map UInt32 Int64

/-- The destination of an output that is not a payment to miners. -/
def feeDest (txo : TxOut) : Result UInt32 := do
  if ← txo.isCrossChain then
    let dc ← txo.destChain
    errorIf (chains.known (dc &&& 0x3FFFFF) = false) "Dest chain unknown %d" [.int dc.toNat]
    errorIf (dc = params.chainID) "Can not cross chain to self" []
    return dc
  return params.chainID

/-- The path of an output must go through this chain, and its token may travel it. -/
def checkPath (src dc tc : UInt32) : Result Unit := do
  errorIf (chains.here = false) "cross chain path does not go thru this chain" []
  if src != 0 then
    errorIf (¬ (← chains.passThru params.chainID src dc))
      "cross chain path does not go thru this chain" []
  if tc != 0 && tc != params.chainID then
    errorIf (¬ (← chains.passThru dc src dc)) "invalid cross chain destination" []
    if tc != dc && src != tc then
      errorIf (¬ (← chains.passThru dc src tc)) "Cross chain tx not in propgation path" []

/-- One chain on the way: its fee is needed. -/
def needStep (need : Map UInt32 Int64) (p : Bytes × Int64) : Result (Map UInt32 Int64) := do
  return bump need (← scriptDest p.1) p.2

/-- One output of the fee loop. -/
def crossFeeStep (xc : Bool) (src : UInt32) (s : Fees) (txo : TxOut) : Result Fees := do
  if txo.isSeparator then return s
  if ← txo.isContractCall then return s
  let op ← index txo.pkScript 21
  if !xc && op != OP_PAYCROSSCHAIN && op != OP_PAYMINER then return s
  if op == OP_PAYMINER then
    errorIf (txo.tokenType ≠ ZENTCoinTyp ∧ (txo.tokenType ≠ 0 ∨ params.chainID ≠ ROOT))
      "cross chain tx fee must be paid in %x\n" [.int ZENTCoinTyp.toNat]
    let dc ← scriptDest txo.pkScript
    let dc := if dc == 0 then params.chainID else dc
    return { s with paid := bump s.paid dc (← numVal txo.value) }
  let dc ← feeDest params chains txo
  checkPath params chains src dc (txo.tokenType >>> 40).toUInt32
  if src != 0 || (← txo.isCrossChain) then
    return { s with need := ← (← chains.ctxFees dc).foldlM needStep s.need }
  return s

/-- One chain that needs a fee: it must be paid, and its payment is accounted for. -/
def settleStep (paid : Map UInt32 Int64) (p : (_ : UInt32) × Int64) :
    Result (Map UInt32 Int64) := do
  errorIf (paid.get p.1 < p.2) "Cross chain tx fee not paid or insufficient" []
  return paid.erase p.1

/-- How the loop goes on after a transaction. -/
inductive Verdict where
  /-- go on with the next transaction -/
  | next
  /-- leave `checkCrossChain` with success -/
  | leave
  deriving DecidableEq, Repr

/-- One transaction of the fee loop. -/
def crossFeeTx (tx : MsgTx) : Result Verdict := do
  let s ← scan tx
  if !s.iscrosschain then
    errorIf (s.payminer = true) "Pay miner in a none cross chain tx" []
    return .leave
  errorIf (s.payminer = false) "Not paying miner in a cross chain tx" []
  let fees ← tx.txOut.foldlM (crossFeeStep params chains tx.isCrossChain (importSrc tx)) ⟨∅, ∅⟩
  let paid ← fees.need.entries.foldlM settleStep fees.paid
  errorIf (paid.entries ≠ []) "Payment to miner not in cross chain path" []
  return .next

def crossFees : List MsgTx → Result Verdict
  | [] => .ok .next
  | tx :: rest => do
    match ← crossFeeTx params chains tx with
    | .leave => return .leave
    | .next => crossFees rest

/-! ## The pool part -/

/-- An output in transit, with the script it had on its chain of origin. -/
structure MsgXrossL3 where
  rawScript : Bytes
  txo : TxOut
  deriving DecidableEq, Repr

/-- An entry of the INCOMINGPOOL: the transfers of one block of another chain. -/
structure XchainData where
  /-- origin chain id -/
  chainID : UInt32
  /-- origin block -/
  hash : Hash
  /-- origin height -/
  height : Int32
  txs : Map OutPoint MsgXrossL3
  /-- whether the origin block is finalized -/
  finalized : Int32

/-- The INCOMINGPOOL bucket: what is stored under a source, decoded. A source without entry, or
with an empty one, has none. -/
abbrev IncomingPool : Type := OutPoint → Option (Result XchainData)

section Pool

variable (txHash : MsgTx → Hash)

/-- The outputs of a transaction under their outpoints. -/
def outputsOf (tx : MsgTx) : List (OutPoint × TxOut) :=
  tx.txOut.zipIdx.map (fun p => (⟨txHash tx, UInt32.ofNat p.2⟩, p.1))

/-- The imports of a block, by source: one transaction more. -/
def collectStep (atxs : Map OutPoint (Map OutPoint TxOut)) (tx : MsgTx) :
    Map OutPoint (Map OutPoint TxOut) :=
  match importSource tx with
  | some o => atxs.insert o (putAll ((atxs.lookup o).getD ∅) (outputsOf txHash tx))
  | none => atxs

def collect (txs : List MsgTx) : Map OutPoint (Map OutPoint TxOut) :=
  txs.foldl (collectStep txHash) ∅

/-- The first transfer of the entry that matches an output. -/
def findMatch (txo : TxOut) : List ((_ : OutPoint) × MsgXrossL3) → Result (Option OutPoint)
  | [] => .ok none
  | e :: rest => do
    if ← e.2.txo.isMatch txo then return some e.1
    findMatch txo rest

/-- One imported output: it uses up a matching transfer. -/
def takeMatch (left : Map OutPoint MsgXrossL3) (p : (_ : OutPoint) × TxOut) :
    Result (Map OutPoint MsgXrossL3) := do
  match ← findMatch p.2 left.entries with
  | some key => return left.erase key
  | none => errorf "tx does not match INCOMINGPOOL data" []

/-- The imports from one source. -/
def checkSource (pool : IncomingPool) (p : (_ : OutPoint) × Map OutPoint TxOut) : Result Unit := do
  match pool p.1 with
  | none => errorf "Cross chain source does not exist" []
  | some decoded =>
    let xtx ← decoded
    errorIf (xtx.finalized = 0) "Cross chain source is not finalized" []
    let _ ← p.2.entries.foldlM takeMatch xtx.txs
    return ()

def checkPool (pool : IncomingPool) (txs : List MsgTx) : Result Unit :=
  (collect txHash txs).entries.forM (checkSource pool)

end Pool

/-! ## The asset part -/

/-- What one output moves between chains. -/
structure Move where
  assetKey : Bytes
  srcKey : Bytes
  /-- the token leaves its chain of origin, or moves on; otherwise it comes back -/
  out : Bool
  amount : Int64
  deriving DecidableEq, Repr

/-- The XCAssets bucket: the amount of an asset that is out on a chain, stored in 8 bytes. -/
abbrev AssetBucket : Type := Bytes → Option UInt64

/-- What a key of the assets is made of, besides the chain. -/
def assetTail (txo : TxOut) (tokentype : UInt64) : Result Bytes := do
  let value ← if tokentype &&& 1 == 1 then hashBytes <$> hashVal txo.value else pure []
  let rights := if tokentype &&& 2 == 2 then (txo.rights.map hashBytes).getD [] else []
  return putUint64 tokentype ++ value ++ rights

/-- `makeAssetKey`: the key of the asset on the destination chain, the destination, the key on
the chain of origin, and the chain of origin. -/
def makeAssetKey (txo : TxOut) : Result (Bytes × UInt32 × Bytes × UInt32) := do
  let dest ← scriptDest txo.pkScript
  let dest := if dest == 0 then params.mainChainID else dest
  let own := (txo.tokenType >>> 40).toUInt32 == 0
  let tokensrc := if own then params.chainID else (txo.tokenType >>> 40).toUInt32
  let tokentype : UInt64 :=
    if own then
      (txo.tokenType &&& (0xFFFFFFFFFF : UInt64)) ||| (params.chainID.toUInt64 <<< (40 : UInt64))
    else txo.tokenType
  let tail ← assetTail txo tokentype
  return (putUint32 dest ++ tail, dest, putUint32 tokensrc ++ tail, tokensrc)

/-- The amount an output moves: it must be positive, and a hash must not be zero. -/
def assetAmount (txo : TxOut) : Result Int64 := do
  if txo.tokenType &&& 1 == 0 then
    let d ← numVal txo.value
    errorIf (d ≤ 0) "invalid cross chain asset value" []
    return d
  errorIf ((← hashVal txo.value) = zerohash) "invalid cross chain asset value" []
  return 1

/-- The chain an import comes from, as the asset part reads it. -/
def importChain (tx : MsgTx) : UInt32 :=
  match importSource tx with
  | some o => o.index &&& ~~~CrossChainFalg
  | none => 0

/-- An output of a transaction that is no import stays on this chain. -/
def staysHere (svp : UInt32) (txo : TxOut) : Result Bool := do
  if svp != 0 then return false
  return (← txo.destChain) == 0

/-- What an output of a transaction moves; nothing if it is a separator or stays on this chain. -/
def assetMove (svp : UInt32) (txo : TxOut) : Result (Option Move) := do
  if txo.isSeparator then return none
  if ← staysHere svp txo then return none
  let _ ← scriptDest txo.pkScript
  let (assetKey, dest, srcKey, tokensrc) ← makeAssetKey params txo
  let d ← assetAmount txo
  return some ⟨assetKey, srcKey, dest != tokensrc, d⟩

/-- Apply a move under one key. The amount held is read from the bucket, not from `assets`. -/
def applyMove (bucket : AssetBucket) (key : Bytes) (m : Move) (assets : Map Bytes Int64) :
    Result (Map Bytes Int64) :=
  let held : Int64 := ((bucket key).getD 0).toInt64
  if m.out then .ok (assets.insert key (held + m.amount))
  else if m.amount ≤ held then .ok (assets.insert key (held - m.amount))
  else errorf "back value excees out value" []

/-- One output of the asset part. -/
def assetStep (bucket : AssetBucket) (svp : UInt32) (assets : Map Bytes Int64) (txo : TxOut) :
    Result (Map Bytes Int64) := do
  match ← assetMove params svp txo with
  | none => return assets
  | some m => applyMove bucket m.srcKey m (← applyMove bucket m.assetKey m assets)

def assetTx (bucket : AssetBucket) (assets : Map Bytes Int64) (tx : MsgTx) :
    Result (Map Bytes Int64) :=
  tx.txOut.foldlM (assetStep params bucket (importChain tx)) assets

def checkAssets (bucket : AssetBucket) (txs : List MsgTx) : Result Unit := do
  let _ ← txs.foldlM (assetTx params bucket) ∅
  return ()

/-! ## checkCrossChain -/

/-- `checkCrossChain`, on the transactions that follow the coinbase. -/
def checkCrossChain (txHash : MsgTx → Hash) (isSVP : Bool) (pool : IncomingPool)
    (bucket : AssetBucket) (txs : List MsgTx) : Result Unit := do
  match ← crossFees params chains txs with
  | .leave => return ()
  | .next =>
    if isSVP then return ()
    checkPool txHash pool txs
    checkAssets params bucket txs

end

end Zent
