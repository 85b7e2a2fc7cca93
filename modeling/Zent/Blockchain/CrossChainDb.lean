import Zent.Go.Range
import Zent.Blockchain.CrossChainAssets

/-!
# Cross-chain bookkeeping

`dbCheckCrossChain`, `dbPutCrossChain` and `dbRestoreCrossChain` of `btcd/blockchain/chainio.go`:
what connecting and disconnecting a block does to three buckets.

* **INCOMINGPOOL** holds the transfers that wait to be imported, by the block they come from. A
  simplified node (SVP) of another chain puts them in, a block of this chain takes them out.
* **ROLLBACKPOOL** holds, by height, what the block at that height took out.
* **XCAssets** holds how much of an asset is out on a chain.

Only the order in which a map is ranged over is left open. Stored data are modelled by what they
decode to; no data and data of length zero are the same.
-/

namespace Zent

open Function

open Go

/-- What the bookkeeping asks of the rest of the node. -/
structure CrossEnv where
  isSVP : Bool
  params : Params
  /-- `ChainParams.Name == "mainnet"` -/
  mainnet : Bool
  pubKeyHashAddrID : UInt8
  scriptHashAddrID : UInt8
  multiSigAddrID : UInt8
  chains : ChainMap
  txHash : MsgTx → Hash

/-- A block: the transactions are those after the coinbase. -/
structure CrossBlock where
  hash : Hash
  height : Int32
  txs : List MsgTx
  deriving DecidableEq, Repr

/-- Where the transfers of a block are stored. -/
def XchainData.key (x : XchainData) : OutPoint := ⟨x.hash, x.chainID ||| CrossChainFalg⟩

/-- `Serialize`: nothing is left of an entry without transfers. -/
def XchainData.serialize (x : XchainData) : Option XchainData :=
  if x.txs.entries.isEmpty then none else some x

/-- The three buckets. -/
structure CrossDb where
  incoming : OutPoint → Option XchainData
  rollback : UInt32 → Option (List (Option XchainData))
  assets : AssetBucket

/-- Transfers are stored under their own key. -/
def Keyed (incoming : OutPoint → Option XchainData) : Prop :=
  ∀ k x, incoming k = some x → x.key = k

/-- The buckets as the node leaves them: transfers are stored under their own key, and an amount
of zero is not stored. -/
structure CrossState extends CrossDb where
  keyed : Keyed incoming
  nonzero : ∀ key, assets key ≠ some 0

/-- An order in which the transfers of an entry are visited. -/
abbrev TransferOrder : Type := Shuffle ((_ : OutPoint) × MsgXrossL3)

section

variable (env : CrossEnv)

/-- `validCrossChainScript` -/
def CrossEnv.validCrossChainScript (script : Bytes) : Result Bool := do
  if script.length < 22 then return false
  let op ← index script 21
  let addr ← index script 0
  if op = OP_PAY2PKH then return addr == env.pubKeyHashAddrID
  if op = OP_PAY2SCRIPTH then return addr == env.scriptHashAddrID
  if op = OP_PAYMULTISIG then return addr == env.multiSigAddrID
  if op = OP_PAYMINER then return !env.mainnet || addr == env.pubKeyHashAddrID
  if script.length < 29 ∨ op ≠ OP_PAYCROSSCHAIN then return false
  let pay ← index script 25
  let expected :=
    if addr = env.pubKeyHashAddrID then some OP_PAY2PKH
    else if addr = env.scriptHashAddrID then some OP_PAY2SCRIPTH
    else if addr = env.multiSigAddrID then some OP_PAYMULTISIG
    else none
  if expected ≠ some pay then return false
  return env.chains.known ((← scriptDest script) &&& 0x3FFFFF)

/-! ## Transfers of another chain -/

/-- The destination of an output that leaves its chain. -/
def crossDest (txo : TxOut) : Result (Option UInt32) := do
  if txo.isSeparator then return none
  if ← txo.isContractCall then return none
  let op ← index txo.pkScript 21
  if op ≠ OP_PAYMINER ∧ op ≠ OP_PAYCROSSCHAIN then return none
  let dest ← scriptDest txo.pkScript
  if op = OP_PAYMINER ∧ dest = 0 then return none
  return some dest

/-- The chain a transfer comes from. -/
def CrossEnv.sourceOf (tx : MsgTx) : UInt32 :=
  match importSource tx with
  | some o => o.index &&& ~~~CrossChainFalg
  | none => env.params.chainID

/-- A transfer from `src` to `dest` passes through the main chain. -/
def CrossEnv.passes (src dest : UInt32) : Result Bool := do
  if dest = env.params.chainID ∨ dest = 0 then return false
  if !(← env.chains.passThru env.params.chainID src dest) then return false
  env.chains.passThru env.params.mainChainID env.params.chainID dest

def CrossEnv.normalizeTxo (txo : TxOut) : Result TxOut := do
  let dc ← scriptDest txo.pkScript
  let op ← index txo.pkScript 21
  let pkScript :=
    if op = OP_PAYCROSSCHAIN then txo.pkScript.take 21 ++ txo.pkScript.drop 25
    else if op = OP_PAYMINER ∧ dc = env.params.mainChainID then
      txo.pkScript.take 22 ++ [0, 0, 0] ++ txo.pkScript.drop 25
    else txo.pkScript
  let tokenType :=
    if (txo.tokenType >>> 40).toUInt32 = env.params.mainChainID ∧ dc = env.params.mainChainID then
      txo.tokenType &&& 0xFFFFFFFFFF
    else txo.tokenType
  return { txo with pkScript := pkScript, tokenType := tokenType }

/-- What is stored for an output on its way to `dest`. -/
def CrossEnv.transfer (txo : TxOut) (dest : UInt32) : Result MsgXrossL3 := do
  let t ← if dest = env.params.mainChainID then env.normalizeTxo txo else pure txo
  let tokenType :=
    if (txo.tokenType >>> 40).toUInt32 = 0 then
      t.tokenType ||| (env.params.chainID.toUInt64 <<< (40 : UInt64))
    else t.tokenType
  return ⟨[], { t with tokenType := tokenType }⟩

/-- One output, when its block is checked. -/
def CrossEnv.checkTransfer (src : UInt32) (txo : TxOut) : Result Unit := do
  match ← crossDest txo with
  | none => return ()
  | some dest =>
    errorIf (¬ (← env.validCrossChainScript txo.pkScript)) "Invalid cross chain script %v"
      [.bytes txo.pkScript]
    let _ ← env.passes src dest

/-- One output, when its block is connected. -/
def CrossEnv.putTransfer (txhash : Hash) (src : UInt32) (txs : Map OutPoint MsgXrossL3)
    (p : TxOut × Nat) : Result (Map OutPoint MsgXrossL3) := do
  match ← crossDest p.1 with
  | none => return txs
  | some dest =>
    if ← env.passes src dest then
      return txs.insert ⟨txhash, UInt32.ofNat p.2⟩ (← env.transfer p.1 dest)
    return txs

/-- The transfers of one transaction, added to others. -/
def CrossEnv.putTransfers (txs : Map OutPoint MsgXrossL3) (tx : MsgTx) :
    Result (Map OutPoint MsgXrossL3) :=
  tx.txOut.zipIdx.foldlM (env.putTransfer (env.txHash tx) (env.sourceOf tx)) txs

/-- Transfers join those that are stored under their key already; where there are none, `data` is
stored. -/
def joinEntry (incoming : OutPoint → Option XchainData) (x : XchainData)
    (data : Option XchainData) : OutPoint → Option XchainData :=
  match incoming x.key with
  | none => update incoming x.key data
  | some d =>
    let txs : List (OutPoint × MsgXrossL3) := d.txs.entries.map fun e => (e.1, e.2)
    update incoming x.key { x with txs := putAll x.txs txs }.serialize

/-- The entry of an import that travels on. -/
def CrossEnv.onward (tx : MsgTx) (o : OutPoint) (txs : Map OutPoint MsgXrossL3) : XchainData :=
  { chainID := env.sourceOf tx
    hash := o.hash
    height := ((tx.txIn.head?.map TxIn.signatureIndex).getD 0).toInt32
    txs := txs
    finalized := 0 }

/-- One transaction of a connected block, with the transfers that begin in the block. -/
def CrossEnv.putTransferTx (s : (OutPoint → Option XchainData) × Map OutPoint MsgXrossL3)
    (tx : MsgTx) : Result ((OutPoint → Option XchainData) × Map OutPoint MsgXrossL3) :=
  match importSource tx with
  | some o => do
    let txs ← env.putTransfers ∅ tx
    if txs.entries.isEmpty then return s
    let xchain := env.onward tx o txs
    return (joinEntry s.1 xchain xchain.serialize, s.2)
  | none => return (s.1, ← env.putTransfers s.2 tx)

def CrossEnv.putTransferBlock (incoming : OutPoint → Option XchainData) (block : CrossBlock) :
    Result (OutPoint → Option XchainData) := do
  let s ← block.txs.foldlM env.putTransferTx (incoming, ∅)
  if s.2.entries.isEmpty then return s.1
  let bxchain : XchainData := ⟨env.params.chainID, block.hash, block.height, s.2, 0⟩
  return joinEntry s.1 bxchain bxchain.serialize

/-- Where a disconnected block looks for the transfers of a transaction. -/
def CrossEnv.restoreKey (block : CrossBlock) (tx : MsgTx) : OutPoint :=
  match importSource tx with
  | some o => o
  | none => ⟨block.hash, env.params.chainID ||| CrossChainFalg⟩

/-- Disconnecting deletes all that is stored there. -/
def CrossEnv.restoreTransferBlock (incoming : OutPoint → Option XchainData) (block : CrossBlock) :
    OutPoint → Option XchainData :=
  block.txs.foldl (fun m tx => update m (env.restoreKey block tx) none) incoming

end

/-! ## Imports of this chain -/

/-- One output of an import, when its block is checked. -/
def checkTake (order : TransferOrder) (left : Map OutPoint MsgXrossL3) (txo : TxOut) :
    Result (Map OutPoint MsgXrossL3) := do
  match ← findMatch txo (order.run left.entries) with
  | some i => return left.erase i
  | none => errorf "Cross chain tx not match INCOMINGPOOL" []

/-- One transaction, when its block is checked. -/
def checkImport (order : TransferOrder) (incoming : OutPoint → Option XchainData) (tx : MsgTx) :
    Result Unit :=
  match importSource tx with
  | none => .ok ()
  | some o =>
    match incoming o with
    | none => errorf "Cross chain tx not found in INCOMINGPOOL" []
    | some xchain => do
      let left ← tx.txOut.foldlM (checkTake order) xchain.txs
      errorIf (left.entries ≠ []) "Cross chain tx not match INCOMINGPOOL" []

/-- What is left of an entry, and what has been taken. -/
structure Taken where
  left : Map OutPoint MsgXrossL3
  removed : Map OutPoint MsgXrossL3

/-- One output of an import, when its block is connected. -/
def putTake (order : TransferOrder) (s : Taken) (txo : TxOut) : Result Taken := do
  match ← findMatch txo (order.run s.left.entries) with
  | none => return s
  | some i =>
    match s.left.lookup i with
    | none => return s
    | some t => return ⟨s.left.erase i, s.removed.insert i t⟩

/-- The pool and the records for the rollback. -/
structure PutPool where
  incoming : OutPoint → Option XchainData
  rbd : List (Option XchainData)

/-- One transaction, when its block is connected. -/
def putImport (order : TransferOrder) (s : PutPool) (tx : MsgTx) : Result PutPool :=
  match importSource tx with
  | none => .ok s
  | some o =>
    match s.incoming o with
    -- already processed
    | none => .ok s
    | some xchain => do
      let t ← tx.txOut.foldlM (putTake order) ⟨xchain.txs, ∅⟩
      if t.left.entries.isEmpty then
        return ⟨update s.incoming o none, s.rbd ++ [some xchain]⟩
      return ⟨update s.incoming o { xchain with txs := t.left }.serialize,
        s.rbd ++ [{ xchain with txs := t.removed }.serialize]⟩

/-- One record of the rollback. -/
def restoreImport (incoming : OutPoint → Option XchainData) (data : Option XchainData) :
    Result (OutPoint → Option XchainData) :=
  match data with
  | none => errorf "bad XchainData" []
  | some xchain => .ok (joinEntry incoming xchain data)

/-- The pool with all that is recorded at a height. -/
def restorePool (db : CrossDb) (height : UInt32) : Result (OutPoint → Option XchainData) :=
  match db.rollback height with
  | none => .ok db.incoming
  | some rbd => rbd.foldlM restoreImport db.incoming

/-! ## Assets -/

/-- What one output moves, and what the restoring looks at besides. -/
structure Booking extends Move where
  contractCall : Bool
  pkScript : Bytes
  deriving DecidableEq, Repr

/-- The amount of an output. -/
def movedAmount (txo : TxOut) : Result Int64 :=
  if txo.tokenType &&& 1 = 0 then numVal txo.value else .ok 1

/-- What an output of a transaction from `svp` moves. -/
def booking (params : Params) (p : UInt32 × TxOut) : Result (Option Booking) := do
  if p.2.isSeparator then return none
  if ← staysHere p.1 p.2 then return none
  let (assetKey, dest, srcKey, tokensrc) ← makeAssetKey params p.2
  let d ← movedAmount p.2
  return some ⟨⟨assetKey, srcKey, dest != tokensrc, d⟩, ← p.2.isContractCall, p.2.pkScript⟩

/-- What a list of outputs moves. -/
def bookings (params : Params) : List (UInt32 × TxOut) → Result (List Booking)
  | [] => .ok []
  | p :: rest => do
    let b ← booking params p
    return b.toList ++ (← bookings params rest)

/-- One output, when its block is checked. -/
def checkBooking (params : Params) (assets : AssetBucket) (p : UInt32 × TxOut) : Result Unit := do
  match ← booking params p with
  | none => return ()
  | some b =>
    errorIf (b.out = false ∧ ¬ b.amount ≤ held assets b.assetKey) "back value excees out value" []
    errorIf (b.out = false ∧ ¬ b.amount ≤ held assets b.srcKey) "back value excees out value" []

/-- Store an amount; zero is deleted. -/
def storeAmount (assets : AssetBucket) (key : Bytes) (v : Int64) : AssetBucket :=
  update assets key (if v = 0 then none else some v.toUInt64)

/-- The amount under a key after a move: what comes back is subtracted if there is enough. -/
def Move.book (m : Move) (v : Int64) : Int64 :=
  if m.out then v + m.amount else if m.amount ≤ v then v - m.amount else v

/-- The amount under a key after a move has been undone. -/
def Move.unbook (m : Move) (v : Int64) : Int64 := if m.out then v - m.amount else v + m.amount

/-- Change the amounts under both keys of a move. Both are read before one is written. -/
def Move.change (m : Move) (f : Int64 → Int64) (assets : AssetBucket) : AssetBucket :=
  storeAmount (storeAmount assets m.assetKey (f (held assets m.assetKey))) m.srcKey
    (f (held assets m.srcKey))

/-- One output, when its block is connected. -/
def putBooking (params : Params) (assets : AssetBucket) (p : UInt32 × TxOut) :
    Result AssetBucket := do
  match ← booking params p with
  | none => return assets
  | some b => return b.change b.book assets

/-- One output, when its block is disconnected: contract calls are left out, and the script must be
valid. -/
def CrossEnv.restoreBooking (env : CrossEnv) (assets : AssetBucket) (p : UInt32 × TxOut) :
    Result AssetBucket := do
  if p.2.isSeparator then return assets
  if ← p.2.isContractCall then return assets
  if ← staysHere p.1 p.2 then return assets
  errorIf (¬ (← env.validCrossChainScript p.2.pkScript)) "Invalid cross chain script %v"
    [.bytes p.2.pkScript]
  match ← booking env.params p with
  | none => return assets
  | some b => return b.change b.unbook assets

/-! ## The three functions -/

variable (env : CrossEnv) (order : TransferOrder) (db : CrossDb) (block : CrossBlock)

def dbCheckCrossChain : Result Unit :=
  if env.isSVP then
    block.txs.forM fun tx => tx.txOut.forM (env.checkTransfer (env.sourceOf tx))
  else do
    block.txs.forM (checkImport order db.incoming)
    (assetOuts block.txs).forM (checkBooking env.params db.assets)

def dbPutCrossChain :
    Result CrossDb := do
  if env.isSVP then
    return { db with incoming := ← env.putTransferBlock db.incoming block }
  let s ← block.txs.foldlM (putImport order) ⟨db.incoming, []⟩
  let rollback :=
    if s.rbd.isEmpty then db.rollback
    else update db.rollback block.height.toUInt32 (some s.rbd)
  let assets ← (assetOuts block.txs).foldlM (putBooking env.params) db.assets
  return ⟨s.incoming, rollback, assets⟩

def dbRestoreCrossChain : Result CrossDb := do
  if env.isSVP then
    return { db with incoming := env.restoreTransferBlock db.incoming block }
  let incoming ← restorePool db block.height.toUInt32
  let rollback := update db.rollback block.height.toUInt32 none
  let assets ← (assetOuts block.txs).foldlM env.restoreBooking db.assets
  return ⟨incoming, rollback, assets⟩

end Zent
