import Zent.Viewpoint.Utxo

/-!
# The checks of one transaction

`btcd/blockchain/validate.go`: the context-free sanity check, the two checks of
the inputs (before and after the separator that contract execution inserts) and
the fee check. All four add `int64` amounts in maps keyed by token type: the
first three by the raw type, the fee check by a type from which this chain's own
id has been removed.

The geometry and rights checks of package `validate` and the fee table of package
`chainmap` are parameters. They read the transaction and the view, and do not
change the view of outputs.
-/

namespace Zent

open Go

/-- `btcutil.MaxHao`: 430 million coins of `10^8` hao. -/
def MaxHao : Int64 := 430000000 * 100000000

/-- The parameters of `chaincfg.Params` that the checks read. -/
structure Params where
  chainID : UInt32
  mainChainID : UInt32
  coinbaseMaturity : UInt16
  minBorderFee : Int64
  minContractDeployFee : Int64
  minRelayTxFee : Int64
  deriving DecidableEq, Repr

/-- What the checks call in other packages. -/
structure Rules where
  /-- `validate.CheckDefinitions` -/
  checkDefinitions : MsgTx → Result Unit
  /-- `validate.CheckTransactionInputs` -/
  checkInputs : MsgTx → UtxoViewpoint → Result Unit
  /-- `validate.CheckTransactionAdditionalInputs` -/
  checkAdditionalInputs : MsgTx → UtxoViewpoint → Result Unit
  /-- `chainmap` `CtxFees` from this chain to `dest`: for every chain on the way its fee
  script and its fee -/
  ctxFees : UInt32 → Result (List (Bytes × Int64))

/-- The two coins with a bounded supply. -/
def isCoin (tokenType : UInt64) : Bool := tokenType == FeeCoinTyp || tokenType == ZENTCoinTyp

/-! ## CheckTransactionSanity -/

/-- The scan for a contract output; once one is found no further script is read. -/
def contractStep (contract : Bool) (out : TxOut) : Result Bool := do
  if out.isSeparator then return contract
  if contract then return true
  return (← index out.pkScript 0) == contractAddr

/-- One output of the amount loop. -/
def sanityTotalStep (totals : Map UInt64 Int64) (txOut : TxOut) : Result (Map UInt64 Int64) := do
  if txOut.isSeparator || !txOut.isNumeric then return totals
  let hao ← numVal txOut.value
  ruleIf (hao < 0) .errBadTxOutValue "transaction output has negative value of %v"
    [.int hao.toInt]
  ruleIf (isCoin txOut.tokenType ∧ hao > MaxHao) .errBadTxOutValue
    "transaction output value of %v is higher than max allowed value of %v"
    [.int hao.toInt, .int MaxHao.toInt]
  let totals := bump totals txOut.tokenType hao
  let total := totals.get txOut.tokenType
  ruleIf (total < 0) .errBadTxOutValue "transaction output is negative" []
  ruleIf (isCoin txOut.tokenType ∧ total > MaxHao) .errBadTxOutValue
    "total value of all transaction outputs is %v which is higher than max allowed value of %v"
    [.int total.toInt, .int MaxHao.toInt]
  return totals

/-- One input of the duplicate search; `existing` are the outpoints seen so far. -/
def duplicateStep (contract : Bool) (existing : List OutPoint) (txIn : TxIn) :
    Result (List OutPoint) := do
  if txIn.zeroHash then return existing
  ruleIf (txIn.previousOutPoint ∈ existing) .errDuplicateTxInputs
    "transaction contains duplicate inputs" []
  ruleIf (contract ∧ txIn.sequence ≠ 0xFFFFFFFF) .errBadTxInput
    "transaction with contract call and unfinalized input" []
  return existing ++ [txIn.previousOutPoint]

def isNullOutpoint (o : OutPoint) : Bool := o.hash == zerohash

/-- One input of the search for null outpoints. -/
def nullStep (txIn : TxIn) : Result Unit := do
  if txIn.zeroHash then return ()
  ruleIf (isNullOutpoint txIn.previousOutPoint) .errBadTxInput
    "transaction input refers to previous output that is null" []

/-- The part of the sanity check that reads the inputs. -/
def sanityInputs (contract : Bool) (msgTx : MsgTx) : Result Unit := do
  if msgTx.isCrossChain then return ()
  let _ ← msgTx.txIn.foldlM (duplicateStep contract) []
  if msgTx.txIn.isEmpty || msgTx.zeroHashFirst then return ()
  msgTx.txIn.forM nullStep

def checkTransactionSanity (rules : Rules) (msgTx : MsgTx) : Result Unit := do
  ruleIf (msgTx.version &&& (TxExpire ||| TxNoLock) = TxExpire ||| TxNoLock) .errNoTxInputs
    "transaction has conflicting version flags" []
  let forfeit := msgTx.isForfeit
  let contract ← msgTx.txOut.foldlM contractStep false
  ruleIf ((forfeit ∨ contract) ∧ msgTx.version &&& TxExpire = 0 ∧ msgTx.lockTime ≠ 0)
    .errBadTxInput "transaction has contract call and LockTime is not 0" []
  ruleIf (forfeit ∧ msgTx.txDef ≠ []) .errBadTxInput
    "forfeiture transaction may not have definition" []
  ruleIf (msgTx.txIn = [] ∧ ¬contract) .errNoTxInputs "transaction has no inputs" []
  ruleIf (msgTx.txOut = []) .errNoTxOutputs "transaction has no outputs" []
  let _ ← msgTx.txOut.foldlM sanityTotalStep ∅
  rules.checkDefinitions msgTx
  sanityInputs contract msgTx

/-- What a transaction that passes the sanity check has passed. -/
theorem checkTransactionSanity_eq_ok {rules : Rules} {tx : MsgTx}
    (h : checkTransactionSanity rules tx = .ok ()) :
    ∃ contract totals, tx.txOut.foldlM sanityTotalStep ∅ = .ok totals ∧
      sanityInputs contract tx = .ok () := by
  obtain ⟨_, _, h⟩ := of_bind h
  obtain ⟨contract, _, h⟩ := of_bind h
  obtain ⟨_, _, h⟩ := of_bind h
  obtain ⟨_, _, h⟩ := of_bind h
  obtain ⟨_, _, h⟩ := of_bind h
  obtain ⟨_, _, h⟩ := of_bind h
  obtain ⟨totals, htotals, h⟩ := of_bind h
  obtain ⟨_, _, hins⟩ := of_bind h
  exact ⟨contract, totals, htotals, hins⟩

/-! ## The two checks of the inputs -/

/-- The amount of one input: it must be in range, and adding it to the total of its type must
neither wrap nor exceed the supply of the types in `capped`. -/
def amountStep (capped : UInt64 → Bool) (totalIns : Map UInt64 Int64) (utxo : UtxoEntry) :
    Result (Map UInt64 Int64) := do
  if utxo.tokenType &&& 1 != 0 then return totalIns
  let originTxHao ← numVal utxo.amount
  ruleIf (originTxHao < 0) .errBadTxOutValue "transaction output has negative value of %v"
    [.int originTxHao.toInt]
  ruleIf (isCoin utxo.tokenType ∧ originTxHao > MaxHao) .errBadTxOutValue
    "transaction output value of %v is higher than max allowed value of %v"
    [.int originTxHao.toInt, .int MaxHao.toInt]
  let lastHaoIn := totalIns.get utxo.tokenType
  let totalIns := bump totalIns utxo.tokenType originTxHao
  let total := totalIns.get utxo.tokenType
  ruleIf (total < lastHaoIn ∨ (capped utxo.tokenType ∧ total > MaxHao)) .errBadTxOutValue
    "total value of all transaction inputs is %v which is higher than max allowed value of %v"
    [.int total.toInt, .int MaxHao.toInt]
  return totalIns

/-- Look up what an input refers to; it must exist and be unspent. (The hex dump of the whole
transaction that ends one of the two texts is not kept among the arguments.) -/
def unspentEntry (view : UtxoViewpoint) (format : String) (hash : Hash) (i : Nat) (txIn : TxIn) :
    Result UtxoEntry :=
  match view.lookupEntry txIn.previousOutPoint with
  | none => ruleError .errMissingTxOut format [.outPoint txIn.previousOutPoint, .hash hash, .int i]
  | some utxo => do
    ruleIf (utxo.isSpent = true) .errMissingTxOut format
      [.outPoint txIn.previousOutPoint, .hash hash, .int i]
    return utxo

/-- The coins of a coinbase may be spent only after `coinbaseMaturity` blocks. -/
def checkMaturity (params : Params) (txHeight : Int32) (o : OutPoint) (utxo : UtxoEntry) :
    Result Unit := do
  if !utxo.isCoinBase then return ()
  let originHeight := utxo.blockHeight
  let coinbaseMaturity := Int32.ofNat params.coinbaseMaturity.toNat
  ruleIf (originHeight ≠ 0 ∧ txHeight - originHeight < coinbaseMaturity) .errImmatureSpend
    ("tried to spend coinbase transaction output %v from height %v at height %v before " ++
      "required maturity of %v blocks")
    [.outPoint o, .int originHeight.toInt, .int txHeight.toInt, .int coinbaseMaturity.toInt]

section

variable (params : Params) (rules : Rules) (txHash : MsgTx → Hash)

/-- One input of `CheckTransactionInputs`. -/
def inputStep (view : UtxoViewpoint) (hash : Hash) (txHeight : Int32)
    (totalIns : Map UInt64 Int64) (p : TxIn × Nat) : Result (Map UInt64 Int64) := do
  let (txIn, i) := p
  if txIn.isSepadding then return totalIns
  let utxo ← unspentEntry view ("validate: output %v referenced from transaction %s:%d either " ++
    "does not exist or has already been spent. tx = %s") hash i txIn
  checkMaturity params txHeight txIn.previousOutPoint utxo
  amountStep isCoin totalIns utxo

/-- `CheckTransactionInputs`. A transaction whose first input refers to no output is taken for
a coinbase and passes unchecked; the loop ends at the first separator. -/
def checkTransactionInputs (tx : MsgTx) (txHeight : Int32) (view : UtxoViewpoint) :
    Result Unit := do
  if tx.txIn.isEmpty || tx.isBtcL2 || tx.isCrossChain then return ()
  if tx.zeroHashFirst then return ()
  rules.checkInputs tx view
  let before := tx.txIn.zipIdx.takeWhile (fun p => !p.1.isSeparator)
  let _ ← before.foldlM (inputStep params view (txHash tx) txHeight) ∅
  return ()

/-- One input of `CheckAdditionalTransactionInputs`; `additional` says whether a separator has
been passed. -/
def additionalStep (view : UtxoViewpoint) (hash : Hash) (s : Bool × Map UInt64 Int64)
    (p : TxIn × Nat) : Result (Bool × Map UInt64 Int64) := do
  let (additional, totalIns) := s
  let (txIn, i) := p
  if txIn.isSeparator then return (true, totalIns)
  if txIn.zeroHash then return (additional, totalIns)
  if !additional then return (additional, totalIns)
  let utxo ← unspentEntry view ("output %v referenced from transaction %s:%d either does not " ++
    "exist or has already been spent") hash i txIn
  return (additional, ← amountStep (· == FeeCoinTyp) totalIns utxo)

def checkAdditionalTransactionInputs (tx : MsgTx) (view : UtxoViewpoint) : Result Unit := do
  if tx.txIn.isEmpty || tx.zeroHashFirst then return ()
  rules.checkAdditionalInputs tx view
  if tx.isCrossChain then return ()
  let _ ← tx.txIn.zipIdx.foldlM (additionalStep view (txHash tx)) (false, ∅)
  return ()

/-! ## CheckTransactionFees -/

/-- The state of the first loop: fee coins and other tokens paid to the miner of this chain. -/
structure DirectPay where
  directFee : Int64
  directPay : Map UInt64 Int64

/-- One output of the loop over what is paid directly to the miner. -/
def directPayStep (s : DirectPay) (txOut : TxOut) : Result DirectPay := do
  if txOut.isSeparator || txOut.tokenType &&& 3 != 0 || txOut.value.isNone then return s
  if ← txOut.isContractCall then return s
  if (← slice txOut.pkScript 21 25) == [OP_PAYMINER, 0, 0, 0] then
    let val ← numVal txOut.value
    if txOut.tokenType == FeeCoinTyp then return { s with directFee := s.directFee + val }
    return { s with directPay := bump s.directPay txOut.tokenType val }
  return s

/-- The accounting key of a spent type: this chain's own id is removed. -/
def inKey (t : UInt64) : UInt64 :=
  if (t >>> 40).toUInt32 == params.chainID then t &&& 0xFFFFFFFFFF else t

/-- The accounting key of a created type. Unlike `inKey` it masks the chain id of the type
before comparing it. -/
def outKey (t : UInt64) : UInt64 :=
  if (t >>> 40).toUInt32 &&& 0x3FFFFF == params.chainID then t &&& 0xFFFFFFFFFF else t

/-- One input of the fee check. What is not in the view is passed over. -/
def feeInStep (view : UtxoViewpoint) (totalIns : Map UInt64 Int64) (txIn : TxIn) :
    Result (Map UInt64 Int64) := do
  if txIn.isSepadding then return totalIns
  match view.lookupEntry txIn.previousOutPoint with
  | none => return totalIns
  | some utxo =>
    if utxo.tokenType &&& 3 != 0 then return totalIns
    return bump totalIns (inKey params utxo.tokenType) (← numVal utxo.amount)

/-- The state of the output loop of the fee check. -/
structure FeeOuts where
  totalHaoOut : Map UInt64 Int64
  mincontractDeployFee : Int64
  crosschainfees : Map UInt32 Int64

/-- One chain on the way of a cross-chain output: its fee is due. -/
def pathFeeStep (fees : Map UInt32 Int64) (p : Bytes × Int64) : Result (Map UInt32 Int64) := do
  return bump fees (← scriptDest p.1) (-p.2)

/-- The cross-chain fees after one output: a transfer owes the fee of every chain on its way,
a payment to the miners of a chain settles what that chain is owed. -/
def crosschainfeesStep (fees : Map UInt32 Int64) (txOut : TxOut) : Result (Map UInt32 Int64) := do
  if ← txOut.isCrossChain then
    (← rules.ctxFees (← scriptDest txOut.pkScript)).foldlM pathFeeStep fees
  else if ← txOut.isContractCall then return fees
  else if txOut.pkScript.length > 21 then
    if (← index txOut.pkScript 21) == OP_PAYMINER then
      let dest ← scriptDest txOut.pkScript
      let dest := if dest == 0 then params.chainID else dest
      return bump fees dest (← numVal txOut.value)
    return fees
  else return fees

/-- The fee for the code of a contract that an output creates. -/
def deployFee (txOut : TxOut) : Result Int64 := do
  if ← txOut.isContractCall then
    if txOut.pkScript.length > 25 then
      if (← slice txOut.pkScript 21 25) == [0, 0, 0, 0] then
        return Int64.ofNat (txOut.pkScript.length - 25) * params.minContractDeployFee
  return 0

/-- One output of the fee check. -/
def feeOutStep (s : FeeOuts) (txOut : TxOut) : Result FeeOuts := do
  if txOut.isSeparator || txOut.tokenType &&& 3 != 0 then return s
  if txOut.value.isNone then return s
  let fees ← crosschainfeesStep params rules s.crosschainfees txOut
  let totals := bump s.totalHaoOut (outKey params txOut.tokenType) (← numVal txOut.value)
  return ⟨totals, s.mincontractDeployFee + (← deployFee params txOut), fees⟩

/-- Every total out must be covered by the total in, exactly unless it is the fee coin. -/
def coveredStep (hash : Hash) (totalIns : Map UInt64 Int64) (p : (_ : UInt64) × Int64) :
    Result Unit := do
  let ⟨typ, out⟩ := p
  let v := totalIns.get typ
  ruleIf (v < out) .errSpendTooHigh
    ("total type %d value of all transaction inputs for transaction %v is %v which is less " ++
      "than the output amount of %v") [.int typ.toNat, .hash hash, .int v.toInt, .int out.toInt]
  ruleIf (typ ≠ FeeCoinTyp ∧ v ≠ out) .errSpendTooHigh
    ("total %d type token value of all transaction inputs for transaction %v is %v which is " ++
      "not equal to the output amount of %v")
    [.int typ.toNat, .hash hash, .int v.toInt, .int out.toInt]

/-- Every total in, other than of the fee coin, must be spent exactly. -/
def spentStep (hash : Hash) (totalHaoOut : Map UInt64 Int64) (p : (_ : UInt64) × Int64) :
    Result Unit := do
  let ⟨typ, out⟩ := p
  let v := totalHaoOut.get typ
  ruleIf (typ ≠ FeeCoinTyp ∧ v ≠ out) .errSpendTooHigh
    ("total %d type token value of all transaction inputs for transaction %v is %v which is " ++
      "not equal to the amount spent of %v")
    [.int typ.toNat, .hash hash, .int out.toInt, .int v.toInt]

/-- The two loops that compare what goes in with what goes out, and the fee that is left. -/
def settleFees (tx : MsgTx) (totalIns : Map UInt64 Int64) (s : FeeOuts) : Result Int64 := do
  s.crosschainfees.entries.forM (fun p =>
    ruleIf (p.2 ≠ 0) .errBadTxOutValue "Incorrect tx fees in crosschain tx" [])
  s.totalHaoOut.entries.forM (coveredStep (txHash tx) totalIns)
  totalIns.entries.forM (spentStep (txHash tx) s.totalHaoOut)
  let txFeeInHao := totalIns.get FeeCoinTyp - s.totalHaoOut.get FeeCoinTyp
  let borderFee := Int64.ofNat (tx.txDef.countP Definition.isRootBorder) * params.minBorderFee
  failIf (txFeeInHao < borderFee + s.mincontractDeployFee + params.minRelayTxFee)
    (.errorf ⟨"Transaction fee is less than the mandatory storage fee.", []⟩)
  return txFeeInHao - s.mincontractDeployFee - borderFee

/-- `CheckTransactionFees`: the fee of the transaction and what it pays the miner in other
tokens. Maps are ranged over in the order of their entries; the order decides only which of
several errors is reported. -/
def checkTransactionFees (tx : MsgTx) (view : UtxoViewpoint) :
    Result (Int64 × Map UInt64 Int64) := do
  let direct ← tx.txOut.foldlM directPayStep ⟨0, ∅⟩
  if tx.isCrossChain then return (direct.directFee, direct.directPay)
  let totalIns ← tx.txIn.foldlM (feeInStep params view) ∅
  let outs ← tx.txOut.foldlM (feeOutStep params rules) ⟨∅, 0, ∅⟩
  let fee ← settleFees params txHash tx totalIns outs
  return (fee + direct.directFee, direct.directPay)

end

/-! ## A minimal setting

For concrete runs: a chain with id 1 whose other packages accept everything. -/

/-- Rules that accept everything, on a chain map without fees. -/
def Rules.permissive : Rules where
  checkDefinitions := fun _ => .ok ()
  checkInputs := fun _ _ => .ok ()
  checkAdditionalInputs := fun _ _ => .ok ()
  ctxFees := fun _ => .ok []

def Params.plain : Params := ⟨1, 1, 100, 1000, 1000, 0⟩

/-- A script that pays to a key. -/
def payScript : Bytes := List.replicate 21 0 ++ [0x41, 0, 0, 0]

/-- An unspent amount of fee coins. -/
def coinEntry (v : Int64) : UtxoEntry :=
  { tokenType := FeeCoinTyp, amount := some (.numToken v), rights := none, pkScript := payScript,
    blockHeight := 1, isCoinBase := false, isSpent := false, isModified := false,
    isMonitoring := false, monitor := [] }

/-- A view with one unspent output. -/
def oneCoinView : UtxoViewpoint := AList.insert ⟨7, 0⟩ (coinEntry 100000000) ∅

theorem oneCoinView_lookup {o : OutPoint} {e : UtxoEntry} (h : oneCoinView.lookup o = some e) :
    e = coinEntry 100000000 := by
  obtain ⟨-, he⟩ | ⟨-, ⟨⟩⟩ := lookup_insert_cases h
  exact he

/-- An output of fee coins. -/
def coinOut (v : Int64) : TxOut := ⟨⟨FeeCoinTyp, some (.numToken v), none⟩, payScript⟩

/-- An ordinary transaction with the given inputs and outputs. -/
def plainTx (ins : List TxIn) (outs : List TxOut) : MsgTx := ⟨1, [], ins, outs, 0, []⟩

end Zent
