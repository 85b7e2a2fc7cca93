import Zent.Go.Outcome

/-!
# Transactions on the wire

The data of package `wire` (with the tokens of package `token`) that the chain
rules read: outpoints, inputs, outputs and definitions, and the predicates the
rules are written with.

Script bytes are read by position, so a predicate on a short script panics; it
returns an `Outcome`. A hash is 32 bytes that nothing here looks into, so it is a
`BitVec 256`. The transaction hash (a double SHA-256 of the encoding without
signatures and without what contract execution appends) is a parameter of the
modules that use it.
-/

namespace Zent

open Go

/-- A 32 byte hash. -/
abbrev Hash : Type := BitVec 256

/-- `chainhash.Hash{}` -/
def zerohash : Hash := 0

/-- A byte string. -/
abbrev Bytes : Type := List UInt8

/-- The hash of a miner's public key. -/
abbrev Address := BitVec 160

instance lawfulAddress : LawfulBEq Address := inferInstance

/-! ## Constants -/

/-- type of the coin that pays transaction fees -/
def FeeCoinTyp : UInt64 := 0
/-- type of the ZENT coin -/
def ZENTCoinTyp : UInt64 := 0x10000000000
/-- marks a separator among definitions and outputs -/
def DefTypeSeparator : UInt64 := 0xFC
/-- the bit of an outpoint index that marks a cross-chain input -/
def CrossChainFalg : UInt32 := 0x800000
/-- chain id of the BTC layer-2 chain -/
def BTCCHAINID : UInt32 := 0x400003
def OP_PAY2PKH : UInt8 := 0x41
def OP_PAY2SCRIPTH : UInt8 := 0x42
def OP_PAYMULTISIG : UInt8 := 0x43
def OP_PAYMINER : UInt8 := 0x44
def OP_PAY2NONE : UInt8 := 0x45
def OP_PAYCROSSCHAIN : UInt8 := 0x66
/-- first byte of a contract address -/
def contractAddr : UInt8 := 0x88
def TxTypeMask : Int32 := 0xF
def TxVersion : Int32 := 1
def ForfeitTxVersion : Int32 := 2
def TxNoLock : Int32 := 0x10
def TxNoDefine : Int32 := 0x20
def TxExpire : Int32 := 0x40

/-- `btcec.PubKeyBytesLenCompressed` -/
def PubKeyBytesLenCompressed : Nat := 33

/-! ## Inputs -/

/-- A reference to an output of an earlier transaction. -/
structure OutPoint where
  hash : Hash
  index : UInt32
  deriving DecidableEq, Repr

/-- A transaction input. -/
structure TxIn where
  previousOutPoint : OutPoint
  sequence : UInt32
  signatureIndex : UInt32
  deriving DecidableEq, Repr

/-- The previous outpoint has the zero hash: the input refers to no output. -/
def TxIn.zeroHash (t : TxIn) : Bool := t.previousOutPoint.hash == zerohash

def TxIn.isSeparator (t : TxIn) : Bool :=
  t.zeroHash && t.previousOutPoint.index == 0 && t.signatureIndex == 0 && t.sequence == 0

def TxIn.isSepadding (t : TxIn) : Bool := t.zeroHash && t.previousOutPoint.index == 0

/-- A separator refers to no output. -/
theorem TxIn.zeroHash_of_isSeparator {t : TxIn} (h : t.isSeparator = true) : t.zeroHash = true := by
  simp only [TxIn.isSeparator, Bool.and_eq_true] at h
  exact h.1.1.1

/-- What is skipped as separator or padding refers to no output. -/
theorem TxIn.zeroHash_of_isSepadding {t : TxIn} (h : t.isSepadding = true) : t.zeroHash = true := by
  simp only [TxIn.isSepadding, Bool.and_eq_true] at h
  exact h.1

/-! ## Outputs -/

/-- The value of a token: an amount, or the hash of a polygon. -/
inductive TokenValue where
  | numToken (val : Int64)
  | hashToken (hash : Hash)
  deriving DecidableEq, Repr

/-- A token. The value is `none` where the interface is nil. -/
structure Token where
  /-- bit 0: hash value instead of amount; bit 1: with rights -/
  tokenType : UInt64
  value : Option TokenValue
  rights : Option Hash
  deriving DecidableEq, Repr

def Token.isNumeric (t : Token) : Bool := t.tokenType &&& 1 == 0

/-- The type assertion `v.(*token.NumToken).Val`. -/
def numVal {ε : Type} (v : Option TokenValue) : Outcome ε Int64 :=
  match v with
  | some (.numToken val) => .ok val
  | _ => crash

/-- The type assertion `v.(*token.HashToken).Hash`. -/
def hashVal {ε : Type} (v : Option TokenValue) : Outcome ε Hash :=
  match v with
  | some (.hashToken hash) => .ok hash
  | _ => crash

theorem numVal_eq_ok {ε : Type} {v : Option TokenValue} {x : Int64} :
    numVal (ε := ε) v = .ok x ↔ v = some (.numToken x) := by
  cases v with
  | none => simp [numVal, crash]
  | some val =>
    cases val with
    | numToken a => simp [numVal]
    | hashToken h => simp [numVal, crash]

/-- A transaction output. -/
structure TxOut extends Token where
  pkScript : Bytes
  deriving DecidableEq, Repr

def TxOut.isSeparator (t : TxOut) : Bool := t.tokenType == DefTypeSeparator

section Scripts

variable {ε : Type}

/-- `binary.LittleEndian.Uint32(b)`: the first four bytes. -/
def littleEndianUint32 (b : Bytes) : Outcome ε UInt32 :=
  match b with
  | b0 :: b1 :: b2 :: b3 :: _ =>
    .ok (b0.toUInt32 ||| (b1.toUInt32 <<< 8) ||| (b2.toUInt32 <<< 16) ||| (b3.toUInt32 <<< 24))
  | _ => crash

def TxOut.isContractCall (t : TxOut) : Outcome ε Bool := do
  return (← index t.pkScript 0) == contractAddr

def TxOut.isCrossChain (t : TxOut) : Outcome ε Bool := do
  if (← index t.pkScript 0) == contractAddr then return false
  return (← index t.pkScript 21) == OP_PAYCROSSCHAIN

def TxOut.crossing (t : TxOut) : Outcome ε Bool := do
  if (← index t.pkScript 0) == contractAddr then return false
  let op ← index t.pkScript 21
  return op == OP_PAYCROSSCHAIN || op == OP_PAYMINER

/-- The chain id that follows the pay instruction of a script. -/
def scriptDest (pkScript : Bytes) : Outcome ε UInt32 := do
  return (← littleEndianUint32 (← slice pkScript 21 pkScript.length)) >>> 8

def TxOut.destChain (t : TxOut) : Outcome ε UInt32 := do
  if (← index t.pkScript 0) == contractAddr then return 0
  let op ← index t.pkScript 21
  if op != OP_PAYCROSSCHAIN && op != OP_PAYMINER then return 0
  scriptDest t.pkScript

/-- The three bytes after the pay instruction are zero. -/
def zeroDest (pkScript : Bytes) : Outcome ε Bool := do
  if pkScript.length == 22 then return true
  return (← slice pkScript 22 25) == [0, 0, 0]

def TxOut.isNopaying (t : TxOut) : Outcome ε Bool := do
  if t.tokenType &&& 1 == 0 then
    if (← numVal t.value) == 0 then return true
  let b0 ← index t.pkScript 0
  if b0 == contractAddr then return false
  if b0 == OP_PAYCROSSCHAIN then return true
  if t.pkScript.length < 22 then return true
  let op ← index t.pkScript 21
  if op == OP_PAY2NONE then
    if ← zeroDest t.pkScript then return true
  if op == OP_PAYMINER then
    if ← zeroDest t.pkScript then return true
  return false

/-- `TxOut.Match`: the same type, script, rights and value. -/
def TxOut.isMatch (s t : TxOut) : Outcome ε Bool := do
  if s.tokenType != t.tokenType then return false
  if s.pkScript != t.pkScript then return false
  if s.rights != t.rights then return false
  if s.tokenType &&& 1 == 0 then return (← numVal s.value) == (← numVal t.value)
  return (← hashVal s.value) == (← hashVal t.value)

/-- `binary.LittleEndian.PutUint16` -/
def putUint16 (x : UInt16) : Bytes := [x.toUInt8, (x >>> 8).toUInt8]

/-- `binary.LittleEndian.PutUint32` -/
def putUint32 (x : UInt32) : Bytes :=
  [x.toUInt8, (x >>> 8).toUInt8, (x >>> 16).toUInt8, (x >>> 24).toUInt8]

/-- `binary.LittleEndian.PutUint64` -/
def putUint64 (x : UInt64) : Bytes := putUint32 x.toUInt32 ++ putUint32 (x >>> 32).toUInt32

/-- The bytes of a hash. -/
def hashBytes (h : Hash) : Bytes :=
  (List.range 32).map (fun i => UInt8.ofBitVec (h.extractLsb' (8 * i) 8))

/-- The bytes of an address, the most significant first. -/
def addressBytes (a : Address) : Bytes :=
  (List.range 20).map (fun i => UInt8.ofBitVec (a.extractLsb' (8 * (19 - i)) 8))

end Scripts

/-! ## Definitions -/

/-- Coordinates of a vertex. -/
structure VertexDef where
  lat : Int32
  lng : Int32
  alt : Int32
  deriving DecidableEq, Repr

def VertexDef.serialize (v : VertexDef) : Bytes :=
  putUint32 v.lat.toUInt32 ++ putUint32 v.lng.toUInt32 ++ putUint32 v.alt.toUInt32

/-- The definitions a transaction can carry. -/
inductive Definition where
  | vertexDef (v : VertexDef)
  | borderDef (father : Hash) (begin_ : VertexDef) (end_ : VertexDef)
  | polygonDef (loops : List (List Hash))
  | rightDef (father : Hash) (desc : Bytes) (attrib : UInt8)
  | rightSetDef (rights : List Hash)
  | separatorDef
  deriving DecidableEq, Repr

def Definition.isSeparator : Definition → Bool
  | separatorDef => true
  | _ => false

/-- A border that is not part of another one. -/
def Definition.isRootBorder : Definition → Bool
  | borderDef father _ _ => father == zerohash
  | _ => false

/-! ## Transactions -/

/-- A transaction. -/
structure MsgTx where
  version : Int32
  txDef : List Definition
  txIn : List TxIn
  txOut : List TxOut
  lockTime : UInt32
  signatureScripts : List Bytes
  deriving DecidableEq, Repr

def MsgTx.isForfeit (s : MsgTx) : Bool := s.version &&& TxTypeMask == ForfeitTxVersion

def MsgTx.isCrossChain (s : MsgTx) : Bool :=
  match s.txIn with
  | [t] => !t.zeroHash && t.previousOutPoint.index &&& CrossChainFalg != 0
  | _ => false

def MsgTx.isBtcL2 (s : MsgTx) : Bool :=
  match s.txIn with
  | [t] => !t.zeroHash && t.previousOutPoint.index == BTCCHAINID ||| CrossChainFalg
  | _ => false

/-- The output scan of `IsCoinBase`: up to the first separator no output is a contract call
or leaves the chain. -/
def coinBaseOuts {ε : Type} : List TxOut → Outcome ε Bool
  | [] => .ok true
  | out :: rest => do
    if out.isSeparator then return true
    if ← out.isContractCall then return false
    if ← out.crossing then return false
    coinBaseOuts rest

def MsgTx.isCoinBase {ε : Type} (s : MsgTx) : Outcome ε Bool :=
  match s.txIn with
  | [t] => if t.zeroHash then coinBaseOuts s.txOut else .ok false
  | _ => .ok false

/-- The first input refers to no output. The checks take this for a coinbase. -/
def MsgTx.zeroHashFirst (s : MsgTx) : Bool :=
  match s.txIn with
  | [] => false
  | t :: _ => t.zeroHash

theorem MsgTx.isCrossChain_of_isBtcL2 {s : MsgTx} (h : s.isBtcL2 = true) :
    s.isCrossChain = true := by
  unfold MsgTx.isBtcL2 at h
  split at h
  case h_1 t hin =>
    simp only [Bool.and_eq_true, beq_iff_eq] at h
    have hflag : (BTCCHAINID ||| CrossChainFalg) &&& CrossChainFalg ≠ 0 := by decide
    simp [MsgTx.isCrossChain, hin, h.1, h.2, hflag]
  · cases h

/-- A coinbase has a single input, and that refers to no output. -/
theorem MsgTx.txIn_of_isCoinBase {ε : Type} {s : MsgTx}
    (h : s.isCoinBase (ε := ε) = .ok true) : ∃ t, s.txIn = [t] ∧ t.zeroHash = true := by
  unfold MsgTx.isCoinBase at h
  split at h
  case h_1 t hin =>
    by_cases hz : t.zeroHash = true
    · exact ⟨t, hin, hz⟩
    · rw [if_neg hz] at h
      cases h
  · cases h

end Zent
