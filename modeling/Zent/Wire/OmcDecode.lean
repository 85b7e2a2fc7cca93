import Zent.Go.Decoder
import Zent.Wire.MsgTx

/-!
# Decoding transactions and miner blocks

`MsgTx.OmcDecode` (`btcd/wire/msgtx.go`) with the `Read` methods of the definitions
(`omega/token/token.go`), and `readMinerBlock` (`btcd/wire/blockheader.go`), on the buffer that
holds the payload of a message.

Some of the numbers of elements that stand in the input are limited before slices are made, others
are not: the loops of a polygon, the borders of a loop, the bytes of the description of a right, the
rights of a set, the violation reports, the blocks of a report and the TPH reports. These are noted,
and so are the inputs and outputs on which `IsCoinBase` is called while the signatures are read.
-/

namespace Zent

open Go Dec List UInt32

/-! ## Constants -/

/-- `wire.MaxMessagePayload` -/
def MaxMessagePayload : Nat := 1024 * 1024 * 64
/-- `token.MaxDefinitionPerMessage`, for the larger `MaxMessagePayload` of that package -/
def MaxDefinitionPerMessage : Nat := 1024 * 1024 * 400 / 68 + 1
def MaxTxInPerMessage : Nat := MaxMessagePayload / 41 + 1
def MaxTxOutPerMessage : Nat := MaxMessagePayload / 9 + 1
/-- `wire.CommitteeSize` -/
def wireCommitteeSize : Nat := 3

/-! ## Reading numbers -/

/-- The errors of the decoders. -/
inductive ReadError where
  | eof
  | unexpectedEOF
  | messageError (func description : String)
  deriving DecidableEq, Repr

/-- What the input asks for without a limit. -/
inductive Field where
  /-- slices of so many elements, of so many bytes each -/
  | count (size : Nat) (n : Int)
  /-- `IsCoinBase` for these inputs and outputs -/
  | coinBase (txIn : List TxIn) (txOut : List TxOut)
  deriving DecidableEq, Repr

abbrev Decoder (α : Type) : Type := Dec Field ReadError α

/-- Bytes as a number, the least significant first. -/
def leNat (b : Bytes) : Nat := b.foldr (fun x n => x.toNat + 256 * n) 0

/-- `io.ReadFull` -/
def readBytes (n : Nat) : Decoder Bytes := readFull .eof .unexpectedEOF n

/-- `BinarySerializer.Uint8` and its likes for more bytes. -/
def readUint8 : Decoder UInt8 := do return UInt8.ofNat (leNat (← readBytes 1))
def readUint16 : Decoder UInt16 := do return UInt16.ofNat (leNat (← readBytes 2))
def readUint32 : Decoder UInt32 := do return ofNat (leNat (← readBytes 4))
def readUint64 : Decoder UInt64 := do return UInt64.ofNat (leNat (← readBytes 8))

/-- `ReadElement` of a hash -/
def readHash : Decoder Hash := do return BitVec.ofNat 256 (leNat (← readBytes 32))

/-- The format `%x`. -/
def hexText (n : Nat) : String := String.ofList (Nat.toDigits 16 n)

/-- `errNonCanonicalVarInt` -/
def nonCanonicalVarInt (rv discriminant least : Nat) : ReadError :=
  .messageError "ReadVarInt" ("non-canonical varint " ++ hexText rv ++ " - discriminant " ++
    hexText discriminant ++ " must encode a value greater than " ++ hexText least)

/-- A value that could have been encoded with fewer bytes is refused. -/
def canonical (rv discriminant least : UInt64) : Decoder UInt64 :=
  if rv < least then fail (nonCanonicalVarInt rv.toNat discriminant.toNat least.toNat)
  else return rv

/-- `common.ReadVarInt` -/
def readVarInt : Decoder UInt64 := do
  let discriminant ← readUint8
  if discriminant = 0xff then canonical (← readUint64) 0xff 0x100000000
  else if discriminant = 0xfe then canonical (← readUint32).toUInt64 0xfe 0x10000
  else if discriminant = 0xfd then canonical (← readUint16).toUInt64 0xfd 0xfd
  else return discriminant.toUInt64

/-- `readScript`, and `common.ReadVarBytes`, which differ in the name they give. -/
def readCounted (func fieldName : String) (maxAllowed : Nat) : Decoder Bytes := do
  let count ← readVarInt
  if count.toNat > maxAllowed then
    fail (.messageError func
      s!"{fieldName} is larger than the max allowed size [count {count}, max {maxAllowed}]")
  else
    make 1 1 count.toNat
    readBytes count.toNat

def readScript (fieldName : String) : Decoder Bytes :=
  readCounted "readScript" fieldName MaxMessagePayload

/-! ## Definitions -/

/-- `VertexDef.Deserialize` -/
def VertexDef.deserialize (b : Bytes) : VertexDef where
  lat := (ofNat (leNat (b.take 4))).toInt32
  lng := (ofNat (leNat ((b.drop 4).take 4))).toInt32
  alt := (ofNat (leNat ((b.drop 8).take 4))).toInt32

/-- `io.ReadFull` into a hash, the error ignored. -/
def readHashOver : Decoder Hash := do
  return BitVec.ofNat 256 (leNat (← readOver (replicate 32 0)))

def readVertexDef : Decoder Definition := do
  return .vertexDef (.deserialize (← read .eof (replicate 12 0)))

/-- `BorderDef.Read`. The second vertex is read into the buffer of the first. -/
def readBorderDef : Decoder Definition := do
  let father ← readHashOver
  let b ← readOver (replicate 12 0)
  let e ← readOver b
  return .borderDef father (.deserialize b) (.deserialize e)

/-- A loop of `PolygonDef.Read`. -/
def readLoop : Decoder (List Hash) := do
  let borders ← readVarInt
  note (.count 32 borders.toNat)
  make 32 1 borders.toNat
  times borders.toNat readHashOver

def readPolygonDef : Decoder Definition := do
  let nloops ← readVarInt
  note (.count 24 nloops.toNat)
  make 24 1 nloops.toNat
  let loops ← times nloops.toNat readLoop
  return .polygonDef loops

def readRightDef : Decoder Definition := do
  let father ← readHashOver
  let n ← readVarInt
  note (.count 1 n.toNat)
  make 1 1 n.toNat
  let desc ← readOver (replicate n.toNat 0)
  let attrib ← attempt readUint8
  return .rightDef father desc (attrib.getD 0)

def readRightSetDef : Decoder Definition := do
  let n ← readVarInt
  note (.count 32 n.toNat)
  make 32 1 n.toNat
  let rights ← times n.toNat readHashOver
  return .rightSetDef rights

/-- The `Read` method of the kind of definition. -/
def readDefinitionOf (t : UInt8) : Decoder Definition :=
  if t = 0 then readVertexDef
  else if t = 1 then readBorderDef
  else if t = 2 then readPolygonDef
  else if t = 4 then readRightDef
  else if t = 5 then readRightSetDef
  else if t = 0xFC then return .separatorDef
  else fail (.messageError "readScript" s!"Unrecognized definition type {t}")

/-- `token.ReadDefinition` -/
def readDefinition : Decoder Definition := do readDefinitionOf (← readUint8)

/-! ## Transactions -/

def readOutPoint : Decoder OutPoint := do
  let hash ← readHash
  let index ← readUint32
  return ⟨hash, index⟩

def readTxIn : Decoder TxIn := do
  let previousOutPoint ← readOutPoint
  let signatureIndex ← readUint32
  let sequence ← readUint32
  return ⟨previousOutPoint, sequence, signatureIndex⟩

/-- The value of a token. -/
def readTokenValue (t : UInt64) : Decoder TokenValue := do
  if t &&& 1 = 1 then return .hashToken (← readHash)
  else return .numToken (← readUint64).toInt64

/-- The rights of a token. -/
def readTokenRights (t : UInt64) : Decoder (Option Hash) := do
  if t &&& 2 ≠ 0 then return some (← readHash)
  else return none

/-- `Token.ReadTxOut` -/
def readToken : Decoder Token := do
  let t ← readVarInt
  if t = DefTypeSeparator then return ⟨t, none, none⟩
  else
    let value ← readTokenValue t
    let rights ← readTokenRights t
    return ⟨t, some value, rights⟩

def readTxOut : Decoder TxOut := do
  let token ← readToken
  let pkScript ← readScript "transaction output public key script"
  return ⟨token, pkScript⟩

/-- A limited number of items: `slots` slices of that length, and then the items. -/
def readItems {α : Type} (what : String) (limit size slots : Nat) (item : Decoder α) :
    Decoder (List α) := do
  let count ← readVarInt
  if count.toNat > limit then
    fail (.messageError "MsgTx.OmcDecode"
      s!"too many {what} to fit into max message size [count {count}, max {limit}]")
  else
    make size slots count.toNat
    times count.toNat item

def readTxDefs (version : UInt32) : Decoder (List Definition) :=
  if version.toInt32 &&& TxNoDefine = 0 then
    readItems "definitions" MaxDefinitionPerMessage 16 1 readDefinition
  else return []

/-- The structures, and the pointers to them. -/
def readTxIns : Decoder (List TxIn) :=
  readItems "input transactions" MaxTxInPerMessage 44 2 readTxIn

def readTxOuts : Decoder (List TxOut) :=
  readItems "output transactions" MaxTxOutPerMessage 56 2 readTxOut

def readLockTime (version : UInt32) : Decoder UInt32 :=
  if version.toInt32 &&& TxNoLock = 0 then readUint32 else return 0

/-- One signature script and the `append` of `AddSignature`, which has to grow the slice beyond its
capacity. -/
def readSignatureScript (capacity i : Nat) : Decoder Bytes :=
  if capacity ≤ i then do
    let s ← readScript "transaction signature script"
    make 24 1 1
    return s
  else readScript "transaction signature script"

/-- The signatures from the `i`th on. -/
def readSignaturesFrom (capacity : Nat) : Nat → Nat → Decoder (List Bytes)
  | _, 0 => return []
  | i, n + 1 => do
    let s ← readSignatureScript capacity i
    let rest ← readSignaturesFrom capacity (i + 1) n
    return s :: rest

/-- `n` signatures. The first `AddSignature` makes a slice for as many signatures as inputs. -/
def readSignatures (capacity : Nat) : Nat → Decoder (List Bytes)
  | 0 => return []
  | n + 1 => do
    let s ← readSignatureScript capacity 0
    make 24 1 capacity
    let rest ← readSignaturesFrom capacity 1 n
    return s :: rest

/-- The limit on the number of signatures, a signed number. -/
def signatureLimit (coinBase : Bool) (txIn : List TxIn) : Int :=
  if coinBase then (wireCommitteeSize : Int) + 1 else txIn.length

/-- `IsCoinBase` of a transaction whose signatures have not been read. -/
def coinBaseOf (txIn : List TxIn) (txOut : List TxOut) : Outcome ReadError Bool :=
  MsgTx.isCoinBase ⟨0, [], txIn, txOut, 0, []⟩

/-- `MsgTx.ReadSignature` -/
def readSignature (txIn : List TxIn) (txOut : List TxOut) : Decoder (List Bytes) := do
  let count ← readVarInt
  note (.coinBase txIn txOut)
  let coinBase ← lift (coinBaseOf txIn txOut)
  if count.toInt64.toInt > signatureLimit coinBase txIn then
    let ins := txIn.length
    fail (.messageError "MsgTx.OmcDecode" s!"more signatures than inputs ({count}, {ins})")
  else readSignatures txIn.length count.toInt64.toInt.toNat

/-- `MsgTx.OmcDecode` -/
def omcDecode : Decoder MsgTx := do
  let version ← readUint32
  let txDef ← readTxDefs version
  let txIn ← readTxIns
  let txOut ← readTxOuts
  let lockTime ← readLockTime version
  let signatureScripts ← readSignature txIn txOut
  return ⟨version.toInt32, txDef, txIn, txOut, lockTime, signatureScripts⟩

/-! ## Miner blocks -/

/-- `wire.Violations` -/
structure WireViolations where
  height : Int32
  mrBlock : Hash
  blocks : List Hash
  deriving DecidableEq, Repr

/-- `wire.Instruction` -/
structure WireInstruction where
  instCode : UInt8
  instData : Bytes
  deriving DecidableEq, Repr

/-- A miner block with all its fields. -/
structure WireMinerBlock where
  version : UInt32
  prevBlock : Hash
  bestBlock : Hash
  timestamp : UInt32
  bits : UInt32
  nonce : Int32
  miner : Bytes
  connection : Bytes
  utxos : Option OutPoint := none
  violationReport : List WireViolations := []
  collateral : UInt32 := 0
  meanTPH : UInt32 := 0
  tphReports : List UInt32 := []
  contractLimit : UInt32 := 0
  instructions : List WireInstruction := []
  deriving DecidableEq, Repr

/-- The part of `Violations.Read` after the height. -/
def readViolationsAt (height : UInt32) : Decoder WireViolations := do
  let mrBlock ← readHash
  let t ← readVarInt
  let signed := t.toUInt32.toInt32.toInt
  note (.count 32 signed)
  make 32 1 signed
  let blocks ← times signed.toNat readHash
  return ⟨height.toInt32, mrBlock, blocks⟩

/-- `Violations.Read`. Where there is no height no error is returned. -/
def readViolations : Decoder WireViolations := do
  match ← attempt readUint32 with
  | none => return ⟨0, 0, []⟩
  | some height => if height = 0 then return ⟨0, 0, []⟩ else readViolationsAt height

/-- `Instruction.deserializer` -/
def readInstruction : Decoder WireInstruction := do
  let instCode ← readUint8
  let instData ← readCounted "ReadVarBytes" "InstData" 40960
  return ⟨instCode, instData⟩

/-- The fields before the collateral. -/
def readMinerHead : Decoder WireMinerBlock := do
  let version ← readUint32
  let prevBlock ← readHash
  let bestBlock ← readHash
  let timestamp ← readUint32
  let bits ← readUint32
  let nonce ← readUint32
  let miner ← readCounted "ReadVarBytes" "Miner" 20
  let connection ← readCounted "ReadVarBytes" "Connection" 80
  return {
    version := version, prevBlock := prevBlock, bestBlock := bestBlock, timestamp := timestamp,
    bits := bits, nonce := nonce.toInt32,
    miner := miner ++ replicate (20 - miner.length) 0, connection := connection }

/-- The collateral of the miner. -/
def readUtxos (d : UInt64) : Decoder (Option OutPoint) := do
  if d = 0 then return none else return some (← readOutPoint)

def readViolationReport (d : UInt64) : Decoder (List WireViolations) := do
  note (.count 8 d.toNat)
  make 8 1 d.toNat
  times d.toNat readViolations

def readTphReports : Decoder (List UInt32) := do
  let d ← readVarInt
  note (.count 4 d.toNat)
  make 4 1 d.toNat
  let reports ← times d.toNat readVarInt
  return reports.map UInt64.toUInt32

/-- The instructions. Where there is no number of instructions no error is returned. -/
def readInstructions : Decoder (List WireInstruction) := do
  match ← attempt readVarInt with
  | none => return []
  | some d => times d.toNat do
    let p ← readInstruction
    make 8 1 1
    return p

/-- The fields from the limit for contracts on, which older blocks do not have. -/
def readMinerTail (bh : WireMinerBlock) : Decoder WireMinerBlock := do
  match ← attempt readUint32 with
  | none => return bh
  | some contractLimit =>
    let instructions ← readInstructions
    return { bh with contractLimit := contractLimit, instructions := instructions }

/-- The fields from the violation reports on. -/
def readMinerReports (bh : WireMinerBlock) (d : UInt64) : Decoder WireMinerBlock := do
  let violationReport ← readViolationReport d
  let collateral ← readVarInt
  let meanTPH ← readVarInt
  let tphReports ← readTphReports
  readMinerTail { bh with
    violationReport := violationReport, collateral := collateral.toUInt32,
    meanTPH := meanTPH.toUInt32, tphReports := tphReports }

/-- **`readMinerBlock`**. Where the number before the collateral or that of the violation reports is
missing no error is returned. -/
def readMinerBlock : Decoder WireMinerBlock := do
  let bh ← readMinerHead
  match ← attempt readVarInt with
  | none => return bh
  | some d =>
    let utxos ← readUtxos d
    match ← attempt readVarInt with
    | none => return { bh with utxos := utxos }
    | some d => readMinerReports { bh with utxos := utxos } d

/-! ## What the decoders allocate -/

/-- A number of elements has to be one that a slice can have, and `IsCoinBase` must find the bytes
of the scripts it looks at. -/
def policy : Dec.Policy Field where
  sound
    | .count size n => 0 ≤ n ∧ n.toNat * size ≤ maxAlloc
    | .coinBase txIn txOut => Returns (coinBaseOf txIn txOut)
  weight
    | .count _ n => n.toNat
    | .coinBase _ _ => 0

section Numbers

theorem quiet_readBytes (n : Nat) : Dec.Quiet (readBytes n) := .readFull _ _ n

theorem eager_readBytes {n : Nat} (hn : 0 < n) : Dec.Eager (readBytes n) := .readFull _ _ hn

theorem eager_readUint8 : Dec.Eager readUint8 :=
  (eager_readBytes (by decide)).bind fun _ => .pure _

theorem eager_readUint32 : Dec.Eager readUint32 :=
  (eager_readBytes (by decide)).bind fun _ => .pure _

theorem eager_readUint64 : Dec.Eager readUint64 :=
  (eager_readBytes (by decide)).bind fun _ => .pure _

theorem eager_readHash : Dec.Eager readHash := (eager_readBytes (by decide)).bind fun _ => .pure _

theorem quiet_canonical (rv discriminant least : UInt64) :
    Dec.Quiet (canonical rv discriminant least) := by
  rw [canonical]
  split
  · exact .fail _
  · exact .pure _

theorem eager_readVarInt : Dec.Eager readVarInt := by
  refine eager_readUint8.bind fun discriminant => ?_
  split
  · exact eager_readUint64.toQuiet.bind fun _ => quiet_canonical _ _ _
  split
  · exact eager_readUint32.toQuiet.bind fun _ => quiet_canonical _ _ _
  split
  · exact ((quiet_readBytes 2).bind fun _ => .pure _).bind fun _ => quiet_canonical _ _ _
  · exact .pure _

theorem quiet_readHashOver : Dec.Quiet readHashOver := (Dec.Quiet.readOver _).bind fun _ => .pure _

end Numbers

section Shares

variable {m : Nat} {α : Type} {c E size : Nat} {n : Int} {d : Decoder α} {item : Decoder α}

theorem item_readCounted (func fieldName : String) {maxAllowed : Nat}
    (hmax : maxAllowed ≤ maxAlloc) :
    Dec.Item policy m 1 maxAllowed (readCounted func fieldName maxAllowed) := by
  refine eager_readVarInt.bind_loose fun count => ?_
  split
  · exact (Dec.Quiet.fail _).thrifty.toLoose
  rename_i hle
  have hcount : count.toNat ≤ maxAllowed := le_of_not_gt hle
  have hrange : 0 ≤ (count.toNat : Int) ∧ (count.toNat : Int).toNat * 1 ≤ maxAlloc := by
    refine ⟨Int.natCast_nonneg _, ?_⟩
    rw [Int.toNat_natCast, Nat.mul_one]
    exact hcount.trans hmax
  have hbody : Dec.Loose policy m 0 0 (readBytes count.toNat) :=
    (quiet_readBytes _).thrifty.toLoose
  exact (hbody.guarded (covers_readFull _ _ _) hrange hcount).mono (le_refl _) (by omega)

theorem strict_readCounted (func fieldName : String) (maxAllowed : Nat) :
    Dec.Strict (readCounted func fieldName maxAllowed) := eager_readVarInt.strict.bind

theorem item_readScript (fieldName : String) :
    Dec.Item policy m 1 MaxMessagePayload (readScript fieldName) :=
  item_readCounted _ _ (by decide)

/-- Elements whose number the input declares. -/
theorem loose_declared (hbody : Dec.Loose policy m c E d) (hcov : Dec.Covers n.toNat d) :
    Dec.Loose policy m (c + 1) (E + m)
      (note (.count size n) >>= fun _ => make size 1 n >>= fun _ => d) := by
  have h : Dec.Loose policy m (c + 1) (E + 1 * m)
      (note (.count size n) >>= fun _ => make size 1 n >>= fun _ => d) :=
    hbody.declared hcov Nat.one_pos Iff.rfl rfl
  rwa [Nat.one_mul] at h

/-- The same where each element is decoded for itself, and the elements are put into a value. -/
theorem loose_elements {β : Type} (f : List α → β) (hd : Dec.Item policy m c E d) :
    Dec.Loose policy m (c + 1) (E + m) (do
      note (.count size n)
      make size 1 n
      let l ← times n.toNat d
      return f l) := by
  refine loose_declared ?_ ?_
  · exact (hd.times n.toNat).toLoose.bind fun l => (Dec.Quiet.pure _).thrifty
  · exact (hd.covers_times _).bind fun l => (Dec.Quiet.pure _).steady

/-- The same where an element allocates nothing. -/
theorem loose_plain {β : Type} (f : List α → β) (hd : Dec.Item policy m 0 0 d) :
    Dec.Loose policy m 1 m (do
      note (.count size n)
      make size 1 n
      let l ← times n.toNat d
      return f l) :=
  (loose_elements f hd).mono (le_refl _) (le_of_eq (zero_add m))

theorem item_readHashOver : Dec.Item policy m 0 0 readHashOver :=
  { quiet_readHashOver.thrifty with
    progress := (progress_readOver (by decide)).bind fun _ => (Dec.Quiet.pure _).steady }

theorem item_readLoop : Dec.Item policy m 1 m readLoop := by
  refine eager_readVarInt.bind_loose fun borders => ?_
  exact (loose_declared (item_readHashOver.times _).toLoose
    (item_readHashOver.covers_times (m := m) _)).mono (le_refl _) (le_of_eq (zero_add m))

theorem loose_readPolygonDef : Dec.Loose policy m 2 (2 * m) readPolygonDef := by
  refine eager_readVarInt.toQuiet.bind_loose fun nloops => ?_
  exact (loose_elements Definition.polygonDef item_readLoop).mono (le_refl _) (by omega)

theorem loose_readRightDef : Dec.Loose policy m 1 m readRightDef := by
  refine quiet_readHashOver.bind_loose fun father =>
    eager_readVarInt.toQuiet.bind_loose fun n => ?_
  have htail : ∀ desc : Bytes, Dec.Quiet (do
      let attrib ← attempt readUint8
      return Definition.rightDef father desc (attrib.getD 0) : Decoder Definition) := fun desc =>
    eager_readUint8.toQuiet.attempt.bind fun _ => .pure _
  have hbody := (Dec.Quiet.readOver (replicate n.toNat 0)).bind htail
  refine (loose_declared (E := 0) hbody.thrifty.toLoose ?_).mono (le_refl _) (by omega)
  have hcov : Dec.Covers n.toNat (readOver (replicate n.toNat 0) : Decoder Bytes) := by
    have h := covers_readOver (φ := Field) (ε := ReadError) (replicate n.toNat 0)
    rwa [length_replicate] at h
  exact hcov.bind fun desc => (htail desc).steady

theorem loose_readRightSetDef : Dec.Loose policy m 1 m readRightSetDef :=
  eager_readVarInt.toQuiet.bind_loose fun _ => loose_plain _ item_readHashOver

theorem loose_readDefinitionOf (t : UInt8) : Dec.Loose policy m 2 (2 * m) (readDefinitionOf t) := by
  rw [readDefinitionOf]
  split
  · exact ((Dec.Quiet.read _ _).bind fun _ => .pure _).thrifty.toLoose
  split
  · refine (quiet_readHashOver.bind fun _ => ?_).thrifty.toLoose
    exact (Dec.Quiet.readOver _).bind fun b => (Dec.Quiet.readOver b).bind fun _ => .pure _
  split
  · exact loose_readPolygonDef
  split
  · exact loose_readRightDef.mono (by omega) (by omega)
  split
  · exact loose_readRightSetDef.mono (by omega) (by omega)
  split
  · exact (Dec.Quiet.pure _).thrifty.toLoose
  · exact (Dec.Quiet.fail _).thrifty.toLoose

theorem item_readDefinition : Dec.Item policy m 2 (2 * m) readDefinition :=
  eager_readUint8.bind_loose loose_readDefinitionOf

/-! ### Transactions -/

theorem eager_readOutPoint : Dec.Eager readOutPoint :=
  eager_readHash.bind fun _ => eager_readUint32.toQuiet.bind fun _ => .pure _

theorem eager_readTxIn : Dec.Eager readTxIn :=
  eager_readOutPoint.bind fun _ => eager_readUint32.toQuiet.bind fun _ =>
    eager_readUint32.toQuiet.bind fun _ => .pure _

theorem quiet_readTokenValue (t : UInt64) : Dec.Quiet (readTokenValue t) := by
  rw [readTokenValue]
  split
  · exact eager_readHash.toQuiet.bind fun _ => .pure _
  · exact eager_readUint64.toQuiet.bind fun _ => .pure _

theorem quiet_readTokenRights (t : UInt64) : Dec.Quiet (readTokenRights t) := by
  rw [readTokenRights]
  split
  · exact eager_readHash.toQuiet.bind fun _ => .pure _
  · exact .pure _

theorem eager_readToken : Dec.Eager readToken := by
  refine eager_readVarInt.bind fun t => ?_
  split
  · exact .pure _
  · exact (quiet_readTokenValue t).bind fun _ => (quiet_readTokenRights t).bind fun _ => .pure _

theorem item_readTxOut : Dec.Item policy m 1 MaxMessagePayload readTxOut :=
  eager_readToken.item.bind fun _ => (item_readScript _).toThrifty.bind fun _ =>
    (Dec.Quiet.pure _).thrifty

theorem item_readItems {what : String} {limit slots : Nat} (hitem : Dec.Item policy m c E item)
    (hlimit : limit * size ≤ maxAlloc) :
    Dec.Item policy m (c + slots) (E + slots * limit) (readItems what limit size slots item) := by
  refine eager_readVarInt.bind_loose fun count => ?_
  split
  · exact (Dec.Quiet.fail _).thrifty.toLoose
  rename_i hle
  have hcount : count.toNat ≤ limit := le_of_not_gt hle
  have hrange : 0 ≤ (count.toNat : Int) ∧ (count.toNat : Int).toNat * size ≤ maxAlloc :=
    ⟨Int.natCast_nonneg _, (Nat.mul_le_mul_right size hcount).trans hlimit⟩
  exact (hitem.times count.toNat).toLoose.guarded (hitem.covers_times _) hrange hcount

theorem length_readItems {what : String} {limit slots : Nat} {s : Src Field} {l : List α}
    (h : (readItems what limit size slots item s).1 = .ok l) : l.length ≤ limit := by
  rw [readItems] at h
  obtain ⟨count, -, hrun⟩ | ⟨e, -, hrun⟩ := bind_cases readVarInt _ s
  · rw [hrun] at h
    split at h
    · cases h
    rename_i hle
    obtain ⟨-, -, hmake⟩ | ⟨e, -, hmake⟩ := bind_cases (make size slots (count.toNat : Int)) (fun _
      => times count.toNat item) (readVarInt s).2
    · rw [hmake] at h
      rw [length_times h]
      exact le_of_not_gt hle
    · rw [hmake] at h
      cases h
  · rw [hrun] at h
    cases h

theorem capped_readTxDefs (version : UInt32) :
    Dec.Capped policy m 3 (2 * m + MaxDefinitionPerMessage) (readTxDefs version) := by
  rw [readTxDefs]
  split
  · exact (item_readItems item_readDefinition (by decide)).toCapped.mono (le_refl _) (by omega)
  · exact (Dec.Quiet.pure _).thrifty.toCapped

theorem capped_readTxIns : Dec.Capped policy m 3 (2 * MaxTxInPerMessage) readTxIns := by
  have hitem : Dec.Item policy m 0 0 readTxIn := eager_readTxIn.item
  exact (item_readItems hitem (by decide)).toCapped.mono (by decide) (by omega)

theorem capped_readTxOuts :
    Dec.Capped policy m 3 (MaxMessagePayload + 2 * MaxTxOutPerMessage) readTxOuts :=
  (item_readItems item_readTxOut (by decide)).toCapped.mono (le_refl _) (le_refl _)

theorem quiet_readLockTime (version : UInt32) : Dec.Quiet (readLockTime version) := by
  rw [readLockTime]
  split
  · exact eager_readUint32.toQuiet
  · exact .pure _

theorem thrifty_readSignatureScript (capacity i : Nat) :
    Dec.Thrifty policy m 2 (MaxMessagePayload + 1) (readSignatureScript capacity i) := by
  rw [readSignatureScript]
  split
  · exact (item_readScript _).append (strict_readCounted _ _ _) (by decide)
  · exact (item_readScript _).toThrifty.mono (by omega) (by omega)

theorem thrifty_readSignaturesFrom (capacity : Nat) : ∀ i n,
    Dec.Thrifty policy m 2 (MaxMessagePayload + 1) (readSignaturesFrom capacity i n)
  | _, 0 => (Dec.Quiet.pure _).thrifty
  | i, n + 1 => (thrifty_readSignatureScript capacity i).bind fun _ =>
    (thrifty_readSignaturesFrom capacity (i + 1) n).bind fun _ => (Dec.Quiet.pure _).thrifty

/-- The slice for the signatures has as many elements as there are inputs. -/
theorem capped_readSignatures {capacity : Nat} (hcap : capacity ≤ MaxTxInPerMessage) (n : Nat) :
    Dec.Capped policy m 2 (2 * MaxMessagePayload + 2 + MaxTxInPerMessage)
      (readSignatures capacity n) := by
  cases n with
  | zero => exact (Dec.Quiet.pure _).thrifty.toCapped
  | succ n =>
    have hrange : 0 ≤ (capacity : Int) ∧ (capacity : Int).toNat * 24 ≤ maxAlloc := by
      refine ⟨Int.natCast_nonneg _, ?_⟩
      exact (Nat.mul_le_mul_right 24 hcap).trans (by decide)
    refine ((thrifty_readSignatureScript capacity 0).toCapped.bind fun _ s _ =>
      Dec.Capped.guarded (E := MaxMessagePayload + 1) ?_ hrange hcap).mono (le_refl _) (by omega)
    exact ((thrifty_readSignaturesFrom capacity 1 n).bind fun _ =>
      (Dec.Quiet.pure _).thrifty).toCapped

theorem capped_readSignature {txIn : List TxIn} (hlen : txIn.length ≤ MaxTxInPerMessage)
    (txOut : List TxOut) :
    Dec.Capped policy m 2 (2 * MaxMessagePayload + 2 + MaxTxInPerMessage)
      (readSignature txIn txOut) := by
  refine eager_readVarInt.toQuiet.bind_capped fun count =>
    Dec.Capped.checked Iff.rfl rfl fun coinBase => ?_
  split
  · exact (Dec.Quiet.fail _).thrifty.toCapped
  · exact capped_readSignatures hlen _

/-- What a transaction can exceed its share by. -/
def txExcess (m : Nat) : Nat :=
  2 * m + (MaxDefinitionPerMessage + 3 * MaxTxInPerMessage + 2 * MaxTxOutPerMessage +
    3 * MaxMessagePayload + 2)

theorem capped_omcDecode : Dec.Capped policy m 3 (txExcess m) omcDecode := by
  refine (eager_readUint32.toQuiet.bind_capped fun version =>
    (capped_readTxDefs version).bind fun _ txDef _ =>
    capped_readTxIns.bind fun _ txIn hIn => capped_readTxOuts.bind fun _ txOut _ =>
    (quiet_readLockTime version).bind_capped fun lockTime =>
    ((capped_readSignature (length_readItems hIn) txOut).mono (by decide) (le_refl _)).bind_quiet
      fun _ => .pure _).mono (le_refl _) ?_
  rw [txExcess]
  omega

theorem strict_omcDecode : Dec.Strict omcDecode := eager_readUint32.strict.bind

/-! ### Miner blocks -/

theorem thrifty_readViolationsAt (height : UInt32) :
    Dec.Thrifty policy m 1 m (readViolationsAt height) :=
  (eager_readHash.bind_loose fun _ => eager_readVarInt.toQuiet.bind_loose fun _ =>
    loose_plain _ eager_readHash.item).toThrifty

theorem item_readViolations : Dec.Item policy m 1 m readViolations := by
  have hheight : Dec.Item policy m 1 m (attempt readUint32) :=
    { eager_readUint32.toQuiet.attempt.thrifty with
      progress := eager_readUint32.progress.attempt }
  refine hheight.bind fun height => ?_
  cases height with
  | none => exact (Dec.Quiet.pure _).thrifty
  | some height =>
    dsimp only
    split
    · exact (Dec.Quiet.pure _).thrifty
    · exact thrifty_readViolationsAt height

theorem item_readInstruction : Dec.Item policy m 1 40960 readInstruction :=
  eager_readUint8.item.bind fun _ => (item_readCounted _ _ (by decide)).toThrifty.bind fun _ =>
    (Dec.Quiet.pure _).thrifty

theorem capped_readMinerHead : Dec.Capped policy m 2 100 readMinerHead := by
  have hnum := eager_readUint32.toQuiet
  have hhash := eager_readHash.toQuiet
  have hbytes : ∀ (name : String) {n : Nat}, n ≤ maxAlloc →
      Dec.Capped policy m 2 n (readCounted "ReadVarBytes" name n) := fun name _ hn =>
    (item_readCounted _ name hn).toCapped.mono (by decide) (le_refl _)
  exact hnum.bind_capped fun _ => hhash.bind_capped fun _ => hhash.bind_capped fun _ =>
    hnum.bind_capped fun _ => hnum.bind_capped fun _ => hnum.bind_capped fun _ =>
    (hbytes "Miner" (by decide : 20 ≤ maxAlloc)).bind fun _ _ _ =>
    (hbytes "Connection" (by decide : 80 ≤ maxAlloc)).bind_quiet fun _ => .pure _

theorem capped_readInstructions : Dec.Capped policy m 2 40961 readInstructions := by
  refine eager_readVarInt.toQuiet.attempt.bind_capped fun d => ?_
  cases d with
  | none => exact (Dec.Quiet.pure _).thrifty.toCapped
  | some d =>
    have hitem := (item_readInstruction (m := m)).append eager_readUint8.strict.bind
      (by decide : 8 ≤ maxAlloc)
    exact (hitem.times d.toNat).toCapped

theorem capped_readMinerTail (bh : WireMinerBlock) :
    Dec.Capped policy m 2 40961 (readMinerTail bh) := by
  refine eager_readUint32.toQuiet.attempt.bind_capped fun limit => ?_
  cases limit with
  | none => exact (Dec.Quiet.pure bh).thrifty.toCapped
  | some limit => exact capped_readInstructions.bind_quiet fun _ => .pure _

theorem loose_readViolationReport (d : UInt64) :
    Dec.Loose policy m 2 (2 * m) (readViolationReport d) :=
  (loose_declared (item_readViolations.times _).toLoose
    (item_readViolations.covers_times (m := m) _)).mono (le_refl _) (by omega)

theorem loose_readTphReports : Dec.Loose policy m 1 m readTphReports :=
  eager_readVarInt.toQuiet.bind_loose fun _ => loose_plain _ eager_readVarInt.item

theorem capped_readMinerReports (bh : WireMinerBlock) (d : UInt64) :
    Dec.Capped policy m 2 (3 * m + 40961) (readMinerReports bh d) := by
  have hcount := eager_readVarInt.toQuiet
  have htph : Dec.Capped policy m 2 m readTphReports :=
    loose_readTphReports.toCapped.mono (by decide) (le_refl _)
  refine ((loose_readViolationReport d).toCapped.bind fun _ _ _ => hcount.bind_capped fun _ =>
    hcount.bind_capped fun _ => htph.bind fun _ _ _ => capped_readMinerTail _).mono (le_refl _) ?_
  omega

/-- What a miner block can exceed its share by. -/
def minerExcess (m : Nat) : Nat := 3 * m + 41061

theorem capped_readMinerBlock : Dec.Capped policy m 2 (minerExcess m) readMinerBlock := by
  have hcount := eager_readVarInt.toQuiet.attempt
  have hutxos : ∀ d, Dec.Quiet (readUtxos d) := by
    intro d
    rw [readUtxos]
    split
    · exact .pure _
    · exact eager_readOutPoint.toQuiet.bind fun _ => .pure _
  have hsum : 100 + (3 * m + 40961) ≤ minerExcess m := by
    rw [minerExcess]
    omega
  refine (capped_readMinerHead.bind fun _ bh _ => hcount.bind_capped fun d => ?_).mono
    (le_refl _) hsum
  cases d with
  | none => exact (Dec.Quiet.pure bh).thrifty.toCapped
  | some d =>
    refine (hutxos d).bind_capped fun utxos => hcount.bind_capped fun d => ?_
    cases d with
    | none => exact (Dec.Quiet.pure _).thrifty.toCapped
    | some d => exact capped_readMinerReports _ d

theorem strict_readMinerBlock : Dec.Strict readMinerBlock := eager_readUint32.strict.bind.bind

end Shares

/-! ## The decoders on a payload -/

section Payload

variable {α : Type} (d : Decoder α) (bs : Bytes)

/-- The decoder on a buffer with the payload. -/
def decode : Outcome ReadError α × Src Field := d ⟨bs, 0, []⟩

/-- What the payload asks for without a limit, up to where the decoder stops. -/
def declared : List Field := (decode d bs).2.fields

/-- The decoder returns, and allocates at most `C` elements for each byte of the payload. -/
def Modest (C : Nat) : Prop :=
  Returns (decode d bs).1 ∧ (decode d bs).2.alloc ≤ C * bs.length

/-- All that the payload asks for without a limit is in range, and no number of elements is larger
than `m`. -/
def Frugal (m : Nat) : Prop := ∀ f ∈ declared d bs, policy.Fits m f

variable {d}

/-- With a bound on the numbers of elements there is a bound on what is allocated. -/
theorem modest_of_frugal {c m E : Nat} (hcap : Dec.Capped policy m c E d) (hstrict : Dec.Strict d)
    {bs : Bytes} (h : Frugal d bs m) : Modest d bs (c + E) := by
  refine ⟨hcap.returns _ h, ?_⟩
  have hbound := hcap.bounded ⟨bs, 0, []⟩ h
  cases bs with
  | nil =>
    obtain ⟨e, he⟩ := hstrict ⟨[], 0, []⟩ rfl
    rw [decode, he]
    exact Nat.zero_le _
  | cons b bs =>
    have hE : E ≤ E * (b :: bs).length := Nat.le_mul_of_pos_right E (Nat.succ_pos _)
    rw [decode, Nat.add_mul]
    simp only [Nat.zero_add] at hbound
    omega

/-- Where the decoder returns, it has allocated what the numbers ask for. -/
theorem frugal_of_modest {c m E C : Nat} (hcap : Dec.Capped policy m c E d) {bs : Bytes}
    (h : Modest d bs C) : Frugal d bs (C * bs.length) := by
  intro f hf
  rcases hcap.honest _ h.1 f hf with hold | ⟨hsound, hweight⟩
  · cases hold
  · exact ⟨hsound, hweight.trans h.2⟩

end Payload

/-- The bytes of a message. -/
structure Payload where
  bytes : Bytes
  short : bytes.length < MaxMessagePayload

/-- **Decoding untrusted bytes.** On every payload: if all that it asks for without a limit is in
range and at most `m`, the two decoders return, and allocate for each byte no more than twice or
three times `m` and a fixed number. Where one returns and allocates at most `C` elements for each
byte, all that the payload asks for is in range and at most `C` times the length. -/
theorem decoders_modest (p : Payload) (m C : Nat) :
    ((Frugal omcDecode p.bytes m → Modest omcDecode p.bytes (3 + txExcess m)) ∧
      (Modest omcDecode p.bytes C → Frugal omcDecode p.bytes (C * p.bytes.length))) ∧
    (Frugal readMinerBlock p.bytes m → Modest readMinerBlock p.bytes (2 + minerExcess m)) ∧
      (Modest readMinerBlock p.bytes C → Frugal readMinerBlock p.bytes (C * p.bytes.length)) :=
  ⟨⟨modest_of_frugal capped_omcDecode strict_omcDecode, frugal_of_modest (m := 0) capped_omcDecode⟩,
    modest_of_frugal capped_readMinerBlock strict_readMinerBlock,
    frugal_of_modest (m := 0) capped_readMinerBlock⟩

/-- A transaction with a set of two rights, which ends after them. -/
def smallRightSet : Payload := ⟨[1, 0, 0, 0, 1, 5, 2] ++ replicate 64 7, by decide⟩

theorem smallRightSet_modest : Modest omcDecode smallRightSet.bytes (3 + txExcess 2) := by
  refine (decoders_modest smallRightSet 2 0).1.1 fun f hf => ?_
  have hf : f ∈ [Field.count 32 2] := hf
  obtain rfl := mem_singleton.mp hf
  exact ⟨⟨by decide, by decide⟩, by decide⟩

/-- A transaction with a set of 2 ^ 63 rights. -/
def hugeRightSet : Payload :=
  ⟨[1, 0, 0, 0, 1, 5, 0xff, 0, 0, 0, 0, 0, 0, 0, 0x80], by decide⟩

/-- A miner block with one violation report, of minus one blocks. -/
def negativeReport : Payload :=
  ⟨replicate 80 0 ++ [0, 0, 0, 1] ++ [1, 0, 0, 0] ++ replicate 32 0 ++
    [0xfe, 0xff, 0xff, 0xff, 0xff], by decide +kernel⟩

/-- Both decoders panic on some payload. -/
theorem decoders_panic :
    (¬∃ C, Modest omcDecode hugeRightSet.bytes C) ∧
      ¬∃ C, Modest readMinerBlock negativeReport.bytes C := by
  refine ⟨fun ⟨_, h, _⟩ => absurd h ?_, fun ⟨_, h, _⟩ => absurd h ?_⟩
  · decide +kernel
  · decide +kernel

end Zent
