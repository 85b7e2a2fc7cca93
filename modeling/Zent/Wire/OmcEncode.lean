import Mathlib.Data.List.Sort
import Mathlib.Data.List.TakeWhile
import Zent.Wire.Encoding

/-!
# Encoding a transaction

`MsgTx.OmcEncode` (`btcd/wire/msgtx.go`) and the hashes that are taken of the encoding. What
contract execution appends to a transaction stands behind a separator in each of the three lists;
only the full encoding goes past the separators.

The encoder can stop with an error when a part of the transaction has been written. The hash
functions ignore the error and hash what has been written so far.
-/

namespace Zent

open Go

/-! ## Parts -/

/-- `common.WriteVarInt` -/
def writeVarInt (val : UInt64) : Bytes :=
  if val < 0xfd then [val.toUInt8]
  else if val ≤ 0xffff then 0xfd :: putUint16 val.toUInt16
  else if val ≤ 0xffffffff then 0xfe :: putUint32 val.toUInt32
  else 0xff :: putUint64 val

/-- `common.WriteVarInt(w, pver, uint64(n))` for a length. -/
def writeLen (n : Nat) : Bytes := writeVarInt (UInt64.ofNat n)

/-- `common.WriteVarBytes` -/
def writeVarBytes (b : Bytes) : Bytes := writeLen b.length ++ b

namespace Definition

def defType : Definition → UInt8
  | vertexDef _ => 0
  | borderDef _ _ _ => 1
  | polygonDef _ => 2
  | rightDef _ _ _ => 4
  | rightSetDef _ => 5
  | separatorDef => 0xFC

/-- The `Write` method of each kind of definition. A set of rights is sorted first. -/
def write : Definition → Bytes
  | vertexDef v => v.serialize
  | borderDef father b e => hashBytes father ++ b.serialize ++ e.serialize
  | polygonDef loops =>
    writeLen loops.length ++ loops.flatMap fun l => writeLen l.length ++ l.flatMap hashBytes
  | rightDef father desc attrib => hashBytes father ++ writeVarBytes desc ++ [attrib]
  | rightSetDef rights =>
    writeLen rights.length ++
      (rights.insertionSort fun a b => hashBytes a ≤ hashBytes b).flatMap hashBytes
  | separatorDef => []

end Definition

/-- `token.WriteDefinition` -/
def writeDefinition (d : Definition) : Bytes := d.defType :: d.write

def TxIn.writeTxIn (t : TxIn) : Bytes :=
  hashBytes t.previousOutPoint.hash ++ putUint32 t.previousOutPoint.index ++
    putUint32 t.signatureIndex ++ putUint32 t.sequence

/-- `Token.WriteTxOut`. The value decides how it is written, the type whether there are rights; nil
rights are written as the zero hash. -/
def Token.writeTxOut (t : Token) : Outcome Empty Bytes :=
  if t.tokenType = DefTypeSeparator then .ok (writeVarInt t.tokenType)
  else
    match t.value with
    | none => crash
    | some value =>
      .ok (writeVarInt t.tokenType ++
        (match value with
          | .numToken val => putUint64 val.toUInt64
          | .hashToken hash => hashBytes hash) ++
        if t.tokenType &&& 2 ≠ 0 then hashBytes (t.rights.getD zerohash) else [])

def TxOut.writeTxOut (t : TxOut) : Outcome Empty Bytes := do
  return (← t.toToken.writeTxOut) ++ writeVarBytes t.pkScript

/-- The outputs, one after the other. -/
def writeTxOuts : List TxOut → Outcome Empty Bytes
  | [] => .ok []
  | t :: rest => do return (← t.writeTxOut) ++ (← writeTxOuts rest)

/-! ## The encoding -/

/-- The items before the first separator. -/
def beforeSeparator {α : Type} (isSeparator : α → Bool) (l : List α) : List α :=
  l.takeWhile fun x => !isSeparator x

/-- The items of a list that are written. -/
def written {α : Type} (full : Bool) (isSeparator : α → Bool) (l : List α) : List α :=
  if full then l else beforeSeparator isSeparator l

/-- The definitions. With `TxNoDefine` there may be none. -/
def writeDefs (full : Bool) (msg : MsgTx) : Except String Bytes :=
  if msg.version &&& TxNoDefine = 0 then
    let defs := written full Definition.isSeparator msg.txDef
    .ok (writeLen defs.length ++ defs.flatMap writeDefinition)
  else if msg.txDef ≠ [] then .error "Incorrect tx format"
  else .ok []

/-- `WriteSignature`, or the number of signatures that are left out. -/
def writeSignatures (signatures : Bool) (msg : MsgTx) : Bytes :=
  if signatures then
    writeLen msg.signatureScripts.length ++ msg.signatureScripts.flatMap writeVarBytes
  else writeVarInt 0

/-- `OmcEncode` with the base encoding or that with signatures: what has been written, and the
error. -/
def omcEncode (signatures full : Bool) (msg : MsgTx) : Outcome Empty (Bytes × Option String) :=
  let version := putUint32 msg.version.toUInt32
  match writeDefs full msg with
  | .error e => .ok (version, some e)
  | .ok defs =>
    let ins := written full TxIn.isSeparator msg.txIn
    let outs := written full TxOut.isSeparator msg.txOut
    do
      let outs' ← writeTxOuts outs
      return (version ++ defs ++ (writeLen ins.length ++ ins.flatMap TxIn.writeTxIn) ++
        (writeLen outs.length ++ outs') ++
        (if msg.version &&& TxNoLock = 0 then putUint32 msg.lockTime else []) ++
        writeSignatures signatures msg, none)

section Hashes

variable (doubleHashH : Bytes → Hash)

/-- `TxHash`: neither signatures nor what contract execution appends. -/
def txHash (msg : MsgTx) : Outcome Empty Hash := do
  let r ← omcEncode false false msg
  return doubleHashH r.1

/-- `TxFullHash`: with what contract execution appends. -/
def txFullHash (msg : MsgTx) : Outcome Empty Hash := do
  let r ← omcEncode false true msg
  return doubleHashH r.1

end Hashes

/-- `Stripped`: a copy without what contract execution appends. The value of an output is
dereferenced. -/
def stripped (msg : MsgTx) : Outcome Empty MsgTx :=
  let outs := beforeSeparator TxOut.isSeparator msg.txOut
  if outs.all fun t => t.value.isSome then
    .ok { msg with
      txDef := beforeSeparator Definition.isSeparator msg.txDef
      txIn := beforeSeparator TxIn.isSeparator msg.txIn
      txOut := outs }
  else crash

/-! ## What the encoding depends on -/

section Separators

variable {α : Type} {isSeparator : α → Bool}

theorem beforeSeparator_of_none {l : List α} (h : ∀ x ∈ l, isSeparator x = false) :
    beforeSeparator isSeparator l = l := by
  rw [beforeSeparator, List.takeWhile_eq_self_iff]
  intro x hx
  rw [h x hx, Bool.not_false]

theorem beforeSeparator_append {l l' : List α} {s : α} (h : ∀ x ∈ l, isSeparator x = false)
    (hs : isSeparator s = true) : beforeSeparator isSeparator (l ++ s :: l') = l := by
  rw [beforeSeparator, List.takeWhile_append_of_pos, List.takeWhile_cons, hs]
  · simp
  · intro x hx
    rw [h x hx, Bool.not_false]

end Separators

/-- The parts of a transaction that are the same before and after an extension. -/
structure SameBase (msg ext : MsgTx) : Prop where
  version : ext.version = msg.version
  lockTime : ext.lockTime = msg.lockTime
  defs : beforeSeparator Definition.isSeparator ext.txDef =
    beforeSeparator Definition.isSeparator msg.txDef
  ins : beforeSeparator TxIn.isSeparator ext.txIn = beforeSeparator TxIn.isSeparator msg.txIn
  outs : beforeSeparator TxOut.isSeparator ext.txOut = beforeSeparator TxOut.isSeparator msg.txOut

/-- The encoding of what stands before the separators depends on nothing else, unless the
transaction may have no definitions. -/
theorem SameBase.omcEncode {msg ext : MsgTx} (h : SameBase msg ext)
    (hdefs : msg.version &&& TxNoDefine ≠ 0 → (ext.txDef = [] ↔ msg.txDef = [])) :
    omcEncode false false ext = omcEncode false false msg := by
  have hw : writeDefs false ext = writeDefs false msg := by
    by_cases hv : msg.version &&& TxNoDefine = 0
    · simp only [writeDefs, h.version, hv, if_true, written, Bool.false_eq_true, if_false, h.defs]
    · simp only [writeDefs, h.version, hv, if_false, ne_eq, hdefs hv]
  simp only [Zent.omcEncode, hw, h.version, h.lockTime, written, Bool.false_eq_true, if_false,
    h.ins, h.outs, writeSignatures]

end Zent
