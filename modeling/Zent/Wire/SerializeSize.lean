import Mathlib.Algebra.BigOperators.Group.List.Basic
import Zent.Wire.OmcEncode

/-!
# The size of an encoding

`MsgTx.SerializeSize` and its likes (`btcd/wire/msgtx.go`) predict how many bytes `OmcEncode`
writes, by a recursion of their own. They count a lock time and a number of definitions that need
not be written and a value for each separator, and some kinds of definitions without their type.
-/

namespace Zent

open Go List

/-! ## The predictions -/

/-- `common.VarIntSerializeSize` -/
def varIntSerializeSize (val : UInt64) : Nat :=
  if val < 0xfd then 1 else if val ≤ 0xffff then 3 else if val ≤ 0xffffffff then 5 else 9

/-- `common.VarIntSerializeSize(uint64(n))` for a length. -/
def lenSize (n : Nat) : Nat := varIntSerializeSize (UInt64.ofNat n)

def Definition.serializeSize : Definition → Nat
  | vertexDef _ => 12
  | borderDef _ _ _ => 32 + 24
  | polygonDef loops =>
    1 + lenSize loops.length + (loops.map fun l => lenSize l.length + l.length * 32).sum
  | rightDef _ desc _ => 1 + 32 + 1 + lenSize desc.length + desc.length
  | rightSetDef rights => lenSize rights.length + 32 * rights.length
  | separatorDef => 1

def TxIn.serializeSize (_ : TxIn) : Nat := 44

def Token.serializeSize (t : Token) : Nat :=
  varIntSerializeSize t.tokenType + (if t.tokenType &&& 1 ≠ 0 then 32 else 8) +
    if t.tokenType &&& 2 ≠ 0 then 32 else 0

def TxOut.serializeSize (t : TxOut) : Nat :=
  t.toToken.serializeSize + (t.pkScript.length + lenSize t.pkScript.length)

/-- The items that are counted, and their number. -/
def partSize {α : Type} (size : α → Nat) (l : List α) : Nat := (l.map size).sum + lenSize l.length

def baseSize (full : Bool) (msg : MsgTx) : Nat :=
  8 + partSize Definition.serializeSize (written full Definition.isSeparator msg.txDef) +
    partSize TxIn.serializeSize (written full TxIn.isSeparator msg.txIn) +
    partSize TxOut.serializeSize (written full TxOut.isSeparator msg.txOut)

def serializeSize (msg : MsgTx) : Nat :=
  baseSize true msg +
    partSize (fun s : Bytes => lenSize s.length + s.length) msg.signatureScripts

def serializeSizeStripped (msg : MsgTx) : Nat := baseSize false msg

def serializeSizeFull (msg : MsgTx) : Nat := baseSize true msg

/-! ## What is written -/

/-- The size does not count the type. -/
def Definition.untyped : Definition → Bool
  | vertexDef _ | borderDef _ _ _ | rightSetDef _ => true
  | _ => false

/-- The type bytes that are not counted. -/
def shortfall (full : Bool) (msg : MsgTx) : Nat :=
  (written full Definition.isSeparator msg.txDef).countP Definition.untyped

/-- The values of separators, and what the version leaves out. -/
def surplus (full : Bool) (msg : MsgTx) : Nat :=
  8 * (written full TxOut.isSeparator msg.txOut).countP TxOut.isSeparator +
    (if msg.version &&& TxNoDefine = 0 then 0 else 1) +
    if msg.version &&& TxNoLock = 0 then 0 else 4

/-- The value of an output is of the kind that its type says. -/
def TxOut.Matches (t : TxOut) : Prop :=
  match t.value with
  | none => False
  | some (.numToken _) => t.tokenType &&& 1 = 0
  | some (.hashToken _) => t.tokenType &&& 1 ≠ 0

/-- A transaction that `OmcEncode` can write. -/
structure WritableTx extends MsgTx where
  noDefs : version &&& TxNoDefine ≠ 0 → txDef = []
  matching : ∀ t ∈ txOut, t.isSeparator = false → t.Matches

@[simp] theorem length_writeVarInt (v : UInt64) :
    (writeVarInt v).length = varIntSerializeSize v := by
  rw [writeVarInt, varIntSerializeSize]
  split
  · rfl
  split
  · rfl
  split <;> rfl

@[simp] theorem length_writeLen (n : Nat) : (writeLen n).length = lenSize n := length_writeVarInt _

@[simp] theorem length_putUint32 (x : UInt32) : (putUint32 x).length = 4 := by simp [putUint32]

theorem length_hashes (l : List Hash) : (l.flatMap hashBytes).length = l.length * 32 := by
  rw [length_flatMap, map_congr_left fun h _ => length_hashBytes h, map_const', sum_replicate_nat]

theorem Definition.length_write (d : Definition) :
    (writeDefinition d).length = d.serializeSize + if d.untyped then 1 else 0 := by
  cases d with
  | vertexDef v => rfl
  | borderDef father b e =>
    simp [writeDefinition, write, serializeSize, untyped, VertexDef.serialize]
  | polygonDef loops =>
    have hloop : ∀ l ∈ loops, (writeLen l.length ++ l.flatMap hashBytes).length =
        lenSize l.length + l.length * 32 := fun l _ => by
      rw [length_append, length_writeLen, length_hashes]
    rw [writeDefinition, write, length_cons, length_append, length_writeLen, length_flatMap,
      map_congr_left hloop, serializeSize]
    simp only [untyped, Bool.false_eq_true, if_false]
    omega
  | rightDef father desc attrib =>
    simp [writeDefinition, write, writeVarBytes, serializeSize, untyped]
    omega
  | rightSetDef rights =>
    simp only [writeDefinition, write, length_cons, length_append, length_writeLen, length_hashes,
      length_insertionSort, serializeSize, untyped, if_true]
    omega
  | separatorDef => rfl

theorem length_writeDefinitions (l : List Definition) : (l.flatMap writeDefinition).length =
    (l.map Definition.serializeSize).sum + l.countP Definition.untyped := by
  induction l with
  | nil => rfl
  | cons d l ih =>
    rw [flatMap_cons, length_append, ih, Definition.length_write, map_cons, sum_cons, countP_cons]
    omega

theorem TxOut.writeTxOut_ok {t : TxOut} (h : t.isSeparator = false → t.Matches) :
    ∃ bs, t.writeTxOut = .ok bs ∧
      bs.length + 8 * (if t.isSeparator then 1 else 0) = t.serializeSize := by
  obtain ⟨⟨typ, value, rights⟩, script⟩ := t
  by_cases hsep : typ = DefTypeSeparator
  · subst hsep
    refine ⟨writeVarInt DefTypeSeparator ++ writeVarBytes script, rfl, ?_⟩
    have hbits : DefTypeSeparator &&& 1 = 0 ∧ DefTypeSeparator &&& 2 = 0 := by decide
    simp [TxOut.serializeSize, Token.serializeSize, TxOut.isSeparator, writeVarBytes, hbits]
    omega
  · have hmatch := h (by simp [TxOut.isSeparator, hsep])
    cases value with
    | none => exact hmatch.elim
    | some v =>
      refine ⟨_, by simp only [TxOut.writeTxOut, Token.writeTxOut, if_neg hsep, ok_bind]; rfl, ?_⟩
      have hrights : (if typ &&& 2 = 0 then [] else hashBytes (rights.getD zerohash)).length =
          if typ &&& 2 = 0 then 0 else 32 := by split <;> simp
      cases v with
      | numToken val =>
        have hbit : typ &&& 1 = 0 := hmatch
        simp [TxOut.serializeSize, Token.serializeSize, TxOut.isSeparator, writeVarBytes, hsep,
          hbit,
          hrights, putUint64]
        omega
      | hashToken hash =>
        have hbit : typ &&& 1 ≠ 0 := hmatch
        simp [TxOut.serializeSize, Token.serializeSize, TxOut.isSeparator, writeVarBytes, hsep,
          hbit,
          hrights]
        omega

theorem writeTxOuts_ok : ∀ {l : List TxOut}, (∀ t ∈ l, t.isSeparator = false → t.Matches) →
    ∃ bs, writeTxOuts l = .ok bs ∧
      bs.length + 8 * l.countP TxOut.isSeparator = (l.map TxOut.serializeSize).sum
  | [], _ => ⟨[], rfl, rfl⟩
  | t :: l, h => by
    obtain ⟨hd, hl⟩ := forall_mem_cons.mp h
    obtain ⟨bs, hbs, hlen⟩ := t.writeTxOut_ok hd
    obtain ⟨bs', hbs', hlen'⟩ := writeTxOuts_ok hl
    refine ⟨bs ++ bs', by simp only [writeTxOuts, hbs, hbs', ok_bind]; rfl, ?_⟩
    rw [length_append, countP_cons, map_cons, sum_cons]
    omega

theorem mem_of_mem_written {α : Type} {full : Bool} {p : α → Bool} {l : List α} {x : α}
    (h : x ∈ written full p l) : x ∈ l := by
  cases full with
  | true => exact h
  | false => exact (List.takeWhile_sublist _).mem h

theorem length_writeTxIns (l : List TxIn) :
    (l.flatMap TxIn.writeTxIn).length = (l.map TxIn.serializeSize).sum := by
  have h : ∀ t : TxIn, t.writeTxIn.length = t.serializeSize := fun t => by
    simp [TxIn.writeTxIn, TxIn.serializeSize]
  rw [length_flatMap, map_congr_left fun t _ => h t]

/-- What is written is what is predicted, apart from the shortfall and the surplus. -/
theorem length_omcEncode (msg : WritableTx) (signatures full : Bool) :
    ∃ bs, omcEncode signatures full msg.toMsgTx = .ok (bs, none) ∧
      bs.length + surplus full msg.toMsgTx = baseSize full msg.toMsgTx +
        shortfall full msg.toMsgTx + (writeSignatures signatures msg.toMsgTx).length := by
  obtain ⟨outs, houts, hlen⟩ := writeTxOuts_ok (l := written full TxOut.isSeparator msg.txOut)
    fun t ht => msg.matching t (mem_of_mem_written ht)
  have hdefs : ∃ defs, writeDefs full msg.toMsgTx = .ok defs ∧
      defs.length + (if msg.version &&& TxNoDefine = 0 then 0 else 1) =
        partSize Definition.serializeSize (written full Definition.isSeparator msg.txDef) +
          shortfall full msg.toMsgTx := by
    by_cases hv : msg.version &&& TxNoDefine = 0
    · refine ⟨_, by rw [writeDefs, if_pos hv], ?_⟩
      simp only [length_append, length_writeLen, length_writeDefinitions, partSize, shortfall,
        if_pos hv]
      omega
    · have hnil := msg.noDefs hv
      refine ⟨[], by rw [writeDefs, if_neg hv, if_neg (by simp [hnil])], ?_⟩
      rw [shortfall, hnil]
      cases full <;> simp [hv, written, beforeSeparator, partSize, lenSize] <;> rfl
  obtain ⟨defs, hdefs, hlen'⟩ := hdefs
  refine ⟨_, by simp only [omcEncode, hdefs, houts, ok_bind]; rfl, ?_⟩
  simp only [length_append, length_writeLen, length_putUint32, length_writeTxIns, baseSize, surplus,
    partSize] at *
  split <;> simp <;> omega

/-- A prediction is what is written, without an error. -/
def Predicts (size : Nat) (r : Outcome Empty (Bytes × Option String)) : Prop :=
  ∃ bs, r = .ok (bs, none) ∧ bs.length = size

/-- All predictions are exact. -/
def SizesExact (msg : MsgTx) : Prop :=
  Predicts (serializeSize msg) (omcEncode true true msg) ∧
  Predicts (serializeSizeStripped msg + 1) (omcEncode false false msg) ∧
  Predicts (serializeSizeFull msg + 1) (omcEncode false true msg)

theorem predicts_iff (msg : WritableTx) (signatures full : Bool) {size : Nat}
    (hsize : size = baseSize full msg.toMsgTx + (writeSignatures signatures msg.toMsgTx).length) :
    Predicts size (omcEncode signatures full msg.toMsgTx) ↔
      shortfall full msg.toMsgTx = surplus full msg.toMsgTx := by
  obtain ⟨bs, hbs, hlen⟩ := length_omcEncode msg signatures full
  rw [Predicts, hbs]
  constructor
  · rintro ⟨_, ⟨rfl⟩, h⟩
    omega
  · intro h
    exact ⟨bs, rfl, by omega⟩

/-- **Predicted sizes.** They are exact where the bytes left out, for the types of definitions, are
as many as the bytes counted in vain. -/
theorem sizesExact_iff (msg : WritableTx) : SizesExact msg.toMsgTx ↔
    ∀ full, shortfall full msg.toMsgTx = surplus full msg.toMsgTx := by
  have hsigs : (writeSignatures true msg.toMsgTx).length =
      partSize (fun s : Bytes => lenSize s.length + s.length) msg.signatureScripts := by
    simp only [writeSignatures, if_true, partSize, length_append, length_writeLen, length_flatMap,
      writeVarBytes]
    omega
  have hstripped : Predicts (serializeSizeStripped msg.toMsgTx + 1) _ ↔ _ :=
    predicts_iff msg false false rfl
  have hfull : Predicts (serializeSizeFull msg.toMsgTx + 1) _ ↔ _ := predicts_iff msg false true rfl
  rw [SizesExact, predicts_iff msg true true (hsigs ▸ rfl), hstripped, hfull, Bool.forall_bool]
  tauto

/-- The size of a transaction that defines a vertex is one byte too small. -/
theorem vertex_size : ∃ msg : WritableTx, msg.txDef = [.vertexDef ⟨1, 2, 3⟩] ∧
    serializeSize msg.toMsgTx = 24 ∧ ¬SizesExact msg.toMsgTx := by
  refine ⟨⟨⟨1, [.vertexDef ⟨1, 2, 3⟩], [], [], 0, []⟩, by decide, nofun⟩, rfl, rfl, ?_⟩
  rintro ⟨⟨bs, hbs, hlen⟩, -⟩
  cases hbs
  exact absurd hlen (by decide)

end Zent
