import Zent.Ovm.Machine
import Zent.Wire.OmcEncode

/-!
# The transaction id under contract execution

Contract execution extends a transaction by inputs, outputs and definitions, each behind a
separator of its own. The id of a transaction is the hash of what stands before the separators, so
an extension should not change it.

It does where the version of the transaction says that there are no definitions: the encoder then
looks at the whole list of definitions, finds the separator of the extension, and stops after the
version with an error that the hash function ignores.
-/

namespace Zent.Ovm

open Go List Tx

/-- What the execution of a contract adds to a transaction. -/
inductive Addition where
  | txIn (t : OutPoint) (sig : Bytes)
  | txOut (t : TxOut)
  | definition (d : Definition)
  deriving DecidableEq, Repr

def Addition.isDefinition : Addition → Bool
  | .definition _ => true
  | _ => false

namespace Tx

/-- `btcutil.NewTx`, with the hash that `Hash` caches. -/
def newTx (msg : MsgTx) (hash : Hash) : Tx := ⟨msg, hash, false, false, false, false⟩

/-- `AddTxIn`, `AddTxOut` and `AddDef` -/
def extend (s : Tx) : Addition → Tx
  | .txIn t sig => s.addTxIn t sig
  | .txOut t => (s.addTxOut t).1
  | .definition d => s.addDef d

def extendAll (s : Tx) (adds : List Addition) : Tx := adds.foldl extend s

end Tx

/-! ## Extensions -/

/-- `l` is `base`, or with `has` an extension of it behind a separator. -/
def Behind {α : Type} (sep : α) (has : Bool) (base l : List α) : Prop :=
  if has then ∃ added, l = base ++ sep :: added else l = base

namespace Behind

variable {α : Type} {sep : α} {has : Bool} {base l : List α}

/-- The separator is put there before the first item. -/
theorem append (h : Behind sep has base l) (x : α) :
    Behind sep true base ((if has then l else l ++ [sep]) ++ [x]) := by
  cases has with
  | false =>
    have hl : l = base := h
    exact ⟨[x], by simp [hl]⟩
  | true =>
    obtain ⟨added, hl⟩ : ∃ added, l = base ++ sep :: added := h
    exact ⟨added ++ [x], by simp [hl]⟩

theorem beforeSeparator {isSeparator : α → Bool} (h : Behind sep has base l)
    (hsep : isSeparator sep = true) (hbase : ∀ x ∈ base, isSeparator x = false) :
    beforeSeparator isSeparator l = base := by
  cases has with
  | false =>
    have hl : l = base := h
    rw [hl, beforeSeparator_of_none hbase]
  | true =>
    obtain ⟨added, hl⟩ : ∃ added, l = base ++ sep :: added := h
    rw [hl, beforeSeparator_append hbase hsep]

end Behind

/-- A transaction under execution, and the message it started with. -/
structure Extends (msg : MsgTx) (s : Tx) : Prop where
  version : s.msg.version = msg.version
  lockTime : s.msg.lockTime = msg.lockTime
  ins : Behind separatorIn s.hasIns msg.txIn s.msg.txIn
  outs : Behind separatorOut s.hasOuts msg.txOut s.msg.txOut
  defs : Behind .separatorDef s.hasDefs msg.txDef s.msg.txDef

theorem Extends.newTx (msg : MsgTx) (hash : Hash) : Extends msg (.newTx msg hash) :=
  ⟨rfl, rfl, rfl, rfl, rfl⟩

variable {msg : MsgTx} {s : Tx}

/-- **One addition** to an extension of a transaction, behind the separator of its kind, gives an
extension again. -/
theorem Extends.extend (h : Extends msg s) (a : Addition) : Extends msg (s.extend a) := by
  cases a with
  | txIn t sig =>
    have hins := h.ins.append (newTxIn s.msg.signatureScripts.length t sig)
    cases hhas : s.hasIns <;> rw [hhas] at hins <;>
      exact
        { version := by simp [Tx.extend, Tx.addTxIn, Tx.openIns, hhas, h.version]
          lockTime := by simp [Tx.extend, Tx.addTxIn, Tx.openIns, hhas, h.lockTime]
          ins := by simpa [Tx.extend, Tx.addTxIn, Tx.openIns, hhas] using hins
          outs := by simpa [Tx.extend, Tx.addTxIn, Tx.openIns, hhas] using h.outs
          defs := by simpa [Tx.extend, Tx.addTxIn, Tx.openIns, hhas] using h.defs }
  | txOut t =>
    have houts := h.outs.append t
    cases hhas : s.hasOuts <;> rw [hhas] at houts <;>
      exact
        { version := by simp [Tx.extend, Tx.addTxOut, Tx.openOuts, hhas, h.version]
          lockTime := by simp [Tx.extend, Tx.addTxOut, Tx.openOuts, hhas, h.lockTime]
          ins := by simpa [Tx.extend, Tx.addTxOut, Tx.openOuts, hhas] using h.ins
          outs := by simpa [Tx.extend, Tx.addTxOut, Tx.openOuts, hhas] using houts
          defs := by simpa [Tx.extend, Tx.addTxOut, Tx.openOuts, hhas] using h.defs }
  | definition d =>
    have hdefs := h.defs.append d
    cases hhas : s.hasDefs <;> rw [hhas] at hdefs <;>
      exact
        { version := by simp [Tx.extend, Tx.addDef, hhas, h.version]
          lockTime := by simp [Tx.extend, Tx.addDef, hhas, h.lockTime]
          ins := by simpa [Tx.extend, Tx.addDef, hhas] using h.ins
          outs := by simpa [Tx.extend, Tx.addDef, hhas] using h.outs
          defs := by simpa [Tx.extend, Tx.addDef, hhas] using hdefs }

/-- **Any additions**, in whatever order, lead from extensions to extensions. -/
theorem Extends.extendAll (adds : List Addition) :
    ∀ {s : Tx}, Extends msg s → Extends msg (s.extendAll adds) := by
  induction adds with
  | nil => exact fun h => h
  | cons a adds ih => exact fun h => ih (h.extend a)

theorem hasDefs_extendAll (adds : List Addition) :
    ∀ s : Tx, (s.extendAll adds).hasDefs = (s.hasDefs || adds.any Addition.isDefinition) := by
  induction adds with
  | nil => intro s; simp [extendAll]
  | cons a adds ih =>
    intro s
    have hone : (s.extend a).hasDefs = (s.hasDefs || a.isDefinition) := by
      cases a with
      | txIn t sig => cases h : s.hasIns <;> simp [extend, addTxIn, openIns, h,
          Addition.isDefinition]
      | txOut t => cases h : s.hasOuts <;> simp [Tx.extend, Tx.addTxOut, Tx.openOuts, h,
          Addition.isDefinition]
      | definition d => simp [Tx.extend, Tx.addDef, Addition.isDefinition]
    have hstep : s.extendAll (a :: adds) = (s.extend a).extendAll adds := rfl
    rw [hstep, ih, hone, any_cons, Bool.or_assoc]

/-! ## The id -/

/-- There is no separator in the transaction. -/
structure Unextended (msg : MsgTx) : Prop where
  ins : ∀ t ∈ msg.txIn, t.isSeparator = false
  outs : ∀ t ∈ msg.txOut, t.isSeparator = false
  defs : ∀ d ∈ msg.txDef, d.isSeparator = false

theorem Extends.sameBase (h : Extends msg s) (hun : Unextended msg) : SameBase msg s.msg where
  version := h.version
  lockTime := h.lockTime
  defs := by
    rw [h.defs.beforeSeparator rfl hun.defs, beforeSeparator_of_none hun.defs]
  ins := by
    rw [h.ins.beforeSeparator rfl hun.ins, beforeSeparator_of_none hun.ins]
  outs := by
    rw [h.outs.beforeSeparator rfl hun.outs, beforeSeparator_of_none hun.outs]

/-- A message without separators is encoded in full either way. -/
theorem omcEncode_unextended (hun : Unextended msg) :
    omcEncode false true msg = omcEncode false false msg := by
  simp only [omcEncode, writeDefs, written, if_true, Bool.false_eq_true, if_false,
    beforeSeparator_of_none hun.defs, beforeSeparator_of_none hun.ins,
    beforeSeparator_of_none hun.outs]

/-- What is stripped of its extension is the message it started with. -/
theorem Extends.stripped (h : Extends msg s) (hun : Unextended msg) :
    stripped s.msg = if msg.txOut.all fun t => t.value.isSome
      then .ok { msg with signatureScripts := s.msg.signatureScripts } else crash := by
  have hmsg : s.msg = ⟨msg.version, s.msg.txDef, s.msg.txIn, s.msg.txOut, msg.lockTime,
      s.msg.signatureScripts⟩ := by
    rw [← h.version, ← h.lockTime]
  simp only [Zent.stripped, h.outs.beforeSeparator rfl hun.outs]
  rw [h.defs.beforeSeparator rfl hun.defs, h.ins.beforeSeparator rfl hun.ins]
  rw [hmsg]

/-- The extension keeps the id, whatever the hash function, and the id is the full hash of the
transaction that is stripped of the extension. -/
def HashKept (msg : MsgTx) (adds : List Addition) (hash : Hash) : Prop :=
  ∀ doubleHashH : Bytes → Hash,
    let ext := ((newTx msg hash).extendAll adds).msg
    txHash doubleHashH ext = txHash doubleHashH msg ∧
      (stripped ext >>= txFullHash doubleHashH) = txHash doubleHashH ext

/-- Where the version excludes definitions, none is added, or there are some anyway and the outputs
have values. -/
def KeepsPromise (msg : MsgTx) (adds : List Addition) : Prop :=
  msg.version &&& TxNoDefine ≠ 0 →
    if msg.txDef = [] then adds.any Addition.isDefinition = false
    else ∀ t ∈ msg.txOut, t.value ≠ none

theorem writeTxOuts_crash {l : List TxOut} (hsep : ∀ t ∈ l, t.isSeparator = false)
    (hnil : ∃ t ∈ l, t.value = none) : writeTxOuts l = crash := by
  induction l with
  | nil => simp at hnil
  | cons t l ih =>
    have hne : t.tokenType ≠ DefTypeSeparator := by
      simpa [TxOut.isSeparator] using hsep t mem_cons_self
    cases hv : t.value with
    | none =>
      have hone : t.writeTxOut = crash := by
        simp only [TxOut.writeTxOut, Token.writeTxOut, hne, if_false, hv]
        rfl
      rw [writeTxOuts, hone]
      rfl
    | some v =>
      have hrest : writeTxOuts l = crash := by
        refine ih (fun x hx => hsep x (mem_cons_of_mem t hx)) ?_
        obtain ⟨x, hx, hxv⟩ := hnil
        rcases mem_cons.mp hx with rfl | hx
        · rw [hv] at hxv
          cases hxv
        · exact ⟨x, hx, hxv⟩
      have hone : ∃ b, t.writeTxOut = .ok b := by
        simp only [TxOut.writeTxOut, Token.writeTxOut, hne, if_false, hv]
        exact ⟨_, rfl⟩
      obtain ⟨b, hb⟩ := hone
      rw [writeTxOuts, hb, hrest]
      rfl

/-- Definitions are refused, and nothing is written after the version. -/
theorem omcEncode_refused {full : Bool} (hv : msg.version &&& TxNoDefine ≠ 0)
    (hdef : msg.txDef ≠ []) :
    omcEncode false full msg =
      .ok (putUint32 msg.version.toUInt32, some "Incorrect tx format") := by
  simp only [omcEncode, writeDefs, hv, if_false, ne_eq, hdef, not_false_eq_true, if_true]

/-- More than the version is written otherwise. -/
theorem omcEncode_ne_version (hdefs : ∀ e, writeDefs false msg ≠ .error e) {e : Option String} :
    omcEncode false false msg ≠ .ok (putUint32 msg.version.toUInt32, e) := by
  intro h
  cases hw : writeDefs false msg with
  | error e => exact hdefs e hw
  | ok defs =>
    simp only [omcEncode, hw] at h
    cases ho : writeTxOuts (written false TxOut.isSeparator msg.txOut) with
    | error e =>
      rw [ho] at h
      cases h
    | ok outs =>
      simp only [ho, bind, Except.bind, pure, Except.pure, Except.ok.injEq, Prod.mk.injEq] at h
      have hlen := congrArg length h.1
      simp [writeSignatures, writeVarInt] at hlen

theorem txHash_refused (doubleHashH : Bytes → Hash) (hv : msg.version &&& TxNoDefine ≠ 0)
    (hdef : msg.txDef ≠ []) :
    txHash doubleHashH msg = .ok (doubleHashH (putUint32 msg.version.toUInt32)) := by
  rw [txHash, omcEncode_refused hv hdef]
  rfl

/-- Some hash function tells the refused encoding from that of the message. -/
theorem txHash_ne_refused (hnil : msg.txDef = []) :
    ∃ doubleHashH : Bytes → Hash,
      txHash doubleHashH msg ≠ .ok (doubleHashH (putUint32 msg.version.toUInt32)) := by
  refine ⟨fun b => if b = putUint32 msg.version.toUInt32 then 0 else 1, fun h => ?_⟩
  obtain ⟨⟨b, e⟩, hb, hhash⟩ := of_bind h
  have hdefs : ∀ e, writeDefs false msg ≠ .error e := by
    intro e
    rw [writeDefs]
    split
    · simp
    · rw [if_neg (not_not.mpr hnil)]
      simp
  have hne : b ≠ putUint32 msg.version.toUInt32 := by
    rintro rfl
    exact omcEncode_ne_version hdefs hb
  simp only [pure, Except.pure, if_neg hne, if_pos, Except.ok.injEq] at hhash
  exact absurd hhash (by decide)

/-- An extension has definitions where the message has some or one is added. -/
theorem Extends.txDef_eq_nil (h : Extends msg s) :
    s.msg.txDef = [] ↔ msg.txDef = [] ∧ s.hasDefs = false := by
  have hdefs := h.defs
  cases hhas : s.hasDefs with
  | false =>
    rw [hhas] at hdefs
    have hl : s.msg.txDef = msg.txDef := hdefs
    simp [hl]
  | true =>
    rw [hhas] at hdefs
    obtain ⟨added, hl⟩ : ∃ added,
        s.msg.txDef = msg.txDef ++ Definition.separatorDef :: added := hdefs
    simp [hl]

/-- The full hash of what is stripped of an extension is the hash of the message. -/
theorem Extends.stripped_hash (doubleHashH : Bytes → Hash) (h : Extends msg s)
    (hun : Unextended msg)
    (hval : msg.version &&& TxNoDefine ≠ 0 → msg.txDef ≠ [] → ∀ t ∈ msg.txOut, t.value ≠ none) :
    (Zent.stripped s.msg >>= txFullHash doubleHashH) = txHash doubleHashH msg := by
  rw [h.stripped hun]
  split
  · have hun' : Unextended { msg with signatureScripts := s.msg.signatureScripts } :=
      ⟨hun.ins, hun.outs, hun.defs⟩
    rw [ok_bind, txFullHash, txHash, omcEncode_unextended hun']
    rfl
  rename_i hall
  obtain ⟨t, ht, hnone⟩ : ∃ t ∈ msg.txOut, t.value = none := by
    simpa using hall
  have houts : writeTxOuts (written false TxOut.isSeparator msg.txOut) = crash := by
    rw [written, if_neg Bool.false_ne_true, beforeSeparator_of_none hun.outs]
    exact writeTxOuts_crash hun.outs ⟨t, ht, hnone⟩
  have hdefs : ∃ defs, writeDefs false msg = .ok defs := by
    rw [writeDefs]
    split
    · exact ⟨_, rfl⟩
    rename_i hv
    have hnil : msg.txDef = [] := by
      by_contra hne
      exact hval hv hne t ht hnone
    exact ⟨[], if_neg (not_not.mpr hnil)⟩
  obtain ⟨defs, hdefs⟩ := hdefs
  simp only [txHash, omcEncode, hdefs, houts]
  rfl

/-- **The id of a transaction does not depend on contract execution** exactly where no definition
is added to a transaction whose version excludes definitions. -/
theorem hashKept_iff (msg : MsgTx) (adds : List Addition) (hash : Hash) (hun : Unextended msg) :
    HashKept msg adds hash ↔ KeepsPromise msg adds := by
  have hext : Extends msg ((newTx msg hash).extendAll adds) :=
    (Extends.newTx msg hash).extendAll adds
  have hhas : ((newTx msg hash).extendAll adds).hasDefs = adds.any Addition.isDefinition := by
    rw [hasDefs_extendAll]
    rfl
  rw [HashKept]
  generalize (newTx msg hash).extendAll adds = s at hext hhas
  have hver := hext.version
  constructor
  · intro hkept hv
    split
    case isTrue hnil =>
      by_contra hany
      rw [Bool.not_eq_false, ← hhas] at hany
      have hdef : s.msg.txDef ≠ [] := by
        rw [ne_eq, hext.txDef_eq_nil, hany]
        simp
      obtain ⟨doubleHashH, hne⟩ := txHash_ne_refused hnil
      apply hne
      rw [← (hkept doubleHashH).1, txHash_refused doubleHashH (hver ▸ hv) hdef, hver]
    case isFalse hne =>
      intro t ht hnone
      have hdef : s.msg.txDef ≠ [] := by
        rw [ne_eq, hext.txDef_eq_nil]
        exact fun h => hne h.1
      have h := (hkept fun _ => 0).2
      rw [txHash_refused _ (hver ▸ hv) hdef, hext.stripped hun, if_neg] at h
      · cases h
      · simpa using ⟨t, ht, hnone⟩
  · intro hkeep doubleHashH
    have hsame : txHash doubleHashH s.msg = txHash doubleHashH msg := by
      rw [txHash, txHash, (hext.sameBase hun).omcEncode]
      intro hv
      rw [hext.txDef_eq_nil, hhas]
      have := hkeep hv
      grind
    refine ⟨hsame, ?_⟩
    rw [hsame]
    refine hext.stripped_hash doubleHashH hun fun hv hne => ?_
    have h := hkeep hv
    rwa [if_neg hne] at h

def paid : TxOut where
  tokenType := 0
  value := some (.numToken 5)
  rights := none
  pkScript := [0x88]

/-- A payment whose version excludes definitions. -/
def noDefineTx : MsgTx where
  version := TxVersion ||| TxNoDefine
  txDef := []
  txIn := [⟨⟨1, 0⟩, 0, 0⟩]
  txOut := [paid]
  lockTime := 0
  signatureScripts := []

/-- An input and an output that a contract adds leave the id as it is. -/
theorem noDefineTx_kept : HashKept noDefineTx [.txIn ⟨2, 1⟩ [7], .txOut paid] 0 := by
  refine (hashKept_iff noDefineTx _ 0 ⟨by decide, by decide, by decide⟩).mpr ?_
  intro _
  rfl

/-- A right that a contract defines changes the id. -/
theorem noDefineTx_not_kept :
    (∀ d ∈ noDefineTx.txDef, d.isSeparator = false) ∧
      ¬HashKept noDefineTx [.definition (.rightDef 1 [] 0x80)] 0 := by
  refine ⟨by decide, fun h => ?_⟩
  -- a hash function that tells the lengths of the encodings
  have hlen := (h fun b => BitVec.ofNat 256 b.length).1
  revert hlen
  decide +kernel

end Zent.Ovm
