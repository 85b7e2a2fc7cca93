import Zent.Go.Returns
import Zent.Blockchain.SpendJournal

/-!
# The collateral of a miner block

`CheckCollateral` looks for the output that a miner block pledges: in the stored set at the tip or,
if it has been spent since the block `latest`, in the spend journal. Only an output that it finds at
the tip is compared with the required amount and with the miner. On its walk back from the tip it
counts the inputs it passes, to find the place in the journal.
-/

namespace Zent

open Go List Option Int64 Int

/-- `1e8`: the units of a whole coin. -/
def unitsPerCoin : Int64 := 100000000

/-- `uint32(val / 1e8)` -/
def wholeCoins (val : Int64) : UInt32 := (val / unitsPerCoin).toUInt64.toUInt32

/-- `fmt.Errorf` -/
def collateralError {α : Type} (text : String) : Result α := fail (.errorf ⟨text, []⟩)

/-! ## The walk back -/

/-- The inputs of one transaction; the count goes on, or stops at an input that spends `o`. -/
def scanInputs (o : OutPoint) : Nat → List TxIn → Nat × Bool
  | seq, [] => (seq, false)
  | seq, txin :: rest =>
    if txin.zeroHash then scanInputs o seq rest
    else if txin.previousOutPoint = o then (seq, true)
    else scanInputs o (seq + 1) rest

/-- The transactions after the coinbase: the count of inputs where `o` is spent. -/
def scanTxs (o : OutPoint) : Nat → List MsgTx → Option Nat
  | _, [] => none
  | seq, tx :: rest =>
    if tx.isCrossChain then scanTxs o seq rest
    else
      match scanInputs o seq tx.txIn with
      | (seq, true) => some seq
      | (seq, false) => scanTxs o seq rest

/-- From the tip to `latest`: what the journal says of `o`, in the newest block that spends it. -/
def walkBack (o : OutPoint) (latest : Hash) : List ChainBlock → Result (Option SpentTxOut)
  | [] => .ok none
  | p :: parents =>
    if p.hash = latest then .ok none
    else do
      match scanTxs o 0 (← slice p.transactions 1 p.transactions.length) with
      | some seq => return some (← index p.stxos seq)
      | none => walkBack o latest parents

section Check

variable {txHash : MsgTx → Hash} (chain : BestChain txHash)

def BestChain.bestChainContains (hash : Hash) : Bool := chain.blocks.any fun p => p.hash == hash

/-- An output that is not in the stored set. -/
def spentCollateral (o : OutPoint) (latest : Option Hash) : Result UInt32 :=
  match latest with
  | none => collateralError "Collateral does not exist."
  | some latest =>
    if !chain.bestChainContains latest then .ok 0
    else do
      match ← walkBack o latest chain.blocks with
      | none => collateralError "Collateral does not exist."
      | some s =>
        if s.tokenType ≠ 0 then collateralError "Collateral is not OTC."
        else return wholeCoins (← numVal s.amount)

/-- An output of the stored set. -/
def unspentCollateral (e : UtxoEntry) (req : UInt32) (miner : Address) : Result UInt32 :=
  if e.tokenType ≠ FeeCoinTyp then collateralError "Collateral is not OTC."
  else do
    let val ← numVal e.amount
    if val < req.toUInt64.toInt64 * unitsPerCoin then collateralError "Insufficient Collateral."
    else if (← slice e.pkScript 1 21) ≠ addressBytes miner then
      collateralError "Collateral belongs to someone else."
    else return wholeCoins val

/-- `CheckCollateral`, where `mb` is the parent of the block. A block that pledges nothing is let
through before the parent is read: the test for `req > 0` that follows is never reached. -/
def checkCollateral (mb : Option MingingRightBlock) (block : MingingRightBlock)
    (latest : Option Hash) : Result UInt32 :=
  match block.utxos with
  | none => .ok 0
  | some o =>
    match mb with
    | none => collateralError "Prev block does not exist"
    | some mb =>
      match chain.utxos.lookupEntry o with
      | none => spentCollateral chain o latest
      | some e => unspentCollateral e mb.collateral block.miner

end Check

/-! ## The count of inputs -/

theorem scanInputs_eq (o : OutPoint) : ∀ (seq : Nat) (ins : List TxIn),
    scanInputs o seq ins =
      match ((ins.filter fun t => !t.zeroHash).map TxIn.previousOutPoint).findIdx? (· == o) with
      | some i => (seq + i, true)
      | none => (seq + (ins.filter fun t => !t.zeroHash).length, false)
  | seq, [] => rfl
  | seq, t :: rest => by
    rw [scanInputs]
    split
    case isTrue hz => simpa [hz] using scanInputs_eq o seq rest
    rename_i hz
    split
    case isTrue ho => simp [hz, ho, findIdx?_cons]
    rename_i ho
    rw [scanInputs_eq o (seq + 1) rest]
    cases hi : ((rest.filter fun t => !t.zeroHash).map TxIn.previousOutPoint).findIdx? (· == o) with
    | none => simp [hz, ho, hi, findIdx?_cons]; omega
    | some i => simp [hz, ho, hi, findIdx?_cons]; omega

/-- **The count agrees with the journal**: it is the position among all the outputs spent. -/
theorem scanTxs_eq (o : OutPoint) : ∀ (seq : Nat) (txs : List MsgTx),
    scanTxs o seq txs = ((txs.flatMap blockSpends).findIdx? (· == o)).map (seq + ·)
  | seq, [] => rfl
  | seq, tx :: rest => by
    rw [scanTxs, flatMap_cons, findIdx?_append, blockSpends]
    split
    · simpa using scanTxs_eq o seq rest
    rw [scanInputs_eq, MsgTx.spends]
    cases hi : ((tx.txIn.filter fun t => !t.zeroHash).map TxIn.previousOutPoint).findIdx?
        (· == o) with
    | some i => rfl
    | none =>
      show scanTxs o _ rest = _
      rw [scanTxs_eq, none_or, Option.map_map, length_map]
      congr 1
      funext i
      simp only [Function.comp]
      omega

/-! ## What the walk finds -/

/-- The blocks after `latest`. -/
def blocksAfter (latest : Hash) (blocks : List ChainBlock) : List ChainBlock :=
  blocks.takeWhile fun p => p.hash ≠ latest

/-- A transaction after `latest` has the hash of the output. -/
def Repeated (txHash : MsgTx → Hash) (latest : Hash) (blocks : List ChainBlock) (o : OutPoint) :
    Prop :=
  ∃ p ∈ blocksAfter latest blocks, ∃ tx ∈ p.transactions, txHash tx = o.hash

/-- What the chain holds or has last recorded of an output is what was there at `latest`. -/
structure Traced (blocks : List ChainBlock) (latest : Hash) (utxos : UtxoSet) (o : OutPoint) :
    Prop where
  unspent : ∀ tip e, blocks.head? = some tip → tip.utxos.entries.lookup o = some e →
    utxos.entries.lookup o = some e
  spent : ∀ s, walkBack o latest blocks = .ok (some s) →
    ∃ e, utxos.entries.lookup o = some e ∧ e.toSpentTxOut = s

variable {latest : Hash} {chain : BestChain txHash}

theorem walkBack_cons {o : OutPoint} {p : ChainBlock} {parents : List ChainBlock} {s : SpentTxOut}
    (hp : p.hash ≠ latest) (h : walkBack o latest (p :: parents) = .ok (some s)) :
    (∃ seq, p.spends.findIdx? (· == o) = some seq ∧ p.stxos[seq]? = some s) ∨
      p.spends.findIdx? (· == o) = none ∧ walkBack o latest parents = .ok (some s) := by
  rw [walkBack, if_neg hp] at h
  obtain ⟨txs, htxs, h⟩ := of_bind h
  have hdrop : txs = p.transactions.drop 1 := by
    rw [slice] at htxs
    split at htxs
    · cases htxs
      simp
    · cases htxs
  rw [scanTxs_eq, hdrop, ← ChainBlock.spends] at h
  cases hseq : p.spends.findIdx? (· == o) with
  | none =>
    rw [hseq] at h
    exact .inr ⟨rfl, h⟩
  | some seq =>
    rw [hseq] at h
    obtain ⟨s', hs', h⟩ := of_bind h
    cases h
    refine .inl ⟨seq, rfl, ?_⟩
    simpa using index_eq_ok.mp hs'

/-- **The walk and the stored set tell of the output at `latest`**, unless its hash is used again
after it. -/
theorem traced {txHash : MsgTx → Hash} {o : OutPoint} {l : ChainBlock} :
    ∀ {blocks : List ChainBlock}, blocks.IsChain (Links txHash) →
      blocks.find? (fun p => p.hash == latest) = some l → ¬ Repeated txHash latest blocks o →
      Traced blocks latest l.utxos o
  | [], _, hl, _ => by cases hl
  | p :: parents, hlinked, hl, hnew => by
    by_cases hp : p.hash = latest
    · -- the walk stops here
      rw [find?_cons_of_pos (by simpa using hp)] at hl
      obtain rfl := some_inj.mp hl
      constructor
      · intro tip e htip he
        obtain rfl := some_inj.mp htip
        exact he
      · intro s hs
        rw [walkBack, if_pos hp] at hs
        cases hs
    · rw [find?_cons_of_neg (by simpa using hp)] at hl
      have hafter : blocksAfter latest (p :: parents) = p :: blocksAfter latest parents := by
        rw [blocksAfter, takeWhile_cons_of_pos (by simpa using hp), blocksAfter]
      have hne : ∀ tx ∈ p.transactions, o.hash ≠ txHash tx := fun tx htx heq =>
        hnew ⟨p, by rw [hafter]; exact mem_cons_self, tx, htx, heq.symm⟩
      have ih : Traced parents latest l.utxos o := by
        refine traced hlinked.of_cons hl ?_
        rintro ⟨q, hq, htx⟩
        exact hnew ⟨q, by rw [hafter]; exact mem_cons_of_mem p hq, htx⟩
      obtain ⟨parent, rest, rfl⟩ := exists_cons_of_ne_nil (l := parents) (by rintro rfl; cases hl)
      have hlink : Links txHash p parent := (isChain_cons_cons.mp hlinked).1
      constructor
      · intro tip e htip he
        obtain rfl := some_inj.mp htip
        cases hseq : p.spends.findIdx? (· == o) with
        | none =>
          rw [hlink.not_spent hne hseq] at he
          exact ih.unspent parent e rfl he
        | some seq =>
          rw [(hlink.spent hne hseq).1] at he
          cases he
      · intro s hs
        rcases walkBack_cons hp hs with ⟨seq, hseq, hrec⟩ | ⟨-, hs⟩
        · obtain ⟨-, e, he, hstxo⟩ := hlink.spent hne hseq
          rw [hrec] at hstxo
          exact ⟨e, ih.unspent parent e rfl he, (some_inj.mp hstxo).symm⟩
        · exact ih.spent s hs

/-! ## The check returns -/

/-- The walk meets blocks that were connected, whose journals are complete. -/
theorem walkBack_returns {txHash : MsgTx → Hash} {o : OutPoint} :
    ∀ {blocks : List ChainBlock}, blocks.IsChain (Links txHash) →
      (blocks.any fun p => p.hash == latest) = true → Returns (walkBack o latest blocks)
  | [], _, _ => returns_ok _
  | p :: parents, hlinked, hl => by
    rw [walkBack, returns_ite]
    refine ⟨fun _ => returns_ok _, fun hp => ?_⟩
    have hl : (parents.any fun p => p.hash == latest) = true := by simpa [hp] using hl
    obtain ⟨parent, rest, rfl⟩ := exists_cons_of_ne_nil (l := parents) (by rintro rfl; cases hl)
    have hlink : Links txHash p parent := (isChain_cons_cons.mp hlinked).1
    have hne : 0 < p.transactions.length := length_pos_iff.mpr hlink.transactions_ne_nil
    rw [slice_one hne, ok_bind, scanTxs_eq, ← drop_one, ← ChainBlock.spends]
    cases hseq : p.spends.findIdx? (· == o) with
    | none => exact walkBack_returns hlinked.of_cons hl
    | some seq =>
      have hlt : seq < p.stxos.length := by
        rw [hlink.length_stxos]
        exact (findIdx?_eq_some_iff_getElem.mp hseq).1
      refine returns_bind.mpr ⟨returns_index.mpr ?_, fun s _ => returns_pure _⟩
      simpa using hlt

theorem walkBack_mem {o : OutPoint} {s : SpentTxOut} :
    ∀ {blocks : List ChainBlock}, walkBack o latest blocks = .ok (some s) →
      ∃ p ∈ blocks, s ∈ p.stxos
  | p :: parents, h => by
    by_cases hp : p.hash = latest
    · rw [walkBack, if_pos hp] at h
      cases h
    rcases walkBack_cons hp h with ⟨seq, -, hs⟩ | ⟨-, h⟩
    · exact ⟨p, mem_cons_self, mem_of_getElem? hs⟩
    · obtain ⟨q, hq, hs⟩ := walkBack_mem h
      exact ⟨q, mem_cons_of_mem p hq, hs⟩

/-- An output at the tip that is valuable enough has a script with an address. -/
def ScriptReadable (req : UInt32) (e : UtxoEntry) : Prop :=
  e.tokenType = FeeCoinTyp → ∀ val, e.amount = some (.numToken val) →
    ¬ val < req.toUInt64.toInt64 * unitsPerCoin → 21 ≤ e.pkScript.length

theorem unspentCollateral_returns {e : UtxoEntry} {req : UInt32} {miner : Address}
    (hnum : e.tokenType = FeeCoinTyp → ∃ val, e.amount = some (.numToken val)) :
    Returns (unspentCollateral e req miner) ↔ ScriptReadable req e := by
  rw [unspentCollateral, ScriptReadable]
  by_cases htype : e.tokenType = FeeCoinTyp
  · obtain ⟨val, hval⟩ := hnum htype
    rw [if_neg (not_not.mpr htype), hval, numVal, ok_bind]
    by_cases hreq : val < req.toUInt64.toInt64 * unitsPerCoin
    · rw [if_pos hreq]
      refine iff_of_true (returns_fail _) fun _ val' hval' hreq' => ?_
      cases hval'
      exact absurd hreq hreq'
    · rw [if_neg hreq, returns_bind, returns_slice]
      refine ⟨fun h _ _ _ _ => h.1.2, fun h => ⟨⟨by decide, h htype val rfl hreq⟩, fun key _ => ?_⟩⟩
      exact returns_ite.mpr ⟨fun _ => returns_fail _, fun _ => returns_pure _⟩
  · rw [if_pos htype]
    exact iff_of_true (returns_fail _) fun h => absurd h htype

variable {txHash : MsgTx → Hash}

/-- **The check returns**, unless the output it finds has a script that is too short. -/
theorem checkCollateral_returns {mb : Option MingingRightBlock} {block : MingingRightBlock}
    (hnum : ∀ o e, chain.utxos.lookup o = some e → e.tokenType = FeeCoinTyp →
      ∃ val, e.amount = some (.numToken val))
    (hjournal : ∀ p ∈ chain.blocks, ∀ s ∈ p.stxos, s.tokenType = 0 →
      ∃ val, s.amount = some (.numToken val)) :
    Returns (checkCollateral chain mb block (some latest)) ↔
      ∀ o parent e, block.utxos = some o → mb = some parent → chain.utxos.lookup o = some e →
        ScriptReadable parent.collateral e := by
  rw [checkCollateral]
  cases block.utxos with
  | none => simp
  | some o =>
    cases mb with
    | none => simp [collateralError]
    | some parent =>
      dsimp only [UtxoViewpoint.lookupEntry]
      cases he : chain.utxos.lookup o with
      | some e =>
        refine (unspentCollateral_returns (hnum o e he)).trans
          ⟨?_, fun h => h o parent e rfl rfl he⟩
        intro h o' parent' e' ho hparent he'
        cases ho
        cases hparent
        cases he.symm.trans he'
        exact h
      | none =>
        refine iff_of_true ?_ fun o' parent' e' ho _ he' => by
          cases ho
          cases he.symm.trans he'
        -- what is in the journals is as complete as what is stored
        rw [spentCollateral, returns_ite]
        refine ⟨fun _ => returns_ok _, fun hl => returns_bind.mpr ⟨?_, fun found hfound => ?_⟩⟩
        · exact walkBack_returns chain.linked (by simpa [BestChain.bestChainContains] using hl)
        · cases found with
          | none => exact returns_fail _
          | some s =>
            refine returns_ite.mpr ⟨fun _ => returns_fail _, fun htype => ?_⟩
            obtain ⟨p, hp, hs⟩ := walkBack_mem hfound
            obtain ⟨val, hval⟩ := hjournal p hp s hs (not_not.mp htype)
            rw [hval]
            exact returns_pure _

/-! ## A collateral that is really there -/

/-- A fee coin of the miner, worth the required number of whole coins. -/
structure Secures (req : UInt32) (miner : Address) (e : UtxoEntry) : Prop where
  feeCoin : e.tokenType = FeeCoinTyp
  value : ∃ val, e.amount = some (.numToken val) ∧ req.toNat * 10 ^ 8 ≤ val.toInt
  owner : slice (ε := ChainError) e.pkScript 1 21 = .ok (addressBytes miner)

/-- **The collateral is really there**, in the set of unspent outputs at `latest`, and `v` is its
worth: none is required and none is named, or the output named secures the block. -/
def Provided (mb : Option MingingRightBlock) (block : MingingRightBlock) (utxos : UtxoSet)
    (v : UInt32) : Prop :=
  (block.utxos = none ∧ ∃ parent, mb = some parent ∧ parent.collateral = 0) ∨
    ∃ o parent e val, block.utxos = some o ∧ mb = some parent ∧ utxos.entries.lookup o = some e ∧
      Secures parent.collateral block.miner e ∧ e.amount = some (.numToken val) ∧
      (v.toNat : Int) = val.toInt / 10 ^ 8

/-- The amount that the chain holds of the output, or the one last recorded of it. -/
def LastAmount {txHash : MsgTx → Hash} (chain : BestChain txHash) (latest : Hash) (o : OutPoint)
    (val : Int64) : Prop :=
  (∃ e, chain.utxos.lookup o = some e ∧ e.amount = some (.numToken val)) ∨
    chain.utxos.lookup o = none ∧
      ∃ s, walkBack o latest chain.blocks = .ok (some s) ∧ s.amount = some (.numToken val)

/-- What the check leaves to others: the output was there at `latest`, of a sane value; it secures
the block by itself if it has been spent since, or if its hash has been used again for an output of
the same worth. -/
structure PledgedAt {txHash : MsgTx → Hash} (chain : BestChain txHash) (latest : Hash)
    (utxos : UtxoSet) (req : UInt32) (miner : Address) (o : OutPoint) (e : UtxoEntry) : Prop where
  there : utxos.entries.lookup o = some e
  sane : ∀ val, e.amount = some (.numToken val) → val.toInt / 10 ^ 8 < 2 ^ 32
  spent : chain.utxos.lookup o = none → Secures req miner e
  repeated : Repeated txHash latest chain.blocks o → Secures req miner e ∧
    ∀ val val', e.amount = some (.numToken val) → LastAmount chain latest o val' →
      wholeCoins val' = wholeCoins val

/-- The condition on the chain for what `CheckCollateral` lets through. -/
def Sound {txHash : MsgTx → Hash} (chain : BestChain txHash) (latest : Hash) (utxos : UtxoSet)
    (mb : Option MingingRightBlock) (block : MingingRightBlock) : Prop :=
  match block.utxos with
  | none => ∃ parent, mb = some parent ∧ parent.collateral = 0
  | some o => ∀ parent, mb = some parent →
    ∃ e, PledgedAt chain latest utxos parent.collateral block.miner o e

/-! ### Amounts -/

theorem toInt_required (req : UInt32) :
    (req.toUInt64.toInt64 * unitsPerCoin).toInt = req.toNat * 10 ^ 8 := by
  have hreq : req.toUInt64.toInt64.toInt = req.toNat := by
    have : req.toUInt64 = UInt64.ofNat req.toNat := by simp
    rw [this]
    exact toInt_toInt64_ofNat (by have := req.toNat_lt; omega)
  have hunits : unitsPerCoin.toInt = 10 ^ 8 := by decide
  rw [toInt_mul, hreq, hunits]
  have := req.toNat_lt
  exact bmod_eq_of_le (by omega) (by omega)

/-- The whole coins of an amount, if they fit. -/
theorem toNat_wholeCoins {val : Int64} (h : 0 ≤ val.toInt) :
    ((wholeCoins val).toNat : Int) = val.toInt / 10 ^ 8 % 2 ^ 32 := by
  have hdiv : (val / unitsPerCoin).toInt = val.toInt / 10 ^ 8 := by
    rw [toInt_div_of_ne_right _ _ (by decide), tdiv_eq_ediv_of_nonneg h]
    rfl
  have hnonneg : 0 ≤ val.toInt / 10 ^ 8 := ediv_nonneg h (by decide)
  have hle : 0 ≤ val / unitsPerCoin := by
    rw [le_iff_toInt_le, hdiv]
    exact hnonneg
  have hclamp : (((val / unitsPerCoin).toNatClampNeg : Nat) : Int) = val.toInt / 10 ^ 8 := by
    rw [← hdiv] at hnonneg ⊢
    exact toNat_of_nonneg hnonneg
  rw [wholeCoins, UInt64.toNat_toUInt32, toNat_toUInt64_of_le hle, natCast_emod, hclamp]
  rfl

/-- The returned amount is the worth of an output whose whole coins fit. -/
theorem toNat_wholeCoins_iff {val : Int64} (h : 0 ≤ val.toInt) :
    ((wholeCoins val).toNat : Int) = val.toInt / 10 ^ 8 ↔ val.toInt / 10 ^ 8 < 2 ^ 32 := by
  rw [toNat_wholeCoins h]
  have : 0 ≤ val.toInt / 10 ^ 8 := ediv_nonneg h (by decide)
  constructor
  · intro heq
    rw [← heq]
    exact emod_lt_of_pos _ (by decide)
  · exact emod_eq_of_lt this

/-! ### What the check has read -/

/-- An output at the tip that passes secures the block. -/
theorem secures_of_unspentCollateral {e : UtxoEntry} {req : UInt32} {miner : Address} {v : UInt32}
    (h : unspentCollateral e req miner = .ok v) :
    Secures req miner e ∧ ∃ val, e.amount = some (.numToken val) ∧ v = wholeCoins val := by
  rw [unspentCollateral] at h
  split at h
  · cases h
  rename_i htype
  obtain ⟨val, hval, h⟩ := of_bind h
  have hval := numVal_eq_ok.mp hval
  split at h
  · cases h
  rename_i hreq
  obtain ⟨pks, hpks, h⟩ := of_bind h
  split at h
  · cases h
  rename_i howner
  cases h
  refine ⟨⟨not_ne_iff.mp htype, ⟨val, hval, ?_⟩, ?_⟩, val, hval, rfl⟩
  · rw [lt_iff_toInt_lt, not_lt, toInt_required] at hreq
    exact hreq
  · rw [hpks, not_ne_iff.mp howner]

/-- An output that has been spent is only asked for its type. -/
theorem walkBack_of_spentCollateral {o : OutPoint} {v : UInt32}
    (hlatest : chain.bestChainContains latest = true)
    (h : spentCollateral chain o (some latest) = .ok v) :
    ∃ s val, walkBack o latest chain.blocks = .ok (some s) ∧ s.amount = some (.numToken val) ∧
      v = wholeCoins val := by
  rw [spentCollateral, hlatest, Bool.not_true, if_neg Bool.false_ne_true] at h
  obtain ⟨found, hwalk, h⟩ := of_bind h
  cases found with
  | none => cases h
  | some s =>
    dsimp only at h
    split at h
    · cases h
    · obtain ⟨val, hval, h⟩ := of_bind h
      cases h
      exact ⟨s, val, hwalk, numVal_eq_ok.mp hval, rfl⟩

/-! ## Exactly when the collateral is there -/

section Iff

variable {txHash : MsgTx → Hash} {chain : BestChain txHash} {latest : Hash} {l : ChainBlock}
  {mb : Option MingingRightBlock} {block : MingingRightBlock} {v : UInt32} {o : OutPoint}
  {e : UtxoEntry} {val : Int64} {val' : Int64} {req : UInt32} {miner : Address}

/-- What the check returns is the worth of the output as last seen. -/
theorem lastAmount_of_checkCollateral (ho : block.utxos = some o)
    (hlatest : chain.bestChainContains latest = true)
    (h : checkCollateral chain mb block (some latest) = .ok v) :
    ∃ parent, mb = some parent ∧ (∃ val, LastAmount chain latest o val ∧ v = wholeCoins val) ∧
      ∀ e, chain.utxos.lookup o = some e → Secures parent.collateral block.miner e := by
  rw [checkCollateral, ho] at h
  cases mb with
  | none => cases h
  | some parent =>
    refine ⟨parent, rfl, ?_⟩
    dsimp only at h
    split at h
    case h_1 hnone =>
      obtain ⟨s, val, hwalk, hval, hv⟩ := walkBack_of_spentCollateral hlatest h
      refine ⟨⟨val, .inr ⟨hnone, s, hwalk, hval⟩, hv⟩, fun e he => ?_⟩
      rw [UtxoViewpoint.lookupEntry, he] at hnone
      cases hnone
    rename_i e he
    obtain ⟨hsecures, val, hval, hv⟩ := secures_of_unspentCollateral h
    refine ⟨⟨val, .inl ⟨e, he, hval⟩, hv⟩, fun e' he' => ?_⟩
    rw [UtxoViewpoint.lookupEntry, he'] at he
    obtain rfl := some_inj.mp he
    exact hsecures

section

variable (hl : chain.blocks.find? (fun p => p.hash == latest) = some l)
  (hnew : ¬ Repeated txHash latest chain.blocks o)

include hl hnew

/-- An output at the tip whose hash was not repeated was there at `latest`. -/
theorem unspent_traced (he : chain.utxos.lookup o = some e) :
    l.utxos.entries.lookup o = some e := by
  rw [BestChain.utxos] at he
  split at he
  · cases he
  rename_i tip rest hblocks
  refine (traced chain.linked hl hnew).unspent tip e ?_ he
  rw [hblocks]
  rfl

/-- The output as last seen is the one that was there at `latest`, unless its hash was repeated. -/
theorem lastAmount_traced (he : l.utxos.entries.lookup o = some e)
    (h : LastAmount chain latest o val) : e.amount = some (.numToken val) := by
  rcases h with ⟨e', he', hval⟩ | ⟨-, s, hwalk, hval⟩
  · rw [unspent_traced hl hnew he'] at he
    obtain rfl := some_inj.mp he
    exact hval
  obtain ⟨e', he', rfl⟩ := (traced chain.linked hl hnew).spent s hwalk
  rw [he'] at he
  obtain rfl := some_inj.mp he
  exact hval

end

theorem LastAmount.unique (h : LastAmount chain latest o val)
    (h' : LastAmount chain latest o val') : val = val' := by
  have hamount : some (TokenValue.numToken val) = some (.numToken val') := by
    rcases h with ⟨e, he, hval⟩ | ⟨hnone, s, hwalk, hval⟩
    · rcases h' with ⟨e', he', hval'⟩ | ⟨hnone', -⟩
      · rw [he] at he'
        obtain rfl := some_inj.mp he'
        exact hval.symm.trans hval'
      · rw [he] at hnone'
        cases hnone'
    rcases h' with ⟨e', he', -⟩ | ⟨-, s', hwalk', hval'⟩
    · rw [hnone] at he'
      cases he'
    · rw [hwalk] at hwalk'
      obtain rfl := some_inj.mp (Except.ok.inj hwalk')
      exact hval.symm.trans hval'
  exact TokenValue.numToken.inj (some_inj.mp hamount)

theorem Secures.nonneg (h : Secures req miner e) (hval : e.amount = some (.numToken val)) :
    0 ≤ val.toInt := by
  obtain ⟨val', hval', hreq⟩ := h.value
  obtain rfl : val = val' := by simpa [hval] using hval'
  omega

/-- An output at `latest` that secures the block, of the worth last seen, is pledged. -/
theorem pledgedAt_of_secures (he : l.utxos.entries.lookup o = some e)
    (hsecures : Secures req miner e) (hval : e.amount = some (.numToken val))
    (hlast : LastAmount chain latest o val')
    (hv : ((wholeCoins val').toNat : Int) = val.toInt / 10 ^ 8) :
    PledgedAt chain latest l.utxos req miner o e := by
  have hsane : val.toInt / 10 ^ 8 < 2 ^ 32 := by
    have := (wholeCoins val').toNat_lt
    omega
  refine ⟨he, fun x hx => ?_, fun _ => hsecures, fun _ => ⟨hsecures, fun x x' hx hx' => ?_⟩⟩
  · obtain rfl : val = x := by simpa [hval] using hx
    exact hsane
  · obtain rfl : val = x := by simpa [hval] using hx
    obtain rfl := hlast.unique hx'
    apply UInt32.toNat_inj.mp
    apply ofNat_inj.mp
    rw [hv]
    exact ((toNat_wholeCoins_iff (hsecures.nonneg hval)).mpr hsane).symm

/-- What is pledged secures the block, and is of the worth last seen. -/
theorem PledgedAt.secures (h : PledgedAt chain latest l.utxos req miner o e)
    (hl : chain.blocks.find? (fun p => p.hash == latest) = some l)
    (htip : ∀ e, chain.utxos.lookup o = some e → Secures req miner e)
    (hlast : LastAmount chain latest o val') :
    Secures req miner e ∧ ∃ val, e.amount = some (.numToken val) ∧
      ((wholeCoins val').toNat : Int) = val.toInt / 10 ^ 8 := by
  by_cases hrep : Repeated txHash latest chain.blocks o
  · obtain ⟨hsecures, hsame⟩ := h.repeated hrep
    obtain ⟨val, hval, -⟩ := hsecures.value
    refine ⟨hsecures, val, hval, ?_⟩
    rw [hsame val val' hval hlast]
    exact (toNat_wholeCoins_iff (hsecures.nonneg hval)).mpr (h.sane val hval)
  have hval := lastAmount_traced hl hrep h.there hlast
  have hsecures : Secures req miner e := by
    cases hlook : chain.utxos.lookup o with
    | none => exact h.spent hlook
    | some e' =>
      have he' := unspent_traced hl hrep hlook
      rw [h.there] at he'
      obtain rfl := some_inj.mp he'
      exact htip e hlook
  exact ⟨hsecures, val', hval, (toNat_wholeCoins_iff (hsecures.nonneg hval)).mpr (h.sane val' hval)⟩

/-- **When an accepted collateral is really there**: where none is named, exactly if none is
required; where one is named, exactly if an output at `latest` is `PledgedAt`. -/
theorem provided_iff (hl : chain.blocks.find? (fun p => p.hash == latest) = some l)
    (h : checkCollateral chain mb block (some latest) = .ok v) :
    Provided mb block l.utxos v ↔ Sound chain latest l.utxos mb block := by
  have hlatest : chain.bestChainContains latest = true := by
    refine any_eq_true.mpr ⟨l, mem_of_find?_eq_some hl, ?_⟩
    simpa using find?_some hl
  rw [Provided, Sound]
  cases ho : block.utxos with
  | none => simp
  | some o =>
    obtain ⟨parent, rfl, ⟨val, hlast, rfl⟩, htip⟩ := lastAmount_of_checkCollateral ho hlatest h
    constructor
    · rintro (⟨hnone, -⟩ | ⟨o', parent', e, val', ho', hparent, he, hsecures, hval', hv⟩)
      · cases hnone
      · obtain rfl := some_inj.mp ho'
        obtain rfl := some_inj.mp hparent
        intro parent'' hparent''
        obtain rfl := some_inj.mp hparent''
        exact ⟨e, pledgedAt_of_secures he hsecures hval' hlast hv⟩
    · intro hsound
      obtain ⟨e, hpledged⟩ := hsound parent rfl
      obtain ⟨hsecures, val', hval', hv⟩ := hpledged.secures hl htip hlast
      exact .inr ⟨o, parent, e, val', rfl, rfl, hpledged.there, hsecures, hval', hv⟩

end Iff

/-! ## A pledge of somebody else's coin

The stored set holds one coin. The next block spends it, and then a miner whom it never belonged to
pledges it for a thousand. -/

def oneCoinSet : UtxoSet where
  entries := oneCoinView
  stored _ _ h := by
    rw [oneCoinView_lookup h]
    exact ⟨rfl, rfl⟩

def coinBlock : ChainBlock := ⟨100, 1, [], oneCoinSet, []⟩

def rewardTx : MsgTx := plainTx [⟨⟨0, 0⟩, 0xFFFFFFFF, 0⟩] [coinOut 1]

/-- The block that spends the coin. -/
def spendBlock : Result ChainBlock :=
  coinBlock.next twoHashes (fun _ => none) 101 2 [rewardTx, spendOnceTx]

/-- A miner block after one that requires a number of whole coins. -/
def requires (coins : UInt32) : MingingRightBlock :=
  { MingingRightBlock.zero with collateral := coins }

def pledge (miner : Address) : MingingRightBlock :=
  { MingingRightBlock.zero with miner := miner, utxos := some ⟨7, 0⟩ }

def coinChain : BestChain twoHashes := ⟨[coinBlock], .singleton coinBlock⟩

theorem spendBlock_ok : spendBlock.toOption.isSome = true := by decide +kernel

def spentChain : BestChain twoHashes where
  blocks := [spendBlock.toOption.get spendBlock_ok, coinBlock]
  linked := by
    refine .cons_cons (links_of_next (toOption_eq_some.mp (some_get spendBlock_ok).symm)) ?_
    exact .singleton coinBlock

/-- **A collateral that is not there.** The spent coin of another is accepted for a thousand. -/
theorem spentChain_not_provided :
    spentChain.blocks.find? (fun p => p.hash == 100) = some coinBlock ∧
      checkCollateral spentChain (some (requires 1000)) (pledge 5) (some 100) = .ok 1 ∧
      ¬ Provided (some (requires 1000)) (pledge 5) coinBlock.utxos 1 := by
  refine ⟨rfl, by decide +kernel, ?_⟩
  rintro (⟨hnone, -⟩ | ⟨o, parent, e, val, ho, hparent, he, hsecures, -⟩)
  · cases hnone
  · obtain rfl := some_inj.mp hparent
    have he' := oneCoinView_lookup he
    obtain ⟨val', hval, hreq⟩ := hsecures.value
    rw [he'] at hval
    cases hval
    exact absurd hreq (by decide)

/-- The unspent coin of the miner is there. -/
theorem coinChain_provided :
    checkCollateral coinChain (some (requires 1)) (pledge 0) (some 100) = .ok 1 ∧
      (Provided (some (requires 1)) (pledge 0) coinBlock.utxos 1 ↔
        Sound coinChain 100 coinBlock.utxos (some (requires 1)) (pledge 0)) :=
  have h : checkCollateral coinChain (some (requires 1)) (pledge 0) (some 100) = .ok 1 := by
    decide +kernel
  ⟨h, provided_iff rfl h⟩

end Zent
