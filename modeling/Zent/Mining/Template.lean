import Zent.Blockchain.ForfeitBlocks
import Zent.Blockchain.ForfeitureOrder
import Zent.Blockchain.CrossChain

/-!
# Block templates

`NewBlockTemplate` puts the transactions of a new block together: the coinbase, the forfeiture
transactions, imports of the incoming pool and transactions of the memory pool. It checks the block
as any other before it returns it.
-/

namespace Zent

open Go List MsgTx

/-- The transactions that are packed from those of the memory pool: in an order by priority, some
left out, and some with what their contracts have added. -/
structure Packing where
  run : List MsgTx → List MsgTx
  version_eq : ∀ l, ∀ tx ∈ run l, ∃ u ∈ l, tx.version = u.version

/-- What `NewBlockTemplate` starts from. -/
structure Builder where
  nextBlockHeight : Int32
  /-- the outputs of the coinbase with the fees added, and its signature scripts -/
  coinbaseOut : List TxOut
  signatureScripts : List Bytes
  sourceTxns : List MsgTx
  /-- the finalized entries of the incoming pool that are included -/
  inPool : List XchainData
  packing : Packing

/-- `createCoinbaseTx`, with its final outputs. -/
def Builder.coinbaseTx (b : Builder) : MsgTx :=
  ⟨TxVersion ||| TxNoLock, [], [⟨⟨zerohash, b.nextBlockHeight.toUInt32⟩, 0xFFFFFFFF, 0xFFFFFFFF⟩],
    b.coinbaseOut, 0, b.signatureScripts⟩

/-- The import of an entry of the incoming pool. -/
def finalizedTx (nextBlockHeight : UInt32) (xtx : XchainData) : MsgTx :=
  ⟨TxVersion ||| TxNoDefine, [],
    [⟨⟨xtx.hash, CrossChainFalg ||| xtx.chainID⟩, 0xFFFFFFFF, xtx.height.toUInt32⟩],
    xtx.txs.entries.map fun e => e.2.txo, nextBlockHeight + 1, []⟩

/-- The hash that stands for the coinbase while it is not known. -/
def coinBaseHash : Hash := BitVec.allOnes 256

/-- Puts the hash of the coinbase where it was left open. -/
def backFill (hash : Hash) (tx : MsgTx) : MsgTx :=
  { tx with txIn := tx.txIn.map fun txIn =>
      if txIn.previousOutPoint.hash = coinBaseHash then
        { txIn with previousOutPoint := { txIn.previousOutPoint with hash := hash } }
      else txIn }

/-- The transactions of the block, for the forfeiture transactions `comptx`. -/
def assemble (txHash : MsgTx → Hash) (b : Builder) (comptx : List MsgTx) : List MsgTx :=
  let blockTxns := [b.coinbaseTx]
  let blockTxns := blockTxns ++ comptx
  -- appended again after the time stamp has been chosen
  let blockTxns := blockTxns ++ comptx
  let blockTxns := blockTxns ++ b.inPool.map (finalizedTx b.nextBlockHeight.toUInt32)
  let blockTxns := blockTxns ++ b.packing.run (b.sourceTxns.filter fun tx => !tx.isForfeit)
  blockTxns.map (backFill (txHash b.coinbaseTx))

variable (env : BlockEnv)

/-- The checks of the block; `connects` are those between the two that are modelled. -/
def checkConnectBlockTemplate (connects : MsgBlock → Result Unit) (g : Int32)
    (compTxs : Result (List MsgTx)) (prevNode : Node) (block : MsgBlock) : Result Unit := do
  checkBlockSanity env block
  connects block
  checkForfeit env g compTxs prevNode block

/-- The template on a node, for the list that `CompTxs` returns there. -/
def newBlockTemplate (connects : MsgBlock → Result Unit) (g : Int32)
    (compTxs : Result (List MsgTx)) (prevNode : Node) (b : Builder) : Result MsgBlock := do
  let comptx ← compTxs
  let block : MsgBlock := ⟨b.nextBlockHeight, assemble env.txHash b comptx⟩
  checkConnectBlockTemplate env connects g compTxs prevNode block
  return block

variable {env} {ftxs : List MsgTx}

/-! ## What `CompTxs` returns -/

theorem isForfeit_forfeitTx (txIn : List TxIn) (txOut : List TxOut) :
    (forfeitTx txIn txOut).isForfeit = true := by
  show (ForfeitTxVersion ||| TxNoLock ||| TxNoDefine) &&& TxTypeMask == ForfeitTxVersion
  decide

section

variable {fenv : ForfeitEnv} {prevNode : Node} {fuel : Nat} {orders : RangeOrders}

theorem isForfeit_of_contribute {mrblks : List MingingRightBlock} {blk : MingingRightBlock}
    {added : List MsgTx} (h : contribute fenv prevNode fuel orders mrblks blk = .ok (some added)) :
    ∀ tx ∈ added, tx.isForfeit = true := by
  rcases guilty_of_contribute h with rfl | ⟨s, v, hconvicted⟩
  · exact fun tx htx => absurd htx not_mem_nil
  rcases hconvicted.cases with ⟨-, tx, rfl, htx⟩ | ⟨-, tx, ctx, bal, rfl, htx, hfiles, -⟩
  · obtain ⟨op, avail, awards, -, -, -, rfl⟩ := htx
    intro tx htx
    rw [mem_singleton.mp htx]
    exact isForfeit_forfeitTx _ _
  obtain ⟨op, avail, awards, -, -, -, rfl⟩ := htx
  obtain ⟨claims, leftover, records, -, -, rfl⟩ := hfiles
  intro tx htx
  rcases mem_pair.mp htx with rfl | rfl
  · exact isForfeit_forfeitTx _ _
  · exact isForfeit_forfeitTx _ _

theorem isForfeit_of_compTxs (h : compTxs fenv fuel orders prevNode = .ok ftxs) :
    ∀ tx ∈ ftxs, tx.isForfeit = true := by
  rcases yields_cases ⟨fuel, h⟩ with rfl | ⟨reportee, blks, hdue⟩
  · exact fun tx htx => absurd htx not_mem_nil
  rcases allAdd_of_compTxs h hdue with ⟨f, hf, rfl⟩ | ⟨rfl, -⟩
  · intro tx htx
    obtain ⟨l, hl, htx⟩ := mem_flatten.mp htx
    obtain ⟨blk, hblk, rfl⟩ := mem_map.mp hl
    exact isForfeit_of_contribute (hf blk ((Shuffle.mem_run _).mp hblk)) tx htx
  · exact fun tx htx => absurd htx not_mem_nil

end

/-! ## What is assembled -/

theorem isForfeit_congr {tx u : MsgTx} (h : tx.version = u.version) :
    tx.isForfeit = u.isForfeit := by
  rw [isForfeit, h, isForfeit]

/-- Nothing that is packed from the memory pool is a forfeiture transaction. -/
theorem Packing.isForfeit (p : Packing) (l : List MsgTx) :
    ∀ tx ∈ p.run (l.filter fun tx => !tx.isForfeit), tx.isForfeit = false := by
  intro tx htx
  obtain ⟨u, hu, hversion⟩ := p.version_eq _ tx htx
  rw [isForfeit_congr hversion]
  simpa using (mem_filter.mp hu).2

theorem isForfeit_coinbaseTx (b : Builder) : b.coinbaseTx.isForfeit = false := by
  show ((TxVersion ||| TxNoLock) &&& TxTypeMask == ForfeitTxVersion) = false
  decide

theorem isForfeit_finalizedTx (height : UInt32) (xtx : XchainData) :
    (finalizedTx height xtx).isForfeit = false := by
  show ((TxVersion ||| TxNoDefine) &&& TxTypeMask == ForfeitTxVersion) = false
  decide

/-- The forfeiture transactions of the block that is assembled: the list twice. -/
theorem filter_assemble (txHash : MsgTx → Hash) (b : Builder)
    (h : ∀ tx ∈ ftxs, tx.isForfeit = true) :
    (assemble txHash b ftxs).filter isForfeit =
      (ftxs ++ ftxs).map (backFill (txHash b.coinbaseTx)) := by
  have hcoinbase : [b.coinbaseTx].filter isForfeit = [] :=
    filter_eq_nil_iff.mpr fun tx htx => by
      rw [mem_singleton.mp htx, isForfeit_coinbaseTx]
      decide
  have hpool : (b.inPool.map (finalizedTx b.nextBlockHeight.toUInt32)).filter isForfeit =
      [] := by
    refine filter_eq_nil_iff.mpr fun tx htx => ?_
    obtain ⟨xtx, -, rfl⟩ := mem_map.mp htx
    rw [isForfeit_finalizedTx]
    decide
  have hpacked : (b.packing.run (b.sourceTxns.filter fun tx => !tx.isForfeit)).filter
      isForfeit = [] :=
    filter_eq_nil_iff.mpr fun tx htx => Bool.not_eq_true _ ▸ b.packing.isForfeit _ tx htx
  have hbackFill : isForfeit ∘ backFill (txHash b.coinbaseTx) = isForfeit := rfl
  rw [assemble, filter_map, hbackFill]
  simp only [filter_append, hcoinbase, hpool, hpacked, filter_eq_self.mpr h, nil_append, append_nil]

/-- The block that is assembled holds the required transactions only if there are none. -/
theorem required_assemble_iff (b : Builder) (h : ∀ tx ∈ ftxs, tx.isForfeit = true) :
    Required env ftxs (assemble env.txHash b ftxs) ↔ ftxs = [] := by
  constructor
  · rintro ⟨coinbase, fs, rest, -, hfs, hsame⟩
    have hlen := hsame.length_eq
    rw [← hfs, filter_assemble _ _ h, length_map, length_append] at hlen
    exact length_eq_zero_iff.mp (by omega)
  · rintro rfl
    exact ⟨_, [], _, rfl, filter_assemble _ _ h, .nil⟩

theorem nodup_of_existingStep {txs : List MsgTx} {existing : List Hash}
    (h : txs.foldlM (existingStep env) [] = .ok existing) : (txs.map env.txHash).Nodup := by
  have hinv := foldlM_induction (P := fun done seen => seen = done.map env.txHash ∧ (done.map
    env.txHash).Nodup) ⟨rfl, nodup_nil⟩ ?_ h
  · exact hinv.2
  · rintro done tx seen seen' ⟨rfl, hnodup⟩ hstep
    obtain ⟨_, hnew, hstep⟩ := of_bind hstep
    have hnew := failIf_eq_ok.mp hnew
    rw [map_append]
    refine ⟨(Except.ok.inj hstep).symm, nodup_append.mpr ⟨hnodup, nodup_singleton _, ?_⟩⟩
    intro a ha b hb
    rw [mem_singleton.mp hb]
    exact fun heq => hnew (heq ▸ ha)

/-- The block that is assembled passes the sanity check only if nothing is required. -/
theorem eq_nil_of_checkBlockSanity {b : Builder} {height : Int32}
    (h : checkBlockSanity env ⟨height, assemble env.txHash b ftxs⟩ = .ok ()) : ftxs = [] := by
  obtain ⟨_, -, h⟩ := of_bind h
  obtain ⟨_, -, h⟩ := of_bind h
  obtain ⟨_, -, h⟩ := of_bind h
  obtain ⟨existing, hexisting, -⟩ := of_bind h
  have hnodup := nodup_of_existingStep hexisting
  cases ftxs with
  | nil => rfl
  | cons f rest =>
    exfalso
    have htwice : [f, f].Sublist ([b.coinbaseTx] ++ (f :: rest) ++ (f :: rest)) :=
      ((nil_sublist _).append ((nil_sublist rest).cons_cons f)).append
        ((nil_sublist rest).cons_cons f)
    have hsub : ([f, f].map (backFill (env.txHash b.coinbaseTx))).Sublist
        (assemble env.txHash b (f :: rest)) :=
      ((htwice.trans (sublist_append_left _ _)).trans (sublist_append_left _ _)).map _
    have hpair := (hsub.map env.txHash).nodup hnodup
    exact (nodup_cons.mp hpair).1 (mem_singleton.mpr rfl)

/-! ## Blocks and templates -/

/-- After the rotation block one forfeiture transaction is required. -/
theorem compTxs_twoReporters :
    ∃ ftxs, compTxs twoReporters 0 storedOrders rotationNode = .ok ftxs ∧ ftxs ≠ [] := by
  decide +kernel

end Zent
