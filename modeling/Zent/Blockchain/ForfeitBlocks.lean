import Zent.Blockchain.Contributions
import Zent.Blockchain.TxChecks

/-!
# Forfeiture transactions in blocks

Forfeiture transactions spend without signatures, so a block may hold those only that `CompTxs`
requires. `checkBlockSanity` keeps them together after the coinbase; `CheckForfeit` compares them
one by one with the required ones, as they are serialized.
-/

namespace Zent

open Go List Except Node

/-- `chaincfg.MaxBlockSigOpsCost` -/
def MaxBlockSigOpsCost : Nat := 80000

/-- A block as the checks read it. -/
structure MsgBlock where
  height : Int32
  transactions : List MsgTx
  deriving DecidableEq, Repr

/-- What the checks of a block ask of the rest of the node. -/
structure BlockEnv where
  isSVP : Bool
  rules : Rules
  checkBlockHeaderSanity : MsgBlock → Result Unit
  txHash : MsgTx → Hash
  /-- `SerializeFull`: everything but the signatures -/
  serializeFull : MsgTx → Result Bytes

/-! ## checkBlockSanity -/

/-- The bound on inputs, outputs and definitions. -/
def tooMany (format : String) (n : Nat) : Result Unit :=
  ruleIf (n > 1000) .errMultipleCoinbases format [.int n]

/-- One transaction after the coinbase; the state is its index and the number of forfeiture
transactions so far. -/
def orderStep (s : Nat × Nat) (tx : MsgTx) : Result (Nat × Nat) := do
  ruleIf (← tx.isCoinBase) .errMultipleCoinbases "block contains second coinbase at Index %d"
    [.int (s.1 + 1)]
  ruleIf (tx.isForfeit ∧ s.1 > s.2) .errMultipleCoinbases
    "block contains forfeiture coinbase at Index %d" [.int (s.1 + 1)]
  tooMany "Too many inputs in a transactions %d" tx.txIn.length
  tooMany "Too many outputs in a transactions %d" tx.txOut.length
  tooMany "Too many definitions in a transactions %d" tx.txDef.length
  return (s.1 + 1, if tx.isForfeit then s.2 + 1 else s.2)

/-- A coinbase first, no other, and forfeiture transactions immediately after it. -/
def checkOrder (transactions : List MsgTx) : Result Unit :=
  match transactions with
  | [] => ruleError .errNoTransactions "block does not contain any transactions" []
  | coinbase :: rest => do
    ruleIf (¬(← coinbase.isCoinBase)) .errFirstTxNotCoinbase
      "first transaction in block is not a coinbase" []
    let _ ← rest.foldlM orderStep (0, 0)

/-- `CountSigOps` -/
def countSigOps (tx : MsgTx) : Result Nat := do
  if ← tx.isCoinBase then return 0
  return tx.signatureScripts.length

variable (env : BlockEnv)

/-- One transaction of the sanity loop. -/
def sanityStep (height : Int32) (tx : MsgTx) : Result Unit := do
  ruleIf (tx.version &&& TxExpire ≠ 0 ∧ tx.lockTime < height.toUInt32) .errExpiredTx
    "block contains transaction whose execution time has expired" []
  checkTransactionSanity env.rules tx

/-- One transaction of the search for duplicates, with the hashes seen. -/
def existingStep (existing : List Hash) (tx : MsgTx) : Result (List Hash) := do
  ruleIf (env.txHash tx ∈ existing) .errDuplicateTx "block contains duplicate transaction %v"
    [.hash (env.txHash tx)]
  return existing ++ [env.txHash tx]

/-- One transaction of the count of signatures. -/
def sigOpsStep (totalSigOps : Nat) (tx : MsgTx) : Result Nat := do
  let totalSigOps := totalSigOps + (← countSigOps tx)
  ruleIf (totalSigOps > MaxBlockSigOpsCost) .errTooManySigOps
    "block contains too many signature operations - got %v, max %v"
    [.int totalSigOps, .int MaxBlockSigOpsCost]
  return totalSigOps

def checkBlockSanity (block : MsgBlock) : Result Unit := do
  env.checkBlockHeaderSanity block
  checkOrder block.transactions
  block.transactions.forM (sanityStep env block.height)
  let _ ← block.transactions.foldlM (existingStep env) []
  let _ ← block.transactions.foldlM sigOpsStep 0

/-! ## CheckForfeit -/

/-- `fmt.Errorf` -/
def forfeitError {α : Type} (format : String) (args : List Arg) : Result α :=
  fail (.errorf ⟨format, args⟩)

/-- The collateral that `ftxs[i]` takes, for a message. A filing transaction has no input. -/
def forfeited (ftxs : List MsgTx) (i : Nat) : Result OutPoint := do
  return (← index (← index ftxs i).txIn 0).previousOutPoint

/-- The loop over the transactions after the coinbase; `cnt` of them have been compared. -/
def compareForfeits (ftxs : List MsgTx) : Nat → List MsgTx → Result Unit
  | cnt, [] =>
    if ftxs.length > cnt then do
      forfeitError "Incorrect forfeiture txs. Block has %d forfeiture tx while %d is expected. %s"
        [.int cnt, .int ftxs.length, .text "missing", .outPoint (← forfeited ftxs cnt)]
    else if ftxs.length ≠ cnt then
      forfeitError "Incorrect forfeiture txs. Block has %d forfeiture tx while %d is expected. %s"
        [.int cnt, .int ftxs.length, .text ""]
    else .ok ()
  | cnt, tx :: rest =>
    if !tx.isForfeit then
      if ftxs.length > cnt then do
        forfeitError
          "Incorrect forfeiture txs. Less forfeiture txs than required %d. Forfeited UTXO: %s"
          [.int ftxs.length, .outPoint (← forfeited ftxs cnt)]
      else .ok ()
    else if ftxs.length < cnt + 1 then
      forfeitError "Incorrect forfeiture txs. More forfeiture txs than required %d"
        [.int ftxs.length]
    else do
      let w1 ← env.serializeFull tx
      let w2 ← env.serializeFull (← index ftxs cnt)
      if w1 ≠ w2 then forfeitError "Incorrect forfeiture txs. " []
      else compareForfeits ftxs (cnt + 1) rest

/-- The block after a node, for the list that `CompTxs` returns there. -/
def checkForfeit (g : Int32) (compTxs : Result (List MsgTx)) (prevNode : Node) (block : MsgBlock) :
    Result Unit :=
  if env.isSVP then .ok ()
  else do
    let rest ← slice block.transactions 1 block.transactions.length
    let nonce := nonceFrom g prevNode
    if nonce < 0 ∧ nonce > -MINER_RORATE_FREQ then
      rest.forM fun tx => failIf (tx.isForfeit) (.errorf
        ⟨"Incorrect forfeiture txs. Forfeit in a son of non rotation signed block at height %d.",
          [.int block.height.toInt]⟩)
    else
      compareForfeits env (← compTxs) 0 rest

/-! ## What is accepted -/

/-- Two transactions with the same bytes. -/
def SameBytes (t f : MsgTx) : Prop :=
  ∃ w, env.serializeFull t = .ok w ∧ env.serializeFull f = .ok w

/-- The forfeiture transactions of a block are those of the list, each once and in order,
immediately after the coinbase. -/
def Required (ftxs txs : List MsgTx) : Prop :=
  ∃ coinbase fs rest, txs = coinbase :: (fs ++ rest) ∧ txs.filter MsgTx.isForfeit = fs ∧
    List.Forall₂ (SameBytes env) fs ftxs

/-- Forfeiture transactions first, then none. -/
structure Leading (fs rest : List MsgTx) : Prop where
  forfeit : ∀ t ∈ fs, t.isForfeit = true
  others : ∀ t ∈ rest, t.isForfeit = false

theorem Leading.filter {fs rest : List MsgTx} (h : Leading fs rest) :
    (fs ++ rest).filter MsgTx.isForfeit = fs := by
  rw [filter_append, filter_eq_self.mpr h.forfeit,
    filter_eq_nil_iff.mpr fun t ht => Bool.not_eq_true _ ▸ h.others t ht, append_nil]

theorem orderStep_eq_ok {s s' : Nat × Nat} {tx : MsgTx} (h : orderStep s tx = .ok s') :
    (tx.isForfeit = true → s.1 ≤ s.2) ∧
      s' = (s.1 + 1, if tx.isForfeit then s.2 + 1 else s.2) := by
  obtain ⟨cb, -, h⟩ := of_bind h
  obtain ⟨_, -, h⟩ := of_bind h
  obtain ⟨_, horder, h⟩ := of_bind h
  obtain ⟨_, -, h⟩ := of_bind h
  obtain ⟨_, -, h⟩ := of_bind h
  obtain ⟨_, -, h⟩ := of_bind h
  refine ⟨fun hforfeit => ?_, (ok.inj h).symm⟩
  by_contra hlt
  exact failIf_eq_ok.mp horder ⟨hforfeit, Nat.lt_of_not_le hlt⟩

/-- **The positional test**: the forfeiture transactions lead. -/
theorem leading_of_orderStep {txs : List MsgTx} {s : Nat × Nat}
    (h : txs.foldlM orderStep (0, 0) = .ok s) : ∃ fs rest, txs = fs ++ rest ∧ Leading fs rest := by
  have hinv := foldlM_induction (P := fun done u => u.1 = done.length ∧
    ∃ fs rest, done = fs ++ rest ∧ fs.length = u.2 ∧ Leading fs rest)
    ⟨rfl, [], [], rfl, rfl, by simp, by simp⟩ ?_ h
  · obtain ⟨-, fs, rest, htxs, -, hlead⟩ := hinv
    exact ⟨fs, rest, htxs, hlead⟩
  · rintro done tx u u' ⟨hi, fs, rest, rfl, hlen, hlead⟩ hstep
    obtain ⟨horder, rfl⟩ := orderStep_eq_ok hstep
    rw [length_append] at hi
    refine ⟨by rw [length_append, length_append, hi]; rfl, ?_⟩
    by_cases hforfeit : tx.isForfeit = true
    · -- nothing but forfeiture transactions so far
      have hle := horder hforfeit
      obtain rfl := length_eq_zero_iff.mp (by omega : rest.length = 0)
      refine ⟨fs ++ [tx], [], by rw [append_nil, append_nil], ?_, ?_, by simp⟩
      · rw [length_append, hlen, if_pos hforfeit]
        rfl
      · exact forall_mem_append.mpr ⟨hlead.forfeit, by simpa using hforfeit⟩
    · refine ⟨fs, rest ++ [tx], append_assoc _ _ _, ?_, hlead.forfeit, ?_⟩
      · rw [if_neg hforfeit]
        exact hlen
      · exact forall_mem_append.mpr ⟨hlead.others, by simpa using hforfeit⟩

variable {env} {ftxs : List MsgTx} {fenv : ForfeitEnv} {orders : RangeOrders}

/-- **The comparison**: the leading forfeiture transactions are the rest of the list. -/
theorem sameBytes_of_compareForfeits {rest : List MsgTx} : ∀ {fs : List MsgTx} {cnt : Nat},
    Leading fs rest → cnt ≤ ftxs.length → compareForfeits env ftxs cnt (fs ++ rest) = .ok () →
    List.Forall₂ (SameBytes env) fs (ftxs.drop cnt)
  | [], cnt, hlead, hcnt, h => by
    have hend : ¬ftxs.length > cnt := by
      intro hgt
      cases rest with
      | nil =>
        rw [append_nil, compareForfeits, if_pos hgt] at h
        obtain ⟨op, -, h⟩ := of_bind h
        cases h
      | cons tx rest =>
        rw [nil_append, compareForfeits, hlead.others tx mem_cons_self] at h
        rw [if_pos Bool.not_false, if_pos hgt] at h
        obtain ⟨op, -, h⟩ := of_bind h
        cases h
    rw [drop_eq_nil_of_le (Nat.le_of_not_lt hend)]
    exact .nil
  | tx :: fs, cnt, hlead, hcnt, h => by
    rw [cons_append, compareForfeits, hlead.forfeit tx mem_cons_self, if_neg (by decide)] at h
    split at h
    · cases h
    have hcnt' : cnt < ftxs.length := by omega
    obtain ⟨w1, hw1, h⟩ := of_bind h
    obtain ⟨f, hf, h⟩ := of_bind h
    rw [index, getElem?_eq_getElem hcnt'] at hf
    obtain rfl := ok.inj hf
    obtain ⟨w2, hw2, h⟩ := of_bind h
    split at h
    · cases h
    rename_i heq
    obtain rfl := not_not.mp heq
    rw [drop_eq_getElem_cons hcnt']
    have hlead' : Leading fs rest :=
      ⟨fun t ht => hlead.forfeit t (mem_cons_of_mem tx ht), hlead.others⟩
    exact .cons ⟨w1, hw1, hw2⟩ (sameBytes_of_compareForfeits hlead' hcnt' h)

/-- Nothing is required after a block within a rotation. -/
theorem compTxs_within {fuel : Nat} {prevNode : Node}
    (h : nonceFrom fenv.genesisNonce prevNode < 0 ∧
      nonceFrom fenv.genesisNonce prevNode > -MINER_RORATE_FREQ) :
    compTxs fenv fuel orders prevNode = .ok [] := by
  have hseries : ¬nonceFrom fenv.genesisNonce prevNode < -MINER_RORATE_FREQ :=
    Int32.not_lt.mpr (Int32.le_of_lt h.2)
  have hpow : ¬nonceFrom fenv.genesisNonce prevNode > 0 :=
    Int32.not_lt.mpr (Int32.le_of_lt h.1)
  rw [compTxs, reported]
  rw [if_neg hseries, if_neg hpow]

/-- The forfeiture transactions that a full node accepts after the coinbase. -/
theorem required_of_checkForfeit {fuel : Nat} {prevNode : Node} {block : MsgBlock}
    (hfull : env.isSVP = false) (hcomp : compTxs fenv fuel orders prevNode = .ok ftxs)
    (horder : checkOrder block.transactions = .ok ())
    (hforfeit : checkForfeit env fenv.genesisNonce (compTxs fenv fuel orders prevNode) prevNode
      block = .ok ()) :
    ∃ coinbase fs rest, block.transactions = coinbase :: (fs ++ rest) ∧ Leading fs rest ∧
      List.Forall₂ (SameBytes env) fs ftxs := by
  obtain ⟨height, txs⟩ := block
  cases txs with
  | nil => cases horder
  | cons coinbase txs =>
    obtain ⟨cb, -, horder⟩ := of_bind horder
    obtain ⟨_, -, horder⟩ := of_bind horder
    obtain ⟨s, hs, -⟩ := of_bind horder
    obtain ⟨fs, rest, rfl, hlead⟩ := leading_of_orderStep hs
    refine ⟨coinbase, fs, rest, rfl, hlead, ?_⟩
    rw [checkForfeit, hfull, if_neg (by decide)] at hforfeit
    obtain ⟨txs, htxs, hforfeit⟩ := of_bind hforfeit
    rw [slice_one (length_pos_iff.mpr (cons_ne_nil _ _)), tail_cons] at htxs
    obtain rfl := ok.inj htxs
    dsimp only at hforfeit
    split at hforfeit
    case isTrue hwithin =>
      rw [compTxs_within hwithin] at hcomp
      obtain rfl := ok.inj hcomp
      have hnone := forM_eq_ok.mp hforfeit
      cases fs with
      | nil => exact .nil
      | cons f fs =>
        have hf := failIf_eq_ok.mp (hnone f mem_cons_self)
        exact absurd (hlead.forfeit f mem_cons_self) hf
    · rw [hcomp] at hforfeit
      exact sameBytes_of_compareForfeits hlead (Nat.zero_le _) hforfeit

end Zent
