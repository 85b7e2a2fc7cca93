import Zent.Blockchain.DoubleSpend
import Zent.Blockchain.ForfeitBlocks

/-!
# The stored outputs and the spend journal

Connecting a block writes the view to the stored set of unspent outputs (`DbPutUtxoView`) and the
outputs that it spent to the spend journal. The best chain is modelled by its blocks, each with the
set and the journal entry it left; `BestChain` carries the proof that they follow from one another.
-/

namespace Zent

open Go List Option AList MsgTx

/-! ## The stored set -/

/-- What is read back of an entry that was written. -/
def UtxoEntry.stored (e : UtxoEntry) : UtxoEntry :=
  { e with
    rights := if e.tokenType &&& 2 = 2 then e.rights else none
    isSpent := false
    isModified := false
    isMonitoring := false
    monitor := [] }

/-- The bucket of unspent outputs, as read by the next view. -/
structure UtxoSet where
  entries : UtxoViewpoint
  stored : ∀ o e, entries.lookup o = some e → e.isSpent = false ∧ e.isModified = false

/-- One entry of a view that is written. -/
def putUtxo (db : UtxoViewpoint) (p : (_ : OutPoint) × UtxoEntry) : UtxoViewpoint :=
  if !p.2.isModified then db
  else if p.2.isSpent then db.erase p.1
  else db.insert p.1 p.2.stored

/-- What an entry of a view leaves where `old` was. -/
def UtxoEntry.put (e : UtxoEntry) (old : Option UtxoEntry) : Option UtxoEntry :=
  if !e.isModified then old else if e.isSpent then none else some e.stored

theorem lookup_putUtxo (db : UtxoViewpoint) (p : (_ : OutPoint) × UtxoEntry) (o : OutPoint) :
    (putUtxo db p).lookup o = if o = p.1 then p.2.put (db.lookup o) else db.lookup o := by
  simp only [putUtxo, UtxoEntry.put, apply_ite (AList.lookup o), lookup_erase_ite,
    lookup_insert_ite]
  split_ifs <;> rfl

theorem lookup_putUtxos (db view : UtxoViewpoint) (o : OutPoint) :
    (view.entries.foldl putUtxo db).lookup o =
      (view.lookup o).elim (db.lookup o) fun e => e.put (db.lookup o) :=
  lookup_foldl_entries (g := fun _ e old => e.put old) lookup_putUtxo view db o

def dbPutUtxoView (db : UtxoSet) (view : UtxoViewpoint) : UtxoSet where
  entries := view.entries.foldl putUtxo db.entries
  stored o e h := by
    rw [lookup_putUtxos] at h
    cases hview : view.lookup o with
    | none =>
      rw [hview] at h
      exact db.stored o e h
    | some e' =>
      rw [hview, elim_some, UtxoEntry.put] at h
      split at h
      · exact db.stored o e h
      split at h
      · cases h
      · cases h
        exact ⟨rfl, rfl⟩

theorem lookup_dbPutUtxoView (db : UtxoSet) (view : UtxoViewpoint) (o : OutPoint) :
    (dbPutUtxoView db view).entries.lookup o =
      (view.lookup o).elim (db.entries.lookup o) fun e => e.put (db.entries.lookup o) :=
  lookup_putUtxos db.entries view o

/-! ## Connecting a block -/

section Connect

variable (txHash : MsgTx → Hash) (rights : RightView) (height : Int32)

def connectTransactions (s : BlockState) (txs : List MsgTx) : Result BlockState :=
  txs.foldlM (fun s tx => connectTransaction txHash rights s.1 tx height s.2) s

/-- One transaction after the coinbase, in the count of the spent outputs. -/
def countSpent (numSpent : Nat) (tx : MsgTx) : Nat :=
  if tx.isBtcL2 then numSpent
  else if tx.isCrossChain then numSpent
  else tx.txIn.foldl (fun n ti => if ti.zeroHash then n - 1 else n) (numSpent + tx.txIn.length)

def countSpentOutputs (transactions : List MsgTx) : Nat := (transactions.drop 1).foldl countSpent 0

/-- What connecting a block of sane order writes: the set of unspent outputs after it and its entry
of the spend journal. -/
def connectOutputs (utxos : UtxoSet) (transactions : List MsgTx) :
    Result (UtxoSet × List SpentTxOut) := do
  checkOrder transactions
  let s ← connectTransactions txHash rights height (utxos.entries, some []) transactions
  let stxos := s.2.getD []
  failIf (stxos.length ≠ countSpentOutputs transactions)
    (.assertError ⟨"connectBlock called with inconsistent spent transaction out information", []⟩)
  return (dbPutUtxoView utxos s.1, stxos)

end Connect

/-- A block of the best chain, with what connecting it wrote. -/
structure ChainBlock where
  hash : Hash
  height : Int32
  transactions : List MsgTx
  /-- the unspent outputs as of the block -/
  utxos : UtxoSet
  /-- the entry of the spend journal -/
  stxos : List SpentTxOut

/-- The block was connected after the other one. -/
def Links (txHash : MsgTx → Hash) (block parent : ChainBlock) : Prop :=
  ∃ rights, connectOutputs txHash rights block.height parent.utxos block.transactions =
    .ok (block.utxos, block.stxos)

/-- Connect a block after its parent. -/
def ChainBlock.next (txHash : MsgTx → Hash) (rights : RightView) (parent : ChainBlock) (hash : Hash)
    (height : Int32) (transactions : List MsgTx) : Result ChainBlock := do
  let (utxos, stxos) ← connectOutputs txHash rights height parent.utxos transactions
  return ⟨hash, height, transactions, utxos, stxos⟩

theorem links_of_next {txHash : MsgTx → Hash} {rights : RightView} {parent block : ChainBlock}
    {hash : Hash} {height : Int32} {transactions : List MsgTx}
    (h : parent.next txHash rights hash height transactions = .ok block) :
    Links txHash block parent := by
  obtain ⟨⟨utxos, stxos⟩, hrun, h⟩ := of_bind h
  cases h
  exact ⟨rights, hrun⟩

/-- The best chain, newest block first. -/
structure BestChain (txHash : MsgTx → Hash) where
  blocks : List ChainBlock
  linked : blocks.IsChain (Links txHash)

/-- The stored set at the tip. -/
def BestChain.utxos {txHash : MsgTx → Hash} (chain : BestChain txHash) : UtxoViewpoint :=
  match chain.blocks with
  | [] => ∅
  | tip :: _ => tip.utxos.entries

/-! ## The journal entry of a block -/

/-- While a block is connected: what the view and the journal say of an outpoint whose transaction
is not in the block, after the inputs that spend `spends`. -/
structure Journal (old : UtxoSet) (o : OutPoint) (spends : List OutPoint) (s : BlockState) :
    Prop where
  kept : o ∉ spends → s.1.lookup o = old.entries.lookup o
  marked : o ∈ spends → ∃ e, s.1.lookup o = some e ∧ e.isSpent = true ∧ e.isModified = true
  /-- one entry for each input, and the first one that spends the outpoint has what was stored -/
  stxos : ∃ l, s.2 = some l ∧ l.length = spends.length ∧
    ∀ i, spends.findIdx? (· == o) = some i →
      ∃ e, old.entries.lookup o = some e ∧ l[i]? = some e.toSpentTxOut

section Journal

variable {old : UtxoSet} {o : OutPoint} {spends : List OutPoint} {s s' : BlockState}

theorem notMem_of_findIdx?_eq_none (h : spends.findIdx? (· == o) = none) : o ∉ spends := by
  intro hin
  have := findIdx?_eq_none_iff.mp h o hin
  simp at this

theorem Journal.init (old : UtxoSet) (o : OutPoint) : Journal old o [] (old.entries, some []) where
  kept _ := rfl
  marked h := by cases h
  stxos := ⟨[], rfl, rfl, fun i hi => by cases hi⟩

/-- A spent entry is written, if spending is what made it so. -/
theorem UtxoEntry.spend_isModified {e : UtxoEntry} (h : e.isSpent = true → e.isModified = true) :
    e.spend.isModified = true := by
  rw [UtxoEntry.spend]
  split
  case isTrue hs => exact h hs
  · rfl

/-- An entry of the view that was spent before was spent by this block. -/
theorem Journal.spend_isModified {e : UtxoEntry} (hs : Journal old o spends s)
    (he : s.1.lookup o = some e) : e.spend.isModified = true := by
  refine UtxoEntry.spend_isModified fun hspent => ?_
  by_cases hin : o ∈ spends
  · obtain ⟨e', he', -, hmod⟩ := hs.marked hin
    rw [he] at he'
    cases he'
    exact hmod
  · rw [hs.kept hin] at he
    rw [(old.stored o e he).1] at hspent
    cases hspent

theorem findIdx?_concat {x : OutPoint} {i : Nat} (h : (spends ++ [x]).findIdx? (· == o) = some i) :
    spends.findIdx? (· == o) = some i ∨ (o ∉ spends ∧ x = o ∧ spends.length = i) := by
  rw [findIdx?_append, or_eq_some_iff] at h
  obtain h | ⟨hnone, h⟩ := h
  · exact .inl h
  · exact .inr ⟨notMem_of_findIdx?_eq_none hnone, by simpa [findIdx?_cons] using h⟩

section

variable (hs : Journal old o spends s)

include hs

theorem Journal.spendStep {t : TxIn} (h : spendStep s t = .ok s') :
    Journal old o (spends ++ if t.zeroHash then [] else [t.previousOutPoint]) s' := by
  obtain ⟨hz, rfl⟩ | ⟨hz, e, he, rfl⟩ := spendStep_eq_ok h
  · rw [if_pos hz, append_nil]
    exact hs
  rw [hz, if_neg Bool.false_ne_true]
  obtain ⟨l, hl, hlen, hfirst⟩ := hs.stxos
  refine ⟨fun ho => ?_, fun ho => ?_, l ++ [e.toSpentTxOut], ?_, ?_, fun i hi => ?_⟩
  · rw [mem_append, mem_singleton, not_or] at ho
    rw [lookup_insert_ne ho.2]
    exact hs.kept ho.1
  · by_cases hto : o = t.previousOutPoint
    · rw [hto, lookup_insert]
      exact ⟨e.spend, rfl, e.spend_isSpent, hs.spend_isModified (hto ▸ he)⟩
    · rw [lookup_insert_ne hto]
      refine hs.marked ?_
      simpa [hto] using ho
  · rw [hl]
    rfl
  · rw [length_append, length_append, hlen]
    rfl
  · obtain hi | ⟨hnot, rfl, rfl⟩ := findIdx?_concat hi
    · obtain ⟨e', hold, hrec⟩ := hfirst i hi
      refine ⟨e', hold, ?_⟩
      obtain ⟨hlt, -⟩ := List.getElem?_eq_some_iff.mp hrec
      rw [getElem?_append_left hlt]
      exact hrec
    · refine ⟨e, ?_, ?_⟩
      · rw [← hs.kept hnot]
        exact he
      · rw [← hlen]
        exact getElem?_concat_length

theorem Journal.spendInputs {ins : List TxIn} (h : ins.foldlM Zent.spendStep s = .ok s') :
    Journal old o (spends ++ (ins.filter fun t => !t.zeroHash).map TxIn.previousOutPoint) s' := by
  refine foldlM_induction
    (P := fun done u =>
      Journal old o (spends ++ (done.filter fun t => !t.zeroHash).map TxIn.previousOutPoint) u)
    (by simpa using hs) ?_ h
  intro done t u u' hu hstep
  have := hu.spendStep hstep
  cases hz : t.zeroHash <;> simpa [hz] using this

variable {txHash : MsgTx → Hash} {rights : RightView} {height : Int32}

theorem Journal.connectTransaction {tx : MsgTx}
    (hne : o.hash ≠ txHash tx) (h : connectTransaction txHash rights s.1 tx height s.2 = .ok s') :
    Journal old o (spends ++ blockSpends tx) s' := by
  obtain ⟨u, hspend, houts, hrec⟩ := connectTransaction_eq_ok h
  have hu : Journal old o (spends ++ blockSpends tx) u := by
    rcases hspend with ⟨hx, rfl⟩ | ⟨hx, hrun⟩
    · rw [blockSpends, if_pos hx, append_nil]
      exact hs
    · rw [blockSpends, hx, if_neg Bool.false_ne_true]
      exact hs.spendInputs hrun
  have hsame := lookup_addTxOuts_of_ne houts hne
  refine ⟨fun ho => hsame.trans (hu.kept ho), fun ho => ?_, ?_⟩
  · rw [hsame]
    exact hu.marked ho
  · rw [hrec]
    exact hu.stxos

theorem Journal.connectTransactions {txs : List MsgTx} (hne : ∀ tx ∈ txs, o.hash ≠ txHash tx)
    (h : connectTransactions txHash rights height s txs = .ok s') :
    Journal old o (spends ++ txs.flatMap blockSpends) s' := by
  refine foldlM_induction_run (P := fun done u => Journal old o (spends ++ done.flatMap blockSpends)
    u) (by simpa using hs) ?_ h
  intro done tx rest u u' hsplit _ hu hstep
  have := hu.connectTransaction (hne tx (by simp [hsplit])) hstep
  simpa [append_assoc] using this

end

end Journal

/-! ## One block and an output of an older transaction -/

/-- The outpoints that the block spends, in the order of the journal. -/
def ChainBlock.spends (block : ChainBlock) : List OutPoint :=
  (block.transactions.drop 1).flatMap blockSpends

section Links

variable {txHash : MsgTx → Hash} {block parent : ChainBlock} {o : OutPoint}

/-- A coinbase spends nothing. -/
theorem flatMap_blockSpends_of_checkOrder {txs : List MsgTx} (h : checkOrder txs = .ok ()) :
    txs.flatMap blockSpends = (txs.drop 1).flatMap blockSpends := by
  cases txs with
  | nil => rfl
  | cons coinbase rest =>
    obtain ⟨cb, hcb, h⟩ := of_bind h
    obtain ⟨_, hfirst, -⟩ := of_bind h
    have htrue : cb = true := by simpa using failIf_eq_ok.mp hfirst
    rw [htrue] at hcb
    obtain ⟨t, hin, hz⟩ := txIn_of_isCoinBase hcb
    have hnone : blockSpends coinbase = [] := by
      rw [blockSpends]
      split
      · rfl
      · simp [spends, hin, hz]
    rw [flatMap_cons, hnone, nil_append]
    rfl

/-- The number of entries of the journal. -/
def Counted (n : Nat) (s : BlockState) : Prop := ∃ l, s.2 = some l ∧ l.length = n

theorem Counted.spendInputs {n : Nat} {s s' : BlockState} {ins : List TxIn} (hs : Counted n s)
    (h : ins.foldlM spendStep s = .ok s') :
    Counted (n + (ins.filter fun t => !t.zeroHash).length) s' := by
  refine foldlM_induction
    (P := fun done u => Counted (n + (done.filter fun t => !t.zeroHash).length) u)
    hs ?_ h
  rintro done t u u' ⟨l, hl, hlen⟩ hstep
  obtain ⟨hz, rfl⟩ | ⟨hz, e, -, rfl⟩ := spendStep_eq_ok hstep
  · exact ⟨l, hl, by simp [hz, hlen]⟩
  · exact ⟨l ++ [e.toSpentTxOut], by rw [hl]; rfl, by simp [hz, hlen]; omega⟩

theorem Counted.connectTransactions {rights : RightView} {height : Int32} {n : Nat}
    {s s' : BlockState} {txs : List MsgTx} (hs : Counted n s)
    (h : connectTransactions txHash rights height s txs = .ok s') :
    Counted (n + (txs.flatMap blockSpends).length) s' := by
  refine foldlM_induction (P := fun done u => Counted (n + (done.flatMap blockSpends).length) u)
    hs ?_ h
  intro done tx u u' hu hstep
  obtain ⟨w, hspend, -, hrec⟩ := connectTransaction_eq_ok hstep
  have hw : Counted (n + (done.flatMap blockSpends).length + (blockSpends tx).length) w := by
    rcases hspend with ⟨hx, rfl⟩ | ⟨hx, hrun⟩
    · rw [blockSpends, if_pos hx]
      exact hu
    · rw [blockSpends, hx, if_neg Bool.false_ne_true, spends, length_map]
      exact hu.spendInputs hrun
  obtain ⟨l, hl, hlen⟩ := hw
  refine ⟨l, hrec.trans hl, ?_⟩
  rw [flatMap_append, length_append, hlen]
  simp [Nat.add_assoc]

section

variable (h : Links txHash block parent)

include h

theorem Links.length_stxos : block.stxos.length = block.spends.length := by
  obtain ⟨rights, h⟩ := h
  obtain ⟨_, horder, h⟩ := of_bind h
  obtain ⟨s, hrun, h⟩ := of_bind h
  obtain ⟨_, -, h⟩ := of_bind h
  have hcount : Counted 0 (parent.utxos.entries, some []) := ⟨[], rfl, rfl⟩
  obtain ⟨l, hl, hlen⟩ := hcount.connectTransactions hrun
  rw [Nat.zero_add, flatMap_blockSpends_of_checkOrder horder] at hlen
  rw [← (Prod.mk.inj (Except.ok.inj h)).2, hl, getD_some, hlen]
  rfl

theorem Links.transactions_ne_nil : block.transactions ≠ [] := by
  intro hnil
  obtain ⟨rights, h⟩ := h
  rw [hnil] at h
  cases h

section

variable (hne : ∀ tx ∈ block.transactions, o.hash ≠ txHash tx)

include hne

theorem Links.journal :
    ∃ view, Journal parent.utxos o block.spends (view, some block.stxos) ∧
      block.utxos = dbPutUtxoView parent.utxos view := by
  obtain ⟨rights, h⟩ := h
  obtain ⟨_, horder, h⟩ := of_bind h
  obtain ⟨s, hrun, h⟩ := of_bind h
  obtain ⟨_, -, h⟩ := of_bind h
  have hj := (Journal.init parent.utxos o).connectTransactions hne hrun
  rw [nil_append, flatMap_blockSpends_of_checkOrder horder] at hj
  obtain ⟨l, hl, -⟩ := hj.stxos
  obtain ⟨hutxos, hstxos⟩ := Prod.mk.inj (Except.ok.inj h)
  refine ⟨s.1, ?_, hutxos.symm⟩
  rw [← hstxos, hl, getD_some, ← hl]
  exact hj

/-- An output that the block does not spend stays as it was. -/
theorem Links.not_spent (hseq : block.spends.findIdx? (· == o) = none) :
    block.utxos.entries.lookup o = parent.utxos.entries.lookup o := by
  obtain ⟨view, hj, hutxos⟩ := h.journal hne
  have ho := notMem_of_findIdx?_eq_none hseq
  have hkept : view.lookup o = parent.utxos.entries.lookup o := hj.kept ho
  rw [hutxos, lookup_dbPutUtxoView, hkept]
  cases he : parent.utxos.entries.lookup o with
  | none => rfl
  | some e =>
    show e.put (some e) = some e
    rw [UtxoEntry.put, (parent.utxos.stored o e he).2]
    rfl

/-- An output that the block spends was there before, is gone, and stands in the journal at the
position of the first input that spends it. -/
theorem Links.spent {seq : Nat} (hseq : block.spends.findIdx? (· == o) = some seq) :
    block.utxos.entries.lookup o = none ∧
      ∃ e, parent.utxos.entries.lookup o = some e ∧ block.stxos[seq]? = some e.toSpentTxOut := by
  obtain ⟨view, hj, hutxos⟩ := h.journal hne
  have ho : o ∈ block.spends := by
    obtain ⟨hlt, heq, -⟩ := findIdx?_eq_some_iff_getElem.mp hseq
    rw [← eq_of_beq heq]
    exact getElem_mem hlt
  obtain ⟨e', he', hspent, hmod⟩ := hj.marked ho
  constructor
  · have hview : view.lookup o = some e' := he'
    rw [hutxos, lookup_dbPutUtxoView, hview]
    show e'.put _ = none
    rw [UtxoEntry.put, hmod, hspent]
    rfl
  · obtain ⟨l, hl, -, hfirst⟩ := hj.stxos
    obtain rfl := some_inj.mp hl
    exact hfirst seq hseq

end

end

end Links

end Zent
