import Mathlib.Data.List.TakeWhile
import Zent.Blockchain.TxChecks

/-!
# Double spends inside a block

`checkConnectBlock` folds the transactions of a block over a view: each one has
its inputs and fees checked and is then connected. Connecting marks outputs as
spent without looking whether they already are, so the two input checks have to
cover, between them, every input that is connected.

They do not: a transaction whose first input refers to no output is taken for a
coinbase by both of them, and is connected like any other.
-/

namespace Zent

open Go List MsgTx

/-! ## The fold over a block -/

/-- The view and the record of what was spent. -/
abbrev BlockState : Type := UtxoViewpoint × Option (List SpentTxOut)

section Fold

variable (params : Params) (rules : Rules) (txHash : MsgTx → Hash) (rights : RightView)
  (height : Int32)

/-- One transaction of `checkConnectBlock`. -/
def connectStep (s : BlockState) (tx : MsgTx) : Result BlockState := do
  checkTransactionInputs params rules txHash tx height s.1
  checkAdditionalTransactionInputs rules txHash tx s.1
  let _ ← checkTransactionFees params rules txHash tx s.1
  connectTransaction txHash rights s.1 tx height s.2

/-- The transactions that follow the coinbase. -/
def connectTxs (s : BlockState) (txs : List MsgTx) : Result BlockState :=
  txs.foldlM (connectStep params rules txHash rights height) s

end Fold

/-! ## What a transaction spends -/

/-- The outpoint is in the view and not spent. -/
def Unspent (view : UtxoViewpoint) (o : OutPoint) : Prop :=
  ∃ e, view.lookup o = some e ∧ e.isSpent = false

/-- The outpoint is in the view and spent. -/
def Spent (view : UtxoViewpoint) (o : OutPoint) : Prop :=
  ∃ e, view.lookup o = some e ∧ e.isSpent = true

variable {view : UtxoViewpoint}

theorem Unspent.not_spent {o : OutPoint} (h : Unspent view o) :
    ¬ Spent view o := by
  rintro ⟨e, he, hspent⟩
  obtain ⟨e', he', hfree⟩ := h
  rw [he] at he'
  cases he'
  rw [hspent] at hfree
  cases hfree

/-- The outpoints a transaction of the block spends: none if it comes from another chain. -/
def blockSpends (tx : MsgTx) : List OutPoint := if tx.isCrossChain then [] else tx.spends

theorem mem_spends {tx : MsgTx} {o : OutPoint} :
    o ∈ tx.spends ↔ ∃ t ∈ tx.txIn, t.zeroHash = false ∧ t.previousOutPoint = o := by
  simp [spends, and_assoc]

/-! ## What the checks cover -/

theorem unspentEntry_eq_ok {format : String} {hash : Hash} {i : Nat} {t : TxIn} {e : UtxoEntry}
    (h : unspentEntry view format hash i t = .ok e) :
    Unspent view t.previousOutPoint := by
  unfold unspentEntry at h
  split at h
  · cases h
  rename_i utxo hutxo
  obtain ⟨_, hfree, h⟩ := of_bind h
  cases h
  exact ⟨e, hutxo, by simpa using failIf_eq_ok.mp hfree⟩

section Covered

variable {params : Params} {rules : Rules} {txHash : MsgTx → Hash} {view : UtxoViewpoint}

/-- `CheckTransactionInputs` finds every input before the separator unspent. -/
theorem checkTransactionInputs_unspent {tx : MsgTx} {height : Int32}
    (hx : tx.isCrossChain = false) (hfirst : tx.zeroHashFirst = false)
    (h : checkTransactionInputs params rules txHash tx height view = .ok ()) :
    ∀ p ∈ tx.txIn.zipIdx.takeWhile (fun p => !p.1.isSeparator),
      p.1.zeroHash = false → Unspent view p.1.previousOutPoint := by
  simp only [checkTransactionInputs] at h
  split at h
  case isTrue hskip =>
    have hl2 : tx.isBtcL2 = false := by
      by_contra hl2
      rw [isCrossChain_of_isBtcL2 (by simpa using hl2)] at hx
      cases hx
    have hempty : tx.txIn = [] := by simpa [hl2, hx] using hskip
    simp [hempty]
  case isFalse hskip =>
    rw [hfirst] at h
    obtain ⟨_, _, h⟩ := of_bind h
    obtain ⟨_, hrun, _⟩ := of_bind h
    refine foldlM_induction (P := fun done _ => ∀ p ∈ done, p.1.zeroHash = false → Unspent view
      p.1.previousOutPoint) (by simp) ?_ hrun
    rintro done ⟨t, i⟩ m m' hdone hstep p hp hz
    rcases mem_append.mp hp with hp | hp
    · exact hdone p hp hz
    rw [mem_singleton.mp hp] at hz ⊢
    simp only [inputStep] at hstep
    split at hstep
    case isTrue hpad =>
      rw [TxIn.zeroHash_of_isSepadding hpad] at hz
      cases hz
    · obtain ⟨e, he, _⟩ := of_bind hstep
      exact unspentEntry_eq_ok he

/-- One step of the additional check: after a separator every input that refers to an output is
found unspent. -/
theorem additionalStep_eq_ok {hash : Hash} {s s' : Bool × Map UInt64 Int64} {p : TxIn × Nat}
    (h : additionalStep view hash s p = .ok s') :
    s'.1 = (s.1 || p.1.isSeparator) ∧
      (s.1 = true → p.1.zeroHash = false → Unspent view p.1.previousOutPoint) := by
  simp only [additionalStep] at h
  split at h
  case isTrue hsep =>
    cases h
    refine ⟨by simp [hsep], fun _ hz => ?_⟩
    rw [TxIn.zeroHash_of_isSeparator hsep] at hz
    cases hz
  rename_i hsep
  split at h
  case isTrue hzero =>
    cases h
    refine ⟨by simp [hsep], fun _ hz => ?_⟩
    rw [hzero] at hz
    cases hz
  split at h
  case isTrue hadd =>
    cases h
    refine ⟨by simp [hsep], fun hs => ?_⟩
    simp only [Bool.not_eq_true'] at hadd
    rw [hadd] at hs
    cases hs
  case isFalse hadd =>
    obtain ⟨e, he, h⟩ := of_bind h
    obtain ⟨_, _, h⟩ := of_bind h
    cases h
    exact ⟨by simp [hsep], fun _ _ => unspentEntry_eq_ok he⟩

/-- `CheckAdditionalTransactionInputs` finds every input after the separator unspent. -/
theorem checkAdditionalTransactionInputs_unspent {tx : MsgTx}
    (hx : tx.isCrossChain = false) (hfirst : tx.zeroHashFirst = false)
    (h : checkAdditionalTransactionInputs rules txHash tx view = .ok ()) :
    ∀ p ∈ tx.txIn.zipIdx.dropWhile (fun p => !p.1.isSeparator),
      p.1.zeroHash = false → Unspent view p.1.previousOutPoint := by
  simp only [checkAdditionalTransactionInputs] at h
  split at h
  case isTrue hskip =>
    have hempty : tx.txIn = [] := by simpa [hfirst] using hskip
    simp [hempty]
  obtain ⟨_, _, h⟩ := of_bind h
  rw [hx] at h
  obtain ⟨s, hrun, _⟩ := of_bind h
  refine (foldlM_induction
    (P := fun done (s : Bool × Map UInt64 Int64) =>
      s.1 = done.any (fun p => p.1.isSeparator) ∧
      ∀ p ∈ done.dropWhile (fun p => !p.1.isSeparator),
        p.1.zeroHash = false → Unspent view p.1.previousOutPoint)
    (by simp) ?_ hrun).2
  rintro done q u u' ⟨hflag, hdone⟩ hstep
  obtain ⟨hflag', hq⟩ := additionalStep_eq_ok hstep
  refine ⟨by rw [hflag', hflag]; simp, fun p hp hz => ?_⟩
  rw [dropWhile_append] at hp
  split at hp
  case isTrue hnosep =>
    -- no separator yet: `q` itself may be it
    rcases mem_singleton.mp (dropWhile_subset _ hp) with rfl
    by_cases hsep : p.1.isSeparator = true
    · rw [TxIn.zeroHash_of_isSeparator hsep] at hz
      cases hz
    · simp [hsep] at hp
  case isFalse hsep =>
    rcases mem_append.mp hp with hp | hp
    · exact hdone p hp hz
    rw [mem_singleton.mp hp] at hz ⊢
    refine hq ?_ hz
    rw [hflag]
    by_contra hany
    apply hsep
    simpa [dropWhile_eq_nil_iff] using hany

end Covered

/-- The sanity check lets no outpoint occur twice among the inputs of one transaction. -/
theorem checkTransactionSanity_nodup {rules : Rules} {tx : MsgTx} (hx : tx.isCrossChain = false)
    (h : checkTransactionSanity rules tx = .ok ()) : tx.spends.Nodup := by
  obtain ⟨contract, _, _, h⟩ := checkTransactionSanity_eq_ok h
  rw [sanityInputs, hx] at h
  obtain ⟨existing, hrun, _⟩ := of_bind h
  refine (foldlM_induction
    (P := fun done existing =>
      existing = (done.filter (fun t => !t.zeroHash)).map TxIn.previousOutPoint ∧
        ((done.filter (fun t => !t.zeroHash)).map TxIn.previousOutPoint).Nodup)
    (by simp) ?_ hrun).2
  rintro done t u u' ⟨rfl, hnodup⟩ hstep
  simp only [duplicateStep] at hstep
  split at hstep
  case isTrue hz =>
    cases hstep
    simpa [hz] using hnodup
  rename_i hz
  obtain ⟨_, hnew, hstep⟩ := of_bind hstep
  obtain ⟨_, _, hstep⟩ := of_bind hstep
  cases hstep
  have hnotMem := failIf_eq_ok.mp hnew
  have hkeep : (done ++ [t]).filter (fun t => !t.zeroHash) =
      done.filter (fun t => !t.zeroHash) ++ [t] := by
    simp [filter_append, hz]
  rw [hkeep, map_append]
  refine ⟨rfl, nodup_append.mpr ⟨hnodup, by simp, ?_⟩⟩
  intro o ho o' ho'
  rw [map_singleton, mem_singleton] at ho'
  rintro rfl
  exact hnotMem (ho' ▸ ho)

/-! ## Careful transactions -/

section Careful

variable (params : Params) (rules : Rules) (txHash : MsgTx → Hash) (rights : RightView)
  (height : Int32)

/-- What a transaction and the view before it must satisfy: it does not pose as a coinbase while
spending outputs, and its outputs do not take the place of spent ones. -/
structure Careful (view : UtxoViewpoint) (tx : MsgTx) : Prop where
  /-- if the first input refers to no output, no input does -/
  first : tx.zeroHashFirst = true → tx.spends = []
  /-- the transaction spends no output of its own -/
  own : ∀ o ∈ tx.spends, o.hash ≠ txHash tx
  /-- no spent entry of the view is under the transaction's hash -/
  fresh : ∀ o, Spent view o → o.hash ≠ txHash tx

/-- Every transaction of a run is careful, in the view it meets. -/
def CarefulRun (s : BlockState) (txs : List MsgTx) : Prop :=
  ∀ before tx after u, txs = before ++ tx :: after →
    connectTxs params rules txHash rights height s before = .ok u → Careful txHash u.1 tx

/-- **No double spend.** Among the transactions that do not come from another chain no outpoint
is spent by two inputs, and at the moment an input is connected what it spends is unspent. -/
structure NoDoubleSpend (s : BlockState) (txs : List MsgTx) : Prop where
  once : (txs.flatMap blockSpends).Nodup
  unspent : ∀ before tx after u, txs = before ++ tx :: after →
    connectTxs params rules txHash rights height s before = .ok u → tx.isCrossChain = false →
    ∀ ins t ins' v, tx.txIn = ins ++ t :: ins' → ins.foldlM spendStep u = .ok v →
      t.zeroHash = false → Unspent v.1 t.previousOutPoint

end Careful

section Runs

variable {params : Params} {rules : Rules} {txHash : MsgTx → Hash} {rights : RightView}
  {height : Int32} {s s' : BlockState} {tx : MsgTx}

section

variable (h : connectStep params rules txHash rights height s tx = .ok s')

include h

/-- What a step of the block has done: the checks passed, the inputs were spent and the outputs
were added. -/
theorem connectStep_eq_ok :
    checkTransactionInputs params rules txHash tx height s.1 = .ok () ∧
      checkAdditionalTransactionInputs rules txHash tx s.1 = .ok () ∧
      ∃ u : BlockState,
        (tx.isCrossChain = true ∧ u = s ∨
          tx.isCrossChain = false ∧ tx.txIn.foldlM spendStep s = .ok u) ∧
        addTxOuts txHash rights u.1 tx height = .ok s'.1 := by
  obtain ⟨_, hins, h⟩ := of_bind h
  obtain ⟨_, hadd, h⟩ := of_bind h
  obtain ⟨_, _, h⟩ := of_bind h
  obtain ⟨u, hspend, houts, _⟩ := connectTransaction_eq_ok h
  exact ⟨hins, hadd, u, hspend, houts⟩

/-- Every output a careful transaction spends is unspent in the view before it. -/
theorem Careful.spends_unspent (hx : tx.isCrossChain = false) (hcareful : Careful txHash s.1 tx) :
    ∀ o ∈ tx.spends, Unspent s.1 o := by
  intro o ho
  obtain ⟨hins, hadd, _⟩ := connectStep_eq_ok h
  have hfirst : tx.zeroHashFirst = false := by
    by_contra hfirst
    rw [hcareful.first (by simpa using hfirst)] at ho
    cases ho
  obtain ⟨t, ht, hz, rfl⟩ := mem_spends.mp ho
  -- the input stands before or after the separator
  obtain ⟨i, hi⟩ := mem_iff_getElem?.mp ht
  have hpair : (t, i) ∈ tx.txIn.zipIdx := mem_zipIdx_iff_getElem?.mpr hi
  rw [← takeWhile_append_dropWhile (p := fun p : TxIn × Nat => !p.1.isSeparator)
    (l := tx.txIn.zipIdx)] at hpair
  rcases mem_append.mp hpair with hbefore | hafter
  · exact checkTransactionInputs_unspent hx hfirst hins (t, i) hbefore hz
  · exact checkAdditionalTransactionInputs_unspent hx hfirst hadd (t, i) hafter hz

/-- What is spent stays spent, and what a careful transaction spends is spent after it. -/
theorem Careful.spent_after (hcareful : Careful txHash s.1 tx) {o : OutPoint}
    (ho : Spent s.1 o ∨ o ∈ blockSpends tx) : Spent s'.1 o := by
  obtain ⟨_, _, u, hspend, hadd⟩ := connectStep_eq_ok h
  have hother : o.hash ≠ txHash tx := by
    rcases ho with ho | ho
    · exact hcareful.fresh o ho
    unfold blockSpends at ho
    split at ho
    · cases ho
    · exact hcareful.own o ho
  have hu : Spent u.1 o := by
    rcases hspend with ⟨hx, rfl⟩ | ⟨hx, hrun⟩
    · rcases ho with ho | ho
      · exact ho
      · rw [blockSpends, if_pos hx] at ho
        cases ho
    obtain ⟨hmarked, hsame⟩ := lookup_spendInputs hrun o
    by_cases hmem : o ∈ tx.spends
    · obtain ⟨t, ht, hz, hto⟩ := mem_spends.mp hmem
      exact hmarked t ht hz hto
    have hkeep := hsame (fun t ht hz hto => hmem (mem_spends.mpr ⟨t, ht, hz, hto⟩))
    rcases ho with ho | ho
    · rw [Spent, hkeep]
      exact ho
    · rw [blockSpends, hx] at ho
      exact absurd ho hmem
  rw [Spent, lookup_addTxOuts_of_ne hadd hother]
  exact hu

end

/-- While the inputs of a transaction are connected, those still to come keep their entries. -/
theorem unspent_when_spent {u v : BlockState} {ins ins' : List TxIn} {t : TxIn}
    (hnodup : tx.spends.Nodup) (hfree : ∀ o ∈ tx.spends, Unspent u.1 o)
    (hsplit : tx.txIn = ins ++ t :: ins') (hrun : ins.foldlM spendStep u = .ok v)
    (hz : t.zeroHash = false) : Unspent v.1 t.previousOutPoint := by
  have hmem : t.previousOutPoint ∈ tx.spends :=
    mem_spends.mpr ⟨t, by simp [hsplit], hz, rfl⟩
  rw [Unspent, (lookup_spendInputs hrun t.previousOutPoint).2 ?_]
  · exact hfree _ hmem
  · intro x hx hxz hxo
    rw [spends, hsplit, filter_append, map_append, nodup_append] at hnodup
    refine hnodup.2.2 x.previousOutPoint ?_ t.previousOutPoint ?_ hxo
    · exact mem_map_of_mem (mem_filter.mpr ⟨hx, by simp [hxz]⟩)
    · exact mem_map_of_mem (mem_filter.mpr ⟨by simp, by simp [hz]⟩)

/-- **Careful blocks do not double spend.** In every run over transactions that pass the sanity
check, each careful in the view it meets, no outpoint is spent twice and each is unspent when it
is spent. -/
theorem noDoubleSpend_of_careful {s t : BlockState} {txs : List MsgTx}
    (hsane : ∀ tx ∈ txs, checkTransactionSanity rules tx = .ok ())
    (hcareful : CarefulRun params rules txHash rights height s txs)
    (hrun : connectTxs params rules txHash rights height s txs = .ok t) :
    NoDoubleSpend params rules txHash rights height s txs := by
  refine ⟨?_, ?_⟩
  · -- the ledger of spent outpoints: no duplicates, and all of them spent in the view
    refine (foldlM_induction_run
      (P := fun done (u : BlockState) =>
        (done.flatMap blockSpends).Nodup ∧ ∀ o ∈ done.flatMap blockSpends, Spent u.1 o)
      (by simp) ?_ hrun).1
    rintro done tx rest u u' hl hdone ⟨hnodup, hspent⟩ hstep
    have htx := hcareful done tx rest u hl hdone
    have hledger : (done ++ [tx]).flatMap blockSpends =
        done.flatMap blockSpends ++ blockSpends tx := by simp
    rw [hledger]
    refine ⟨nodup_append.mpr ⟨hnodup, ?_, ?_⟩, ?_⟩
    · unfold blockSpends
      split
      · exact nodup_nil
      · rename_i hx
        exact checkTransactionSanity_nodup (by simpa using hx) (hsane tx (by simp [hl]))
    · intro o ho o' ho'
      rintro rfl
      unfold blockSpends at ho'
      split at ho'
      · cases ho'
      · rename_i hx
        exact (htx.spends_unspent hstep (by simpa using hx) o ho').not_spent (hspent o ho)
    · refine forall_mem_append.mpr ⟨fun o ho => ?_, fun o ho => ?_⟩
      · exact htx.spent_after hstep (.inl (hspent o ho))
      · exact htx.spent_after hstep (.inr ho)
  · intro before tx after u hl hu hx ins t' ins' v hsplit hins hz
    rw [hl, connectTxs, foldlM_append_eq_ok] at hrun
    obtain ⟨u', hu', hrest⟩ := hrun
    have huu : u' = u := Except.ok.inj (hu'.symm.trans hu)
    subst huu
    rw [foldlM_cons, bind_eq_ok] at hrest
    obtain ⟨w, hstep, _⟩ := hrest
    exact unspent_when_spent (checkTransactionSanity_nodup hx (hsane tx (by simp [hl])))
      ((hcareful before tx after u' hl hu).spends_unspent hstep hx) hsplit hins hz

end Runs

/-! ## A block that spends twice

The first transaction spends the only output of the view. The second one spends it again behind
a padding input, which makes both input checks take it for a coinbase. -/

def spendOnceTx : MsgTx := plainTx [⟨⟨7, 0⟩, 0xFFFFFFFF, 0⟩] [coinOut 90000000]

def paddingTx : MsgTx :=
  plainTx [⟨⟨0, 0⟩, 0, 0xFFFFFFFF⟩, ⟨⟨7, 0⟩, 0xFFFFFFFF, 0⟩] [coinOut 90000000]

/-- Hashes for the two transactions. -/
def twoHashes (tx : MsgTx) : Hash := if tx = spendOnceTx then 9 else 11

/-- **A double spend.** Both transactions pass the sanity check, the block connects, and the
same output is spent twice. -/
theorem paddingTx_double_spend :
    (∀ tx ∈ [spendOnceTx, paddingTx], checkTransactionSanity Rules.permissive tx = .ok ()) ∧
      succeeds (connectTxs Params.plain Rules.permissive twoHashes (fun _ => none) 5
        (oneCoinView, none) [spendOnceTx, paddingTx]) = true ∧
      ¬ NoDoubleSpend Params.plain Rules.permissive twoHashes (fun _ => none) 5
        (oneCoinView, none) [spendOnceTx, paddingTx] := by
  refine ⟨by decide, by decide, fun h => ?_⟩
  exact absurd h.once (by decide)

theorem oneCoinView_unspent (o : OutPoint) : ¬ Spent oneCoinView o := by
  rintro ⟨e, he, hspent⟩
  rw [oneCoinView_lookup he] at hspent
  cases hspent

theorem spendOnceTx_careful :
    CarefulRun Params.plain Rules.permissive twoHashes (fun _ => none) 5 (oneCoinView, none)
      [spendOnceTx] := by
  intro before tx after u hl hu
  obtain ⟨rfl, ⟨⟩⟩ | ⟨-, ⟨⟩⟩ := append_eq_singleton_iff.mp hl.symm
  cases hu
  exact ⟨by decide, by decide, fun o ho => absurd ho (oneCoinView_unspent o)⟩

/-- The first transaction on its own is careful, and does not spend twice. -/
theorem spendOnceTx_noDoubleSpend :
    NoDoubleSpend Params.plain Rules.permissive twoHashes (fun _ => none) 5 (oneCoinView, none)
      [spendOnceTx] := by
  obtain ⟨t, ht⟩ := succeeds_iff.mp (show succeeds (connectTxs Params.plain Rules.permissive
    twoHashes (fun _ => none) 5 (oneCoinView, none) [spendOnceTx]) = true by decide)
  exact noDoubleSpend_of_careful (by decide) spendOnceTx_careful ht

end Zent
