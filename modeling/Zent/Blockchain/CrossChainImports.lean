import Zent.Blockchain.CrossChain
import Mathlib.Data.List.Nodup

/-!
# Are imports backed?

What a block imports from another chain must be waiting in the INCOMINGPOOL. The
pool part of `checkCrossChain` establishes this (`checkPool_backed`), but it is
not always reached: the fee loop before it leaves the function as soon as it
meets a transaction without cross-chain traffic, and a simplified node does not
look at its pool at all.
-/

namespace Zent

open Go List Function

/-- The transactions of a block that follow the coinbase. Their hashes differ (`checkBlockSanity`
refuses duplicates), and an output index fits 32 bits (`MaxTxOutPerMessage`). -/
structure Block (txHash : MsgTx → Hash) where
  txs : List MsgTx
  hashes : (txs.map txHash).Nodup
  outputs : ∀ tx ∈ txs, tx.txOut.length ≤ 2 ^ 32

/-! ## Backed imports -/

/-- The outputs of all transactions that import from the source `k`. -/
def importedOutputs (k : OutPoint) (txs : List MsgTx) : List TxOut :=
  (txs.filter (fun tx => importSource tx = some k)).flatMap MsgTx.txOut

/-- **Backed imports.** Every source that is imported from has a finalized entry in the pool, and
the outputs imported from it match pairwise different transfers of that entry. -/
def Backed (pool : IncomingPool) (txs : List MsgTx) : Prop :=
  ∀ k, (∃ tx ∈ txs, importSource tx = some k) →
    ∃ x, pool k = some (.ok x) ∧ x.finalized ≠ 0 ∧
      ∃ keys : List OutPoint, keys.Nodup ∧
        List.Forall₂
          (fun out key => ∃ m, x.txs.lookup key = some m ∧
            m.txo.isMatch (ε := ChainError) out = .ok true)
          (importedOutputs k txs) keys

/-! ## Collecting the imports -/

section Collect

variable {txHash : MsgTx → Hash}

/-- The outputs imported from `k`, with their outpoints. -/
def importsOf (txHash : MsgTx → Hash) (k : OutPoint) (txs : List MsgTx) : List (OutPoint × TxOut) :=
  (txs.filter (fun tx => importSource tx = some k)).flatMap (outputsOf txHash)

theorem outputsOf_snd (tx : MsgTx) : (outputsOf txHash tx).map Prod.snd = tx.txOut := by
  simp [outputsOf, comp_def]

theorem importsOf_snd (txHash : MsgTx → Hash) (k : OutPoint) (txs : List MsgTx) :
    (importsOf txHash k txs).map Prod.snd = importedOutputs k txs := by
  simp [importsOf, importedOutputs, map_flatMap, outputsOf_snd]

theorem collectStep_lookup (atxs : Map OutPoint (Map OutPoint TxOut)) (tx : MsgTx) (k : OutPoint) :
    (collectStep txHash atxs tx).lookup k =
      if importSource tx = some k then
        some (putAll ((atxs.lookup k).getD ∅) (outputsOf txHash tx))
      else atxs.lookup k := by
  unfold collectStep
  split
  case h_1 o ho =>
    by_cases hk : o = k
    · subst hk
      rw [AList.lookup_insert, if_pos ho]
    · rw [AList.lookup_insert_ne (Ne.symm hk), if_neg (by simpa [ho] using hk)]
  case h_2 hnone =>
    rw [if_neg (by simp [hnone])]

/-- What is collected for a source are the outputs of all its imports. -/
theorem foldl_collectStep_lookup (k : OutPoint) :
    ∀ (txs : List MsgTx) (atxs : Map OutPoint (Map OutPoint TxOut)),
      (txs.foldl (collectStep txHash) atxs).lookup k =
        if ∃ tx ∈ txs, importSource tx = some k then
          some (putAll ((atxs.lookup k).getD ∅) (importsOf txHash k txs))
        else atxs.lookup k := by
  intro txs
  induction txs with
  | nil => intro atxs; simp
  | cons tx rest ih =>
    intro atxs
    rw [foldl_cons, ih, collectStep_lookup]
    by_cases htx : importSource tx = some k
    · by_cases hrest : ∃ t ∈ rest, importSource t = some k
      · simp [htx, hrest, importsOf]
      have hnone : importsOf txHash k rest = [] := by
        simp only [importsOf, flatMap_eq_nil_iff, mem_filter, decide_eq_true_eq]
        rintro t ⟨ht, hk⟩
        exact absurd ⟨t, ht, hk⟩ hrest
      have hcons : importsOf txHash k (tx :: rest) =
          outputsOf txHash tx ++ importsOf txHash k rest := by
        simp [importsOf, htx]
      rw [if_neg hrest, if_pos htx, if_pos ⟨tx, by simp, htx⟩, hcons, hnone, append_nil]
    · simp [htx, importsOf]

theorem nodup_outputsOf {tx : MsgTx} (h : tx.txOut.length ≤ 2 ^ 32) :
    ((outputsOf txHash tx).map Prod.fst).Nodup := by
  have hfst : (outputsOf txHash tx).map Prod.fst =
      (range tx.txOut.length).map (fun i => (⟨txHash tx, UInt32.ofNat i⟩ : OutPoint)) := by
    have hidx : tx.txOut.zipIdx.map Prod.snd = range tx.txOut.length := by
      rw [zipIdx_map_snd, range_eq_range']
    rw [← hidx, outputsOf, map_map, map_map]
    rfl
  rw [hfst]
  refine List.Nodup.map_on ?_ nodup_range
  intro i hi j hj hij
  rw [mem_range] at hi hj
  have hnat := congrArg (fun o : OutPoint => o.index.toNat) hij
  simp only [UInt32.toNat_ofNat'] at hnat
  rwa [Nat.mod_eq_of_lt (by omega), Nat.mod_eq_of_lt (by omega)] at hnat

theorem Block.nodup_importsOf (block : Block txHash) (k : OutPoint) :
    ((importsOf txHash k block.txs).map Prod.fst).Nodup := by
  rw [importsOf, map_flatMap, nodup_flatMap]
  constructor
  · intro tx htx
    exact nodup_outputsOf (block.outputs tx (mem_of_mem_filter htx))
  · have hpair : (block.txs.filter (fun tx => importSource tx = some k)).Pairwise
        (fun a b => txHash a ≠ txHash b) :=
      (pairwise_map.mp block.hashes).filter _
    refine hpair.imp ?_
    intro a b hab o ha hb
    simp only [outputsOf, map_map, mem_map, comp_apply] at ha hb
    obtain ⟨_, _, rfl⟩ := ha
    obtain ⟨_, _, hb⟩ := hb
    exact hab (congrArg OutPoint.hash hb).symm

end Collect

/-! ## Matching the imports with the pool -/

theorem findMatch_eq_some {txo : TxOut} {key : OutPoint} :
    ∀ {entries : List ((_ : OutPoint) × MsgXrossL3)},
      findMatch txo entries = .ok (some key) →
        ∃ m, (⟨key, m⟩ : (_ : OutPoint) × MsgXrossL3) ∈ entries ∧
          m.txo.isMatch (ε := ChainError) txo = .ok true := by
  intro entries
  induction entries with
  | nil => intro h; cases h
  | cons e rest ih =>
    intro h
    obtain ⟨b, hb, h⟩ := of_bind h
    split at h
    case isTrue htrue =>
      cases h
      exact ⟨e.2, by simp, by rw [hb, htrue]⟩
    · obtain ⟨m, hm, hmatch⟩ := ih h
      exact ⟨m, mem_cons_of_mem _ hm, hmatch⟩

/-- One import uses up a transfer that matches it. -/
theorem takeMatch_eq_ok {left left' : Map OutPoint MsgXrossL3} {p : (_ : OutPoint) × TxOut}
    (h : takeMatch left p = .ok left') :
    ∃ key m, left.lookup key = some m ∧ m.txo.isMatch (ε := ChainError) p.2 = .ok true ∧
      left' = left.erase key := by
  obtain ⟨found, hfound, h⟩ := of_bind h
  split at h
  case h_1 key =>
    cases h
    obtain ⟨m, hm, hmatch⟩ := findMatch_eq_some hfound
    exact ⟨key, m, AList.mem_lookup_iff.mpr hm, hmatch, rfl⟩
  · cases h

/-- After the imports `done`, `g` assigns to each the transfer it used up: those are gone from
what is left, and the others are still there. -/
structure Matching (txs : Map OutPoint MsgXrossL3) (g : OutPoint → OutPoint)
    (done : List ((_ : OutPoint) × TxOut)) (left : Map OutPoint MsgXrossL3) : Prop where
  isMatch : ∀ e ∈ done, ∃ m, txs.lookup (g e.1) = some m ∧
    m.txo.isMatch (ε := ChainError) e.2 = .ok true
  injective : ∀ e ∈ done, ∀ e' ∈ done, g e.1 = g e'.1 → e.1 = e'.1
  gone : ∀ e ∈ done, g e.1 ∉ left
  rest : ∀ k v, left.lookup k = some v → txs.lookup k = some v

/-- **The greedy search is an injective matching.** When it goes through, every output imported has
used up a transfer of its own. -/
theorem takeMatch_run {txs left : Map OutPoint MsgXrossL3} {outs : Map OutPoint TxOut}
    (h : outs.entries.foldlM takeMatch txs = .ok left) : ∃ g, Matching txs g outs.entries left := by
  refine foldlM_induction_run (P := fun done left => ∃ g, Matching txs g done left)
    ⟨id, by simp, by simp, by simp, fun _ _ hk => hk⟩ ?_ h
  rintro done e rest left left' hl _ ⟨g, hmatch, hinj, hgone, hsub⟩ hstep
  obtain ⟨key, m, hkey, hm, rfl⟩ := takeMatch_eq_ok hstep
  have hfresh : ∀ d ∈ done, d.1 ≠ e.1 := by
    intro d hd
    have hnodup := outs.nodupKeys
    rw [hl, List.NodupKeys, keys, map_append, nodup_append] at hnodup
    exact hnodup.2.2 d.1 (mem_map_of_mem hd) e.1 (by simp)
  have hold : ∀ d ∈ done, update g e.1 key d.1 = g d.1 :=
    fun d hd => update_of_ne (hfresh d hd) _ _
  have hnew : update g e.1 key e.1 = key := update_self _ _ _
  have hkeyMem : key ∈ left := mem_of_lookup hkey
  refine ⟨update g e.1 key, ?_, ?_, ?_, ?_⟩
  · refine forall_mem_append.mpr ⟨fun d hd => ?_, forall_mem_singleton.mpr ?_⟩
    · rw [hold d hd]
      exact hmatch d hd
    · rw [hnew]
      exact ⟨m, hsub key m hkey, hm⟩
  · intro d hd d' hd' heq
    rcases mem_append.mp hd with hd | hd <;> rcases mem_append.mp hd' with hd' | hd'
    · rw [hold d hd, hold d' hd'] at heq
      exact hinj d hd d' hd' heq
    · rw [hold d hd, mem_singleton.mp hd', hnew] at heq
      exact absurd (heq ▸ hkeyMem) (hgone d hd)
    · rw [hold d' hd', mem_singleton.mp hd, hnew] at heq
      exact absurd (heq ▸ hkeyMem) (hgone d' hd')
    · rw [mem_singleton.mp hd, mem_singleton.mp hd']
  · simp only [AList.mem_erase, not_and_or]
    refine forall_mem_append.mpr ⟨fun d hd => ?_, forall_mem_singleton.mpr ?_⟩
    · rw [hold d hd]
      exact .inr (hgone d hd)
    · exact .inl (not_not.mpr hnew)
  · intro k v hk
    by_cases hkk : k = key
    · subst hkk
      rw [AList.lookup_erase] at hk
      cases hk
    · rw [AList.lookup_erase_ne hkk] at hk
      exact hsub k v hk

/-- **The pool part backs the imports.** Whatever the pool holds, a block that passes it imports
from finalized entries only, and no transfer twice. -/
theorem checkPool_backed {txHash : MsgTx → Hash} (block : Block txHash) {pool : IncomingPool}
    (h : checkPool txHash pool block.txs = .ok ()) : Backed pool block.txs := by
  intro k hk
  have hlook : (collect txHash block.txs).lookup k =
      some (putAll ∅ (importsOf txHash k block.txs)) := by
    rw [collect, foldl_collectStep_lookup, if_pos hk]
    rfl
  have hsource := forM_eq_ok.mp h _ (AList.mem_lookup_iff.mp hlook)
  unfold checkSource at hsource
  split at hsource
  · cases hsource
  rename_i decoded hdecoded
  obtain ⟨x, hx, hsource⟩ := of_bind hsource
  obtain ⟨_, hfinal, hsource⟩ := of_bind hsource
  obtain ⟨left, hrun, _⟩ := of_bind hsource
  obtain ⟨g, hg⟩ := takeMatch_run hrun
  -- every imported output is an entry of what was collected
  have hentry : ∀ p ∈ importsOf txHash k block.txs,
      (⟨p.1, p.2⟩ : (_ : OutPoint) × TxOut) ∈
        (putAll ∅ (importsOf txHash k block.txs)).entries := by
    intro p hp
    exact AList.mem_lookup_iff.mp (lookup_putAll _ _ (block.nodup_importsOf k) hp)
  refine ⟨x, by rw [hdecoded, hx], failIf_eq_ok.mp hfinal,
    (importsOf txHash k block.txs).map (fun p => g p.1), ?_, ?_⟩
  · have hnodup := block.nodup_importsOf k
    rw [List.Nodup, pairwise_map] at hnodup ⊢
    refine hnodup.imp_of_mem ?_
    intro p q hp hq hne heq
    exact hne (hg.injective _ (hentry p hp) _ (hentry q hq) heq)
  · rw [← importsOf_snd txHash, forall₂_map_left_iff, forall₂_map_right_iff, forall₂_same]
    intro p hp
    exact hg.isMatch _ (hentry p hp)

/-! ## Which blocks reach the pool part -/

/-- The transaction is an import or has an output that goes to another chain. -/
def CrossRelated (tx : MsgTx) : Prop := ∃ s, scan tx = .ok s ∧ s.iscrosschain = true

section Reach

variable {params : Params} {chains : ChainMap}

/-- The fee loop leaves at a transaction exactly if that is not related to other chains. -/
theorem crossFeeTx_eq_ok {tx : MsgTx} {v : Verdict} (h : crossFeeTx params chains tx = .ok v) :
    ∃ s, scan tx = .ok s ∧ (s.iscrosschain = true ↔ v = .next) := by
  obtain ⟨s, hs, h⟩ := of_bind h
  refine ⟨s, hs, ?_⟩
  split at h
  case isTrue hlocal =>
    obtain ⟨_, _, h⟩ := of_bind h
    cases h
    simpa using hlocal
  rename_i hcross
  obtain ⟨_, _, h⟩ := of_bind h
  obtain ⟨_, _, h⟩ := of_bind h
  obtain ⟨_, _, h⟩ := of_bind h
  obtain ⟨_, _, h⟩ := of_bind h
  cases h
  simpa using hcross

/-- The fee loop goes through to the end exactly if every transaction is related to other
chains. -/
theorem crossFees_eq_ok {txs : List MsgTx} {v : Verdict} (h : crossFees params chains txs = .ok v) :
    v = .next ↔ ∀ tx ∈ txs, CrossRelated tx := by
  induction txs with
  | nil =>
    cases h
    simp
  | cons tx rest ih =>
    obtain ⟨w, hw, h⟩ := of_bind h
    obtain ⟨s, hs, hcross⟩ := crossFeeTx_eq_ok hw
    cases w with
    | leave =>
      cases h
      have hnot : ¬ CrossRelated tx := by
        rintro ⟨s', hs', hx⟩
        rw [hs] at hs'
        cases hs'
        exact absurd (hcross.mp hx) (by simp)
      simp [hnot]
    | next =>
      have hrel : CrossRelated tx := ⟨s, hs, hcross.mpr rfl⟩
      simp [ih h, hrel]

variable {txHash : MsgTx → Hash} {isSVP : Bool} {pool : IncomingPool} {bucket : AssetBucket}
  {txs : List MsgTx}

/-- A block that is accepted by a full node, all of whose transactions are related to other
chains, has passed the pool part. -/
theorem checkCrossChain_pool
    (h : checkCrossChain params chains txHash false pool bucket txs = .ok ())
    (hrel : ∀ tx ∈ txs, CrossRelated tx) : checkPool txHash pool txs = .ok () := by
  obtain ⟨v, hv, h⟩ := of_bind h
  rw [(crossFees_eq_ok hv).mpr hrel] at h
  obtain ⟨_, hpool, _⟩ := of_bind h
  exact hpool

/-- A block that is accepted without having passed the pool part is accepted with any pool. -/
theorem checkCrossChain_any_pool (pool' : IncomingPool)
    (h : checkCrossChain params chains txHash isSVP pool bucket txs = .ok ())
    (hskip : ¬ (isSVP = false ∧ ∀ tx ∈ txs, CrossRelated tx)) :
    checkCrossChain params chains txHash isSVP pool' bucket txs = .ok () := by
  obtain ⟨v, hv, h⟩ := of_bind h
  rw [checkCrossChain, hv]
  cases v with
  | leave => rfl
  | next =>
    have hsvp : isSVP = true := by
      by_contra hsvp
      exact hskip ⟨by simpa using hsvp, (crossFees_eq_ok hv).mp rfl⟩
    rw [hsvp]
    rfl

/-- **When acceptance means that imports are backed.** For a given block this holds for every
pool exactly when an accepted block imports nothing, or is checked by a full node and consists
of transactions related to other chains only. -/
theorem imports_backed_iff (params : Params) (chains : ChainMap) (isSVP : Bool)
    (bucket : AssetBucket) (block : Block txHash) :
    (∀ pool, checkCrossChain params chains txHash isSVP pool bucket block.txs = .ok () →
        Backed pool block.txs) ↔
      ((∃ pool, checkCrossChain params chains txHash isSVP pool bucket block.txs = .ok ()) →
        (∀ tx ∈ block.txs, importSource tx = none) ∨
          (isSVP = false ∧ ∀ tx ∈ block.txs, CrossRelated tx)) := by
  constructor
  · rintro hbacked ⟨pool, hok⟩
    by_contra hcon
    rw [not_or] at hcon
    -- the empty pool is accepted as well, and backs nothing
    have hempty := hbacked (fun _ => none) (checkCrossChain_any_pool _ hok hcon.2)
    apply hcon.1
    intro tx htx
    cases hk : importSource tx with
    | none => rfl
    | some k =>
      obtain ⟨x, hx, _⟩ := hempty k ⟨tx, htx, hk⟩
      cases hx
  · intro hcond pool hok
    rcases hcond ⟨pool, hok⟩ with hnone | ⟨rfl, hrel⟩
    · rintro k ⟨tx, htx, hk⟩
      rw [hnone tx htx] at hk
      cases hk
    · exact checkPool_backed block (checkCrossChain_pool hok hrel)

end Reach

/-! ## An import from an empty pool -/

/-- A chain map without other chains. -/
def ChainMap.alone : ChainMap where
  here := true
  known := fun _ => false
  passThru := fun _ _ _ => .ok false
  ctxFees := fun _ => .ok []

/-- A payment on this chain. -/
def localTx : MsgTx := plainTx [⟨⟨7, 0⟩, 0xFFFFFFFF, 0⟩] [coinOut 1]

/-- An import from chain 2 that pays no fees. -/
def importTx : MsgTx := plainTx [⟨⟨5, 0x800002⟩, 0xFFFFFFFF, 0⟩] [coinOut 1000]

def importHash (tx : MsgTx) : Hash := if tx = localTx then 9 else 11

def skippedBlock : Block importHash := ⟨[localTx, importTx], by decide, by decide⟩

/-- **An import out of nothing.** The fee loop leaves at the first transaction, so the second one
is never looked at, and a full node accepts the block with an empty pool. -/
theorem skippedImport_not_backed :
    checkCrossChain Params.plain ChainMap.alone importHash false (fun _ => none) (fun _ => none)
        skippedBlock.txs = .ok () ∧
      ¬ Backed (fun _ => none) skippedBlock.txs := by
  refine ⟨by decide, fun h => ?_⟩
  obtain ⟨x, hx, _⟩ := h ⟨5, 0x800002⟩ ⟨importTx, by decide, by decide⟩
  cases hx

end Zent
