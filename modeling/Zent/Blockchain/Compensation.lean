import Zent.Blockchain.ForfeitureOrder

/-!
# Compensation of victims

A transaction of an abandoned block is to be compensated once, though several violators may have
signed the block. `compensatedTx` looks a transaction up in a bucket of those compensated before;
`recordCompensation`, which would write it, is called nowhere.
-/

namespace Zent

open Go List Option

/-- A block that is connected after a node, and the forfeiture transactions required of it. -/
structure Connect where
  env : ForfeitEnv
  prevNode : Node
  fuel : Nat
  orders : RangeOrders
  txs : List MsgTx
  returned : compTxs env fuel orders prevNode = .ok txs

/-- The bucket of compensated transactions. -/
abbrev CompBucket := Hash → Bool

/-- The sequences of connected blocks, with the bucket after them. It is created empty and no
block that is connected writes it. -/
inductive Connected : CompBucket → List Connect → Prop where
  | start : Connected (fun _ => false) []
  | connect {bucket : CompBucket} {run : List Connect} {c : Connect} : Connected bucket run →
    c.env.compensatedTx = bucket → Connected bucket (run ++ [c])

/-- The required transactions of the block hold a record of a claim against the violator. -/
def Claims (c : Connect) (blk : MingingRightBlock) (h : Hash) : Prop :=
  ∃ reportee blks s v bal ctx, Due c.env c.prevNode reportee blks ∧ blk ∈ reportee ∧
    Guilty c.env blks blk s v ∧ ctx ∈ c.txs ∧
    Files c.env c.prevNode c.fuel c.orders blk bal v.processed ctx ∧
    h ∈ (claimsOf v.processed).map fun f => c.env.txHash f.tx

/-- No transaction is claimed for two blocks or against two violators of one. -/
structure CompensatedOnce (run : List Connect) : Prop where
  violators : ∀ c ∈ run, ∀ blk blk' h, Claims c blk h → Claims c blk' h → blk = blk'
  blocks : run.Pairwise fun c c' => ∀ blk blk' h, Claims c blk h → ¬Claims c' blk' h

/-- The blocks reported against a violator that is due hold a claimable transaction. -/
def Abandons (c : Connect) (blk : MingingRightBlock) (h : Hash) : Prop :=
  ∃ reportee blks s, Due c.env c.prevNode reportee blks ∧ blk ∈ reportee ∧
    collectReports c.env blk blks = .ok s ∧
    ∃ tx ∈ abandonedTxs c.env s.forfeiture, Claimable c.env tx ∧ c.env.txHash tx = h

/-- What is abandoned by a violator due after the node was abandoned by no other one. -/
structure Unshared (run : List Connect) (c : Connect) : Prop where
  violators : ∀ blk blk' h, Abandons c blk h → Abandons c blk' h → blk = blk'
  blocks : ∀ c' ∈ run, ∀ blk blk' h, Abandons c' blk h → ¬Abandons c blk' h

variable {c : Connect} {blk : MingingRightBlock} {h : Hash} {run : List Connect}

theorem abandons_of_claims (hclaims : Claims c blk h) : Abandons c blk h := by
  obtain ⟨reportee, blks, s, v, bal, ctx, hdue, hblk, hguilty, -, -, hh⟩ := hclaims
  obtain ⟨f, hf, rfl⟩ := mem_map.mp hh
  obtain ⟨k, hk⟩ := mem_claimsOf.mp hf
  obtain ⟨-, htx, hclaimable⟩ := filed_abandoned hguilty.victims k f hk
  exact ⟨reportee, blks, s, hdue, hblk, hguilty.reports, f.tx, htx, hclaimable, rfl⟩

/-- One block: the claims against two violators are different. -/
theorem Unshared.claims (h : Unshared run c) {blk' : MingingRightBlock} {hash : Hash}
    (hclaims : Claims c blk hash) (hclaims' : Claims c blk' hash) : blk = blk' :=
  h.violators blk blk' hash (abandons_of_claims hclaims) (abandons_of_claims hclaims')

theorem CompensatedOnce.connect (h : CompensatedOnce run) (hunshared : Unshared run c) :
    CompensatedOnce (run ++ [c]) where
  violators := forall_mem_append.mpr ⟨h.violators,
    forall_mem_singleton.mpr fun _ _ _ => hunshared.claims⟩
  blocks := by
    refine pairwise_append.mpr ⟨h.blocks, pairwise_singleton _ _, ?_⟩
    intro c' hc' c'' hc'' blk blk' hash hclaims hclaims'
    rw [mem_singleton.mp hc''] at hclaims'
    exact hunshared.blocks c' hc' blk blk' hash (abandons_of_claims hclaims)
      (abandons_of_claims hclaims')

/-- **Compensation at most once**: in a sequence of blocks each of which is `Unshared` no
transaction is claimed twice. -/
theorem compensatedOnce_of_unshared {bucket : CompBucket} {run : List Connect}
    (hrun : Connected bucket run)
    (hunshared : ∀ done c rest, run = done ++ c :: rest → Unshared done c) :
    CompensatedOnce run := by
  induction hrun with
  | start => exact ⟨fun c hc => absurd hc not_mem_nil, List.Pairwise.nil⟩
  | @connect bucket run c _ _ ih =>
    refine (ih fun done c' rest hsplit => hunshared done c' (rest ++ [c]) ?_).connect
      (hunshared run c [] rfl)
    rw [hsplit, append_assoc, cons_append]

/-! ## Two violators of one block -/

/-- The claims against a guilty violator are recorded, unless the list is given up. -/
theorem claims_of_guilty {reportee blks : List MingingRightBlock} {s : Reports} {v : Victims}
    (hdue : Due c.env c.prevNode reportee blks) (hblk : blk ∈ reportee)
    (hguilty : Guilty c.env blks blk s v) (hne : c.txs ≠ [])
    (hh : h ∈ (claimsOf v.processed).map fun f => c.env.txHash f.tx) : Claims c blk h := by
  rcases allAdd_of_compTxs c.returned hdue with ⟨f, hf, htxs⟩ | ⟨hnil, -⟩
  · rcases (hguilty.convicted (hf blk hblk)).cases with
      ⟨hnone, -⟩ | ⟨-, tx, ctx, bal, hadd, -, hfiles, -⟩
    · rw [claimsOf, hnone] at hh
      cases hh
    · refine ⟨reportee, blks, s, v, bal, ctx, hdue, hblk, hguilty, ?_, hfiles, hh⟩
      rw [htxs]
      refine mem_flatten.mpr ⟨f blk, mem_map_of_mem ((Shuffle.mem_run _).mpr hblk), ?_⟩
      rw [hadd]
      exact mem_cons_of_mem tx mem_cons_self
  · exact absurd hnil hne

/-- The miner blocks at heights 1 and 2. -/
def signer (height : Int32) : MingingRightBlock :=
  if height = 1 then ⟨100, 1, 1, 0, some ⟨7, 0⟩, [], []⟩ else ⟨101, 2, 2, 0, some ⟨8, 0⟩, [], []⟩

/-- An ordinary transaction that pays a fee of one hao. -/
def victimTx : MsgTx :=
  ⟨TxVersion, [], [⟨⟨6, 0⟩, 0xFFFFFFFF, 0⟩],
    [payOut 999 (0x6f :: replicate 20 5 ++ [OP_PAY2PKH])], 0, []⟩

/-- Both miners have signed block 52, which is abandoned and holds the transaction, beside block 51;
miner 3 reports them. Each collateral is 80000 hao. -/
def twoViolators : ForfeitEnv where
  params := testParams
  genesisNonce := 1
  minerByHeight h := if h = 1 ∨ h = 2 then .ok (signer h)
    else .error (.errorf ⟨"no block at height %d exists", [.int h.toInt]⟩)
  minerByHeight_height := by
    intro h blk hblk
    split at hblk
    case isTrue hmem =>
      cases hblk
      rcases hmem with rfl | rfl <;> rfl
    · cases hblk
  headersFrom _ := [⟨103, 3, 3, 0, none, [⟨100, [51, 52]⟩, ⟨101, [51, 52]⟩], []⟩]
  minerByHash hash := if hash = 100 then some (signer 1) else
    if hash = 101 then some (signer 2) else none
  hasEntry _ := true
  inBestChain hash := hash == 51
  hashToBlock _ := some [forfeitTx [] [], victimTx]
  mainChainTx hash := if hash = 6 then some (forfeitTx [] [payOut 1000 []]) else
    if hash = 7 ∨ hash = 8 then some (forfeitTx [] [payOut 80000 []]) else none
  compensatedTx _ := false
  blockTxns _ := some 1
  addrUsage _ := 0
  txHash tx := if tx = victimTx then 9 else 0
  hash160 _ := 0

/-- The block after a rotation block. -/
def afterRotation (nonce : Int32)
    (h : (compTxs twoViolators 0 storedOrders (rotationAt nonce)).toOption.isSome) : Connect where
  env := twoViolators
  prevNode := rotationAt nonce
  fuel := 0
  orders := storedOrders
  txs := (compTxs twoViolators 0 storedOrders (rotationAt nonce)).toOption.get h
  returned := toOption_eq_some.mp (some_get h).symm

def firstBlock : Connect := afterRotation (-31) (by decide +kernel)

def secondBlock : Connect := afterRotation (-32) (by decide +kernel)

/-- The transaction of block 52 is claimed. -/
theorem claimed_abandoned :
    ∃ v, abandoned twoViolators [52] = .ok v ∧
      9 ∈ (claimsOf v.processed).map fun f => twoViolators.txHash f.tx := by
  decide +kernel

/-- Reports of block 52 against a miner lead to a claim. -/
theorem claims_of_reports {nonce height : Int32} {p : Option Int32}
    {h : (compTxs twoViolators 0 storedOrders (rotationAt nonce)).toOption.isSome}
    (hreported : reported 1 10 (rotationAt nonce) = some ⟨p, [height]⟩)
    (hheight : height = 1 ∨ height = 2)
    (hreports : (collectReports twoViolators (signer height) (mrblks twoViolators p)).toOption.map
      Reports.forfeiture = some [52]) (hne : (afterRotation nonce h).txs ≠ []) :
    Claims (afterRotation nonce h) (signer height) 9 := by
  obtain ⟨s, hs, hforfeiture⟩ := map_eq_some_iff.mp hreports
  obtain ⟨v, hv, hclaimed⟩ := claimed_abandoned
  have hminer : [height].mapM twoViolators.minerByHeight = .ok [signer height] := by
    refine mapM_eq_ok.mpr (.cons ?_ .nil)
    exact if_pos hheight
  refine claims_of_guilty ⟨_, hreported, hminer, rfl⟩ mem_cons_self
    ⟨toOption_eq_some.mp hs, ?_, ?_⟩ hne hclaimed
  · rw [hforfeiture]
    exact cons_ne_nil _ _
  · rw [hforfeiture]
    exact hv

/-- The transaction is claimed against both violators, in two blocks. -/
theorem twoViolators_claimed_twice :
    Connected (fun _ => false) [firstBlock, secondBlock] ∧ Claims firstBlock (signer 1) 9 ∧
      Claims secondBlock (signer 2) 9 ∧ ¬CompensatedOnce [firstBlock, secondBlock] := by
  have hfirst : Claims firstBlock (signer 1) 9 :=
    claims_of_reports (p := some 10) (by decide +kernel) (.inl rfl) (by decide +kernel)
      (by decide +kernel)
  have hsecond : Claims secondBlock (signer 2) 9 :=
    claims_of_reports (p := some 11) (by decide +kernel) (.inr rfl) (by decide +kernel)
      (by decide +kernel)
  have hrun : Connected (fun _ => false) [firstBlock] := .connect .start rfl
  refine ⟨.connect hrun rfl, hfirst, hsecond, fun h => ?_⟩
  have hblocks := rel_of_pairwise_cons h.blocks (mem_singleton_self secondBlock)
  exact hblocks (signer 1) (signer 2) 9 hfirst hsecond

/-- Only the miner block at height 1 is due for the first block. -/
theorem eq_signer_of_abandons (ha : Abandons firstBlock blk h) : blk = signer 1 := by
  obtain ⟨reportee, blks, s, ⟨r, hr, hreportee, -⟩, hblk, -⟩ := ha
  have hr' : reported 1 10 (rotationAt (-31)) = some ⟨some 10, [1]⟩ := by decide +kernel
  obtain rfl := some_inj.mp (hr.symm.trans hr')
  obtain ⟨height, hheight, hminer⟩ := mem_of_mapM hreportee blk hblk
  rw [mem_singleton.mp hheight] at hminer
  exact (Except.ok.inj hminer).symm

/-- The first block alone claims it once. -/
theorem firstBlock_once : CompensatedOnce [firstBlock] := by
  refine compensatedOnce_of_unshared (.connect .start rfl) fun done c rest hsplit => ?_
  obtain ⟨rfl, ⟨⟩⟩ | ⟨-, ⟨⟩⟩ := append_eq_singleton_iff.mp hsplit.symm
  exact {
    violators := fun blk blk' h ha ha' =>
      (eq_signer_of_abandons ha).trans (eq_signer_of_abandons ha').symm
    blocks := fun c' hc' => absurd hc' not_mem_nil }

end Zent
