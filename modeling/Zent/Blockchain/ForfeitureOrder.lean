import Zent.Go.Returns
import Zent.Blockchain.Contributions
import Zent.Blockchain.Victims
import Zent.Wire.Encoding

/-!
# The orders of the ranges in `CompTxs`

Every node computes the forfeiture transactions for itself and compares them byte for byte with
those of a block, so they must not depend on the orders in which Go visits the maps `reportee`,
`reportblks` and `processed`.
-/

namespace Zent

open Go Shuffle List Except MsgTx

variable {env : ForfeitEnv} {prevNode : Node} {fuel fuel' : Nat} {orders orders' : RangeOrders}
  {blk : MingingRightBlock} {bal : Int64} {x : Map Hash (Option TxFee)}
  {mrblks : List MingingRightBlock} {added added' : List MsgTx} {rounds : Nat → Shuffle TxFee}
  {leftover : List TxOut} {order : Shuffle (Address × Int)} {s : Reports} {stx : MsgTx}
  {order' : Shuffle (Address × Int)} {s' : Reports} {v v' : Victims} {script' : Bytes}
  {blk' : MingingRightBlock} {height : Int32} {leftover' : List TxOut} {claims' : List TxFee}
  {p q : Address × Int} {claims : List TxFee}

/-! ## No choice -/

section

variable (h : Ledger env prevNode fuel rounds bal x claims leftover)

include h

/-- The ledger is determined where the division of the balance is. -/
theorem Ledger.eq {rounds' : Nat → Shuffle TxFee}
    (h' : Ledger env prevNode fuel' rounds' bal x claims' leftover') (hdivide : ∀ avgtx r r',
      divide rounds avgtx fuel 0 bal (UInt64.ofNat (claimsOf x).length) (claimsOf x) = some r →
      divide rounds' avgtx fuel' 0 bal (UInt64.ofNat (claimsOf x).length) (claimsOf x) = some r' →
      r = r') : claims = claims' ∧ leftover = leftover' := by
  cases h with
  | full hfull =>
    cases h' with
    | full => exact ⟨rfl, rfl⟩
    | short hshort => exact absurd hfull hshort
  | short hshort havg hdiv =>
    cases h' with
    | full hfull => exact absurd hfull hshort
    | short _ havg' hdiv' =>
      rw [havg] at havg'
      obtain rfl := Option.some_inj.mp (ok.inj havg')
      exact ⟨hdivide _ _ _ hdiv hdiv', rfl⟩

/-- A ledger is determined by the orders of the rounds. -/
theorem Ledger.unique (h' : Ledger env prevNode fuel rounds bal x claims' leftover') :
    claims = claims' ∧ leftover = leftover' :=
  h.eq h' fun _ _ _ hr hr' => Option.some_inj.mp (hr.symm.trans hr')

/-- The claims recorded are for the transactions of the victims. -/
theorem Ledger.perm : (claims.map TxFee.tx).Perm ((claimsOf x).map TxFee.tx) := by
  cases h with
  | full =>
    rw [map_map]
    rfl
  | short _ _ hdiv => exact divide_perm hdiv

theorem Ledger.length : claims.length = (claimsOf x).length := by
  have hlen := h.perm.length_eq
  rwa [length_map, length_map] at hlen

end

theorem Files.unique {ctx ctx' : MsgTx} (hle : (claimsOf x).length ≤ 1)
    (h : Files env prevNode fuel orders blk bal x ctx)
    (h' : Files env prevNode fuel' orders' blk bal x ctx') : ctx = ctx' := by
  obtain ⟨claims, leftover, records, hledger, hrecords, rfl⟩ := h
  obtain ⟨claims', leftover', records', hledger', hrecords', rfl⟩ := h'
  obtain ⟨rfl, rfl⟩ := hledger.eq hledger' fun avgtx r r' => divide_unique hle
  rw [← hledger.length] at hle
  rw [run_eq_of_length_le_one _ hle] at hrecords hrecords'
  rw [hrecords] at hrecords'
  rw [ok.inj hrecords']

/-- The first transaction of a guilty violator takes its collateral and holds the awards. -/
def Takes (env : ForfeitEnv) (order : Shuffle (Address × Int)) (blk : MingingRightBlock)
    (s : Reports) (tx : MsgTx) (script : Bytes) : Prop :=
  ∃ op avail awards, blk.utxos = some op ∧ collateralValue env op = .ok avail ∧
    (order.run s.shares).mapM (awardOut env (avail >>> 3) s.totalblks) = .ok awards ∧
    tx = forfeitTx [⟨op, 0xFFFFFFFF, 0xFFFFFFFF⟩] (payOut ((avail * 6) >>> 3) script :: awards)

theorem awardTx_eq_ok : awardTx env order blk s = .ok stx ↔
    Takes env order blk s stx (openingScript env blk.height) := by
  rw [awardTx, Takes]
  cases blk.utxos with
  | none =>
    constructor
    · intro h
      cases h
    · rintro ⟨op, -, -, hop, -⟩
      cases hop
  | some op =>
    constructor
    · intro h
      obtain ⟨avail, havail, h⟩ := of_bind h
      obtain ⟨awards, hawards, h⟩ := of_bind h
      exact ⟨op, avail, awards, rfl, havail, hawards, (ok.inj h).symm⟩
    · rintro ⟨op', avail, awards, hop, havail, hawards, rfl⟩
      obtain rfl := Option.some_inj.mp hop
      exact bind_eq_ok.mpr ⟨avail, havail, bind_eq_ok.mpr ⟨awards, hawards, rfl⟩⟩

theorem balance_iff {txIn : List TxIn} {val : Int64} {script : Bytes} {outs : List TxOut} :
    Balance (forfeitTx txIn (payOut val script :: outs)) bal ↔ val = bal := by
  constructor
  · rintro ⟨out, hout, hval⟩
    cases hout
    exact ok.inj hval
  · rintro rfl
    exact ⟨_, rfl, rfl⟩

theorem Balance.unique {bal' : Int64} (h : Balance stx bal) (h' : Balance stx bal') :
    bal = bal' := by
  obtain ⟨out, hout, hval⟩ := h
  obtain ⟨out', hout', hval'⟩ := h'
  rw [hout] at hout'
  obtain rfl := ok.inj hout'
  exact ok.inj (hval.symm.trans hval')

theorem balance_unique {stx' : MsgTx}
    {bal' : Int64} (h : awardTx env order blk s = .ok stx)
    (h' : awardTx env order' blk s = .ok stx')
    (hbal : Balance stx bal) (hbal' : Balance stx' bal') : bal = bal' := by
  obtain ⟨op, avail, awards, hop, havail, -, rfl⟩ := awardTx_eq_ok.mp h
  obtain ⟨op', avail', awards', hop', havail', -, rfl⟩ := awardTx_eq_ok.mp h'
  rw [hop] at hop'
  obtain rfl := Option.some_inj.mp hop'
  rw [havail] at havail'
  obtain rfl := ok.inj havail'
  rw [← balance_iff.mp hbal, ← balance_iff.mp hbal']

theorem Guilty.unique (h : Guilty env mrblks blk s v) (h' : Guilty env mrblks blk s' v') :
    s = s' ∧ v = v' := by
  have hs := h.reports
  rw [h'.reports] at hs
  obtain rfl := ok.inj hs
  have hv := h.victims
  rw [h'.victims] at hv
  exact ⟨rfl, (ok.inj hv).symm⟩

/-- A violator with one share and one claim adds the same in all orders. -/
theorem Convicted.unique (hshares : s.shares.length ≤ 1)
    (hclaims : (claimsOf v.processed).length ≤ 1)
    (h : Convicted env prevNode fuel orders mrblks blk s v added)
    (h' : Convicted env prevNode fuel' orders' mrblks blk s v added') : added = added' := by
  obtain ⟨-, stx, bal, hstx, hbal, hadds⟩ := h
  obtain ⟨-, stx', bal', hstx', hbal', hadds'⟩ := h'
  obtain rfl := balance_unique hstx hstx' hbal hbal'
  have hsame : stx = stx' := by
    rw [awardTx, run_eq_of_length_le_one _ hshares] at hstx hstx'
    rw [hstx] at hstx'
    exact ok.inj hstx'
  subst hsame
  cases hadds with
  | burnt hnone =>
    cases hadds' with
    | burnt => rfl
    | filed hsome => exact absurd hnone hsome
  | filed hsome hfiles =>
    cases hadds' with
    | burnt hnone => exact absurd hnone hsome
    | filed _ hfiles' => rw [hfiles.unique hclaims hfiles']

/-- Giving up the list does not depend on the orders. -/
theorem not_contribute_none
    (h : contribute env prevNode fuel orders mrblks blk = .ok (some added)) :
    contribute env prevNode fuel' orders' mrblks blk ≠ .ok none := by
  intro hnone
  obtain ⟨r, hr, hnone⟩ := of_bind hnone
  obtain ⟨s, hs, hr⟩ := of_bind hr
  split at hr
  · cases hr
    cases hnone
  rename_i hfound
  obtain ⟨stx, hstx, hr⟩ := of_bind hr
  obtain ⟨v, hv, hr⟩ := of_bind hr
  cases hr
  obtain ⟨t, ht, hnone⟩ := of_bind hnone
  cases t with
  | some t => cases hnone
  | none =>
    obtain ⟨bal, hbal, hsome, hshort, havg⟩ := (compensate_eq_none (.inl rfl)).mp ht
    rcases contribute_eq_some.mp h with ⟨s', hs', hfound', -⟩ | ⟨s', v', hconvicted⟩
    · rw [hs] at hs'
      obtain rfl := ok.inj hs'
      exact hfound hfound'
    obtain ⟨rfl, rfl⟩ := hconvicted.guilty.unique ⟨hs, hfound, hv⟩
    obtain ⟨stx', bal', hstx', hbal', hadds⟩ := hconvicted.award
    obtain rfl := balance_unique hstx hstx' hbal hbal'
    cases hadds with
    | burnt hburnt => exact hsome hburnt
    | filed _ hfiles =>
      obtain ⟨claims, leftover, records, hledger, -⟩ := hfiles
      cases hledger with
      | full hfull => exact hshort hfull
      | short _ havg' =>
        rw [havg] at havg'
        cases havg'

/-! ## Other orders -/

/-- Other orders of the shares and of the records keep the number of transactions. -/
theorem contribute_reorder (hrounds : orders'.rounds = orders.rounds)
    (h : contribute env prevNode fuel orders mrblks blk = .ok (some added)) :
    ∃ added', contribute env prevNode fuel orders' mrblks blk = .ok (some added') ∧
      added.length = added'.length := by
  rcases contribute_eq_some.mp h with
    ⟨s, hs, hnone, rfl⟩ | ⟨s, v, hguilty, stx, bal, hstx, hbal, hadds⟩
  · exact ⟨[], contribute_eq_some.mpr (.inl ⟨s, hs, hnone, rfl⟩), rfl⟩
  obtain ⟨op, avail, awards, hop, havail, hawards, rfl⟩ := awardTx_eq_ok.mp hstx
  obtain ⟨awards', hawards'⟩ : ∃ awards', ((orders'.reportblks blk.height).run s.shares).mapM
      (awardOut env (avail >>> 3) s.totalblks) = .ok awards' :=
    mapM_ok_of_forall fun share hshare => ok_of_mapM hawards share
      ((mem_run _).mpr ((mem_run _).mp hshare))
  have hstx' := awardTx_eq_ok.mpr ⟨op, avail, awards', hop, havail, hawards', rfl⟩
  have hval := balance_iff.mp hbal
  cases hadds with
  | burnt hnone =>
    exact ⟨_, contribute_eq_some.mpr (.inr ⟨s, v, hguilty, _, bal, hstx', balance_iff.mpr hval,
      .burnt hnone⟩), rfl⟩
  | filed hsome hfiles =>
    obtain ⟨claims, leftover, records, hledger, hrecords, rfl⟩ := hfiles
    obtain ⟨records', hrecords'⟩ : ∃ records', ((orders'.processed blk.height).run claims).mapM
        (comptx env) = .ok records' :=
      mapM_ok_of_forall fun claim hclaim => ok_of_mapM hrecords claim
        ((mem_run _).mpr ((mem_run _).mp hclaim))
    exact ⟨_, contribute_eq_some.mpr (.inr ⟨s, v, hguilty, _, bal, hstx', balance_iff.mpr hval,
      .filed hsome ⟨claims, leftover, records', hrounds ▸ hledger, hrecords', rfl⟩⟩), rfl⟩

/-- What a guilty violator adds: one transaction if nothing is claimed, else two. -/
theorem Convicted.cases (h : Convicted env prevNode fuel orders mrblks blk s v added) :
    (v.processed.entries = [] ∧ ∃ tx, added = [tx] ∧
      Takes env (orders.reportblks blk.height) blk s tx (burnScript env)) ∨
    (v.processed.entries ≠ [] ∧ ∃ tx ctx bal, added = [tx, ctx] ∧
      Takes env (orders.reportblks blk.height) blk s tx (openingScript env blk.height) ∧
      Files env prevNode fuel orders blk bal v.processed ctx ∧ Balance tx bal) := by
  obtain ⟨-, stx, bal, hstx, hbal, hadds⟩ := h
  have htakes := awardTx_eq_ok.mp hstx
  cases hadds with
  | burnt hnone =>
    obtain ⟨op, avail, awards, hop, havail, hawards, rfl⟩ := htakes
    exact .inl ⟨hnone, _, rfl, ⟨op, avail, awards, hop, havail, hawards, rfl⟩⟩
  | filed hsome hfiles => exact .inr ⟨hsome, _, _, bal, rfl, htakes, hfiles, hbal⟩

theorem payOut_inj {val val' : Int64} {script : Bytes}
    (h : payOut val script = payOut val' script') : val = val' ∧ script = script' := by
  rw [payOut, payOut, TxOut.mk.injEq, Token.mk.injEq, Option.some_inj] at h
  exact ⟨TokenValue.numToken.inj h.1.2.1, h.2⟩

/-- The reporter that an award is for. -/
theorem awardOut_inj {r125 r125' : Int64} {totalblks totalblks' : Int} {out : TxOut}
    (h : awardOut env r125 totalblks p = .ok out) (h' : awardOut env r125' totalblks' q = .ok out) :
    p.1 = q.1 := by
  rw [awardOut] at h h'
  split at h
  · cases h
  split at h'
  · cases h'
  · have hscript := (payOut_inj ((ok.inj h).trans (ok.inj h').symm)).2
    rw [append_left_inj, append_right_inj] at hscript
    exact addressBytes_injective hscript

variable {tx : MsgTx}

/-- The awards for shares in two orders are told apart by their first reporters. -/
theorem Takes.first {script : Bytes} {rest rest' : List (Address × Int)}
    (h : Takes env order blk s tx script) (h' : Takes env order' blk' s' tx script')
    (hp : order.run s.shares = p :: rest) (hq : order'.run s'.shares = q :: rest') : p.1 = q.1 := by
  obtain ⟨op, avail, awards, -, -, hawards, rfl⟩ := h
  obtain ⟨op', avail', awards', -, -, hawards', htx⟩ := h'
  rw [hp] at hawards
  rw [hq] at hawards'
  obtain ⟨out, outs, hout, -, rfl⟩ := forall₂_cons_left_iff.mp (mapM_eq_ok.mp hawards)
  obtain ⟨out', outs', hout', -, rfl⟩ := forall₂_cons_left_iff.mp (mapM_eq_ok.mp hawards')
  have houts := congrArg txOut htx
  obtain ⟨-, houts⟩ := cons.inj houts
  obtain ⟨rfl, -⟩ := cons.inj houts
  exact awardOut_inj hout hout'

/-- The claim records of two orders are told apart by their first transactions. -/
theorem comptx_inj {p q : TxFee} {a b as bs : Bytes} (ha : comptx env p = .ok a)
    (hb : comptx env q = .ok b) (h : a ++ as = b ++ bs) : env.txHash p.tx = env.txHash q.tx := by
  obtain ⟨scripts, -, ha⟩ := of_bind ha
  obtain ⟨script, -, ha⟩ := of_bind ha
  obtain ⟨scripts', -, hb⟩ := of_bind hb
  obtain ⟨script', -, hb⟩ := of_bind hb
  obtain rfl := ok.inj ha
  obtain rfl := ok.inj hb
  simp only [append_assoc] at h
  have hhash := (append_inj h ((length_hashBytes _).trans (length_hashBytes _).symm)).1
  exact hashBytes_injective hhash

theorem filingTx_inj {count : UInt64} {records records' : List Bytes}
    (h : filingTx env height count leftover records = filingTx env height count leftover records') :
    records.flatten = records'.flatten := by
  have houts := append_cancel_left (congrArg txOut h)
  obtain ⟨hout, -⟩ := cons.inj houts
  exact append_cancel_left (payOut_inj hout).2

/-- Filings in two orders are told apart by their first claims. -/
theorem Files.first {ctx : MsgTx} {p q : TxFee} {rest rest' : List TxFee}
    (hledger : Ledger env prevNode fuel (orders.rounds blk.height) bal x claims leftover)
    (h : Files env prevNode fuel orders blk bal x ctx)
    (h' : Files env prevNode fuel orders' blk bal x ctx) (hrounds : orders'.rounds = orders.rounds)
    (hp : (orders.processed blk.height).run claims = p :: rest)
    (hq : (orders'.processed blk.height).run claims = q :: rest') :
    env.txHash p.tx = env.txHash q.tx := by
  obtain ⟨claims₁, leftover₁, records, hledger₁, hrecords, rfl⟩ := h
  obtain ⟨claims₂, leftover₂, records', hledger₂, hrecords', hctx⟩ := h'
  rw [hrounds] at hledger₂
  obtain ⟨rfl, rfl⟩ := hledger.unique hledger₁
  obtain ⟨rfl, rfl⟩ := hledger.unique hledger₂
  rw [hp] at hrecords
  rw [hq] at hrecords'
  obtain ⟨a, as, ha, -, rfl⟩ := forall₂_cons_left_iff.mp (mapM_eq_ok.mp hrecords)
  obtain ⟨b, bs, hb, -, rfl⟩ := forall₂_cons_left_iff.mp (mapM_eq_ok.mp hrecords')
  exact comptx_inj ha hb (filingTx_inj hctx)

/-! ## The lists returned -/

/-- The violators that are due after a node, and the miner blocks scanned for reports. -/
def Due (env : ForfeitEnv) (prevNode : Node) (reportee blks : List MingingRightBlock) : Prop :=
  ∃ r, reported env.genesisNonce env.params.violationReportDeadline prevNode = some r ∧
    r.heights.mapM env.minerByHeight = .ok reportee ∧ blks = Zent.mrblks env r.prevminer

/-- A list that `CompTxs` returns. -/
def Yields (env : ForfeitEnv) (prevNode : Node) (orders : RangeOrders) (txs : List MsgTx) : Prop :=
  ∃ fuel, compTxs env fuel orders prevNode = .ok txs

/-- The lists returned are the same for all orders. -/
def OrderFree (env : ForfeitEnv) (prevNode : Node) : Prop :=
  ∀ orders orders' txs txs', Yields env prevNode orders txs → Yields env prevNode orders' txs' →
    txs = txs'

variable {reportee blks : List MingingRightBlock} {txs : List MsgTx} {a b : MingingRightBlock}

theorem Due.eq_of_height (h : Due env prevNode reportee blks) (ha : a ∈ reportee)
    (hb : b ∈ reportee) (hab : a.height = b.height) : a = b := by
  obtain ⟨r, -, hreportee, -⟩ := h
  obtain ⟨i, -, hi⟩ := mem_of_mapM hreportee a ha
  obtain ⟨j, -, hj⟩ := mem_of_mapM hreportee b hb
  rw [← env.minerByHeight_height hi, hab, env.minerByHeight_height hj, hj] at hi
  exact (ok.inj hi).symm

theorem compTxs_of_due (h : Due env prevNode reportee blks) :
    compTxs env fuel orders prevNode = compLoop env fuel orders prevNode blks
      (orders.reportee.run reportee) ⟨-1, ∅, []⟩ := by
  obtain ⟨r, hr, hreportee, rfl⟩ := h
  rw [compTxs, hr]
  dsimp only
  rw [hreportee]
  rfl

theorem yields_cases (h : Yields env prevNode orders txs) :
    txs = [] ∨ ∃ reportee blks, Due env prevNode reportee blks := by
  obtain ⟨fuel, h⟩ := h
  rw [compTxs] at h
  split at h
  · exact .inl (ok.inj h).symm
  case h_2 r hr =>
    obtain ⟨reportee, hreportee, -⟩ := of_bind h
    exact .inr ⟨reportee, _, r, hr, mapError_eq_ok.mp hreportee, rfl⟩

/-- Each violator adds what `f` says. -/
def AllAdd (env : ForfeitEnv) (prevNode : Node) (fuel : Nat) (orders : RangeOrders)
    (blks reportee : List MingingRightBlock) (f : MingingRightBlock → List MsgTx) : Prop :=
  ∀ blk ∈ reportee, contribute env prevNode fuel orders blks blk = .ok (some (f blk))

variable {f f' : MingingRightBlock → List MsgTx}

theorem AllAdd.returns (h : AllAdd env prevNode fuel orders blks reportee f)
    (hdue : Due env prevNode reportee blks) :
    Yields env prevNode orders ((orders.reportee.run reportee).map f).flatten := by
  refine ⟨fuel, ?_⟩
  rw [compTxs_of_due hdue]
  apply compLoop_of_contribute (.inl rfl)
  rw [forall₂_map_right_iff, forall₂_same]
  exact fun blk hblk => h blk ((mem_run _).mp hblk)

/-- A list that is returned is put together from what the violators add, or given up. -/
theorem allAdd_of_compTxs (h : compTxs env fuel orders prevNode = .ok txs)
    (hdue : Due env prevNode reportee blks) :
    (∃ f, AllAdd env prevNode fuel orders blks reportee f ∧
      txs = ((orders.reportee.run reportee).map f).flatten) ∨
    txs = [] ∧ ∃ blk ∈ reportee, contribute env prevNode fuel orders blks blk = .ok none := by
  rw [compTxs_of_due hdue] at h
  rcases contribute_of_compLoop (.inl rfl) h with ⟨gs, hgs, rfl⟩ | ⟨hnil, blk, hblk, hnone⟩
  · obtain ⟨f, hf, rfl⟩ := exists_map_of_forall₂ (fun hg hg' =>
      Option.some_inj.mp (ok.inj (hg.symm.trans hg'))) hgs
    exact .inl ⟨f, fun blk hblk => hf blk ((mem_run _).mpr hblk), rfl⟩
  · exact .inr ⟨hnil, blk, (mem_run _).mp hblk, hnone⟩

theorem Guilty.convicted (h : Guilty env blks blk s v)
    (hadd : contribute env prevNode fuel orders blks blk = .ok (some added)) :
    Convicted env prevNode fuel orders blks blk s v added := by
  rcases contribute_eq_some.mp hadd with ⟨s', hs', hnone, -⟩ | ⟨s', v', hconvicted⟩
  · have hs := h.reports
    rw [hs'] at hs
    obtain rfl := ok.inj hs
    exact absurd hnone h.found
  · obtain ⟨rfl, rfl⟩ := hconvicted.guilty.unique h
    exact hconvicted

/-- If all orders give one list, other orders of the shares and of the records change nothing. -/
theorem AllAdd.reorder (h : AllAdd env prevNode fuel orders blks reportee f)
    (hfree : OrderFree env prevNode) (hdue : Due env prevNode reportee blks)
    (hreportee : orders'.reportee = orders.reportee) (hrounds : orders'.rounds = orders.rounds) :
    AllAdd env prevNode fuel orders' blks reportee f := by
  have hex : ∀ blk, ∃ g, blk ∈ reportee →
      contribute env prevNode fuel orders' blks blk = .ok (some g) ∧ (f blk).length = g.length := by
    intro blk
    by_cases hblk : blk ∈ reportee
    · obtain ⟨g, hg⟩ := contribute_reorder hrounds (h blk hblk)
      exact ⟨g, fun _ => hg⟩
    · exact ⟨[], fun hblk' => absurd hblk' hblk⟩
  choose f' hf' using hex
  have h' : AllAdd env prevNode fuel orders' blks reportee f' := fun blk hblk => (hf' blk hblk).1
  have hflat := hfree _ _ _ _ (h.returns hdue) (h'.returns hdue)
  rw [hreportee] at hflat
  have hparts := eq_of_flatten_eq (by
    rw [forall₂_map_left_iff, forall₂_map_right_iff, forall₂_same]
    exact fun blk hblk => (hf' blk ((mem_run _).mp hblk)).2) hflat
  intro blk hblk
  rw [map_inj_left.mp hparts blk ((mem_run _).mpr hblk)]
  exact h' blk hblk

/-! ## One way -/

/-- The awards to the reporters of a violator. -/
def awards (env : ForfeitEnv) (blk : MingingRightBlock) (s : Reports) : Result (List TxOut) :=
  match blk.utxos with
  | none => crash
  | some op => do
    let avail ← collateralValue env op
    s.shares.mapM (awardOut env (avail >>> 3) s.totalblks)

/-- The orders have no choice: at most one share and one claim for a violator, and if there are
several violators, all of them lose the same collateral in the same way. -/
structure OneWay (env : ForfeitEnv) (blks reportee : List MingingRightBlock) : Prop where
  /-- one reporter -/
  shares : ∀ blk ∈ reportee, ∀ s v, Guilty env blks blk s v → s.shares.length ≤ 1
  /-- one victim -/
  claims : ∀ blk ∈ reportee, ∀ s v, Guilty env blks blk s v → (claimsOf v.processed).length ≤ 1
  /-- several violators: without victims, for one collateral and the same reporter -/
  alike : ∀ a ∈ reportee, ∀ b ∈ reportee, a ≠ b → ∀ s v s' v', Guilty env blks a s v →
    Guilty env blks b s' v' →
    v.processed.entries = [] ∧ a.utxos = b.utxos ∧ awards env a s = awards env b s'

theorem nodup_shares (s : Reports) : (s.shares.map Prod.fst).Nodup := by
  refine List.Nodup.sublist (filter_sublist.map Prod.fst) ?_
  rw [map_map]
  exact s.reportblks.nodupKeys

theorem Convicted.takes (h : Convicted env prevNode fuel orders mrblks blk s v added) :
    ∃ tx rest script, added = tx :: rest ∧
      Takes env (orders.reportblks blk.height) blk s tx script := by
  rcases h.cases with ⟨-, tx, rfl, htx⟩ | ⟨-, tx, ctx, bal, rfl, htx, -⟩
  · exact ⟨tx, [], _, rfl, htx⟩
  · exact ⟨tx, [ctx], _, rfl, htx⟩

section

variable (hfree : OrderFree env prevNode) (hdue : Due env prevNode reportee blks)
  (h : AllAdd env prevNode fuel orders blks reportee f)

include hfree hdue h

/-- Two shares in the other order give another award transaction. -/
theorem shares_of_orderFree (hblk : blk ∈ reportee)
    (hguilty : Guilty env blks blk s v) : s.shares.length ≤ 1 := by
  by_contra hlen
  obtain ⟨p, q, rest, hrun, hswap⟩ :=
    exists_swap ((orders.reportblks blk.height).perm s.shares) hlen
  have h' : AllAdd env prevNode fuel { orders with reportblks := fun _ => .moving hswap } blks
      reportee f := h.reorder hfree hdue rfl rfl
  obtain ⟨tx, txs, script, hadd, htx⟩ := (hguilty.convicted (h blk hblk)).takes
  obtain ⟨tx', txs', script', hadd', htx'⟩ := (hguilty.convicted (h' blk hblk)).takes
  obtain ⟨rfl, -⟩ := cons.inj (hadd.symm.trans hadd')
  have hpq : p.1 = q.1 := htx.first htx' hrun (moving_run hswap)
  have hnodup := (hswap.map Prod.fst).nodup_iff.mpr (nodup_shares s)
  exact (nodup_cons.mp hnodup).1 (hpq ▸ mem_cons_self)

/-- Two claims in the other order give another filing transaction. -/
theorem claims_of_orderFree (hblk : blk ∈ reportee)
    (hguilty : Guilty env blks blk s v) : (claimsOf v.processed).length ≤ 1 := by
  by_contra hlen
  have hconvicted := hguilty.convicted (h blk hblk)
  rcases hconvicted.cases with ⟨hnone, -⟩ | ⟨-, tx, ctx, bal, hadd, -, hfiles, hbal⟩
  · rw [claimsOf, hnone] at hlen
    exact hlen (Nat.zero_le 1)
  have hfiles' := hfiles
  obtain ⟨claims, leftover, records, hledger, -⟩ := hfiles'
  rw [← hledger.length] at hlen
  obtain ⟨p, q, rest, hrun, hswap⟩ := exists_swap ((orders.processed blk.height).perm claims) hlen
  have h' : AllAdd env prevNode fuel { orders with processed := fun _ => .moving hswap } blks
      reportee f := h.reorder hfree hdue rfl rfl
  rcases (hguilty.convicted (h' blk hblk)).cases with
    ⟨-, tx', hadd', -⟩ | ⟨-, tx', ctx', bal', hadd', -, hfiles', hbal'⟩
  · cases hadd.symm.trans hadd'
  obtain ⟨rfl, hctx⟩ := cons.inj (hadd.symm.trans hadd')
  obtain ⟨rfl, -⟩ := cons.inj hctx
  obtain rfl := hbal.unique hbal'
  have hpq : env.txHash p.tx = env.txHash q.tx :=
    hfiles.first hledger hfiles' rfl hrun (moving_run hswap)
  have hnodup : (((claimsOf v.processed).map TxFee.tx).map env.txHash).Nodup := by
    rw [map_map]
    exact nodup_claims (filed_abandoned hguilty.victims)
  rw [← (hledger.perm.map env.txHash).nodup_iff, map_map,
    ← (hswap.map (env.txHash ∘ TxFee.tx)).nodup_iff] at hnodup
  exact (nodup_cons.mp hnodup).1 (mem_cons.mpr (.inl hpq.symm))

end

/-! ## Two violators -/

theorem length_openingScript (height : Int32) : (openingScript env height).length = 33 := by
  rw [openingScript, length_append, length_append, env.params.contract_length,
    env.params.opening_length]
  rfl

theorem length_burnScript : (burnScript env).length = 22 := rfl

theorem openingScript_inj {height' : Int32}
    (h : openingScript env height = openingScript env height') : height = height' := by
  have hbytes := append_cancel_right (append_cancel_left h)
  exact congrArg UInt32.toInt32 (putUint32_injective hbytes)

theorem Takes.script {script : Bytes} (h : Takes env order blk s tx script)
    (h' : Takes env order' blk' s' tx script') : script = script' := by
  obtain ⟨op, avail, outs, -, -, -, rfl⟩ := h
  obtain ⟨op', avail', outs', -, -, -, htx⟩ := h'
  exact (payOut_inj (cons.inj (congrArg txOut htx)).1).2

theorem Takes.ne_burnt (h : Takes env order blk s tx (burnScript env)) :
    ¬Takes env order' blk' s' tx (openingScript env height) := by
  intro h'
  have hlen := congrArg length (h.script h')
  rw [length_burnScript, length_openingScript] at hlen
  exact absurd hlen (by decide)

/-- Two violators whose parts can be exchanged have no victims and add the same transaction. -/
theorem Convicted.alike (hheight : a.height ≠ b.height)
    (ha : Convicted env prevNode fuel orders mrblks a s v added)
    (hb : Convicted env prevNode fuel orders mrblks b s' v' added')
    (hswap : added ++ added' = added' ++ added) :
    v.processed.entries = [] ∧ ∃ tx,
      Takes env (orders.reportblks a.height) a s tx (burnScript env) ∧
      Takes env (orders.reportblks b.height) b s' tx (burnScript env) := by
  rcases ha.cases with ⟨hnone, tx, rfl, htx⟩ | ⟨-, tx, ctx, bal, rfl, htx, -⟩ <;>
    rcases hb.cases with ⟨-, tx', rfl, htx'⟩ | ⟨-, tx', ctx', bal', rfl, htx', -⟩ <;>
    obtain ⟨rfl, -⟩ := cons.inj hswap
  · exact ⟨hnone, tx, htx, htx'⟩
  · exact absurd htx' htx.ne_burnt
  · exact absurd htx htx'.ne_burnt
  · exact absurd (openingScript_inj (htx.script htx')) hheight

/-- With one share each, two violators add the same transaction if it takes the same collateral and
awards the same. -/
theorem Takes.eq_iff {tx' : MsgTx} {script : Bytes} (hle : s.shares.length ≤ 1)
    (hle' : s'.shares.length ≤ 1) (ha : Takes env order a s tx script)
    (hb : Takes env order' b s' tx' script) :
    tx = tx' ↔ a.utxos = b.utxos ∧ awards env a s = awards env b s' := by
  obtain ⟨op, avail, outs, hop, havail, houts, rfl⟩ := ha
  obtain ⟨op', avail', outs', hop', havail', houts', rfl⟩ := hb
  rw [run_eq_of_length_le_one _ hle] at houts
  rw [run_eq_of_length_le_one _ hle'] at houts'
  have hawards : awards env a s = .ok outs := by
    rw [awards, hop]
    exact bind_eq_ok.mpr ⟨avail, havail, houts⟩
  have hawards' : awards env b s' = .ok outs' := by
    rw [awards, hop']
    exact bind_eq_ok.mpr ⟨avail', havail', houts'⟩
  rw [hop, hop', hawards, hawards', Option.some_inj, ok.injEq]
  constructor
  · intro htx
    rw [forfeitTx, forfeitTx, MsgTx.mk.injEq] at htx
    exact ⟨congrArg TxIn.previousOutPoint (cons.inj htx.2.2.1).1, (cons.inj htx.2.2.2.1).2⟩
  · rintro ⟨rfl, rfl⟩
    rw [havail] at havail'
    rw [ok.inj havail']

/-- Two violators in the other order give another list, unless they are alike. -/
theorem alike_of_orderFree (hfree : OrderFree env prevNode) (hdue : Due env prevNode reportee blks)
    (h : AllAdd env prevNode fuel orders blks reportee f) (ha : a ∈ reportee) (hb : b ∈ reportee)
    (hab : a ≠ b) (hguilty : Guilty env blks a s v) (hguilty' : Guilty env blks b s' v') :
    v.processed.entries = [] ∧ a.utxos = b.utxos ∧ awards env a s = awards env b s' := by
  have hperm : (a :: b :: (reportee.erase a).erase b).Perm reportee :=
    ((perm_cons_erase ((mem_erase_of_ne hab.symm).mpr hb)).symm.cons a).trans
      (perm_cons_erase ha).symm
  have hperm' := (List.Perm.swap a b _).trans hperm
  have hfirst :
      AllAdd env prevNode fuel { orders with reportee := .moving hperm } blks reportee f :=
    h
  have hsecond :
      AllAdd env prevNode fuel { orders with reportee := .moving hperm' } blks reportee f := h
  have hflat := hfree _ _ _ _ (hfirst.returns hdue) (hsecond.returns hdue)
  rw [moving_run, moving_run] at hflat
  simp only [map_cons, flatten_cons, ← append_assoc] at hflat
  obtain ⟨hnone, tx, htx, htx'⟩ := Convicted.alike (fun heq => hab (hdue.eq_of_height ha hb heq))
    (hguilty.convicted (h a ha)) (hguilty'.convicted (h b hb)) (append_cancel_right hflat)
  exact ⟨hnone, (Takes.eq_iff (shares_of_orderFree hfree hdue h ha hguilty)
    (shares_of_orderFree hfree hdue h hb hguilty') htx htx').mp rfl⟩

theorem guilty_of_contribute (h : contribute env prevNode fuel orders blks blk = .ok (some added)) :
    added = [] ∨ ∃ s v, Convicted env prevNode fuel orders blks blk s v added := by
  rcases contribute_eq_some.mp h with ⟨s, -, -, hnil⟩ | hconvicted
  · exact .inl hnil
  · exact .inr hconvicted

section

variable (h : OneWay env blks reportee) (hf : AllAdd env prevNode fuel orders blks reportee f)

include h hf

/-- Violators that are alike add the same. -/
theorem OneWay.comm (ha : a ∈ reportee) (hb : b ∈ reportee)
    (hab : a ≠ b) : f a ++ f b = f b ++ f a := by
  rcases guilty_of_contribute (hf a ha) with hnil | ⟨s, v, hconvicted⟩
  · rw [hnil, nil_append, append_nil]
  rcases guilty_of_contribute (hf b hb) with hnil | ⟨s', v', hconvicted'⟩
  · rw [hnil, nil_append, append_nil]
  have hguilty := hconvicted.guilty
  have hguilty' := hconvicted'.guilty
  obtain ⟨hnone, hsame⟩ := h.alike a ha b hb hab s v s' v' hguilty hguilty'
  obtain ⟨hnone', -⟩ := h.alike b hb a ha hab.symm s' v' s v hguilty' hguilty
  rcases hconvicted.cases with ⟨-, tx, hadd, htx⟩ | ⟨hsome, -⟩
  · rcases hconvicted'.cases with ⟨-, tx', hadd', htx'⟩ | ⟨hsome', -⟩
    · have heq := (Takes.eq_iff (h.shares a ha s v hguilty) (h.shares b hb s' v' hguilty')
        htx htx').mpr hsame
      rw [hadd, hadd', heq]
    · exact absurd hnone' hsome'
  · exact absurd hnone hsome

theorem OneWay.unique (hf' : AllAdd env prevNode fuel' orders' blks reportee f')
    (hblk : blk ∈ reportee) : f blk = f' blk := by
  rcases contribute_eq_some.mp (hf blk hblk) with ⟨s, hs, hnone, hnil⟩ | ⟨s, v, hconvicted⟩
  · rcases contribute_eq_some.mp (hf' blk hblk) with ⟨s', -, -, hnil'⟩ | ⟨s', v', hconvicted'⟩
    · rw [hnil, hnil']
    have hs' := hconvicted'.guilty.reports
    rw [hs] at hs'
    obtain rfl := ok.inj hs'
    exact absurd hnone hconvicted'.guilty.found
  · have hguilty := hconvicted.guilty
    exact hconvicted.unique (h.shares blk hblk s v hguilty) (h.claims blk hblk s v hguilty)
      (hguilty.convicted (hf' blk hblk))

theorem OneWay.flatten_eq (hf' : AllAdd env prevNode fuel' orders' blks reportee f') :
    ((orders.reportee.run reportee).map f).flatten =
      ((orders'.reportee.run reportee).map f').flatten := by
  have hmap : (orders'.reportee.run reportee).map f' = (orders'.reportee.run reportee).map f :=
    map_congr_left fun blk hblk =>
      (h.unique hf hf' ((mem_run _).mp hblk)).symm
  rw [hmap]
  refine flatten_map_perm ((orders.reportee.perm _).trans (orders'.reportee.perm _).symm) ?_
  exact fun a ha b hb =>
    h.comm hf ((mem_run _).mp ha) ((mem_run _).mp hb)

end

/-- Parameters with a deadline of ten miner blocks. -/
def testParams : ForfeitParams where
  violationReportDeadline := 10
  pubKeyHashAddrID := 0x6f
  scriptHashAddrID := 0xc4
  multiSigAddrID := 0x67
  contractAddrID := 0x88
  contract := 0x88 :: replicate 20 1
  opening := [1, 0, 0, 0]
  filing := [2, 0, 0, 0]
  contract_length := rfl
  opening_length := rfl
  filing_length := rfl

/-- A miner block at height 1 with the collateral that is in doubt. -/
def violator : MingingRightBlock := ⟨100, 1, 1, 0, some ⟨7, 0⟩, [], []⟩

/-- Miner 2 and miner 3 report it. -/
def twoReports : List MingingRightBlock :=
  [⟨103, 3, 3, 0, none, [⟨100, [51, 52]⟩], []⟩, ⟨102, 2, 2, 0, none, [⟨100, [51, 52]⟩], []⟩]

/-- The violator is reported by two miners; it has signed block 52, which is abandoned and holds its
coinbase only, beside block 51. The collateral is 800 hao. -/
def twoReporters : ForfeitEnv where
  params := testParams
  genesisNonce := 1
  minerByHeight h := if h = 1 then .ok violator
    else .error (.errorf ⟨"no block at height %d exists", [.int h.toInt]⟩)
  minerByHeight_height := by
    intro h blk hblk
    split at hblk
    case isTrue hone =>
      cases hblk
      exact hone.symm
    · cases hblk
  headersFrom _ := twoReports
  minerByHash hash := if hash = 100 then some violator else none
  hasEntry _ := true
  inBestChain hash := hash == 51
  hashToBlock _ := some [forfeitTx [] []]
  mainChainTx hash := if hash = 7 then some (forfeitTx [] [payOut 800 []]) else none
  compensatedTx _ := false
  blockTxns _ := some 1
  addrUsage _ := 0
  txHash _ := 9
  hash160 _ := 0

/-- A rotation block; after that with nonce -31 the miner block at height 1 is due. -/
def rotationAt (nonce : Int32) : Node := [⟨0, nonce, [], 0, 0⟩]

abbrev rotationNode : Node := rotationAt (-31)

/-- Every range as it is stored, or all ranges over `reportblks` the other way. -/
def storedOrders : RangeOrders := ⟨.stored, fun _ => .stored, fun _ _ => .stored, fun _ => .stored⟩

def reversedShares : RangeOrders := { storedOrders with reportblks := fun _ => .reversed }

end Zent
