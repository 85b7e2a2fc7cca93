import Zent.Blockchain.Allocation

/-!
# What each violator adds to `CompTxs`

`CompTxs` takes the violators one after the other. The average and the usage scores that its loop
carries from one to the next have no influence, so the list is put together from what each adds on
its own.
-/

namespace Zent

open Go List Option Except UInt64

/-! ## One violator -/

section

variable (env : ForfeitEnv) (prevNode : Node)

/-- What one violator adds to the list, on its own. -/
def contribute (fuel : Nat) (orders : RangeOrders) (mrblks : List MingingRightBlock)
    (blk : MingingRightBlock) : Result (Option (List MsgTx)) := do
  match ← processviolator env (orders.reportblks blk.height) blk mrblks with
  | none => return some []
  | some (stx, x) =>
    let s ← compensate env fuel orders prevNode blk stx x ⟨-1, ∅, []⟩
    return s.map CompState.txs

/-- The average that the loop carries is the one it would compute. -/
def AvgKept (avgtx : Int) : Prop :=
  avgtx = -1 ∨ 0 ≤ avgtx ∧ averageTxs env prevNode (-1) = .ok (some avgtx)

variable {env prevNode} {avgtx : Int}

theorem averageTxs_kept (h : AvgKept env prevNode avgtx) :
    averageTxs env prevNode avgtx = averageTxs env prevNode (-1) := by
  rcases h with rfl | ⟨hpos, h⟩
  · rfl
  · rw [h, averageTxs, if_neg (Int.not_lt.mpr hpos)]

theorem avgKept_of_averageTxs (h : averageTxs env prevNode (-1) = .ok (some avgtx)) :
    AvgKept env prevNode avgtx := by
  refine .inr ⟨?_, h⟩
  obtain ⟨sum, -, h⟩ := of_bind h
  cases sum with
  | none => cases h
  | some sum =>
    dsimp only at h
    split at h
    · cases h
    · obtain rfl := some_inj.mp (ok.inj h)
      exact le_trans (by decide) (le_max_left 10 _)

/-- The claims that are recorded for a violator, and what of the balance is destroyed: all in full,
or as the loop divides the balance. -/
inductive Ledger (env : ForfeitEnv) (prevNode : Node) (fuel : Nat) (rounds : Nat → Shuffle TxFee)
    (bal : Int64) (x : Map Hash (Option TxFee)) : List TxFee → List TxOut → Prop where
  | full : claimSum (claimsOf x) ≤ bal → (claimsOf x).length = x.entries.length →
    Ledger env prevNode fuel rounds bal x
      ((claimsOf x).map fun tx => { tx with sure := tx.fee })
      (if claimSum (claimsOf x) < bal then
        [payOut (bal - claimSum (claimsOf x)) (burnScript env)] else [])
  | short {avgtx : Int} {claims : List TxFee} : ¬claimSum (claimsOf x) ≤ bal →
    averageTxs env prevNode (-1) = .ok (some avgtx) →
    divide rounds avgtx fuel 0 bal (ofNat (claimsOf x).length) (claimsOf x) = some claims →
    Ledger env prevNode fuel rounds bal x claims []

/-- What a violator with victims adds beside the award transaction. -/
def Files (env : ForfeitEnv) (prevNode : Node) (fuel : Nat) (orders : RangeOrders)
    (blk : MingingRightBlock) (bal : Int64) (x : Map Hash (Option TxFee)) (ctx : MsgTx) : Prop :=
  ∃ claims leftover records,
    Ledger env prevNode fuel (orders.rounds blk.height) bal x claims leftover ∧
    ((orders.processed blk.height).run claims).mapM (comptx env) = .ok records ∧
    ctx = filingTx env blk.height (ofNat (claimsOf x).length) leftover records

variable {fuel : Nat} {orders : RangeOrders} {blk : MingingRightBlock} {bal : Int64}
  {x : Map Hash (Option TxFee)} {stx : MsgTx} {s s' : CompState}

/-- The loop of `CompTxs` and the one without scores end with the same claims. -/
theorem allocate_usescores (env : ForfeitEnv) (rounds : Nat → Shuffle TxFee) (avgtx : Int)
    (fuel : Nat) (bal : Int64) (claims : List TxFee) (usescores : Map Bytes UInt32) :
    (allocate rounds avgtx fuel 0
      ⟨bal, ofNat claims.length, claims.foldl (recordUsage env) usescores⟩ claims).map
        Prod.snd = divide rounds avgtx fuel 0 bal (ofNat claims.length) claims :=
  allocate_recorded fuel 0 (recorded_foldl env claims usescores).2

theorem files_of_fileFull {ctx : MsgTx} (hfull : claimSum (claimsOf x) ≤ bal)
    (h : fileFull env (orders.processed blk.height) blk bal x = .ok ctx) :
    Files env prevNode fuel orders blk bal x ctx := by
  rw [fileFull] at h
  split at h
  · cases h
  case isFalse hlen =>
    obtain ⟨records, hrecords, h⟩ := of_bind h
    exact ⟨_, _, records, .full hfull (not_not.mp hlen), hrecords, (ok.inj h).symm⟩

/-- The balance of an award transaction: what its first output gives to the contract. -/
def Balance (stx : MsgTx) (bal : Int64) : Prop :=
  ∃ out, index (ε := ChainError) stx.txOut 0 = .ok out ∧
    numVal (ε := ChainError) out.value = .ok bal

/-- What a violator with award transaction `stx` and victims `x` adds. -/
inductive Adds (env : ForfeitEnv) (prevNode : Node) (fuel : Nat) (orders : RangeOrders)
    (blk : MingingRightBlock) (bal : Int64) (x : Map Hash (Option TxFee)) (stx : MsgTx) :
    List MsgTx → Prop where
  | burnt : x.entries = [] → Adds env prevNode fuel orders blk bal x stx [burnOpening env stx]
  | filed {ctx : MsgTx} : x.entries ≠ [] → Files env prevNode fuel orders blk bal x ctx →
    Adds env prevNode fuel orders blk bal x stx [stx, ctx]

theorem compensate_eq (hbal : Balance stx bal) (s : CompState) :
    compensate env fuel orders prevNode blk stx x s =
      if x.entries = [] then .ok (some { s with txs := s.txs ++ [burnOpening env stx] })
      else if claimSum (claimsOf x) ≤ bal then do
        let ctx ← fileFull env (orders.processed blk.height) blk bal x
        return some { s with txs := s.txs ++ [stx] ++ [ctx] }
      else fileShort env fuel orders prevNode blk bal (claimsOf x)
        { s with txs := s.txs ++ [stx] } := by
  obtain ⟨out, hout, hval⟩ := hbal
  rw [compensate, hout]
  show (numVal out.value >>= _) = _
  rw [hval]
  rfl

section

variable (hs : AvgKept env prevNode s.avgtx)

include hs

theorem files_of_fileShort (hshort : ¬claimSum (claimsOf x) ≤ bal)
    (h : fileShort env fuel orders prevNode blk bal (claimsOf x) s = .ok (some s')) :
    AvgKept env prevNode s'.avgtx ∧
      ∃ ctx, Files env prevNode fuel orders blk bal x ctx ∧ s'.txs = s.txs ++ [ctx] := by
  rw [fileShort, averageTxs_kept hs] at h
  obtain ⟨avg, havg, h⟩ := of_bind h
  cases avg with
  | none => cases h
  | some avgtx =>
    dsimp only at h
    split at h
    · cases h
    rename_i r claims hrun
    have hdiv := congrArg (Option.map Prod.snd) hrun
    rw [allocate_usescores] at hdiv
    obtain ⟨records, hrecords, h⟩ := of_bind h
    obtain rfl := some_inj.mp (ok.inj h)
    exact ⟨avgKept_of_averageTxs havg, _,
      ⟨claims, [], records, .short hshort havg hdiv, hrecords, rfl⟩, rfl⟩

theorem fileShort_of_divide {claims : List TxFee} {records : List Bytes}
    (havg : averageTxs env prevNode (-1) = .ok (some avgtx))
    (hdiv : divide (orders.rounds blk.height) avgtx fuel 0 bal
      (ofNat (claimsOf x).length) (claimsOf x) = some claims)
    (hrecords : ((orders.processed blk.height).run claims).mapM (comptx env) = .ok records) :
    ∃ s', fileShort env fuel orders prevNode blk bal (claimsOf x) s = .ok (some s') ∧
      AvgKept env prevNode s'.avgtx ∧ s'.txs = s.txs ++
        [filingTx env blk.height (ofNat (claimsOf x).length) [] records] := by
  rw [← allocate_usescores env _ _ _ _ _ s.usescores] at hdiv
  obtain ⟨⟨r, claims'⟩, hrun, rfl⟩ := map_eq_some_iff.mp hdiv
  refine ⟨⟨avgtx, r.usescores, _⟩, ?_, avgKept_of_averageTxs havg, rfl⟩
  rw [fileShort, averageTxs_kept hs, havg]
  refine bind_eq_ok.mpr ⟨some avgtx, rfl, ?_⟩
  dsimp only
  rw [hrun]
  exact bind_eq_ok.mpr ⟨records, hrecords, rfl⟩

theorem adds_of_compensate
    (h : compensate env fuel orders prevNode blk stx x s = .ok (some s')) :
    AvgKept env prevNode s'.avgtx ∧ ∃ bal added, Balance stx bal ∧
      Adds env prevNode fuel orders blk bal x stx added ∧ s'.txs = s.txs ++ added := by
  obtain ⟨out, hout, h⟩ := of_bind h
  obtain ⟨bal, hbal, h⟩ := of_bind h
  have hbalance : Balance stx bal := ⟨out, hout, hbal⟩
  split at h
  case isTrue hnone =>
    obtain rfl := some_inj.mp (ok.inj h)
    exact ⟨hs, bal, _, hbalance, .burnt hnone, rfl⟩
  rename_i hsome
  split at h
  case isTrue hfull =>
    obtain ⟨ctx, hctx, h⟩ := of_bind h
    obtain rfl := some_inj.mp (ok.inj h)
    refine ⟨hs, bal, _, hbalance, .filed hsome (files_of_fileFull hfull hctx), ?_⟩
    rw [append_assoc]
    rfl
  rename_i hshort
  obtain ⟨hs', ctx, hctx, htxs⟩ :=
    files_of_fileShort (s := { s with txs := s.txs ++ [stx] }) hs hshort h
  refine ⟨hs', bal, _, hbalance, .filed hsome hctx, ?_⟩
  rw [htxs, append_assoc]
  rfl

theorem compensate_of_adds (hbal : Balance stx bal) {added : List MsgTx}
    (h : Adds env prevNode fuel orders blk bal x stx added) :
    ∃ s', compensate env fuel orders prevNode blk stx x s = .ok (some s') ∧
      AvgKept env prevNode s'.avgtx ∧ s'.txs = s.txs ++ added := by
  rw [compensate_eq hbal]
  cases h with
  | burnt hnone =>
    rw [if_pos hnone]
    exact ⟨_, rfl, hs, rfl⟩
  | filed hsome hfiles =>
    obtain ⟨claims, leftover, records, hledger, hrecords, rfl⟩ := hfiles
    rw [if_neg hsome]
    cases hledger with
    | full hfull hlen =>
      rw [if_pos hfull, fileFull, if_neg (not_not.mpr hlen)]
      refine ⟨_, bind_eq_ok.mpr ⟨_, bind_eq_ok.mpr ⟨records, hrecords, rfl⟩, rfl⟩, hs, ?_⟩
      rw [append_assoc]
      rfl
    | short hshort havg hdiv =>
      rw [if_neg hshort]
      obtain ⟨s', hrun, hs', htxs⟩ :=
        fileShort_of_divide (s := { s with txs := s.txs ++ [stx] }) hs havg hdiv hrecords
      refine ⟨s', hrun, hs', ?_⟩
      rw [htxs, append_assoc]
      rfl

/-- The list is given up where the balance is short and the average cannot be taken. -/
theorem compensate_eq_none :
    compensate env fuel orders prevNode blk stx x s = .ok none ↔
      ∃ bal, Balance stx bal ∧ x.entries ≠ [] ∧ ¬claimSum (claimsOf x) ≤ bal ∧
        averageTxs env prevNode (-1) = .ok none := by
  constructor
  · intro h
    have h' := h
    obtain ⟨out, hout, h'⟩ := of_bind h'
    obtain ⟨bal, hbal, -⟩ := of_bind h'
    have hbalance : Balance stx bal := ⟨out, hout, hbal⟩
    rw [compensate_eq hbalance] at h
    split at h
    · cases h
    rename_i hsome
    split at h
    · obtain ⟨ctx, -, h⟩ := of_bind h
      cases h
    rename_i hshort
    refine ⟨bal, hbalance, hsome, hshort, ?_⟩
    obtain ⟨avg, havg, h⟩ := of_bind h
    rw [← averageTxs_kept hs]
    cases avg with
    | none => exact havg
    | some avgtx =>
      dsimp only at h
      split at h
      · cases h
      · obtain ⟨records, -, h⟩ := of_bind h
        cases h
  · rintro ⟨bal, hbal, hsome, hshort, havg⟩
    rw [compensate_eq hbal, if_neg hsome, if_neg hshort, fileShort, averageTxs_kept hs, havg]
    rfl

end

/-! ## The list -/

/-- The reports against a violator that is found guilty, and its victims. -/
structure Guilty (env : ForfeitEnv) (mrblks : List MingingRightBlock) (blk : MingingRightBlock)
    (s : Reports) (v : Victims) : Prop where
  reports : collectReports env blk mrblks = .ok s
  found : s.forfeiture ≠ []
  victims : abandoned env s.forfeiture = .ok v

/-- What a guilty violator adds. -/
structure Convicted (env : ForfeitEnv) (prevNode : Node) (fuel : Nat) (orders : RangeOrders)
    (mrblks : List MingingRightBlock) (blk : MingingRightBlock) (s : Reports) (v : Victims)
    (added : List MsgTx) : Prop where
  guilty : Guilty env mrblks blk s v
  award : ∃ stx bal, awardTx env (orders.reportblks blk.height) blk s = .ok stx ∧
    Balance stx bal ∧ Adds env prevNode fuel orders blk bal v.processed stx added

variable {mrblks : List MingingRightBlock} {added : List MsgTx}

theorem contribute_eq_some : contribute env prevNode fuel orders mrblks blk = .ok (some added) ↔
    (∃ s, collectReports env blk mrblks = .ok s ∧ s.forfeiture = [] ∧ added = []) ∨
    ∃ s v, Convicted env prevNode fuel orders mrblks blk s v added := by
  rw [contribute, processviolator]
  constructor
  · intro h
    obtain ⟨r, hr, h⟩ := of_bind h
    obtain ⟨s, hs, hr⟩ := of_bind hr
    split at hr
    case isTrue hnone =>
      cases hr
      exact .inl ⟨s, hs, hnone, (some_inj.mp (ok.inj h)).symm⟩
    rename_i hfound
    obtain ⟨stx, hstx, hr⟩ := of_bind hr
    obtain ⟨v, hv, hr⟩ := of_bind hr
    cases hr
    obtain ⟨t, ht, h⟩ := of_bind h
    cases t with
    | none => cases h
    | some t =>
      obtain ⟨-, bal, added', hbal, hadds, htxs⟩ := adds_of_compensate (.inl rfl) ht
      have hadded : t.txs = added := some_inj.mp (ok.inj h)
      rw [← hadded, htxs]
      exact .inr ⟨s, v, ⟨hs, hfound, hv⟩, stx, bal, hstx, hbal, hadds⟩
  · rintro (⟨s, hs, hnone, rfl⟩ | ⟨s, v, ⟨hs, hfound, hv⟩, stx, bal, hstx, hbal, hadds⟩)
    · rw [hs]
      refine bind_eq_ok.mpr ⟨none, bind_eq_ok.mpr ⟨s, rfl, ?_⟩, rfl⟩
      rw [if_pos hnone]
      rfl
    · obtain ⟨t, ht, -, htxs⟩ :=
        compensate_of_adds (s := ⟨-1, ∅, []⟩) (.inl rfl) hbal hadds
      rw [hs]
      refine bind_eq_ok.mpr ⟨some (stx, v.processed), bind_eq_ok.mpr ⟨s, rfl, ?_⟩,
        bind_eq_ok.mpr ⟨some t, ht, ?_⟩⟩
      · rw [if_neg hfound]
        exact bind_eq_ok.mpr ⟨stx, hstx, bind_eq_ok.mpr ⟨v, hv, rfl⟩⟩
      · rw [map_some, htxs]
        rfl

theorem contribute_of_none
    (h : processviolator env (orders.reportblks blk.height) blk mrblks = .ok none) :
    contribute env prevNode fuel orders mrblks blk = .ok (some []) := by
  rw [contribute, h]
  rfl

theorem contribute_of_some
    (h : processviolator env (orders.reportblks blk.height) blk mrblks = .ok (some (stx, x))) :
    contribute env prevNode fuel orders mrblks blk =
      Option.map CompState.txs <$> compensate env fuel orders prevNode blk stx x ⟨-1, ∅, []⟩ := by
  rw [contribute, h]
  rfl

/-- The loop puts together what the violators add. -/
theorem compLoop_of_contribute : ∀ {l : List MingingRightBlock} {gs : List (List MsgTx)}
    {s : CompState}, AvgKept env prevNode s.avgtx →
    List.Forall₂ (fun blk g => contribute env prevNode fuel orders mrblks blk = .ok (some g)) l gs →
    compLoop env fuel orders prevNode mrblks l s = .ok (s.txs ++ gs.flatten)
  | [], _, s, _, .nil => by
    rw [flatten_nil, append_nil]
    rfl
  | blk :: rest, g :: gs, s, hs, .cons hg hgs => by
    obtain ⟨r, hr, hg⟩ := of_bind hg
    rw [compLoop, hr, flatten_cons, ← append_assoc]
    refine bind_eq_ok.mpr ⟨r, rfl, ?_⟩
    cases r with
    | none =>
      obtain rfl := some_inj.mp (ok.inj hg)
      rw [append_nil]
      exact compLoop_of_contribute hs hgs
    | some r =>
      obtain ⟨t, ht, hg⟩ := of_bind hg
      cases t with
      | none => cases hg
      | some t =>
        obtain rfl := some_inj.mp (ok.inj hg)
        obtain ⟨-, bal, added, hbal, hadds, htxs⟩ := adds_of_compensate (.inl rfl) ht
        obtain ⟨s', hs', hkept, htxs'⟩ := compensate_of_adds hs hbal hadds
        refine bind_eq_ok.mpr ⟨some s', hs', ?_⟩
        rw [htxs, nil_append, ← htxs']
        exact compLoop_of_contribute hkept hgs

/-- What a returned list is made of; it is empty where the average of the transactions was needed
and could not be taken. -/
theorem contribute_of_compLoop {txs : List MsgTx} : ∀ {l : List MingingRightBlock} {s : CompState},
    AvgKept env prevNode s.avgtx → compLoop env fuel orders prevNode mrblks l s = .ok txs →
    (∃ gs, List.Forall₂ (fun blk g =>
      contribute env prevNode fuel orders mrblks blk = .ok (some g)) l gs ∧
      txs = s.txs ++ gs.flatten) ∨
    txs = [] ∧ ∃ blk ∈ l, contribute env prevNode fuel orders mrblks blk = .ok none
  | [], s, _, h => .inl ⟨[], .nil, by
      rw [flatten_nil, append_nil]
      exact (ok.inj h).symm⟩
  | blk :: rest, s, hs, h => by
    obtain ⟨r, hr, h⟩ := of_bind h
    cases r with
    | none =>
      have hcontribute : contribute env prevNode fuel orders mrblks blk = .ok (some []) :=
        contribute_of_none hr
      rcases contribute_of_compLoop hs h with ⟨gs, hgs, htxs⟩ | ⟨hnil, blk', hmem, hnone⟩
      · exact .inl ⟨[] :: gs, .cons hcontribute hgs, htxs⟩
      · exact .inr ⟨hnil, blk', mem_cons_of_mem blk hmem, hnone⟩
    | some r =>
      obtain ⟨t, ht, h⟩ := of_bind h
      cases t with
      | none =>
        refine .inr ⟨(ok.inj h).symm, blk, mem_cons_self, ?_⟩
        rw [contribute_of_some hr,
          (compensate_eq_none (.inl rfl)).mpr ((compensate_eq_none hs).mp ht)]
        rfl
      | some t =>
        obtain ⟨hkept, bal, added, hbal, hadds, htxs⟩ := adds_of_compensate hs ht
        obtain ⟨t', ht', -, htxs'⟩ := compensate_of_adds (s := ⟨-1, ∅, []⟩) (.inl rfl) hbal hadds
        have hadded : contribute env prevNode fuel orders mrblks blk = .ok (some added) := by
          rw [contribute_of_some hr, ht']
          show ok (some t'.txs) = _
          rw [htxs', nil_append]
        rcases contribute_of_compLoop hkept h with ⟨gs, hgs, rfl⟩ | ⟨hnil, blk', hmem, hnone⟩
        · refine .inl ⟨added :: gs, .cons hadded hgs, ?_⟩
          rw [htxs, flatten_cons, append_assoc]
        · exact .inr ⟨hnil, blk', mem_cons_of_mem blk hmem, hnone⟩

end

end Zent
