import Zent.Blockchain.AssetUndo
import Zent.Blockchain.CrossChainPool

/-!
# Is the cross-chain bookkeeping undone?

Disconnecting a block should leave the three buckets as they were before it was connected.
-/

namespace Zent

open Go Function List

/-! ## The buckets stay as the node leaves them -/

variable {assets assets' : AssetBucket}

theorem putBooking_nonzero {params : Params} {p : UInt32 × TxOut}
    (hput : putBooking params assets p = .ok assets') (h : ∀ key, assets key ≠ some 0) :
    ∀ key, assets' key ≠ some 0 := by
  obtain ⟨b, -, hput⟩ := of_bind hput
  cases b with
  | none =>
    cases hput
    exact h
  | some b =>
    cases hput
    exact change_nonzero h b.toMove b.book

theorem restoreBooking_nonzero {env : CrossEnv} {p : UInt32 × TxOut}
    (hrestore : env.restoreBooking assets p = .ok assets') (h : ∀ key, assets key ≠ some 0) :
    ∀ key, assets' key ≠ some 0 := by
  rw [CrossEnv.restoreBooking] at hrestore
  split at hrestore
  · cases hrestore
    exact h
  obtain ⟨call, -, hrestore⟩ := of_bind hrestore
  split at hrestore
  · cases hrestore
    exact h
  obtain ⟨stays, -, hrestore⟩ := of_bind hrestore
  split at hrestore
  · cases hrestore
    exact h
  obtain ⟨valid, -, hrestore⟩ := of_bind hrestore
  obtain ⟨_, -, hrestore⟩ := of_bind hrestore
  obtain ⟨b, -, hrestore⟩ := of_bind hrestore
  cases b with
  | none =>
    cases hrestore
    exact h
  | some b =>
    cases hrestore
    exact change_nonzero h b.toMove b.unbook

theorem dbPutCrossChain_keeps {env : CrossEnv} {order : TransferOrder} {block : CrossBlock}
    {t : CrossDb} (s : CrossState) (h : dbPutCrossChain env order s.toCrossDb block = .ok t) :
    Keyed t.incoming ∧ ∀ key, t.assets key ≠ some 0 := by
  rw [dbPutCrossChain] at h
  split at h
  · obtain ⟨m, hm, h⟩ := of_bind h
    cases h
    exact ⟨s.keyed.putTransferBlock hm, s.nonzero⟩
  obtain ⟨sp, hsp, h⟩ := of_bind h
  obtain ⟨assets, hassets, h⟩ := of_bind h
  cases h
  constructor
  · exact foldlM_induction (P := fun _ u => Keyed u.incoming) s.keyed
      (fun _ _ _ _ hu hstep => hu.putImport hstep) hsp
  · exact foldlM_induction (P := fun _ (u : AssetBucket) => ∀ key, u key ≠ some 0) s.nonzero
      (fun _ _ _ _ hu hstep => putBooking_nonzero hstep hu) hassets

theorem dbRestoreCrossChain_keeps {env : CrossEnv} {block : CrossBlock} {t : CrossDb}
    (s : CrossState) (h : dbRestoreCrossChain env s.toCrossDb block = .ok t) :
    Keyed t.incoming ∧ ∀ key, t.assets key ≠ some 0 := by
  rw [dbRestoreCrossChain] at h
  split at h
  · cases h
    exact ⟨s.keyed.restoreTransfers, s.nonzero⟩
  obtain ⟨m, hm, h⟩ := of_bind h
  obtain ⟨assets, hassets, h⟩ := of_bind h
  cases h
  refine ⟨s.keyed.restorePool hm, ?_⟩
  exact foldlM_induction (P := fun _ (u : AssetBucket) => ∀ key, u key ≠ some 0) s.nonzero
    (fun _ _ _ _ hu hstep => restoreBooking_nonzero hstep hu) hassets

/-- A block is connected or disconnected. -/
def CrossStep (s t : CrossDb) : Prop :=
  ∃ env block, (∃ order, dbPutCrossChain env order s block = .ok t) ∨
    dbRestoreCrossChain env s block = .ok t

/-- **The buckets stay as the node leaves them**, whatever blocks are connected and disconnected,
and in whatever order: transfers are under their own key, and no amount of zero is stored. -/
theorem buckets_kept {t : CrossDb} (s : CrossState)
    (h : Relation.ReflTransGen CrossStep s.toCrossDb t) : ∃ s' : CrossState, s'.toCrossDb = t := by
  induction h with
  | refl => exact ⟨s, rfl⟩
  | tail _ hstep ih =>
    obtain ⟨u, rfl⟩ := ih
    obtain ⟨env, block, ⟨order, hput⟩ | hrestore⟩ := hstep
    · obtain ⟨hkeyed, hnonzero⟩ := dbPutCrossChain_keeps u hput
      exact ⟨⟨_, hkeyed, hnonzero⟩, rfl⟩
    · obtain ⟨hkeyed, hnonzero⟩ := dbRestoreCrossChain_keeps u hrestore
      exact ⟨⟨_, hkeyed, hnonzero⟩, rfl⟩

/-! ## Undone -/

/-- The same transfers, or none. -/
def SameEntry : Option XchainData → Option XchainData → Prop
  | none, none => True
  | some x, some y => ∀ p, x.txs.lookup p = y.txs.lookup p
  | _, _ => False

theorem SameEntry.refl (x : Option XchainData) : SameEntry x x := by
  cases x with
  | none => trivial
  | some x => exact fun p => rfl

theorem sameEntry_none {x : Option XchainData} : SameEntry x none ↔ x = none := by
  cases x with
  | none => exact ⟨fun _ => rfl, fun _ => trivial⟩
  | some x => exact ⟨fun h => absurd h id, fun h => by cases h⟩

/-- The buckets are the same. -/
structure Unchanged (s t : CrossDb) : Prop where
  incoming : ∀ k, SameEntry (s.incoming k) (t.incoming k)
  rollback : ∀ h, s.rollback h = t.rollback h
  assets : ∀ key, s.assets key = t.assets key

/-- **Connecting is undone**: disconnecting the block again leaves the buckets as they were. -/
def Undone (env : CrossEnv) (order : TransferOrder) (s : CrossState) (block : CrossBlock) : Prop :=
  ∃ t u, dbPutCrossChain env order s.toCrossDb block = .ok t ∧
    dbRestoreCrossChain env t block = .ok u ∧ Unchanged s.toCrossDb u

/-- For a simplified node: nothing is stored yet where the block's transfers go. For the main chain:
nothing is recorded at the height of the block, every script that is looked at is valid, and no key
drifts. -/
structure Undoable (env : CrossEnv) (s : CrossState) (block : CrossBlock) : Prop where
  unshared : env.isSVP = true → ∀ tx ∈ block.txs, s.incoming (env.restoreKey block tx) = none
  unrecorded : env.isSVP = false → s.rollback block.height.toUInt32 = none
  booked : env.isSVP = false → ∃ bs, bookings env.params (assetOuts block.txs) = .ok bs ∧
    Restorable env bs ∧ ∀ key, drift key (held s.assets key) bs = 0

section Iff

variable {env : CrossEnv} {s : CrossState} {block : CrossBlock} {order order' : TransferOrder}

theorem dbRestoreCrossChain_main {t u : CrossDb} (hsvp : env.isSVP = false) :
    dbRestoreCrossChain env t block = .ok u ↔
      restorePool t block.height.toUInt32 = .ok u.incoming ∧
      u.rollback = update t.rollback block.height.toUInt32 none ∧
      (assetOuts block.txs).foldlM env.restoreBooking t.assets = .ok u.assets := by
  rw [dbRestoreCrossChain, hsvp, if_neg Bool.false_ne_true, bind_eq_ok]
  constructor
  · rintro ⟨incoming, hincoming, h⟩
    obtain ⟨assets, hassets, h⟩ := of_bind h
    cases h
    exact ⟨hincoming, rfl, hassets⟩
  · rintro ⟨hincoming, hrollback, hassets⟩
    refine ⟨u.incoming, hincoming, ?_⟩
    rw [hassets, ← hrollback]
    rfl

/-- The pool is filled again from what was recorded, if nothing was recorded before. -/
theorem restorePool_emptied {saved : List XchainData} {sp : PutPool} {h : UInt32}
    (hs : Emptied s.incoming saved sp) (hnone : s.rollback h = none) (assets : AssetBucket) :
    restorePool ⟨sp.incoming, if saved.isEmpty then s.rollback
      else update s.rollback h (some (saved.map some)), assets⟩ h = .ok s.incoming := by
  rw [restorePool]
  cases saved with
  | nil =>
    have hsame : sp.incoming = s.incoming := funext fun k => by simpa using hs.incoming k
    rw [isEmpty_nil, if_pos rfl, hnone, hsame]
  | cons x rest =>
    rw [isEmpty_cons, if_neg Bool.false_ne_true]
    dsimp only
    rw [update_self]
    exact restoreImport_run hs.nodup hs.stored hs.incoming

variable (hcheck : dbCheckCrossChain env order s.toCrossDb block = .ok ())

include hcheck

theorem undone_iff_unshared (hsvp : env.isSVP = true) :
    Undone env order' s block ↔
      ∀ tx ∈ block.txs, s.incoming (env.restoreKey block tx) = none := by
  have htxs : ∀ tx ∈ block.txs, ∀ txo ∈ tx.txOut,
      env.checkTransfer (env.sourceOf tx) txo = .ok () := by
    rw [dbCheckCrossChain, if_pos hsvp, forM_eq_ok] at hcheck
    intro tx htx
    exact forM_eq_ok.mp (hcheck tx htx)
  obtain ⟨m, hm, hother⟩ := putTransferBlock_other s.incoming htxs
  have hput : dbPutCrossChain env order' s.toCrossDb block =
      .ok { s.toCrossDb with incoming := m } := by
    rw [dbPutCrossChain, if_pos hsvp, hm]
    rfl
  have hrestore : ∀ t, dbRestoreCrossChain env t block =
      .ok { t with incoming := env.restoreTransferBlock t.incoming block } := by
    intro t
    rw [dbRestoreCrossChain, if_pos hsvp]
    rfl
  have hfinal : ∀ k, env.restoreTransferBlock m block k =
      if ∃ tx ∈ block.txs, env.restoreKey block tx = k then none else m k :=
    restoreTransferBlock_eq block block.txs m
  constructor
  · rintro ⟨t, u, ht, hu, hsame⟩ tx htx
    rw [hput] at ht
    cases ht
    rw [hrestore] at hu
    cases hu
    have hk := hsame.incoming (env.restoreKey block tx)
    dsimp only at hk
    rw [hfinal, if_pos ⟨tx, htx, rfl⟩, sameEntry_none] at hk
    exact hk
  · intro hnone
    refine ⟨_, _, hput, hrestore _, fun k => ?_, fun _ => rfl, fun _ => rfl⟩
    dsimp only
    rw [hfinal]
    split
    case isTrue h =>
      obtain ⟨tx, htx, rfl⟩ := h
      exact sameEntry_none.mpr (hnone tx htx)
    case isFalse h =>
      rw [hother k fun tx htx hk => h ⟨tx, htx, hk⟩]
      exact SameEntry.refl _

theorem dbPutCrossChain_main (hsvp : env.isSVP = false) :
    ∃ bs saved sp, bookings env.params (assetOuts block.txs) = .ok bs ∧
      Emptied s.incoming saved sp ∧
      dbPutCrossChain env order' s.toCrossDb block =
        .ok ⟨sp.incoming,
          if saved.isEmpty then s.rollback
          else update s.rollback block.height.toUInt32 (some (saved.map some)),
          bs.foldl putAsset s.assets⟩ := by
  rw [dbCheckCrossChain, hsvp, if_neg Bool.false_ne_true] at hcheck
  obtain ⟨_, himports, hassets⟩ := of_bind hcheck
  obtain ⟨bs, hbs⟩ := bookings_of_check (forM_eq_ok.mp hassets)
  have hpool : ∃ sp, block.txs.foldlM (putImport order') ⟨s.incoming, []⟩ = .ok sp ∧
      ∃ saved, Emptied s.incoming saved sp :=
    putImport_run s.keyed (forM_eq_ok.mp himports)
  obtain ⟨sp, hsp, saved, hempty⟩ := hpool
  refine ⟨bs, saved, sp, hbs, hempty, ?_⟩
  rw [dbPutCrossChain, hsvp, if_neg Bool.false_ne_true, hsp]
  show ((assetOuts block.txs).foldlM (putBooking env.params) s.assets >>= _) = _
  rw [putBooking_run s.assets hbs, hempty.rbd, isEmpty_map]
  rfl

theorem undone_iff_booked (hsvp : env.isSVP = false) :
    Undone env order' s block ↔ s.rollback block.height.toUInt32 = none ∧
      ∃ bs, bookings env.params (assetOuts block.txs) = .ok bs ∧ Restorable env bs ∧
        ∀ key, drift key (held s.assets key) bs = 0 := by
  have hmain : ∃ bs saved sp, bookings env.params (assetOuts block.txs) = .ok bs ∧
      Emptied s.incoming saved sp ∧ dbPutCrossChain env order' s.toCrossDb block = _ :=
    dbPutCrossChain_main hcheck hsvp
  obtain ⟨bs, saved, sp, hbs, hempty, hput⟩ := hmain
  constructor
  · rintro ⟨t, u, ht, hu, hsame⟩
    rw [hput] at ht
    cases ht
    obtain ⟨-, hrollback, hassets⟩ := (dbRestoreCrossChain_main hsvp).mp hu
    obtain ⟨hvalid, hrun⟩ := (restoreBooking_run hbs).mp hassets
    refine ⟨?_, bs, hbs, hvalid, (restoreAsset_putAsset_iff s.nonzero bs).mp fun key => ?_⟩
    · rw [hsame.rollback, hrollback, update_self]
    · rw [hsame.assets, ← hrun]
  · rintro ⟨hnone, bs', hbs', hvalid, hdrift⟩
    rw [hbs] at hbs'
    obtain rfl := Except.ok.inj hbs'
    refine ⟨_, ⟨s.incoming, update _ block.height.toUInt32 none,
      bs.foldl restoreAsset (bs.foldl putAsset s.assets)⟩, hput,
      (dbRestoreCrossChain_main hsvp).mpr ⟨restorePool_emptied hempty hnone _, rfl,
        (restoreBooking_run hbs).mpr ⟨hvalid, rfl⟩⟩, fun k => SameEntry.refl _, fun h => ?_,
      (restoreAsset_putAsset_iff s.nonzero bs).mpr hdrift⟩
    dsimp only
    by_cases hh : h = block.height.toUInt32
    · rw [hh, update_self]
      exact hnone
    rw [update_of_ne hh]
    split
    · rfl
    · rw [update_of_ne hh]

omit hcheck in
/-- **When connecting is undone.** For every block that passes the check, and every order in which
the maps are ranged over, exactly where the block is `Undoable`. -/
theorem undone_iff (hcheck : dbCheckCrossChain env order s.toCrossDb block = .ok ()) :
    Undone env order' s block ↔ Undoable env s block := by
  cases hsvp : env.isSVP with
  | true =>
    rw [undone_iff_unshared hcheck hsvp]
    constructor
    · intro h
      refine ⟨fun _ => h, fun hmain => ?_, fun hmain => ?_⟩
      · rw [hsvp] at hmain
        cases hmain
      · rw [hsvp] at hmain
        cases hmain
    · exact fun h => h.unshared hsvp
  | false =>
    rw [undone_iff_booked hcheck hsvp]
    constructor
    · rintro ⟨hrollback, hbooked⟩
      refine ⟨fun h => ?_, fun _ => hrollback, fun _ => hbooked⟩
      rw [hsvp] at h
      cases h
    · exact fun h => ⟨h.unrecorded hsvp, h.booked hsvp⟩

end Iff

/-! ## An entry that two blocks share

Two blocks of a chain carry on transfers of one block of a third chain. When the second of them is
disconnected, the transfers of the first are lost. -/

/-- Five tokens on the way to the main chain. -/
def onwardOut : TxOut :=
  ⟨⟨0x30000000000, some (.numToken 5), none⟩,
    replicate 21 0 ++ [OP_PAYCROSSCHAIN, 1, 0, 0, OP_PAY2PKH, 0, 0, 0]⟩

/-- Block 50 of chain 3. -/
def thirdBlock : OutPoint := ⟨50, 3 ||| CrossChainFalg⟩

/-- A transfer out of a block of chain 3 is carried on. -/
def onwardTx (source : OutPoint) : MsgTx := plainTx [⟨source, 0xFFFFFFFF, 0⟩] [onwardOut]

/-- A simplified node of chain 2, all of whose transfers pass through chain 1. -/
def simplifiedEnv : CrossEnv where
  isSVP := true
  params := { Params.plain with chainID := 2, mainChainID := 1 }
  mainnet := false
  pubKeyHashAddrID := 0
  scriptHashAddrID := 1
  multiSigAddrID := 2
  chains := ⟨true, fun _ => true, fun _ _ _ => .ok true, fun _ => .ok []⟩
  txHash _ := 9

/-- What an earlier block has carried on. -/
def sharedEntry : XchainData :=
  ⟨3, 50, 7, AList.insert ⟨8, 0⟩ ⟨[], onwardOut⟩ ∅, 0⟩

def sharedState : CrossState where
  incoming k := if k = thirdBlock then some sharedEntry else none
  rollback _ := none
  assets _ := none
  keyed k x h := by
    dsimp only at h
    split at h
    case isTrue hk =>
      cases h
      rw [hk]
      rfl
    · cases h
  nonzero _ := (Option.some_ne_none 0).symm

def onwardBlock (sources : List OutPoint) : CrossBlock := ⟨60, 4, sources.map onwardTx⟩

/-- **The shared entry is lost.** The block passes the check, and disconnecting it does not undo
it. -/
theorem sharedEntry_not_undone :
    dbCheckCrossChain simplifiedEnv .stored sharedState.toCrossDb (onwardBlock [thirdBlock]) =
        .ok () ∧
      ¬ Undone simplifiedEnv .stored sharedState (onwardBlock [thirdBlock]) := by
  have hcheck : dbCheckCrossChain simplifiedEnv .stored sharedState.toCrossDb
      (onwardBlock [thirdBlock]) = .ok () := by decide +kernel
  refine ⟨hcheck, fun h => ?_⟩
  have hnone := (undone_iff_unshared hcheck rfl).mp h (onwardTx thirdBlock) mem_cons_self
  cases hnone

/-- Blocks 51 and 52 of chain 3. -/
def otherBlocks : List OutPoint := [⟨51, 3 ||| CrossChainFalg⟩, ⟨52, 3 ||| CrossChainFalg⟩]

/-- Beside the entry of block 50, the transfers of two other blocks are put in and taken out. -/
theorem otherBlocks_undone :
    dbCheckCrossChain simplifiedEnv .stored sharedState.toCrossDb (onwardBlock otherBlocks) =
        .ok () ∧
      Undone simplifiedEnv .stored sharedState (onwardBlock otherBlocks) := by
  have hcheck : dbCheckCrossChain simplifiedEnv .stored sharedState.toCrossDb
      (onwardBlock otherBlocks) = .ok () := by decide +kernel
  refine ⟨hcheck, (undone_iff hcheck).mpr ⟨fun _ tx htx => ?_, nofun, nofun⟩⟩
  obtain ⟨source, hsource, rfl⟩ := mem_map.mp htx
  obtain rfl | rfl := by simpa [otherBlocks] using hsource
  · decide +kernel
  · decide +kernel

/-- The buckets when the block has been connected and disconnected. -/
theorem otherBlocks_kept : ∃ t u,
    dbPutCrossChain simplifiedEnv .stored sharedState.toCrossDb (onwardBlock otherBlocks) = .ok t ∧
      dbRestoreCrossChain simplifiedEnv t (onwardBlock otherBlocks) = .ok u ∧
      ∃ s : CrossState, s.toCrossDb = u := by
  obtain ⟨t, u, hput, hrestore⟩ : ∃ t u, dbPutCrossChain simplifiedEnv .stored
      sharedState.toCrossDb (onwardBlock otherBlocks) = .ok t ∧
      dbRestoreCrossChain simplifiedEnv t (onwardBlock otherBlocks) = .ok u := ⟨_, _, rfl, rfl⟩
  exact ⟨t, u, hput, hrestore, buckets_kept sharedState
    (.tail (.single ⟨_, _, .inl ⟨_, hput⟩⟩) ⟨_, _, .inr hrestore⟩)⟩

end Zent
