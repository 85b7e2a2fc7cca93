import Zent.Blockchain.CrossChainDb
import Zent.Blockchain.CrossChainImports

/-!
# The pool of incoming transfers

What connecting and disconnecting a block does to INCOMINGPOOL. Transfers match an output exactly if
they are the same, so the order in which an entry is searched makes no difference.
-/

namespace Zent

open Go XchainData Function CrossEnv
open List hiding beq_eq_decide

/-! ## Matching outputs -/

/-- The value is of the kind that the type of the token says. -/
def TxOut.Typed (t : TxOut) : Prop :=
  if t.tokenType &&& 1 == 0 then ∃ v, t.value = some (.numToken v)
  else ∃ h, t.value = some (.hashToken h)

/-- The type assertion of `Match`, in an output of its kind. -/
theorem hashVal_eq_ok {v : Option TokenValue} {h : Hash} :
    hashVal (ε := ChainError) v = .ok h ↔ v = some (.hashToken h) := by
  cases v with
  | none => simp [hashVal, crash]
  | some val => cases val <;> simp [hashVal, crash]

theorem eq_of_isMatch {s t : TxOut} (h : s.isMatch (ε := ChainError) t = .ok true) :
    s = t ∧ t.Typed := by
  obtain ⟨⟨type, value, rights⟩, script⟩ := s
  obtain ⟨⟨type', value', rights'⟩, script'⟩ := t
  simp only [TxOut.isMatch] at h
  split at h
  · cases h
  rename_i htype
  split at h
  · cases h
  rename_i hscript
  split at h
  · cases h
  rename_i hrights
  simp only [bne_iff_ne, ne_eq, not_not] at htype hscript hrights
  subst htype hscript hrights
  have hsame : value = value' ∧ (TxOut.mk ⟨type, value', rights⟩ script).Typed := by
    rw [TxOut.Typed]
    split at h
    case isTrue hnum =>
      obtain ⟨a, ha, h⟩ := of_bind h
      obtain ⟨b, hb, h⟩ := of_bind h
      have hab : a = b := by simpa using Except.ok.inj h
      rw [if_pos hnum, numVal_eq_ok.mp ha, hab]
      exact ⟨(numVal_eq_ok.mp hb).symm, b, numVal_eq_ok.mp hb⟩
    rename_i hnum
    obtain ⟨a, ha, h⟩ := of_bind h
    obtain ⟨b, hb, h⟩ := of_bind h
    have hab : a = b := by simpa using Except.ok.inj h
    rw [if_neg hnum, hashVal_eq_ok.mp ha, hab]
    exact ⟨(hashVal_eq_ok.mp hb).symm, b, hashVal_eq_ok.mp hb⟩
  obtain ⟨rfl, htyped⟩ := hsame
  exact ⟨rfl, htyped⟩

theorem isMatch_of_typed {s t : TxOut} (hs : s.Typed) (ht : t.Typed) :
    s.isMatch (ε := ChainError) t = .ok (decide (s = t)) := by
  obtain ⟨⟨type, value, rights⟩, script⟩ := s
  obtain ⟨⟨type', value', rights'⟩, script'⟩ := t
  simp only [TxOut.isMatch]
  by_cases htype : type = type'
  · by_cases hscript : script = script'
    · by_cases hrights : rights = rights'
      · subst htype hscript hrights
        rw [TxOut.Typed] at hs ht
        by_cases hnum : type &&& 1 == 0
        · rw [if_pos hnum] at hs ht
          obtain ⟨a, rfl⟩ := hs
          obtain ⟨b, rfl⟩ := ht
          simp [hnum, numVal, pure, Except.pure, bind, Except.bind, beq_eq_decide]
        rw [if_neg hnum] at hs ht
        obtain ⟨a, rfl⟩ := hs
        obtain ⟨b, rfl⟩ := ht
        simp [hnum, hashVal, pure, Except.pure, bind, Except.bind, beq_eq_decide]
      · simp [htype, hscript, hrights, pure, Except.pure]
    · simp [htype, hscript, pure, Except.pure]
  · simp [htype, pure, Except.pure]

theorem findMatch_of_mem {txo : TxOut} (htxo : txo.Typed) :
    ∀ {l : List ((_ : OutPoint) × MsgXrossL3)}, (∀ e ∈ l, e.2.txo.Typed) →
      (∃ e ∈ l, e.2.txo = txo) → ∃ i, findMatch txo l = .ok (some i)
  | [], _, hmem => by
    obtain ⟨e, he, -⟩ := hmem
    cases he
  | e :: rest, htyped, hmem => by
    rw [findMatch, isMatch_of_typed (htyped e mem_cons_self) htxo]
    by_cases heq : e.2.txo = txo
    · rw [decide_eq_true heq]
      exact ⟨e.1, rfl⟩
    rw [decide_eq_false heq]
    refine findMatch_of_mem htxo (fun x hx => htyped x (mem_cons_of_mem e hx)) ?_
    obtain ⟨x, hx, hxeq⟩ := hmem
    rcases mem_cons.mp hx with rfl | hx
    · exact absurd hxeq heq
    · exact ⟨x, hx, hxeq⟩

/-- The outputs of an entry. -/
def outputs (txs : Map OutPoint MsgXrossL3) : List TxOut := txs.entries.map fun e => e.2.txo

variable {order : TransferOrder}

theorem outputs_erase {txs : Map OutPoint MsgXrossL3} {txo : TxOut} {i : OutPoint}
    (h : findMatch txo (order.run txs.entries) = .ok (some i)) :
    txo.Typed ∧ (∃ m, txs.lookup i = some m) ∧
      (outputs txs).Perm (txo :: outputs (txs.erase i)) := by
  obtain ⟨m, hm, hmatch⟩ := findMatch_eq_some h
  obtain ⟨heq, htyped⟩ := eq_of_isMatch hmatch
  have hlook : txs.lookup i = some m := AList.mem_lookup_iff.mpr (order.mem_run.mp hm)
  refine ⟨htyped, ⟨m, hlook⟩, ?_⟩
  have := (entries_perm_erase hlook).map fun e => e.2.txo
  rw [map_cons, heq] at this
  exact this

/-- A checked import has the outputs of its entry. -/
theorem checkTake_run :
    ∀ {outs : List TxOut} {txs left : Map OutPoint MsgXrossL3},
      outs.foldlM (checkTake order) txs = .ok left →
        (∀ t ∈ outs, t.Typed) ∧ (outputs txs).Perm (outs ++ outputs left)
  | [], txs, left, h => by
    cases h
    exact ⟨fun t ht => absurd ht not_mem_nil, List.Perm.refl _⟩
  | txo :: rest, txs, left, h => by
    obtain ⟨mid, hmid, hrest⟩ := of_bind h
    obtain ⟨found, hfound, hmid⟩ := of_bind hmid
    cases found with
    | none => cases hmid
    | some i =>
      cases hmid
      obtain ⟨htxo, -, hperm⟩ := outputs_erase hfound
      obtain ⟨htyped, hperm'⟩ := checkTake_run hrest
      refine ⟨forall_mem_cons.mpr ⟨htxo, htyped⟩, ?_⟩
      exact hperm.trans (hperm'.cons txo)

/-- An import that has the outputs of its entry empties it, in any order. -/
theorem putTake_run :
    ∀ {outs : List TxOut} {s : Taken}, (∀ t ∈ outs, t.Typed) → (outputs s.left).Perm outs →
      ∃ t, outs.foldlM (putTake order) s = .ok t ∧ t.left.entries = []
  | [], s, _, hperm => ⟨s, rfl, map_eq_nil_iff.mp (perm_nil.mp hperm)⟩
  | txo :: rest, s, htyped, hperm => by
    have hall : ∀ e ∈ order.run s.left.entries, e.2.txo.Typed := by
      intro e he
      refine htyped _ (hperm.mem_iff.mp ?_)
      exact mem_map_of_mem (order.mem_run.mp he)
    have hmem : ∃ e ∈ order.run s.left.entries, e.2.txo = txo := by
      obtain ⟨e, he, heq⟩ := mem_map.mp (hperm.mem_iff.mpr mem_cons_self)
      exact ⟨e, order.mem_run.mpr he, heq⟩
    obtain ⟨i, hi⟩ := findMatch_of_mem (htyped txo mem_cons_self) hall hmem
    obtain ⟨-, ⟨m, hm⟩, hperm'⟩ := outputs_erase hi
    have hrest : ∃ t, rest.foldlM (putTake order) ⟨s.left.erase i, s.removed.insert i m⟩ = .ok t ∧
        t.left.entries = [] := by
      refine putTake_run (fun t ht => htyped t (mem_cons_of_mem txo ht)) ?_
      exact (perm_cons txo).mp (hperm'.symm.trans hperm)
    obtain ⟨t, ht, hempty⟩ := hrest
    refine ⟨t, ?_, hempty⟩
    simp only [foldlM_cons, putTake, hi, hm, ok_bind]
    exact ht

/-! ## Entries that join others -/

variable {x : XchainData} {data : Option XchainData} {incoming : OutPoint → Option XchainData}

theorem joinEntry_of_none (h : incoming x.key = none) :
    joinEntry incoming x data = update incoming x.key data := by
  rw [joinEntry, h]

theorem joinEntry_of_ne {k : OutPoint} (h : k ≠ x.key) :
    joinEntry incoming x data k = incoming k := by
  cases hx : incoming x.key with
  | none =>
    rw [joinEntry_of_none hx]
    exact update_of_ne h _ _
  | some d =>
    rw [joinEntry, hx]
    exact update_of_ne h _ _

/-! ## The pool of the main chain -/

/-- After some transactions: the entries that were imported are recorded, and gone. -/
structure Emptied (incoming : OutPoint → Option XchainData) (saved : List XchainData)
    (s : PutPool) : Prop where
  rbd : s.rbd = saved.map some
  nodup : (saved.map key).Nodup
  stored : ∀ x ∈ saved, incoming x.key = some x
  incoming : ∀ k, s.incoming k = if k ∈ saved.map key then none else incoming k

section Pool

variable {order order' : TransferOrder}
  {saved : List XchainData}

theorem Emptied.take {s : PutPool} (hs : Emptied incoming saved s) {o : OutPoint}
    (hmem : o ∉ saved.map key) (hx : incoming o = some x) (hkey : x.key = o) :
    Emptied incoming (saved ++ [x])
      ⟨update s.incoming o none, s.rbd ++ [some x]⟩ where
  rbd := by
    rw [map_append, hs.rbd]
    rfl
  nodup := by
    rw [map_append, nodup_append]
    refine ⟨hs.nodup, nodup_singleton _, fun a ha b hb => ?_⟩
    rintro rfl
    rw [map_singleton, mem_singleton, hkey] at hb
    exact hmem (hb ▸ ha)
  stored := forall_mem_append.mpr ⟨hs.stored, forall_mem_singleton.mpr (hkey ▸ hx)⟩
  incoming k := by
    dsimp only
    rw [map_append, map_singleton, hkey]
    by_cases hk : k = o
    · rw [hk, update_self, if_pos (mem_append_right _ mem_cons_self)]
    have hiff : k ∈ saved.map key ++ [o] ↔ k ∈ saved.map key := by
      simp [hk]
    rw [update_of_ne hk, hs.incoming k]
    simp only [hiff]

/-- What the check takes completely is taken completely, in any order. -/
theorem putTake_of_checkTake {outs : List TxOut} {txs left : Map OutPoint MsgXrossL3}
    (hrun : outs.foldlM (checkTake order) txs = .ok left) (hleft : left.entries = []) :
    ∃ t, outs.foldlM (putTake order') ⟨txs, ∅⟩ = .ok t ∧ t.left.entries = [] := by
  obtain ⟨htyped, hperm⟩ := checkTake_run hrun
  have hnil : outputs left = [] := by rw [outputs, hleft, map_nil]
  rw [hnil, append_nil] at hperm
  exact putTake_run htyped hperm

/-- A checked transaction empties the entry it imports, unless that has been done. -/
theorem putImport_step (hkeyed : Keyed incoming) {tx : MsgTx}
    (hcheck : checkImport order incoming tx = .ok ()) {s : PutPool}
    (hs : Emptied incoming saved s) :
    ∃ saved' s', putImport order' s tx = .ok s' ∧ Emptied incoming saved' s' := by
  rw [checkImport] at hcheck
  rw [putImport]
  cases hsrc : importSource tx with
  | none => exact ⟨saved, s, rfl, hs⟩
  | some o =>
    rw [hsrc] at hcheck
    dsimp only at hcheck ⊢
    have hin := hs.incoming o
    by_cases hmem : o ∈ saved.map key
    · rw [if_pos hmem] at hin
      rw [hin]
      exact ⟨saved, s, rfl, hs⟩
    rw [if_neg hmem] at hin
    cases hx : incoming o with
    | none =>
      rw [hx] at hcheck
      cases hcheck
    | some x =>
      rw [hx] at hcheck hin
      obtain ⟨left, hrun, hcheck⟩ := of_bind hcheck
      have hleft : left.entries = [] := not_not.mp (failIf_eq_ok.mp hcheck)
      obtain ⟨t, ht, hempty⟩ :
          ∃ t, tx.txOut.foldlM (putTake order') ⟨x.txs, ∅⟩ = .ok t ∧ t.left.entries = [] :=
        putTake_of_checkTake hrun hleft
      have hkey := hkeyed o x hx
      rw [hin]
      dsimp only
      rw [ht]
      refine ⟨saved ++ [x], ⟨update s.incoming o none, s.rbd ++ [some x]⟩, ?_, ?_⟩
      · show (if t.left.entries.isEmpty then _ else _) = _
        rw [hempty]
        rfl
      · exact hs.take hmem hx hkey

/-- **Connecting** a checked block empties the entries it imports. -/
theorem putImport_run (hkeyed : Keyed incoming) {txs : List MsgTx}
    (hcheck : ∀ tx ∈ txs, checkImport order incoming tx = .ok ()) :
    ∃ s, txs.foldlM (putImport order') ⟨incoming, []⟩ = .ok s ∧
      ∃ saved, Emptied incoming saved s := by
  refine foldlM_progress (P := fun _ s => ∃ saved, Emptied incoming saved s) ?_ ?_
  · exact ⟨[], rfl, nodup_nil, fun x hx => absurd hx not_mem_nil, fun k => rfl⟩
  · rintro done tx rest u hsplit ⟨saved, hs⟩
    have htx : tx ∈ txs := hsplit ▸ mem_append_right done mem_cons_self
    obtain ⟨saved', s', hstep, hs'⟩ := putImport_step hkeyed (hcheck tx htx) hs
    exact ⟨s', hstep, saved', hs'⟩

/-- **Disconnecting** fills them again. -/
theorem restoreImport_run : ∀ {saved : List XchainData} {m : OutPoint → Option XchainData},
    (saved.map key).Nodup → (∀ x ∈ saved, incoming x.key = some x) →
    (∀ k, m k = if k ∈ saved.map key then none else incoming k) →
      (saved.map some).foldlM restoreImport m = .ok incoming
  | [], m, _, _, hm => by
    have : m = incoming := funext fun k => by simpa using hm k
    rw [this]
    rfl
  | x :: rest, m, hnodup, hstored, hm => by
    rw [map_cons, nodup_cons] at hnodup
    have hempty : m x.key = none := by
      rw [hm, map_cons, if_pos mem_cons_self]
    rw [map_cons, foldlM_cons, restoreImport, joinEntry_of_none hempty]
    refine restoreImport_run hnodup.2 (fun y hy => hstored y (mem_cons_of_mem x hy)) ?_
    intro k
    by_cases hk : k = x.key
    · rw [hk, update_self, if_neg hnodup.1]
      exact (hstored x mem_cons_self).symm
    have hiff : k ∈ (x :: rest).map key ↔ k ∈ rest.map key := by
      rw [map_cons, mem_cons]
      exact or_iff_right hk
    rw [update_of_ne hk, hm]
    simp only [hiff]

end Pool

/-! ## The pool of a simplified node -/

variable {tx : MsgTx}

/-- The flag of a source is part of its index. -/
theorem index_of_importSource {o : OutPoint} (h : importSource tx = some o) :
    (o.index &&& ~~~CrossChainFalg) ||| CrossChainFalg = o.index := by
  have hflag : o.index &&& CrossChainFalg ≠ 0 := by
    rw [importSource] at h
    split at h
    case h_1 t rest hin =>
      split at h
      case isTrue hcross =>
        cases h
        rw [MsgTx.isCrossChain] at hcross
        split at hcross
        case h_1 t' hin' =>
          rw [hin] at hin'
          cases hin'
          simpa using And.right (by simpa using hcross)
        · cases hcross
      · cases h
    · cases h
  -- the flag is the single bit 23
  have hpow : CrossChainFalg.toBitVec = BitVec.twoPow 32 23 := by decide
  have hbit : o.index.toBitVec.getLsbD 23 = true := by
    by_contra hfalse
    apply hflag
    apply UInt32.toBitVec_inj.mp
    rw [UInt32.toBitVec_and, hpow, BitVec.and_twoPow, if_neg hfalse]
    rfl
  apply UInt32.toBitVec_inj.mp
  apply BitVec.eq_of_getLsbD_eq
  intro i hi
  rw [UInt32.toBitVec_or, UInt32.toBitVec_and, UInt32.toBitVec_not, hpow, BitVec.getLsbD_or,
    BitVec.getLsbD_and, BitVec.getLsbD_not, BitVec.getLsbD_twoPow]
  by_cases hi' : i = 23
  · subst hi'
    simp [hbit]
  · simp [hi, Ne.symm hi']

section Simplified

variable {env : CrossEnv} {tx : MsgTx}

/-- What has been read of an output that leaves its chain. -/
theorem crossDest_eq_some {txo : TxOut} {dest : UInt32} (h : crossDest txo = .ok (some dest)) :
    scriptDest (ε := ChainError) txo.pkScript = .ok dest ∧
      ∃ op, index (ε := ChainError) txo.pkScript 21 = .ok op := by
  rw [crossDest] at h
  split at h
  · cases h
  obtain ⟨call, _, h⟩ := of_bind h
  split at h
  · cases h
  obtain ⟨op, hop, h⟩ := of_bind h
  split at h
  · cases h
  obtain ⟨dest', hdest, h⟩ := of_bind h
  split at h
  · cases h
  · cases h
    exact ⟨hdest, op, hop⟩

theorem transfer_ok {txo : TxOut} {dest : UInt32} (h : crossDest txo = .ok (some dest)) :
    ∃ t, env.transfer txo dest = .ok t := by
  obtain ⟨hdest, op, hop⟩ := crossDest_eq_some h
  have hnormal : ∃ t, env.normalizeTxo txo = .ok t := by
    rw [normalizeTxo, hdest]
    rw [hop]
    exact ⟨_, rfl⟩
  obtain ⟨t, ht⟩ := hnormal
  rw [transfer]
  by_cases hmain : dest = env.params.mainChainID
  · rw [if_pos hmain, ht]
    exact ⟨_, rfl⟩
  · rw [if_neg hmain]
    exact ⟨_, rfl⟩

theorem putTransfer_ok {src : UInt32} {txhash : Hash} {p : TxOut × Nat}
    (hcheck : env.checkTransfer src p.1 = .ok ()) (txs : Map OutPoint MsgXrossL3) :
    ∃ txs', env.putTransfer txhash src txs p = .ok txs' := by
  obtain ⟨found, hdest, hcheck⟩ := of_bind hcheck
  rw [putTransfer, hdest]
  cases found with
  | none => exact ⟨txs, rfl⟩
  | some dest =>
    obtain ⟨_, _, hcheck⟩ := of_bind hcheck
    obtain ⟨_, _, hcheck⟩ := of_bind hcheck
    obtain ⟨pass, hpass, -⟩ := of_bind hcheck
    show ∃ txs', (env.passes src dest >>= _) = .ok txs'
    rw [hpass]
    cases pass with
    | false => exact ⟨txs, rfl⟩
    | true =>
      obtain ⟨t, ht⟩ := transfer_ok hdest
      rw [ht]
      exact ⟨_, rfl⟩

theorem putTransfers_ok
    (hcheck : ∀ txo ∈ tx.txOut, env.checkTransfer (env.sourceOf tx) txo = .ok ())
    (txs : Map OutPoint MsgXrossL3) : ∃ txs', env.putTransfers txs tx = .ok txs' := by
  have hrun : ∃ t, env.putTransfers txs tx = .ok t ∧ True := by
    refine foldlM_progress (P := fun _ _ => True) trivial fun done p rest u hsplit _ => ?_
    have hp : p ∈ tx.txOut.zipIdx := hsplit ▸ mem_append_right done mem_cons_self
    obtain ⟨txs', h⟩ := putTransfer_ok (hcheck p.1 (fst_mem_of_mem_zipIdx hp)) u
    exact ⟨txs', h, trivial⟩
  obtain ⟨t, ht, -⟩ := hrun
  exact ⟨t, ht⟩

/-- The entry of an import is stored under its source. -/
theorem onward_key {o : OutPoint} (h : importSource tx = some o) (txs : Map OutPoint MsgXrossL3) :
    (env.onward tx o txs).key = o := by
  have hsrc : env.sourceOf tx = o.index &&& ~~~CrossChainFalg := by
    rw [sourceOf, h]
  show (⟨o.hash, env.sourceOf tx ||| CrossChainFalg⟩ : OutPoint) = o
  rw [hsrc, index_of_importSource h]

/-- After some transactions of a block: the pool differs where they are restored only, and transfers
begin in the block only if one of them is no import. -/
structure Joined (env : CrossEnv) (block : CrossBlock) (incoming : OutPoint → Option XchainData)
    (done : List MsgTx) (s : (OutPoint → Option XchainData) × Map OutPoint MsgXrossL3) :
    Prop where
  other : ∀ k, (∀ tx ∈ done, env.restoreKey block tx ≠ k) → s.1 k = incoming k
  begun : s.2.entries ≠ [] → ∃ tx ∈ done, importSource tx = none

variable {block : CrossBlock}

theorem putTransferTx_step {done : List MsgTx}
    {s : (OutPoint → Option XchainData) × Map OutPoint MsgXrossL3}
    (hcheck : ∀ txo ∈ tx.txOut, env.checkTransfer (env.sourceOf tx) txo = .ok ())
    (hs : Joined env block incoming done s) :
    ∃ s', env.putTransferTx s tx = .ok s' ∧ Joined env block incoming (done ++ [tx]) s' := by
  have hother : ∀ k, (∀ t ∈ done ++ [tx], env.restoreKey block t ≠ k) →
      s.1 k = incoming k ∧ env.restoreKey block tx ≠ k := by
    intro k hk
    refine ⟨hs.other k fun t ht => hk t (mem_append_left _ ht), ?_⟩
    exact hk tx (mem_append_right done mem_cons_self)
  have hbegun : s.2.entries ≠ [] → ∃ t ∈ done ++ [tx], importSource t = none := by
    intro hne
    obtain ⟨t, ht, hnone⟩ := hs.begun hne
    exact ⟨t, mem_append_left _ ht, hnone⟩
  rw [putTransferTx]
  cases hsrc : importSource tx with
  | none =>
    obtain ⟨txs', htxs⟩ := putTransfers_ok hcheck s.2
    rw [htxs]
    refine ⟨(s.1, txs'), rfl, fun k hk => (hother k hk).1, fun _ => ?_⟩
    exact ⟨tx, mem_append_right done mem_cons_self, hsrc⟩
  | some o =>
    obtain ⟨txs', htxs⟩ := putTransfers_ok hcheck ∅
    dsimp only
    rw [htxs]
    by_cases hempty : txs'.entries.isEmpty = true
    · refine ⟨s, ?_, fun k hk => (hother k hk).1, hbegun⟩
      show (if txs'.entries.isEmpty = true then _ else _) = _
      rw [if_pos hempty]
      rfl
    refine ⟨(joinEntry s.1 (env.onward tx o txs') (env.onward tx o txs').serialize, s.2), ?_,
      fun k hk => ?_, hbegun⟩
    · show (if txs'.entries.isEmpty = true then _ else _) = _
      rw [if_neg hempty]
      rfl
    · have hkey : env.restoreKey block tx = o := by rw [restoreKey, hsrc]
      refine (joinEntry_of_ne ?_).trans (hother k hk).1
      rw [onward_key hsrc, ← hkey]
      exact (hother k hk).2.symm

/-- **A simplified node** writes where disconnecting deletes, and nowhere else. -/
theorem putTransferBlock_other (incoming : OutPoint → Option XchainData)
    (hcheck : ∀ tx ∈ block.txs, ∀ txo ∈ tx.txOut,
      env.checkTransfer (env.sourceOf tx) txo = .ok ()) :
    ∃ m, env.putTransferBlock incoming block = .ok m ∧
      ∀ k, (∀ tx ∈ block.txs, env.restoreKey block tx ≠ k) → m k = incoming k := by
  have hrun : ∃ s, block.txs.foldlM env.putTransferTx (incoming, ∅) = .ok s ∧
      Joined env block incoming block.txs s := by
    refine foldlM_progress (P := Joined env block incoming) ?_ ?_
    · exact ⟨fun _ _ => rfl, fun h => absurd rfl h⟩
    intro done tx rest u hsplit hu
    exact putTransferTx_step (hcheck tx (hsplit ▸ mem_append_right done mem_cons_self)) hu
  obtain ⟨s, hs, hjoined⟩ := hrun
  rw [putTransferBlock, hs]
  by_cases hempty : s.2.entries.isEmpty = true
  · refine ⟨s.1, ?_, hjoined.other⟩
    show (if s.2.entries.isEmpty = true then _ else _) = _
    rw [if_pos hempty]
    rfl
  let bxchain : XchainData := ⟨env.params.chainID, block.hash, block.height, s.2, 0⟩
  refine ⟨joinEntry s.1 bxchain bxchain.serialize, ?_, fun k hk => ?_⟩
  · show (if s.2.entries.isEmpty = true then _ else _) = _
    rw [if_neg hempty]
    rfl
  · refine (joinEntry_of_ne ?_).trans (hjoined.other k hk)
    obtain ⟨tx, htx, hnone⟩ := hjoined.begun (by simpa using hempty)
    have hkey := hk tx htx
    rw [restoreKey, hnone] at hkey
    exact hkey.symm

theorem restoreTransferBlock_eq (block : CrossBlock) :
    ∀ (txs : List MsgTx) (m : OutPoint → Option XchainData) (k : OutPoint),
      txs.foldl (fun m tx => update m (env.restoreKey block tx) none) m k =
        if ∃ tx ∈ txs, env.restoreKey block tx = k then none else m k
  | [], m, k => by simp
  | tx :: rest, m, k => by
    rw [foldl_cons, restoreTransferBlock_eq block rest]
    simp only [exists_mem_cons_iff]
    by_cases hk : env.restoreKey block tx = k
    · rw [hk, update_self, ite_self, if_pos (Or.inl rfl)]
    · rw [update_of_ne (Ne.symm hk)]
      simp only [hk, false_or]

end Simplified

/-! ## Transfers stay under their keys -/

theorem Keyed.update (h : Keyed incoming) {k : OutPoint}
    (hdata : ∀ x, data = some x → x.key = k) : Keyed (update incoming k data) := by
  intro k' x hx
  by_cases hk : k' = k
  · rw [hk, update_self] at hx
    rw [hk]
    exact hdata x hx
  · rw [update_of_ne hk] at hx
    exact h k' x hx

theorem key_of_serialize (y : XchainData) (h : x.serialize = some y) : y.key = x.key := by
  rw [serialize] at h
  split at h
  · cases h
  · rw [Option.some_inj.mp h]

theorem Keyed.joinEntry (h : Keyed incoming)
    (hdata : ∀ y, data = some y → y.key = x.key) : Keyed (joinEntry incoming x data) := by
  rw [Zent.joinEntry]
  split
  · exact h.update hdata
  · refine h.update fun y hy => ?_
    rw [key_of_serialize y hy]
    rfl

theorem Keyed.putImport {s s' : PutPool} (h : Keyed s.incoming)
    (hput : putImport order s tx = .ok s') : Keyed s'.incoming := by
  rw [Zent.putImport] at hput
  split at hput
  · cases hput
    exact h
  rename_i o _
  split at hput
  · cases hput
    exact h
  rename_i x hx
  obtain ⟨t, -, hput⟩ := of_bind hput
  split at hput
  · cases hput
    exact h.update fun y hy => by cases hy
  cases hput
  refine h.update fun y hy => ?_
  rw [key_of_serialize y hy]
  exact h o x hx

theorem Keyed.putTransferTx {env : CrossEnv}
    {s s' : (OutPoint → Option XchainData) × Map OutPoint MsgXrossL3} (h : Keyed s.1)
    (hput : env.putTransferTx s tx = .ok s') : Keyed s'.1 := by
  rw [CrossEnv.putTransferTx] at hput
  split at hput
  case h_1 o _ =>
    obtain ⟨txs, -, hput⟩ := of_bind hput
    split at hput
    · cases hput
      exact h
    · cases hput
      exact h.joinEntry key_of_serialize
  · obtain ⟨txs, -, hput⟩ := of_bind hput
    cases hput
    exact h

variable {m : OutPoint → Option XchainData}

theorem Keyed.putTransferBlock {env : CrossEnv} {block : CrossBlock} (h : Keyed incoming)
    (hput : env.putTransferBlock incoming block = .ok m) : Keyed m := by
  obtain ⟨s, hrun, hput⟩ := of_bind hput
  have hs : Keyed s.1 :=
    foldlM_induction (P := fun _ u => Keyed u.1) h (fun _ _ _ _ hu hstep => hu.putTransferTx hstep)
      hrun
  split at hput
  · cases hput
    exact hs
  · cases hput
    exact hs.joinEntry key_of_serialize

theorem Keyed.restoreTransfers {env : CrossEnv} {block : CrossBlock} :
    ∀ {txs : List MsgTx} {m : OutPoint → Option XchainData}, Keyed m →
      Keyed (txs.foldl (fun m tx => Function.update m (env.restoreKey block tx) none) m)
  | [], _, h => h
  | tx :: rest, m, h => by
    rw [foldl_cons]
    refine Keyed.restoreTransfers (h.update fun x hx => ?_)
    cases hx

theorem Keyed.restorePool {db : CrossDb} {height : UInt32} (h : Keyed db.incoming)
    (hrestore : restorePool db height = .ok m) : Keyed m := by
  rw [Zent.restorePool] at hrestore
  split at hrestore
  · cases hrestore
    exact h
  refine foldlM_induction (P := fun _ u => Keyed u) h (fun _ data u u' hu hstep => ?_) hrestore
  cases data with
  | none => cases hstep
  | some x =>
    cases hstep
    exact hu.joinEntry fun y hy => by rw [Option.some_inj.mp hy]

end Zent
