import Zent.Validate.Rights

/-!
# The outputs of a transaction in the view

`AddTxOut` of `omega/viewpoint/utxo.go` adds one output where `AddTxOuts` adds all of them, each
with its own idea of what is left out and what belongs to a coinbase. `TokenRights` is there twice
too, in `viewpoint` and in `validate`.
-/

namespace Zent

open Go List UInt32

section Singly

variable (txHash : MsgTx → Hash) (rights : RightView)

/-- `AddTxOut`. What contracts have added to a coinbase is not part of it. -/
def addTxOutAt (view : UtxoViewpoint) (tx : MsgTx) (txOutIdx : UInt32) (blockHeight : Int32) :
    Result UtxoViewpoint :=
  if txOutIdx ≥ ofNat tx.txOut.length then .ok view
  else do
    let txOut ← index tx.txOut txOutIdx.toNat
    if txOut.isSeparator then return view
    let coinbase := (← tx.isCoinBase) && !(tx.txOut.take txOutIdx.toNat).any TxOut.isSeparator
    if ← txOut.isNopaying then return view
    let o : OutPoint := ⟨txHash tx, txOutIdx⟩
    return view.insert o (← newEntry rights view o txOut coinbase blockHeight)

def addTxOutsSingly (view : UtxoViewpoint) (tx : MsgTx) (blockHeight : Int32) :
    Result UtxoViewpoint :=
  tx.txOut.zipIdx.foldlM
    (fun view p => addTxOutAt txHash rights view tx (ofNat p.2) blockHeight) view

end Singly

/-! ## What is put into the view -/

section Puts

variable {txHash : MsgTx → Hash} {rights : RightView} {view v v' : UtxoViewpoint} {tx : MsgTx}
  {hash : Hash} {height : Int32} {cb : Bool} {t : TxOut} {p q : TxOut × Nat} {outs : List TxOut}

theorem toNat_ofNat_index {i : Nat} (hlen : outs.length < 2 ^ 32) (hi : i < outs.length) :
    (ofNat i).toNat = i := by
  rw [toNat_ofNat', Nat.mod_eq_of_lt (by omega)]

theorem outPointOf_inj (hlen : outs.length < 2 ^ 32) (hp : p ∈ outs.zipIdx) (hq : q ∈ outs.zipIdx)
    (h : outPointOf hash p = outPointOf hash q) : p = q := by
  have hp' := mem_zipIdx_iff_getElem?.mp hp
  have hq' := mem_zipIdx_iff_getElem?.mp hq
  have hi : p.2 = q.2 := by
    rw [← toNat_ofNat_index hlen (List.getElem?_eq_some_iff.mp hp').1,
      ← toNat_ofNat_index hlen (List.getElem?_eq_some_iff.mp hq').1]
    exact congrArg (·.index.toNat) h
  rw [hi, hq'] at hp'
  exact Prod.ext (Option.some_inj.mp hp').symm hi

/-- **What a loop over the outputs leaves in the view**: under the outpoint of an output what is put
there, and everything else as it was. -/
theorem lookup_puts {f : UtxoViewpoint → TxOut × Nat → Result UtxoViewpoint}
    {c : TxOut × Nat → Option Bool} (hlen : outs.length < 2 ^ 32)
    (hf : ∀ v v' p, p ∈ outs.zipIdx → f v p = .ok v' → v' = put hash height (c p) v p)
    (h : outs.zipIdx.foldlM f view = .ok v') :
    (∀ p ∈ outs.zipIdx, v'.lookup (outPointOf hash p) =
        (c p).elim (view.lookup (outPointOf hash p)) fun cb =>
          some (addTxOut view (outPointOf hash p) p.1 cb height)) ∧
      ∀ o, (∀ p ∈ outs.zipIdx, o ≠ outPointOf hash p) → v'.lookup o = view.lookup o := by
  -- carried along the outputs done so far
  refine foldlM_induction_run (P := fun done v => (∀ p ∈ done, v.lookup (outPointOf hash p) =
    (c p).elim (view.lookup (outPointOf hash p)) fun cb =>
      some (addTxOut view (outPointOf hash p) p.1 cb height)) ∧
    ∀ o, (∀ p ∈ done, o ≠ outPointOf hash p) → v.lookup o = view.lookup o) (by simp) ?_ h
  rintro done p rest v v' hsplit - ⟨hput, hother⟩ hstep
  have hmem : ∀ q ∈ done, q ∈ outs.zipIdx := fun q hq => by simp [hsplit, hq]
  have hp : p ∈ outs.zipIdx := by simp [hsplit]
  have hnew : ∀ q ∈ done, outPointOf hash p ≠ outPointOf hash q := by
    intro q hq heq
    obtain rfl := outPointOf_inj hlen hp (hmem q hq) heq
    have hnodup : outs.zipIdx.Nodup := .of_map Prod.snd (by simp [nodup_range'])
    rw [hsplit, nodup_append] at hnodup
    exact hnodup.2.2 p hq p mem_cons_self rfl
  rw [hf v v' p hp hstep]
  simp only [lookup_put, mem_append, mem_singleton]
  constructor
  · rintro q (hq | rfl)
    · rw [if_neg (hnew q hq).symm, hput q hq]
    · simp [addTxOut, UtxoViewpoint.lookupEntry, hother _ hnew]
  · intro o ho
    rw [if_neg (ho p (.inr rfl)), hother o fun q hq => ho q (.inl hq)]

/-- `AddTxOut` does not, and ends a coinbase at the first separator. -/
theorem addTxOutAt_eq_put (hlen : tx.txOut.length < 2 ^ 32)
    (hcb : tx.isCoinBase (ε := ChainError) = .ok cb) (hp : p ∈ tx.txOut.zipIdx)
    (h : addTxOutAt txHash rights view tx (ofNat p.2) height = .ok v') :
    v' = put (txHash tx) height (if p.1.pays then
      some (cb && !(tx.txOut.take p.2).any TxOut.isSeparator) else none) view p := by
  have ht := mem_zipIdx_iff_getElem?.mp hp
  have hi := (List.getElem?_eq_some_iff.mp ht).1
  have hlt : ¬ ofNat p.2 ≥ ofNat tx.txOut.length := by
    rw [ge_iff_le, le_iff_toNat_le, toNat_ofNat_index hlen hi, toNat_ofNat', Nat.mod_eq_of_lt hlen]
    omega
  simp only [addTxOutAt, if_neg hlt, toNat_ofNat_index hlen hi, index, ht, ok_bind, hcb] at h
  rcases pays_cases h with ⟨hpays, rfl⟩ | ⟨hpays, h⟩
  · simp [hpays, put]
  · rw [insert_newEntry h]
    simp [hpays, put, outPointOf]

/-! ## One by one or all together -/

/-- The view has the output already, as it would be added. -/
def UtxoViewpoint.has (view : UtxoViewpoint) (o : OutPoint) (t : TxOut) (cb : Bool)
    (height : Int32) : Prop :=
  ∃ monitor, view.lookup o = some
    ⟨t.tokenType, t.value, t.rights, t.pkScript, height, cb, false, true, false, monitor⟩

theorem has_iff {o : OutPoint} :
    view.has o t cb height ↔ view.lookup o = some (addTxOut view o t cb height) := by
  constructor
  · rintro ⟨monitor, h⟩
    simp [addTxOut, UtxoViewpoint.lookupEntry, h]
  · exact fun h => ⟨_, h⟩

variable (txHash rights view height) in
/-- **Adding the outputs one by one leaves the same view**, just when every output that pays and
leaves the chain is in the view already, and no other one that pays comes after a separator of a
coinbase. -/
theorem sameView_iff {v₁ v₂ : UtxoViewpoint} (hlen : tx.txOut.length < 2 ^ 32)
    (hcb : tx.isCoinBase (ε := ChainError) = .ok cb)
    (h₁ : addTxOuts txHash rights view tx height = .ok v₁)
    (h₂ : addTxOutsSingly txHash rights view tx height = .ok v₂) :
    (∀ o, v₁.lookup o = v₂.lookup o) ↔ ∀ p ∈ tx.txOut.zipIdx, p.1.pays = true →
      let cb' := cb && !(tx.txOut.take p.2).any TxOut.isSeparator
      if p.1.leaves then view.has (outPointOf (txHash tx) p) p.1 cb' height else cb' = cb := by
  rw [addTxOuts, hcb, ok_bind] at h₁
  obtain ⟨hat₁, hother₁⟩ := lookup_puts hlen (fun _ _ _ _ => addTxOutStep_eq_put) h₁
  obtain ⟨hat₂, hother₂⟩ := lookup_puts hlen (fun _ _ _ => addTxOutAt_eq_put hlen hcb) h₂
  have hat : ∀ p ∈ tx.txOut.zipIdx,
      (v₁.lookup (outPointOf (txHash tx) p) = v₂.lookup (outPointOf (txHash tx) p) ↔ (p.1.pays →
        let cb' := cb && !(tx.txOut.take p.2).any TxOut.isSeparator
        if p.1.leaves then view.has (outPointOf (txHash tx) p) p.1 cb' height else cb' = cb)) := by
    intro p hp
    rw [hat₁ p hp, hat₂ p hp]
    cases hpays : p.1.pays with
    | false => simp
    | true =>
      cases hleaves : p.1.leaves with
      | true => simp [has_iff]
      | false => simp [addTxOut]
  constructor
  · exact fun h p hp => (hat p hp).mp (h _)
  · intro h o
    by_cases ho : ∃ p ∈ tx.txOut.zipIdx, o = outPointOf (txHash tx) p
    · obtain ⟨p, hp, rfl⟩ := ho
      exact (hat p hp).mpr (h p hp)
    · push Not at ho
      rw [hother₁ o ho, hother₂ o ho]

end Puts

def coinOf (val : Int64) : TxOut := ⟨⟨0, some (.numToken val), none⟩, List.replicate 21 0 ++ [0x41]⟩

/-- A coinbase; `added` is what a contract has added to it. -/
def coinbaseOf (added : List TxOut) : MsgTx :=
  ⟨1, [], [⟨⟨0, 0⟩, 0, 0⟩], coinOf 5 :: added, 0, []⟩

/-- What separates the outputs that a contract has added. -/
def separatorOut : TxOut := ⟨⟨0xFC, none, none⟩, []⟩

/-- Outputs that pay nothing may stand on either side of the separator. -/
theorem sameView_coinbase : ∃ v₁ v₂,
    addTxOuts (fun _ => 9) (fun _ => none) ∅ (coinbaseOf [coinOf 0, separatorOut, coinOf 0]) 7 =
        .ok v₁ ∧
      addTxOutsSingly (fun _ => 9) (fun _ => none) ∅
        (coinbaseOf [coinOf 0, separatorOut, coinOf 0]) 7 = .ok v₂ ∧
      ∀ o, v₁.lookup o = v₂.lookup o := by
  have hcb : (coinbaseOf [coinOf 0, separatorOut, coinOf 0]).isCoinBase (ε := ChainError) =
    .ok true := rfl
  refine ⟨_, _, rfl, rfl, ?_⟩
  refine (sameView_iff (fun _ => 9) (fun _ => none) ∅ 7 (by decide) hcb rfl rfl).mpr ?_
  intro p hp hpays
  simp only [coinbaseOf, zipIdx_cons, zipIdx_nil, mem_cons, not_mem_nil, or_false] at hp
  obtain rfl | rfl | rfl | rfl := hp
  · rfl
  all_goals exact absurd hpays (by decide)

/-- What a contract has added counts as part of the coinbase only when all is added together. -/
theorem addedOutput_differs : ∃ v₁ v₂,
    addTxOuts (fun _ => 9) (fun _ => none) ∅ (coinbaseOf [separatorOut, coinOf 3]) 7 = .ok v₁ ∧
      addTxOutsSingly (fun _ => 9) (fun _ => none) ∅ (coinbaseOf [separatorOut, coinOf 3]) 7 =
        .ok v₂ ∧
      (v₁.lookup ⟨9, 2⟩).map UtxoEntry.isCoinBase = some true ∧
      (v₂.lookup ⟨9, 2⟩).map UtxoEntry.isCoinBase = some false :=
  ⟨_, _, rfl, rfl, by decide +kernel, by decide +kernel⟩

/-! ## Monitoring tokens -/

namespace Validate

variable (v : Views)

/-- The hashes of what `SetOfRights` finds for a set; a nested set fails the type assertion. -/
def memberHashes : List Hash → Result (List Hash)
  | [] => .ok []
  | r :: rest => do
    match v.stored r with
    | none => memberHashes rest
    | some (.right e) => return v.rightHash e :: (← memberHashes rest)
    | some (.rightSet _) => crash

/-- `validate.TokenRights`, of an entry of the view. -/
def tokenRights (x : UtxoEntry) : Result (List Hash) :=
  if x.tokenType &&& 2 = 0 then .ok []
  else
    match x.rights with
    | none => crash
    | some rs =>
      match v.stored rs with
      | none => .ok [rs]
      | some (.right e) => .ok [v.rightHash e]
      | some (.rightSet rights) => memberHashes v rights

/-- The rights, as adding outputs reads them. -/
def Views.rightView : RightView := fun h => (v.stored h).map fun
  | .right e => .right ⟨e.desc, e.attrib⟩
  | .rightSet rights => .rightSet rights

/-- A token carries a monitor right, by itself or in a set. -/
def Monitors (t : Token) (e : RightDef) : Prop :=
  t.tokenType &&& 2 ≠ 0 ∧ e.attrib &&& Monitor ≠ 0 ∧ ∃ rs, t.rights = some rs ∧
    (v.stored rs = some (.right e) ∨
      ∃ rights r, v.stored rs = some (.rightSet rights) ∧ r ∈ rights ∧
        v.stored r = some (.right e))

/-- An entry is marked, with the key of a monitor right. -/
def Indexed (t : TxOut) (x : UtxoEntry) : Prop :=
  x.isMonitoring = true ∧ ∃ e polygon, Monitors v t.toToken e ∧
    t.value = some (.hashToken polygon) ∧ x.monitor = (e.desc.drop 1).take 20 ++ hashBytes polygon

/-- Of the outputs added, those with a monitor right are marked, and no others. -/
def Marked (hash : Hash) (outs : List TxOut) (view : UtxoViewpoint) : Prop :=
  ∀ p ∈ outs.zipIdx, p.1.pays = true → p.1.leaves = false → ∀ x,
    view.lookup (outPointOf hash p) = some x → (Indexed v p.1 x ↔ ∃ e, Monitors v p.1.toToken e)

variable {v}

theorem memberHashes_eq_nil : ∀ {rights y : List Hash}, memberHashes v rights = .ok y →
    (y = [] ↔ ∀ r ∈ rights, v.stored r = none)
  | [], y, h => by
    cases h
    simp
  | r :: rest, y, h => by
    rw [memberHashes] at h
    rw [forall_mem_cons]
    split at h
    case h_1 hr => rw [memberHashes_eq_nil h, and_iff_right hr]
    case h_2 e hr =>
      obtain ⟨y', -, h⟩ := of_bind h
      cases h
      simp [hr]
    · cases h

/-- Two resolutions of rights agree only on a set of which nothing is there. -/
theorem tokenRights_eq_nil_iff {x : UtxoEntry} {rs : Hash} {y : List Hash}
    (hx : x.tokenType &&& 2 ≠ 0) (hrs : x.rights = some rs) (h : tokenRights v x = .ok y) :
    y = [] ↔ ∃ rights, v.stored rs = some (.rightSet rights) ∧ ∀ r ∈ rights, v.stored r = none := by
  simp only [tokenRights, if_neg hx, hrs] at h
  split at h
  · cases h
    simp [*]
  · cases h
    simp [*]
  case h_3 rights hset => simp [hset, memberHashes_eq_nil h]

/-- **Monitoring tokens are marked and the two lists of rights are the same**, just when there is
nothing to mark and nothing to list. -/
theorem monitors_iff {txHash : MsgTx → Hash} {view view' : UtxoViewpoint} {tx : MsgTx}
    {height : Int32} {x : UtxoEntry} {rs : Hash} {y y' : List Hash}
    (hlen : tx.txOut.length < 2 ^ 32)
    (hadd : addTxOuts txHash v.rightView view tx height = .ok view')
    (hx : x.tokenType &&& 2 ≠ 0) (hrs : x.rights = some rs)
    (hy : Zent.tokenRights v.rightView x = .ok y) (hy' : tokenRights v x = .ok y') :
    (Marked v (txHash tx) tx.txOut view' ∧ ∀ h, h ∈ y ↔ h ∈ y') ↔
      (∀ p ∈ tx.txOut.zipIdx, p.1.pays = true → p.1.leaves = false →
        ∀ e, ¬ Monitors v p.1.toToken e) ∧
      ∃ rights, v.stored rs = some (.rightSet rights) ∧ ∀ r ∈ rights, v.stored r = none := by
  obtain ⟨cb, -, hadd⟩ := of_bind hadd
  obtain ⟨hat, -⟩ := lookup_puts hlen (fun _ _ _ _ => addTxOutStep_eq_put) hadd
  rw [← tokenRights_eq_nil_iff hx hrs hy', tokenRights_eq_nil hy]
  refine and_congr (forall₄_congr fun p hp hpays hleaves => ?_) ?_
  · simp [hat p hp, hpays, hleaves, Indexed, addTxOut]
  · simp [eq_nil_iff_forall_not_mem]

/-- An entry with the right or the set of rights 1. -/
def heldEntry : UtxoEntry := ⟨3, some (.hashToken 2), some 1, [], 7, false, false, true, false, []⟩

/-- An output with them. -/
def heldOut : TxOut := ⟨⟨3, some (.hashToken 2), some 1⟩, (coinOf 0).pkScript⟩

/-- A set of two rights, neither of which is there. -/
def missingSet : Views where
  hashH _ := 0
  txHash _ := 9
  utxo := ∅
  stored h := if h = 1 then some (.rightSet [3, 4]) else none
  keyed h := by split at h <;> cases h

theorem missingSet_ne_right (h : Hash) (e : RightDef) : missingSet.stored h ≠ some (.right e) := by
  simp only [missingSet]
  split <;> nofun

theorem monitors_missingSet : ∃ view' y y',
    addTxOuts missingSet.txHash missingSet.rightView ∅ (coinbaseOf [coinOf 3, heldOut]) 7 =
        .ok view' ∧
      Zent.tokenRights missingSet.rightView heldEntry = .ok y ∧
      tokenRights missingSet heldEntry = .ok y' ∧
      Marked missingSet 9 (coinbaseOf [coinOf 3, heldOut]).txOut view' ∧ ∀ h, h ∈ y ↔ h ∈ y' := by
  have hx : heldEntry.tokenType &&& 2 ≠ 0 := by decide
  have hlen : (coinbaseOf [coinOf 3, heldOut]).txOut.length < 2 ^ 32 := by decide
  have hmissing : ∀ r ∈ [3, 4], missingSet.stored r = none := by simp [missingSet]
  obtain ⟨view', hadd⟩ : ∃ view', addTxOuts missingSet.txHash missingSet.rightView ∅
    (coinbaseOf [coinOf 3, heldOut]) 7 = .ok view' := ⟨_, rfl⟩
  refine ⟨view', _, _, hadd, rfl, rfl, (monitors_iff hlen hadd hx rfl rfl rfl).mpr
    ⟨?_, [3, 4], rfl, hmissing⟩⟩
  rintro p - - - e ⟨-, -, rs, -, hright | ⟨_, r, -, -, hright⟩⟩
  · exact missingSet_ne_right rs e hright
  · exact missingSet_ne_right r e hright

def monitorRight : RightDef := ⟨0, List.replicate 25 0x40, Monitor ||| 2⟩

/-- The only right is a monitor right. -/
def oneMonitor : Views where
  hashH _ := 1
  txHash _ := 9
  utxo := ∅
  stored h := if h = 1 then some (.right monitorRight) else none
  keyed h := by
    split at h
    · exact Eq.symm ‹_›
    · cases h

/-- A token with the right is not marked, and only one of the two lists has the right. -/
theorem monitor_unmarked : ∃ view' x,
    addTxOuts oneMonitor.txHash oneMonitor.rightView ∅ (coinbaseOf [heldOut]) 7 = .ok view' ∧
      view'.lookup ⟨9, 1⟩ = some x ∧ Monitors oneMonitor ⟨3, x.amount, x.rights⟩ monitorRight ∧
      x.isMonitoring = false ∧ Zent.tokenRights oneMonitor.rightView x = .ok [] ∧
      tokenRights oneMonitor x = .ok [1] :=
  ⟨_, _, rfl, rfl, ⟨by decide, by decide, 1, rfl, .inl rfl⟩, rfl, rfl, rfl⟩

end Validate

end Zent
