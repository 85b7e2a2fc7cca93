import Zent.Blockchain.TxChecks

/-!
# Conservation of value

Do the four checks of a transaction guarantee that no value is created? The fee
check compares totals of `int64` amounts, one for each accounting key, and relies
on the earlier checks to exclude overflow. Those bound the totals of each *raw*
type; the fee check merges all types that carry this chain's own id into one key,
so a merged total can wrap around although each of its parts is in range.
-/

namespace Zent

open Go List Prod

/-! ## What a transaction takes in and gives out -/

/-- The right-less amount an input refers to, with its type. -/
def spentValue (view : UtxoViewpoint) (t : TxIn) : Option (UInt64 × Int64) :=
  if t.isSepadding then none
  else
    match view.lookup t.previousOutPoint with
    | none => none
    | some utxo =>
      if utxo.tokenType &&& 3 = 0 then
        match utxo.amount with
        | some (.numToken v) => some (utxo.tokenType, v)
        | _ => none
      else none

/-- The right-less amount of an output, with its type. -/
def createdValue (out : TxOut) : Option (UInt64 × Int64) :=
  if out.isSeparator then none
  else if out.tokenType &&& 3 = 0 then
    match out.value with
    | some (.numToken v) => some (out.tokenType, v)
    | _ => none
  else none

/-- The right-less amounts spent by a transaction. -/
def spentValues (view : UtxoViewpoint) (tx : MsgTx) : List (UInt64 × Int64) :=
  tx.txIn.filterMap (spentValue view)

/-- The right-less amounts created by a transaction. -/
def createdValues (tx : MsgTx) : List (UInt64 × Int64) := tx.txOut.filterMap createdValue

/-- Every amount in the view is non-negative. -/
def NonNegative (view : UtxoViewpoint) : Prop :=
  ∀ o e v, view.lookup o = some e → e.amount = some (.numToken v) → 0 ≤ v.toInt

theorem spentValues_nonneg {view : UtxoViewpoint} (h : NonNegative view) (tx : MsgTx) :
    ∀ p ∈ spentValues view tx, 0 ≤ p.2.toInt := by
  intro p hp
  obtain ⟨t, _, ht⟩ := mem_filterMap.mp hp
  unfold spentValue at ht
  split at ht
  · cases ht
  split at ht
  · cases ht
  rename_i utxo hutxo
  split at ht
  · split at ht
    · rename_i v hv
      cases ht
      exact h _ utxo v hutxo hv
    · cases ht
  · cases ht

theorem createdValues_rightless {tx : MsgTx} {p : UInt64 × Int64} (hp : p ∈ createdValues tx) :
    p.1 &&& 3 = 0 := by
  obtain ⟨out, _, hout⟩ := mem_filterMap.mp hp
  unfold createdValue at hout
  split at hout
  · cases hout
  split at hout
  case isTrue h3 =>
    split at hout
    · cases hout
      exact h3
    · cases hout
  · cases hout

/-! ## Classes of types -/

section Classes

variable (params : Params)

/-- The class of a type. Types whose chain id is this chain's own, by either of the two tests of
the fee check, stand for the type without chain id; every other type is a class of its own. -/
def classOf (t : UInt64) : UInt64 :=
  if (t >>> 40).toUInt32 == params.chainID ∨ (t >>> 40).toUInt32 &&& 0x3FFFFF == params.chainID then
    t &&& 0xFFFFFFFFFF
  else t

theorem and_mask_idem (t : UInt64) :
    (t &&& 0xFFFFFFFFFF) &&& 0xFFFFFFFFFF = t &&& (0xFFFFFFFFFF : UInt64) := by
  rw [UInt64.and_assoc, UInt64.and_self]

@[simp] theorem classOf_mask (t : UInt64) :
    classOf params (t &&& 0xFFFFFFFFFF) = t &&& 0xFFFFFFFFFF := by
  unfold classOf
  split
  · exact and_mask_idem t
  · rfl

@[simp] theorem classOf_feeCoin : classOf params FeeCoinTyp = FeeCoinTyp :=
  classOf_mask params 0

theorem classOf_classOf (t : UInt64) : classOf params (classOf params t) = classOf params t := by
  by_cases h : (t >>> 40).toUInt32 == params.chainID ∨
      (t >>> 40).toUInt32 &&& 0x3FFFFF == params.chainID
  · have hc : classOf params t = t &&& 0xFFFFFFFFFF := if_pos h
    rw [hc, classOf_mask]
  · have hc : classOf params t = t := if_neg h
    rw [hc, hc]

theorem classOf_inKey (t : UInt64) : classOf params (inKey params t) = classOf params t := by
  by_cases h : (t >>> 40).toUInt32 == params.chainID
  · simp [inKey, classOf, h, and_mask_idem]
  · simp [inKey, h]

theorem classOf_outKey (t : UInt64) : classOf params (outKey params t) = classOf params t := by
  by_cases h : (t >>> 40).toUInt32 &&& 0x3FFFFF == params.chainID
  · simp [outKey, classOf, h, and_mask_idem]
  · simp [outKey, h]

variable {t k : UInt64}

/-- A key of the inputs that does not stand for its class is a raw type that the input test does
not recognise. -/
theorem inKey_stray (hk : classOf params k ≠ k) (h : inKey params t = k) :
    t = k ∧ ((k >>> 40).toUInt32 == params.chainID) = false := by
  by_cases ht : (t >>> 40).toUInt32 == params.chainID
  · rw [inKey, if_pos ht] at h
    exact absurd (h ▸ classOf_mask params t) hk
  · rw [inKey, if_neg ht] at h
    exact ⟨h, by simpa [← h] using ht⟩

theorem outKey_stray (hk : classOf params k ≠ k) (h : outKey params t = k) :
    t = k ∧ ((k >>> 40).toUInt32 &&& 0x3FFFFF == params.chainID) = false := by
  by_cases ht : (t >>> 40).toUInt32 &&& 0x3FFFFF == params.chainID
  · rw [outKey, if_pos ht] at h
    exact absurd (h ▸ classOf_mask params t) hk
  · rw [outKey, if_neg ht] at h
    exact ⟨h, by simpa [← h] using ht⟩

theorem stray_one_side {u : UInt64} (hk : classOf params k ≠ k) (hin : inKey params t = k)
    (hout : outKey params u = k) : False := by
  have h1 := (inKey_stray params hk hin).2
  have h2 := (outKey_stray params hk hout).2
  apply hk
  simp [classOf, h1, h2]

end Classes

/-! ## What the loops compute -/

/-- One step of the sanity loop adds the output's amount to the total of its raw type, which
stays non-negative. -/
theorem sanityTotalStep_eq_ok {totals totals' : Map UInt64 Int64} {out : TxOut}
    (h : sanityTotalStep totals out = .ok totals') :
    (createdValue out = none ∧ ∀ t, t &&& 3 = 0 → totals'.get t = totals.get t) ∨
      ∃ t v, createdValue out = some (t, v) ∧ totals' = bump totals t v ∧
        0 ≤ v.toInt ∧ 0 ≤ (totals'.get t).toInt := by
  simp only [sanityTotalStep] at h
  split at h
  case isTrue hskip =>
    cases h
    refine .inl ⟨?_, fun _ _ => rfl⟩
    simp only [Bool.or_eq_true, Token.isNumeric, Bool.not_eq_true', beq_eq_false_iff_ne] at hskip
    rcases hskip with hsep | hhash
    · simp [createdValue, hsep]
    have h3 : out.tokenType &&& 3 ≠ 0 := by
      intro h3
      apply hhash
      have : out.tokenType &&& 1 = (out.tokenType &&& 3) &&& 1 := by
        rw [UInt64.and_assoc]; rfl
      rw [this, h3]; rfl
    simp [createdValue, h3]
  case isFalse hskip =>
    obtain ⟨v, hv, h⟩ := of_bind h
    obtain ⟨_, hneg, h⟩ := of_bind h
    obtain ⟨_, _, h⟩ := of_bind h
    obtain ⟨_, htotal, h⟩ := of_bind h
    obtain ⟨_, _, h⟩ := of_bind h
    cases h
    rw [numVal_eq_ok] at hv
    simp only [ruleIf, failIf_eq_ok, Int64.lt_iff_toInt_lt, Int64.toInt_zero, not_lt] at hneg htotal
    have hsep : out.isSeparator = false := by
      simp only [Bool.or_eq_true, not_or, Bool.not_eq_true] at hskip
      exact hskip.1
    by_cases h3 : out.tokenType &&& 3 = 0
    · exact .inr ⟨out.tokenType, v, by simp [createdValue, hsep, h3, hv], rfl, hneg, htotal⟩
    refine .inl ⟨by simp [createdValue, hsep, h3], fun t ht => ?_⟩
    have hne : t ≠ out.tokenType := by
      rintro rfl
      exact h3 ht
    rw [get_bump, if_neg hne]

/-- **What the sanity check establishes.** The exact total of each raw type is in the `int64`
range. -/
theorem checkTransactionSanity_total {rules : Rules} {tx : MsgTx}
    (h : checkTransactionSanity rules tx = .ok ()) (t : UInt64) :
    0 ≤ total (createdValues tx) t ∧ total (createdValues tx) t < 2 ^ 63 := by
  by_cases ht : t &&& 3 = 0
  case neg =>
    -- nothing of this type is counted
    have hnot : t ∉ (createdValues tx).map fst := by
      intro hmem
      obtain ⟨p, hp, rfl⟩ := mem_map.mp hmem
      exact ht (createdValues_rightless hp)
    rw [total_eq_zero_of_notMem hnot]
    decide
  obtain ⟨_, totals, hrun, _⟩ := checkTransactionSanity_eq_ok h
  -- the map holds the exact total itself, not only its residue
  have hinv := foldlM_induction
    (P := fun done (m : Map UInt64 Int64) =>
      0 ≤ total (done.filterMap createdValue) t ∧
        (m.get t).toInt = total (done.filterMap createdValue) t)
    (by simp [Map.get]) ?_ hrun
  · have hlt := Int64.toInt_lt (totals.get t)
    rw [hinv.2] at hlt
    exact ⟨hinv.1, hlt⟩
  · rintro done out m m' ⟨hnn, hget⟩ hstep
    rw [filterMap_append, total_append]
    obtain ⟨hnone, hsame⟩ | ⟨u, v, hsome, rfl, hv, hu⟩ := sanityTotalStep_eq_ok hstep
    · simp [hnone, hsame t ht, hnn, hget]
    by_cases hut : u = t
    · subst hut
      rw [get_bump, if_pos rfl] at hu ⊢
      rw [toInt_add_of_nonneg (hget ▸ hnn) hv hu]
      simp only [hsome, filterMap_cons, filterMap_nil, total_cons, total_nil, if_true]
      omega
    · simp [hsome, total_cons, hut, get_bump, Ne.symm hut, hnn, hget]

section Fees

variable {params : Params} {rules : Rules} {txHash : MsgTx → Hash} {view : UtxoViewpoint}
  {s : FeeOuts} {tx : MsgTx}

theorem feeInStep_eq_ok {m m' : Map UInt64 Int64} {t : TxIn}
    (h : feeInStep params view m t = .ok m') :
    m' = tally m (rekey (inKey params) ([t].filterMap (spentValue view))) := by
  simp only [feeInStep, UtxoViewpoint.lookupEntry] at h
  split at h
  case isTrue hpad =>
    cases h
    simp [spentValue, hpad, rekey]
  rename_i hpad
  split at h
  case h_1 hnone =>
    cases h
    simp [spentValue, hnone, rekey]
  rename_i utxo hsome
  split at h
  case isTrue hright =>
    cases h
    have h3 : utxo.tokenType &&& 3 ≠ 0 := by simpa using hright
    simp [spentValue, hsome, h3, rekey]
  rename_i hright
  obtain ⟨v, hv, h⟩ := of_bind h
  cases h
  have h3 : utxo.tokenType &&& 3 = 0 := by simpa using hright
  simp [spentValue, hpad, hsome, h3, numVal_eq_ok.mp hv, rekey]

theorem feeOutStep_eq_ok {s' : FeeOuts} {out : TxOut} (h : feeOutStep params rules s out = .ok s') :
    s'.totalHaoOut =
      tally s.totalHaoOut (rekey (outKey params) ([out].filterMap createdValue)) := by
  simp only [feeOutStep] at h
  split at h
  case isTrue hskip =>
    cases h
    simp only [Bool.or_eq_true, bne_iff_ne, ne_eq] at hskip
    rcases hskip with hsep | hright
    · simp [createdValue, hsep, rekey]
    · simp [createdValue, hright, rekey]
  rename_i hskip
  simp only [Bool.or_eq_true, bne_iff_ne, ne_eq, not_or, not_not, Bool.not_eq_true] at hskip
  split at h
  case isTrue hnil =>
    cases h
    have hv : out.value = none := by simpa using hnil
    simp [createdValue, hskip.1, hskip.2, hv, rekey]
  obtain ⟨fees, _, h⟩ := of_bind h
  obtain ⟨v, hv, h⟩ := of_bind h
  obtain ⟨_, _, h⟩ := of_bind h
  cases h
  simp [createdValue, hskip.1, hskip.2, numVal_eq_ok.mp hv, rekey]

/-- The input loop of the fee check tallies what the inputs refer to, by key. -/
theorem feeIn_tally {m : Map UInt64 Int64} (h : tx.txIn.foldlM (feeInStep params view) ∅ = .ok m) :
    m = tally ∅ (rekey (inKey params) (spentValues view tx)) := by
  refine foldlM_induction (P := fun done m => m = tally ∅ (rekey (inKey params) (done.filterMap
    (spentValue view)))) rfl ?_ h
  rintro done t m m' rfl hstep
  rw [feeInStep_eq_ok hstep, filterMap_append, rekey, rekey, rekey, map_append, tally_append]

/-- The output loop of the fee check tallies the outputs, by key. -/
theorem feeOut_tally (h : tx.txOut.foldlM (feeOutStep params rules) ⟨∅, 0, ∅⟩ = .ok s) :
    s.totalHaoOut = tally ∅ (rekey (outKey params) (createdValues tx)) := by
  refine foldlM_induction
    (P := fun done (s : FeeOuts) =>
      s.totalHaoOut = tally ∅ (rekey (outKey params) (done.filterMap createdValue)))
    rfl ?_ h
  intro done out s s' hs hstep
  rw [feeOutStep_eq_ok hstep, hs, filterMap_append, rekey, rekey, rekey, map_append, tally_append]

/-! ## What the fee check establishes -/

/-- The wrapped totals agree under every key other than that of the fee coin, and cover the
outputs under that one. -/
structure Settled (ins outs : List (UInt64 × Int64)) : Prop where
  /-- other tokens are spent exactly -/
  token : ∀ k, k ≠ FeeCoinTyp → Int64.ofInt (total ins k) = Int64.ofInt (total outs k)
  /-- if fee coins are created, the fee coins spent cover them -/
  feeCoin : FeeCoinTyp ∈ outs.map fst →
    (Int64.ofInt (total outs FeeCoinTyp)).toInt ≤ (Int64.ofInt (total ins FeeCoinTyp)).toInt

theorem settleFees_settled {ins outs : List (UInt64 × Int64)}
    {fee : Int64} (hs : s.totalHaoOut = tally ∅ outs)
    (h : settleFees params txHash tx (tally ∅ ins) s = .ok fee) : Settled ins outs := by
  obtain ⟨_, _, h⟩ := of_bind h
  obtain ⟨_, hcovered, h⟩ := of_bind h
  obtain ⟨_, hspent, _⟩ := of_bind h
  rw [hs] at hcovered hspent
  have hout : ∀ k ∈ tally ∅ outs, ¬ (tally ∅ ins).get k < (tally ∅ outs).get k ∧
      ¬ (k ≠ FeeCoinTyp ∧ (tally ∅ ins).get k ≠ (tally ∅ outs).get k) := by
    intro k hk
    obtain ⟨_, h1, h2⟩ := of_bind (forM_eq_ok.mp hcovered _ (get_of_mem_entries hk))
    exact ⟨failIf_eq_ok.mp h1, failIf_eq_ok.mp h2⟩
  have hin : ∀ k ∈ tally ∅ ins,
      ¬ (k ≠ FeeCoinTyp ∧ (tally ∅ outs).get k ≠ (tally ∅ ins).get k) := by
    intro k hk
    exact failIf_eq_ok.mp (forM_eq_ok.mp hspent _ (get_of_mem_entries hk))
  refine ⟨fun k hk => ?_, fun hfee => ?_⟩
  · rw [← get_tally_empty, ← get_tally_empty]
    by_cases hko : k ∈ tally ∅ outs
    · by_contra hne
      exact (hout k hko).2 ⟨hk, hne⟩
    by_cases hki : k ∈ tally ∅ ins
    · by_contra hne
      exact hin k hki ⟨hk, Ne.symm hne⟩
    · rw [get_of_notMem hko, get_of_notMem hki]
  · have hmem : FeeCoinTyp ∈ tally ∅ outs := (mem_tally _ _ _).mpr (.inl hfee)
    have hle := (hout FeeCoinTyp hmem).1
    rw [get_tally_empty, get_tally_empty, Int64.lt_iff_toInt_lt, not_lt] at hle
    exact hle

theorem checkTransactionFees_settled {r : Int64 × Map UInt64 Int64} (hx : tx.isCrossChain = false)
    (h : checkTransactionFees params rules txHash tx view = .ok r) :
    Settled (rekey (inKey params) (spentValues view tx))
      (rekey (outKey params) (createdValues tx)) := by
  obtain ⟨direct, _, h⟩ := of_bind h
  rw [hx] at h
  obtain ⟨totalIns, hins, h⟩ := of_bind h
  obtain ⟨outs, houts, h⟩ := of_bind h
  obtain ⟨fee, hfee, _⟩ := of_bind h
  rw [feeIn_tally hins] at hfee
  exact settleFees_settled (feeOut_tally houts) hfee

end Fees

/-! ## Conservation -/

section Conservation

variable (params : Params) (rules : Rules) (txHash : MsgTx → Hash)

/-- The four checks of a transaction succeed. -/
structure Accepted (tx : MsgTx) (txHeight : Int32) (view : UtxoViewpoint) : Prop where
  sanity : checkTransactionSanity rules tx = .ok ()
  inputs : checkTransactionInputs params rules txHash tx txHeight view = .ok ()
  additional : checkAdditionalTransactionInputs rules txHash tx view = .ok ()
  fees : ∃ r, checkTransactionFees params rules txHash tx view = .ok r

/-- The exact total of what a transaction spends in the class `c`. -/
def valueIn (view : UtxoViewpoint) (tx : MsgTx) (c : UInt64) : Int :=
  total (rekey (classOf params) (spentValues view tx)) c

/-- The exact total of what a transaction creates in the class `c`. -/
def valueOut (tx : MsgTx) (c : UInt64) : Int :=
  total (rekey (classOf params) (createdValues tx)) c

/-- **Conservation of value.** In every class of right-less numeric types as much goes out as
comes in, except that fee coins may be left over. -/
def Conserved (view : UtxoViewpoint) (tx : MsgTx) : Prop :=
  ∀ t : UInt64, t &&& 3 = 0 →
    (classOf params t = FeeCoinTyp →
      valueOut params tx FeeCoinTyp ≤ valueIn params view tx FeeCoinTyp) ∧
    (classOf params t ≠ FeeCoinTyp →
      valueOut params tx (classOf params t) = valueIn params view tx (classOf params t))

/-- In every class the total out leaves the `int64` range as often as the total in; for fee
coins, at most as often. -/
def SameTurns (view : UtxoViewpoint) (tx : MsgTx) : Prop :=
  ∀ t : UInt64, t &&& 3 = 0 →
    (classOf params t = FeeCoinTyp →
      turns (valueOut params tx FeeCoinTyp) ≤ turns (valueIn params view tx FeeCoinTyp)) ∧
    (classOf params t ≠ FeeCoinTyp →
      turns (valueOut params tx (classOf params t)) =
        turns (valueIn params view tx (classOf params t)))

end Conservation

section

variable {params : Params} {rules : Rules} {txHash : MsgTx → Hash} {k : UInt64}
  {view : UtxoViewpoint} {tx : MsgTx}

theorem stray_ne_feeCoin (hk : classOf params k ≠ k) : k ≠ FeeCoinTyp := by
  rintro rfl
  exact hk (classOf_feeCoin params)

theorem mem_keys_rekey {f : UInt64 → UInt64} {l : List (UInt64 × Int64)}
    (h : k ∈ (rekey f l).map fst) : ∃ t, f t = k := by
  rw [map_fst_rekey] at h
  obtain ⟨t, _, ht⟩ := mem_map.mp h
  exact ⟨t, ht⟩

/-- Under a stray key one of the two totals is empty, so the fee check makes the other vanish
modulo `2^64`. -/
theorem Settled.stray {spent created : List (UInt64 × Int64)}
    (h : Settled (rekey (inKey params) spent) (rekey (outKey params) created))
    (hk : classOf params k ≠ k) :
    total (rekey (inKey params) spent) k ≡ 0 [ZMOD 2 ^ 64] ∧
      total (rekey (outKey params) created) k ≡ 0 [ZMOD 2 ^ 64] := by
  have heq := (wrap_eq_iff_modEq _ _).mp (h.token k (stray_ne_feeCoin hk))
  by_cases hin : k ∈ (rekey (inKey params) spent).map fst
  · have hout : k ∉ (rekey (outKey params) created).map fst := by
      intro hout
      obtain ⟨t, ht⟩ := mem_keys_rekey hin
      obtain ⟨u, hu⟩ := mem_keys_rekey hout
      exact stray_one_side params hk ht hu
    rw [total_eq_zero_of_notMem hout] at heq ⊢
    exact ⟨heq, rfl⟩
  · rw [total_eq_zero_of_notMem hin] at heq ⊢
    exact ⟨rfl, heq.symm⟩

/-- A class total of the inputs wraps to the total under the class's own key. -/
theorem Settled.valueIn_wrap (h : Settled (rekey (inKey params) (spentValues view tx))
      (rekey (outKey params) (createdValues tx))) {c : UInt64} (hc : classOf params c = c) :
    Int64.ofInt (valueIn params view tx c) =
      Int64.ofInt (total (rekey (inKey params) (spentValues view tx)) c) := by
  rw [valueIn, rekey_absorb (classOf_inKey params), wrap_eq_iff_modEq]
  refine total_rekey_modEq hc _ (fun k hk hne => (h.stray ?_).1)
  rw [hk]
  exact Ne.symm hne

section

variable (hsane : checkTransactionSanity rules tx = .ok ())
  (h : Settled (rekey (inKey params) (spentValues view tx))
    (rekey (outKey params) (createdValues tx)))

include hsane h

/-- Under a stray key nothing goes out: its total is that of one raw type, which the sanity
check keeps in range. -/
theorem Settled.stray_out (hk : classOf params k ≠ k) :
    total (rekey (outKey params) (createdValues tx)) k = 0 := by
  by_cases hmem : k ∈ (rekey (outKey params) (createdValues tx)).map fst
  · obtain ⟨t, ht⟩ := mem_keys_rekey hmem
    have hfix : ∀ u, outKey params u = k ↔ u = k := by
      intro u
      constructor
      · intro hu
        exact (outKey_stray params hk hu).1
      · rintro rfl
        obtain ⟨rfl, _⟩ := outKey_stray params hk ht
        exact ht
    have hraw := total_rekey_of_fixed (createdValues tx) hfix
    have hdvd := Int.modEq_zero_iff_dvd.mp (h.stray hk).2
    have hrange := checkTransactionSanity_total hsane k
    omega
  · exact total_eq_zero_of_notMem hmem

/-- A class total of the outputs is the exact total under the class's own key. -/
theorem Settled.valueOut_eq {c : UInt64} (hc : classOf params c = c) :
    valueOut params tx c = total (rekey (outKey params) (createdValues tx)) c := by
  rw [valueOut, rekey_absorb (classOf_outKey params)]
  refine total_rekey_eq hc _ (fun k hk hne => h.stray_out hsane ?_)
  rw [hk]
  exact Ne.symm hne

end

/-- **When value is conserved.** A transaction that passes the four checks conserves value
exactly when, in every class, the totals in and out wrap around the `int64` range equally often
(out at most as often as in, for fee coins). -/
theorem conserved_iff_sameTurns {tx : MsgTx} {txHeight : Int32} {view : UtxoViewpoint}
    (hx : tx.isCrossChain = false) (hview : NonNegative view)
    (h : Accepted params rules txHash tx txHeight view) :
    Conserved params view tx ↔ SameTurns params view tx := by
  obtain ⟨r, hfees⟩ := h.fees
  have hset := checkTransactionFees_settled hx hfees
  have hfee : valueOut params tx FeeCoinTyp ≤ valueIn params view tx FeeCoinTyp ↔
      turns (valueOut params tx FeeCoinTyp) ≤ turns (valueIn params view tx FeeCoinTyp) := by
    have hin := hset.valueIn_wrap (classOf_feeCoin params)
    have hout := hset.valueOut_eq h.sanity (classOf_feeCoin params)
    by_cases hmem : FeeCoinTyp ∈ (rekey (outKey params) (createdValues tx)).map fst
    · apply le_iff_turns_le
      rw [hin, hout]
      exact hset.feeCoin hmem
    -- no fee coin goes out: nothing is left to compare
    have hnn : 0 ≤ valueIn params view tx FeeCoinTyp := by
      apply total_nonneg
      intro p hp
      obtain ⟨q, hq, rfl⟩ := mem_map.mp hp
      exact spentValues_nonneg hview tx q hq
    rw [hout, total_eq_zero_of_notMem hmem]
    exact ⟨fun _ => turns_nonneg hnn, fun _ => hnn⟩
  have htoken : ∀ t, classOf params t ≠ FeeCoinTyp →
      (valueOut params tx (classOf params t) = valueIn params view tx (classOf params t) ↔
        turns (valueOut params tx (classOf params t)) =
          turns (valueIn params view tx (classOf params t))) := by
    intro t ht
    apply eq_iff_turns_eq
    rw [hset.valueIn_wrap (classOf_classOf params t),
      hset.valueOut_eq h.sanity (classOf_classOf params t), hset.token _ ht]
  constructor
  · intro hcons t ht
    exact ⟨fun hc => hfee.mp ((hcons t ht).1 hc), fun hc => (htoken t hc).mp ((hcons t ht).2 hc)⟩
  · intro hturns t ht
    exact ⟨fun hc => hfee.mpr ((hturns t ht).1 hc),
      fun hc => (htoken t hc).mpr ((hturns t ht).2 hc)⟩

end

/-! ## A transaction that creates value

One fee coin of `10^8` hao goes in. Out go `10^8 + 2` hao of the plain type and `2^63 - 1` hao of
a type whose chain id is `0x400001`, which the output test takes for chain 1. Each raw type is in
range; their sum under the fee coin's key wraps to a negative number, so the inputs cover it and
the difference is even booked as a fee of `2^63 - 1`. -/

def overflowTx : MsgTx :=
  plainTx [⟨⟨7, 0⟩, 0xFFFFFFFF, 0⟩]
    [coinOut 100000002,
      ⟨⟨0x4000010000000000, some (.numToken 9223372036854775807), none⟩, payScript⟩]

theorem oneCoinView_nonNegative : NonNegative oneCoinView := by
  intro o e v hlook hv
  rw [oneCoinView_lookup hlook] at hv
  cases hv
  decide

theorem overflowTx_accepted :
    Accepted Params.plain Rules.permissive (fun _ => 9) overflowTx 5 oneCoinView where
  sanity := by decide
  inputs := by decide
  additional := by decide
  fees := ⟨(9223372036854775807, ∅), rfl⟩

/-- **Value out of nothing.** All four checks accept the transaction, and it does not conserve
value. -/
theorem overflowTx_not_conserved :
    Accepted Params.plain Rules.permissive (fun _ => 9) overflowTx 5 oneCoinView ∧
      NonNegative oneCoinView ∧ overflowTx.isCrossChain = false ∧
      overflowTx.isCoinBase (ε := ChainError) = .ok false ∧
      ¬ Conserved Params.plain oneCoinView overflowTx := by
  refine ⟨overflowTx_accepted, oneCoinView_nonNegative, by decide, by decide, fun h => ?_⟩
  have hle := (h FeeCoinTyp (by decide)).1 (by decide)
  exact absurd hle (by decide)

/-- The transaction's outputs wrap once more than its inputs. -/
theorem overflowTx_conserved_iff :
    Accepted Params.plain Rules.permissive (fun _ => 9) overflowTx 5 oneCoinView ∧
      (Conserved Params.plain oneCoinView overflowTx ↔
        SameTurns Params.plain oneCoinView overflowTx) :=
  ⟨overflowTx_accepted,
    conserved_iff_sameTurns (by decide) oneCoinView_nonNegative overflowTx_accepted⟩

end Zent
