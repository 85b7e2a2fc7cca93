import Zent.Go.Returns
import Zent.Validate.RightsOrder

/-!
# The verdict on the rights of a transaction

Runs of `QuickCheckRight` that end come to the same amounts, read from the value of the map in
coordinates, and so to the same verdict.
-/

namespace Zent.Validate

open Go AList

section

variable {v : Views} {rts : Map Hash RightDef} {m₀ : Map RElement Int64}
  (hfree : CollisionFree v rts) (hrts : RightsKeyed v rts)
  (hm : Orderly v rts m₀)

/-! ## The end of a run -/

/-- When all is settled, the value of the map is what it reads. -/
theorem get_eq_worth {w : Work} (hcalm : Calm v rts m₀ w)
    (hdone : ∀ k ∈ w.sumVals.vals, Settled v rts w k) (k : RElement) :
    ((w.sumVals.vals.get k).toInt : ZMod (2 ^ 64)) = worth (coords v rts) m₀ k := by
  have hcoords : ∀ e ∈ w.sumVals.vals.entries, coords v rts e.1 = Pi.single e.1 1 := by
    intro e he
    obtain ⟨-, g, hg, hneg⟩ := hdone e.1 (List.mem_keys_of_mem he)
    refine coords_of_not_negative fun g' hg' => ?_
    cases hg.symm.trans hg'
    exact hneg
  rw [← hcalm.value, worth_apply, worth_of_single (k := k)]
  · by_cases hk : k ∈ w.sumVals.vals
    · rw [hcoords _ (get_of_mem_entries hk), Pi.single_eq_same, zsmul_eq_mul, mul_one]
    · rw [get_of_notMem hk, Int64.toInt_zero, zero_smul, Int.cast_zero]
  · intro e he hne
    rw [hcoords e he, Pi.single_eq_of_ne hne.symm, smul_zero]

include hfree hrts hm in
/-- Nothing but a negative right counts at its positive sibling, when that is undefined and all
fathers are defined. -/
theorem worth_positiveOf {n : RElement} {g : RightDef} (hn : Origin v rts m₀ n g)
    (hfathers : ∀ n g, Origin v rts m₀ n g → ∃ f, fetch v rts g.father = some f)
    (hnone : fetch v rts (positiveOf v n g).right = none) :
    worth (coords v rts) m₀ (positiveOf v n g) = -(m₀.get n).toInt := by
  have hdefined : ∀ k g', fetch v rts k.right = some g' →
      (Pi.single k 1 : RElement → ZMod (2 ^ 64)) (positiveOf v n g) = 0 := by
    intro k g' hg'
    refine Pi.single_eq_of_ne (fun heq => ?_) 1
    rw [← heq, hnone] at hg'
    cases hg'
  rw [worth_apply, worth_of_single (k := n)]
  · obtain ⟨f, hf⟩ := hfathers n g hn
    rw [coords_of_negative hn.fetched hn.negative, Pi.sub_apply, hdefined (fatherOf n g) f hf,
      Pi.single_eq_same, zero_sub, smul_neg, zsmul_eq_mul, mul_one]
  · intro e he hne
    by_cases hzero : e.2 = 0
    · rw [hzero, Int64.toInt_zero, zero_smul]
    have hget : m₀.get e.1 ≠ 0 := by
      rw [Map.get, mem_lookup_iff.mpr he]
      exact hzero
    obtain ⟨g', hg', -⟩ := hm.fetched hget
    cases hneg : g'.isNegative with
    | true =>
      have hn' : Origin v rts m₀ e.1 g' := ⟨hget, hg', hneg⟩
      obtain ⟨f', hf'⟩ := hfathers e.1 g' hn'
      have hpos : positiveOf v n g ≠ positiveOf v e.1 g' :=
        fun heq => hne (origin_unique hfree hrts hn hn' heq).symm
      rw [coords_of_negative hg' hneg, Pi.sub_apply, hdefined (fatherOf e.1 g') f' hf',
        Pi.single_eq_of_ne hpos, sub_zero, smul_zero]
    | false =>
      have hcoords : coords v rts e.1 = Pi.single e.1 1 := by
        refine coords_of_not_negative fun g'' hg'' => ?_
        cases hg'.symm.trans hg''
        exact hneg
      rw [hcoords, hdefined e.1 g' hg', smul_zero]

include hfree hrts hm in
/-- A run in which something is lacking does not come to the end of the loop. -/
theorem not_lacking {w : Work} (hcalm : Calm v rts m₀ w)
    (hdone : ∀ k ∈ w.sumVals.vals, Settled v rts w k) : ¬ Lacking v rts m₀ := by
  -- what is left is settled, so all that was negative has been moved
  have hread : ∀ k, w.sumVals.vals.get k ≠ 0 → Settled v rts w k := by
    intro k hk
    refine hdone k ?_
    by_contra hnot
    exact hk (get_of_notMem hnot)
  have hmoved : ∀ n g, Origin v rts m₀ n g → ∃ f, fetch v rts g.father = some f := by
    intro n g hn
    refine (hcalm.father n g hn).resolve_left fun hget => ?_
    obtain ⟨-, g', hg', hneg⟩ := hread n (hget ▸ hn.amount)
    cases hn.fetched.symm.trans hg'
    rw [hn.negative] at hneg
    cases hneg
  rintro ⟨n, g, hn, hlack⟩
  obtain ⟨f, hf⟩ := hmoved n g hn
  have hnone : fetch v rts (positiveOf v n g).right = none :=
    hlack.resolve_left fun hnone => by rw [hf] at hnone; cases hnone
  have hzero : w.sumVals.vals.get (positiveOf v n g) = 0 := by
    by_contra hne
    obtain ⟨-, g', hg', -⟩ := hread _ hne
    rw [hnone] at hg'
    cases hg'
  have hvalue := get_eq_worth hcalm hdone (positiveOf v n g)
  rw [worth_positiveOf hfree hrts hm hn hmoved hnone, hzero, Int64.toInt_zero, Int.cast_zero]
    at hvalue
  refine hn.amount (eq_of_cast_eq ?_)
  exact neg_eq_zero.mp hvalue.symm

end

/-! ## The verdict -/

/-- The verdict `(bool, error or no error)` of a result. -/
def verdictOf (r : Checked Bool) : Outcome Unit Bool := mapFail (fun _ => ()) r

section

variable {v : Views} {tx : MsgTx} {sh : Shuffle ((_ : RElement) × Int64)} {checkPolygon : Bool}
  {w : Work}

theorem returns_verdict : Returns (verdict v tx sh checkPolygon w) := by
  have hloop : ∀ (format : String) (l : List ((_ : RElement) × Int64)),
      Returns (l.forM (notIntegral format v tx)) :=
    fun format l => returns_forM fun e _ => returns_failIf _ _
  exact returns_bind.mpr ⟨hloop _ _, fun _ _ => returns_bind.mpr ⟨hloop _ _, fun _ _ => nofun⟩⟩

/-- An amount of a type that is checked is left. -/
theorem verdictOf_left {k : RElement} (hk : k.tokenType ≠ 3) (hget : w.sumVals.vals.get k ≠ 0) :
    verdictOf (verdict v tx sh checkPolygon w) = fail () := by
  have hmem : k ∈ w.sumVals.vals := by
    by_contra hnot
    exact hget (get_of_notMem hnot)
  match hresult : verdict v tx sh checkPolygon w with
  | .ok b => exact absurd ((eq_zero_of_verdict hresult).1 _ (get_of_mem_entries hmem) hk) hget
  | .error (.error _) => rfl
  | .error .panic => exact absurd hresult returns_verdict

theorem verdictOf_none (hsiblings : w.siblingVals = ∅)
    (h : ∀ k, k.tokenType ≠ 3 → w.sumVals.vals.get k = 0) :
    verdictOf (verdict v tx sh checkPolygon w) =
      .ok (decide (w.sumVals.vals.entries.length = 0) && checkPolygon) := by
  have hsums : (sh.run w.sumVals.vals.entries).forM
      (notIntegral "sumVals: The Tx %s is not integral. Tokentype = %d val %d" v tx) = .ok () := by
    refine forM_eq_ok.mpr fun e he => failIf_eq_ok.mpr fun hleft => hleft.2 ?_
    have hget : w.sumVals.vals.get e.1 = e.2 := by
      rw [Map.get, mem_lookup_iff.mpr (sh.mem_run.mp he)]
      rfl
    rw [← hget]
    exact h e.1 hleft.1
  have hnone : sh.run (∅ : Map RElement Int64).entries = [] := sh.run_nil
  simp only [verdict, hsums, hsiblings, hnone, ok_bind]
  simp [verdictOf, mapFail, pure, Except.pure, bind, Except.bind]

/-- Two maps that read the same, without zeros, are empty together. -/
theorem length_eq_zero_iff {m m' : Map RElement Int64} (hm : ∀ k ∈ m, m.get k ≠ 0)
    (hget : ∀ k, m.get k = m'.get k) : m'.entries.length = 0 → m.entries.length = 0 := by
  intro hempty
  rw [List.length_eq_zero_iff, List.eq_nil_iff_forall_not_mem]
  intro e he
  have hkey : e.1 ∈ m := List.mem_keys_of_mem he
  refine hm e.1 hkey ?_
  rw [hget, get_of_notMem]
  intro hmem
  have hkeys : e.1 ∈ m'.entries.keys := hmem
  rw [List.length_eq_zero_iff.mp hempty] at hkeys
  cases hkeys

theorem verdictOf_congr {w' : Work} {sh' : Shuffle ((_ : RElement) × Int64)}
    (hsiblings : w.siblingVals = ∅) (hsiblings' : w'.siblingVals = ∅)
    (hw : ∀ k ∈ w.sumVals.vals, w.sumVals.vals.get k ≠ 0)
    (hw' : ∀ k ∈ w'.sumVals.vals, w'.sumVals.vals.get k ≠ 0)
    (hget : ∀ k, w.sumVals.vals.get k = w'.sumVals.vals.get k) :
    verdictOf (verdict v tx sh checkPolygon w) = verdictOf (verdict v tx sh' checkPolygon w') := by
  by_cases hleft : ∃ k, k.tokenType ≠ 3 ∧ w.sumVals.vals.get k ≠ 0
  · obtain ⟨k, hk, hne⟩ := hleft
    rw [verdictOf_left hk hne, verdictOf_left hk (hget k ▸ hne)]
  have hzero : ∀ k, k.tokenType ≠ 3 → w.sumVals.vals.get k = 0 := by
    intro k hk
    by_contra hne
    exact hleft ⟨k, hk, hne⟩
  have hempty : w.sumVals.vals.entries.length = 0 ↔ w'.sumVals.vals.entries.length = 0 :=
    ⟨length_eq_zero_iff hw' fun k => (hget k).symm, length_eq_zero_iff hw hget⟩
  rw [verdictOf_none hsiblings hzero, verdictOf_none hsiblings' fun k hk => hget k ▸ hzero k hk,
    decide_eq_decide.mpr hempty]

end

/-- **The order makes no difference** when what is filed is orderly: two runs of the check have the
same verdict. -/
theorem verdict_unique (v : Views) (tx : MsgTx)
    (hfree : ∀ sumVals rts, ioRTokens v tx = .ok (sumVals, rts) → CollisionFree v rts)
    (horderly : ∀ sumVals rts, ioRTokens v tx = .ok (sumVals, rts) → Orderly v rts sumVals)
    (orders orders' : Orders) (r r' : Checked Bool) (h : quickCheckRight v tx orders = some r)
    (h' : quickCheckRight v tx orders' = some r') : verdictOf r = verdictOf r' := by
  cases hcovers : coversPolygon v tx with
  | error e =>
    simp only [quickCheckRight, hcovers, Option.some.injEq] at h h'
    rw [← h, ← h']
  | ok checkPolygon =>
    rcases hio : ioRTokens v tx with e | ⟨m₀, rts⟩
    · simp only [quickCheckRight, hcovers, hio, Option.some.injEq] at h h'
      rw [← h, ← h']
    · have hfree := hfree m₀ rts hio
      have hm := horderly m₀ rts hio
      have hrts : RightsKeyed v rts := by
        intro h e hlook
        rw [rts_of_ioRTokens hio] at hlook
        exact definedBy_keyed hlook
      have hinv : ∀ choices s, run v rts (enter m₀) choices = some s → Inv v rts m₀ s :=
        fun choices s hrun => inv_run hfree hrts hm (inv_enter hm) hrun
      simp only [quickCheckRight, hcovers, hio] at h h'
      split at h
      case h_1 w hrun =>
        obtain ⟨hcalm, hdone⟩ := hinv _ _ hrun
        cases h
        split at h'
        case h_1 w' hrun' =>
          obtain ⟨hcalm', hdone'⟩ := hinv _ _ hrun'
          cases h'
          refine verdictOf_congr hcalm.siblings hcalm'.siblings (fun k hk => (hdone k hk).1)
            (fun k hk => (hdone' k hk).1) fun k => eq_of_cast_eq ?_
          rw [get_eq_worth hcalm hdone, get_eq_worth hcalm' hdone']
        case h_2 hrun' => exact absurd (hinv _ _ hrun') (not_lacking hfree hrts hm hcalm hdone)
        · cases h'
      case h_2 hrun =>
        cases h
        split at h'
        case h_1 w' hrun' =>
          obtain ⟨hcalm', hdone'⟩ := hinv _ _ hrun'
          exact absurd (hinv _ _ hrun) (not_lacking hfree hrts hm hcalm' hdone')
        · cases h'
          rfl
        · cases h'
      · cases h

/-- Another order for the splitting of a right. -/
def splitChoices' : List Choice :=
  [.produce (elementOf rootRight), .step, .produce (elementOf leftRight), .step,
    .produce (elementOf leftRight.negative), .step, .step, .endPass,
    .produce (elementOf rootRight), .endPass]

/-- The verdict is the same. -/
theorem verdict_unique_split :
    ∃ r r', quickCheckRight splitViews splitTx ⟨splitChoices, .stored⟩ = some r ∧
      quickCheckRight splitViews splitTx ⟨splitChoices', .reversed⟩ = some r' ∧
      verdictOf r = verdictOf r' := by
  have hzero : NoZeroRight splitViews splitTx := by decide +kernel
  have hfirst : quickCheckRight splitViews splitTx ⟨splitChoices, .stored⟩ = some (.ok true) := by
    decide +kernel
  have hsecond : quickCheckRight splitViews splitTx ⟨splitChoices', .reversed⟩ =
      some (.ok true) := by
    decide +kernel
  refine ⟨.ok true, .ok true, hfirst, hsecond, ?_⟩
  refine verdict_unique splitViews splitTx (fun sumVals rts hio => ?_) (fun sumVals rts hio => ?_)
    _ _ _ _ hfirst hsecond
  · rw [show rts = ∅ from rts_of_ioRTokens hio]
    exact collisionFree_ofRights (by decide +kernel)
  · rw [ioRTokens_eq_ok hzero hio, show rts = ∅ from rts_of_ioRTokens hio]
    decide +kernel

/-! ### Two orders -/

/-- A right that is split from a negative one. -/
def lowerRight : RightDef := ⟨sampleHash leftRight.negative.bytes, [3], 0⟩

/-- Five tokens of a negative right are unspent. -/
def lowerViews : Views :=
  .ofRights sampleHash (singleton ⟨7, 0⟩ (unspentRight leftRight.negative 5))
    [rootRight, leftRight, leftRight.negative, lowerRight, lowerRight.negative]

/-- They are split into five of each half. -/
def lowerTx : MsgTx where
  version := 1
  txDef := []
  txIn := [⟨⟨7, 0⟩, 0, 0⟩]
  txOut := [payRight lowerRight 5, payRight lowerRight.negative 5]
  lockTime := 0
  signatureScripts := []

/-- **The order matters.** When the range produces the spent right first, all amounts are put
together. When it produces the negative half first, five are filed for a sibling; the spent right
then makes this a zero, which is never deleted. -/
theorem order_matters :
    quickCheckRight lowerViews lowerTx
        ⟨[.produce (elementOf leftRight.negative), .step, .step,
          .produce (elementOf lowerRight.negative), .step, .step, .step, .endPass,
          .produce (elementOf rootRight), .endPass], .stored⟩ = some (.ok true) ∧
      quickCheckRight lowerViews lowerTx
        ⟨[.produce (elementOf lowerRight.negative), .step, .step,
          .produce (elementOf leftRight.negative), .step, .endPass], .stored⟩ =
        some (.ok false) := by
  constructor
  · decide +kernel
  · decide +kernel

end Zent.Validate
