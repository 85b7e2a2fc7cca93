import Mathlib.Data.ZMod.Basic
import Zent.Validate.RightsConservation

/-!
# The order in which rights are checked

`QuickCheckRight` ranges over the map it works on, so its steps come in any order. When each right
in the map is defined, and no negative one is split from a negative one or has an amount whose
square leaves the range of `int64`, the order makes no difference: a negative right is moved at
once to its positive sibling and its father, and nothing is left for the siblings.

* `Inv`, `inv_run` — what a run keeps: `Calm` between visits, with the value of the map in
  coordinates modulo `2^64`.
-/

namespace Zent.Validate

open Go Ranging Finset

/-! ## Where the order makes no difference -/

section

variable (v : Views) (rts : Map Hash RightDef) (m₀ : Map RElement Int64)

/-- What is filed under a right: the right is defined; if it is negative, its father is not, and
the square of the amount is positive. -/
def orderlyEntry (e : (_ : RElement) × Int64) : Bool :=
  (fetch v rts e.1.right).any fun g =>
    !g.isNegative || (0 < e.2 * e.2 && (fetch v rts g.father).all fun f => !f.isNegative)

/-- All that is filed, zero amounts apart. -/
def Orderly : Prop := ∀ e ∈ m₀.entries, e.2 ≠ 0 → orderlyEntry v rts e = true

instance : Decidable (Orderly v rts m₀) :=
  inferInstanceAs (Decidable (∀ e ∈ m₀.entries, e.2 ≠ 0 → orderlyEntry v rts e = true))

/-- A negative right with its amount at the start. -/
structure Origin (n : RElement) (g : RightDef) : Prop where
  amount : m₀.get n ≠ 0
  fetched : fetch v rts n.right = some g
  negative : g.isNegative = true

/-- The element of the positive sibling. -/
def positiveOf (n : RElement) (g : RightDef) : RElement :=
  { n with right := v.rightHash g.positive }

/-- The element of the father. -/
def fatherOf (n : RElement) (g : RightDef) : RElement := { n with right := g.father }

/-- The coordinates of an element: a negative right counts as its father without its positive
sibling. -/
def coords (k : RElement) : RElement → ZMod (2 ^ 64) :=
  match fetch v rts k.right with
  | none => Pi.single k 1
  | some g =>
    if g.isNegative then Pi.single (fatherOf k g) 1 - Pi.single (positiveOf v k g) 1
    else Pi.single k 1

/-- Between two visits. -/
structure Calm (w : Work) : Prop where
  siblings : w.siblingVals = ∅
  value : worth (coords v rts) w.sumVals.vals = worth (coords v rts) m₀
  /-- what is filed under a negative right has been there from the start -/
  original : ∀ k g, fetch v rts k.right = some g → g.isNegative = true →
    w.sumVals.vals.get k = 0 ∨ w.sumVals.vals.get k = m₀.get k
  /-- an undefined right is the positive sibling of one at the start -/
  undefined : ∀ k, fetch v rts k.right = none → w.sumVals.vals.get k ≠ 0 →
    ∃ n g, Origin v rts m₀ n g ∧ k = positiveOf v n g
  /-- the father of a negative right that has been moved is defined -/
  father : ∀ n g, Origin v rts m₀ n g →
    w.sumVals.vals.get n = m₀.get n ∨ ∃ f, fetch v rts g.father = some f

/-- The visit of this entry changes nothing. -/
def Settled (w : Work) (k : RElement) : Prop :=
  w.sumVals.vals.get k ≠ 0 ∧ ∃ g, fetch v rts k.right = some g ∧ g.isNegative = false

/-- As long as nothing has changed in a pass, all that is not due is settled. -/
def Visited (w : Work) : Prop :=
  w.checking = false → ∀ k ∈ w.sumVals.vals, k ∈ w.sumVals.due ∨ Settled v rts w k

/-- A negative right `n` has been taken from the map. -/
structure Moving (w : Work) (te : RElement) (g : RightDef) (tks : Int64) (n : RElement)
    (d : RightDef) : Prop where
  origin : Origin v rts m₀ n d
  te_eq : te = positiveOf v n d
  g_eq : g = d.positive
  tks_eq : tks = m₀.get n
  siblings : w.siblingVals = bump ∅ te tks
  checking : w.checking = true
  value : worth (coords v rts) w.sumVals.vals + tks.toInt • coords v rts n =
    worth (coords v rts) m₀
  original : ∀ k g, fetch v rts k.right = some g → g.isNegative = true →
    w.sumVals.vals.get k = 0 ∨ w.sumVals.vals.get k = m₀.get k
  undefined : ∀ k, fetch v rts k.right = none → w.sumVals.vals.get k ≠ 0 →
    ∃ n g, Origin v rts m₀ n g ∧ k = positiveOf v n g
  father : ∀ n' g, Origin v rts m₀ n' g → n' ≠ n →
    w.sumVals.vals.get n' = m₀.get n' ∨ ∃ f, fetch v rts g.father = some f

/-- A negative right at the start has an undefined father or positive sibling. -/
def Lacking : Prop :=
  ∃ n g, Origin v rts m₀ n g ∧
    (fetch v rts g.father = none ∨ fetch v rts (v.rightHash g.positive) = none)

/-- What a run keeps. -/
def Inv : State → Prop
  | .pass w => Calm v rts m₀ w ∧ Visited v rts w
  | .climb w te g tks =>
    (Calm v rts m₀ w ∧ Visited v rts w) ∨ ∃ n d, Moving v rts m₀ w te g tks n d
  | .finished w => Calm v rts m₀ w ∧ ∀ k ∈ w.sumVals.vals, Settled v rts w k
  | .undefined => Lacking v rts m₀

end

section

variable {v : Views} {rts : Map Hash RightDef} {m₀ : Map RElement Int64} {k : RElement}
  {n : RElement} {g : RightDef}

theorem kept_coords (x : Int) (a : RElement → ZMod (2 ^ 64)) : Kept x a := by
  refine kept_of_torsion (funext fun k => ?_)
  rw [Pi.smul_apply, zsmul_eq_mul]
  have hzero : ((2 ^ 64 : Int) : ZMod (2 ^ 64)) = 0 :=
    (ZMod.intCast_zmod_eq_zero_iff_dvd _ _).mpr (dvd_refl _)
  rw [hzero, zero_mul]
  rfl

/-- An amount that is not zero is not zero modulo `2^64`. -/
theorem eq_of_cast_eq {x y : Int64} (h : (x.toInt : ZMod (2 ^ 64)) = y.toInt) : x = y := by
  have hmod : x.toInt ≡ y.toInt [ZMOD 2 ^ 64] := by
    have hcast := (ZMod.intCast_eq_intCast_iff x.toInt y.toInt (2 ^ 64)).mp h
    exact_mod_cast hcast
  have hwrap := (wrap_eq_iff_modEq _ _).mpr hmod
  rwa [Int64.ofInt_toInt, Int64.ofInt_toInt] at hwrap

theorem Orderly.fetched (h : Orderly v rts m₀) (hk : m₀.get k ≠ 0) :
    ∃ g, fetch v rts k.right = some g ∧ (g.isNegative = true →
      0 < m₀.get k * m₀.get k ∧ ∀ f, fetch v rts g.father = some f → f.isNegative = false) := by
  have hmem : k ∈ m₀ := by
    by_contra hnot
    exact hk (get_of_notMem hnot)
  obtain ⟨g, hg, hcond⟩ := (Option.any_eq_true _ _).mp (h _ (get_of_mem_entries hmem) hk)
  refine ⟨g, hg, fun hneg => ?_⟩
  simp only [hneg, Bool.not_true, Bool.false_or, Bool.and_eq_true, decide_eq_true_eq,
    Option.all_eq_true, Bool.not_eq_eq_eq_not] at hcond
  exact hcond

theorem Orderly.origin (h : Orderly v rts m₀) (hn : Origin v rts m₀ n g) :
    0 < m₀.get n * m₀.get n ∧ ∀ f, fetch v rts g.father = some f → f.isNegative = false := by
  obtain ⟨g', hg', hcond⟩ := h.fetched hn.amount
  cases hn.fetched.symm.trans hg'
  exact hcond hn.negative

theorem coords_of_negative (hg : fetch v rts k.right = some g) (hneg : g.isNegative = true) :
    coords v rts k = Pi.single (fatherOf k g) 1 - Pi.single (positiveOf v k g) 1 := by
  simp only [coords, hg, hneg, if_true]

/-- The coordinates of an element that is not of a negative right. -/
theorem coords_of_not_negative (h : ∀ g, fetch v rts k.right = some g → g.isNegative = false) :
    coords v rts k = Pi.single k 1 := by
  rw [coords]
  split
  · rfl
  case h_2 g hg =>
    rw [if_neg (by rw [h g hg]; exact Bool.false_ne_true)]

/-! ## Coordinates of the elements in play -/

variable (hfree : CollisionFree v rts)
  (hrts : RightsKeyed v rts) (hm : Orderly v rts m₀) {d : RightDef}
  {w : Work} {te : RElement} {tks : Int64}

include hfree hrts in
theorem not_negative_positiveOf (hd : fetch v rts n.right = some d)
    (hg : fetch v rts (positiveOf v n d).right = some g) : g.isNegative = false := by
  have hhash : v.rightHash g = v.rightHash d.positive := rightHash_of_fetch hrts hg
  rw [hfree g d.positive (.of_known ⟨_, hg⟩) (.positive_of_known ⟨_, hd⟩) hhash]
  exact d.isNegative_positive

include hfree hrts hm in
/-- A negative right at the start, its positive sibling and its father. -/
theorem coords_split (hn : Origin v rts m₀ n d) :
    coords v rts (fatherOf n d) =
      coords v rts (positiveOf v n d) + coords v rts (sibling v rts (positiveOf v n d)) := by
  have hpos : coords v rts (positiveOf v n d) = Pi.single (positiveOf v n d) 1 :=
    coords_of_not_negative fun g hg => not_negative_positiveOf hfree hrts hn.fetched hg
  have hfather : coords v rts (fatherOf n d) = Pi.single (fatherOf n d) 1 :=
    coords_of_not_negative (hm.origin hn).2
  have hsibling : sibling v rts (positiveOf v n d) = n :=
    sibling_positive hfree hrts hn.fetched hn.negative
  rw [hsibling, coords_of_negative hn.fetched hn.negative, hpos, hfather, add_sub_cancel]

include hfree hrts in
/-- A positive sibling belongs to one negative right. -/
theorem origin_unique {n' : RElement} {d' : RightDef} (hn : Origin v rts m₀ n d)
    (hn' : Origin v rts m₀ n' d') (h : positiveOf v n d = positiveOf v n' d') : n = n' := by
  obtain ⟨htype, hright, hpolygon⟩ := RElement.mk.inj h
  have hpos := hfree _ _ (.positive_of_known ⟨_, hn.fetched⟩) (.positive_of_known ⟨_, hn'.fetched⟩)
    hright
  have hneg : d = d' := by
    rw [← RightDef.negative_of_isNegative hn.negative, ← RightDef.negative_positive, hpos,
      RightDef.negative_positive, RightDef.negative_of_isNegative hn'.negative]
  have hhash : n.right = n'.right := by
    rw [← rightHash_of_fetch hrts hn.fetched, ← rightHash_of_fetch hrts hn'.fetched, hneg]
  cases n
  cases n'
  simp_all

/-! ## Steps -/

/-- A change that leaves what each entry reads, and what the map is worth. -/
theorem Calm.congr {w' : Work} (h : Calm v rts m₀ w) (hsiblings : w'.siblingVals = ∅)
    (hget : ∀ k, w'.sumVals.vals.get k = w.sumVals.vals.get k)
    (hvalue : worth (coords v rts) w'.sumVals.vals = worth (coords v rts) w.sumVals.vals) :
    Calm v rts m₀ w' where
  siblings := hsiblings
  value := hvalue.trans h.value
  original k g := by rw [hget]; exact h.original k g
  undefined k := by rw [hget]; exact h.undefined k
  father n g := by rw [hget]; exact h.father n g

theorem inv_again (hcalm : Calm v rts m₀ w)
    (hdone : w.checking = false → ∀ k ∈ w.sumVals.vals, Settled v rts w k) :
    Inv v rts m₀ (again w) := by
  simp only [again]
  split
  · exact ⟨hcalm.congr hcalm.siblings (fun _ => rfl) rfl,
      fun _ k hk => .inl (List.mem_toFinset.mpr hk)⟩
  rename_i hstop
  refine ⟨hcalm, ?_⟩
  cases hchecking : w.checking with
  | false => exact hdone hchecking
  | true =>
    rw [hchecking] at hstop
    have hlength : w.sumVals.vals.entries.length = 0 := by simpa using hstop
    intro k hk
    have hkeys : k ∈ w.sumVals.vals.entries.keys := hk
    rw [List.length_eq_zero_iff.mp hlength] at hkeys
    cases hkeys

/-- **A visit** of a calm map leads to a state that the invariant allows: an inner loop at the
element, or the next entry. -/
theorem inv_visit {i : RElement} (hcalm : Calm v rts m₀ w) (hvisited : Visited v rts w) :
    Inv v rts m₀ (visit v rts w i) := by
  simp only [visit]
  split
  case isTrue hzero =>
    refine ⟨hcalm.congr hcalm.siblings (fun k => ?_) (worth_erase_of_zero hzero), by rintro ⟨⟩⟩
    rw [vals_delete, vals_produce, get_erase]
    split
    case isTrue heq => rw [heq, hzero]
    · rfl
  rename_i hamount
  split
  case h_1 hnone =>
    -- an undefined right: it is the positive sibling of one at the start
    obtain ⟨n, g, hn, hi⟩ := hcalm.undefined i hnone hamount
    refine ⟨n, g, hn, .inr ?_⟩
    rw [hi] at hnone
    exact hnone
  rename_i g hg
  split
  case isTrue hneg =>
    have hget : w.sumVals.vals.get i = m₀.get i :=
      (hcalm.original i g hg hneg).resolve_left hamount
    have hrest : ∀ k, k ≠ i →
        Map.get (w.sumVals.vals.erase i) k = w.sumVals.vals.get k := fun k hk => by
      rw [get_erase, if_neg hk]
    have hself : Map.get (w.sumVals.vals.erase i) i = 0 := by rw [get_erase, if_pos rfl]
    refine .inr ⟨i, g, ⟨⟨hget ▸ hamount, hg, hneg⟩, rfl, rfl, hget, ?_, rfl, ?_, ?_, ?_, ?_⟩⟩
    · rw [hcalm.siblings]
    · rw [← hcalm.value, vals_delete, vals_produce, worth_erase, sub_add_cancel]
    · intro k g' hg' hneg'
      by_cases hk : k = i
      · exact .inl (hk ▸ hself)
      · rw [vals_delete, vals_produce, hrest k hk]
        exact hcalm.original k g' hg' hneg'
    · intro k hk hne
      have hki : k ≠ i := by
        rintro rfl
        rw [hg] at hk
        cases hk
      rw [vals_delete, vals_produce, hrest k hki] at hne
      exact hcalm.undefined k hk hne
    · intro n g' hn hne
      rw [vals_delete, vals_produce, hrest n hne]
      exact hcalm.father n g' hn
  case isFalse hneg =>
    refine .inl ⟨hcalm.congr hcalm.siblings (fun _ => rfl) rfl, fun hchecking k hk => ?_⟩
    by_cases hki : k = i
    · exact .inr ⟨hki ▸ hamount, g, hki ▸ hg, by simpa using hneg⟩
    · refine (hvisited hchecking k hk).imp_left fun hdue => ?_
      exact mem_erase.mpr ⟨hki, hdue⟩

/-- The maps after a negative right has been moved: `tks` has gone from its positive sibling to its
father. -/
theorem get_moved (w : Work) (te father k : RElement) (tks : Int64) :
    Map.get (bump (unload w te tks).sumVals.vals father tks) k =
      w.sumVals.vals.get k - (if k = te then tks else 0) + if k = father then tks else 0 := by
  have hunload : ∀ k, (unload w te tks).sumVals.vals.get k =
      w.sumVals.vals.get k - if k = te then tks else 0 := by
    intro k
    simp only [unload]
    split
    case isTrue hzero =>
      rw [vals_delete, get_erase]
      rw [vals_sub] at hzero ⊢
      by_cases hk : k = te
      · rw [if_pos hk, if_pos hk, hk, ← hzero, get_dock, if_pos rfl]
      · rw [if_neg hk, if_neg hk, get_dock, if_neg hk, Int64.sub_zero]
    · rw [vals_sub, get_dock]
      by_cases hk : k = te
      · rw [if_pos hk, if_pos hk, hk]
      · rw [if_neg hk, if_neg hk, Int64.sub_zero]
  rw [get_bump, hunload]
  by_cases hk : k = father
  · rw [if_pos hk, if_pos hk, hk]
  · rw [if_neg hk, if_neg hk, hunload, Int64.add_zero]

/-- Nothing is left for the siblings. -/
theorem siblings_moved (h : w.siblingVals = bump ∅ te tks) : (unload w te tks).siblingVals = ∅ := by
  have hget : Map.get (dock w.siblingVals te tks) te = 0 := by
    rw [get_dock, if_pos rfl, h, get_bump, if_pos rfl, get_of_notMem (AList.notMem_empty te),
      Int64.zero_add, Int64.sub_self]
  simp only [unload, if_pos hget]
  rw [h]
  refine AList.ext ?_
  show List.kerase te _ = []
  simp [dock, bump]

include hm in
/-- The inner loop at a negative right: `tks` goes to the father, when that is defined. -/
theorem climb_moving (h : Moving v rts m₀ w te g tks n d) :
    climb v rts w te g tks =
      match fetch v rts d.father with
      | none => .undefined
      | some f =>
        .climb { unload w te tks with
          sumVals := (unload w te tks).sumVals.add (fatherOf te d) tks } (fatherOf te d) f
          (((unload w te tks).sumVals.add (fatherOf te d) tks).vals.get (fatherOf te d)) := by
  obtain ⟨hsquare, hfather⟩ := hm.origin h.origin
  have hlookup : w.siblingVals.lookup te = some tks := by
    rw [h.siblings, bump, AList.lookup_insert, get_of_notMem (AList.notMem_empty te),
      Int64.zero_add]
  have htest : tks * tks > 0 := by rw [h.tks_eq]; exact hsquare
  have hshare : share tks tks = tks := ite_self tks
  have hg : g.father = d.father := by rw [h.g_eq]; rfl
  simp only [climb, hlookup, if_pos htest, hshare, hg]
  cases hf : fetch v rts d.father with
  | none => rfl
  | some f =>
    simp only [load, hfather f hf]
    rfl

include hfree hrts in
/-- The two elements that change when a right is moved are not of negative rights. -/
theorem ne_of_negative {f : RightDef} (hn : fetch v rts n.right = some d)
    (hte : te = positiveOf v n d) (hf : fetch v rts d.father = some f)
    (hfneg : f.isNegative = false) (hg : fetch v rts k.right = some g)
    (hneg : g.isNegative = true) : k ≠ te ∧ k ≠ fatherOf te d := by
  constructor
  · rintro rfl
    rw [hte] at hg
    rw [not_negative_positiveOf hfree hrts hn hg] at hneg
    cases hneg
  · rintro rfl
    cases hf.symm.trans hg
    rw [hfneg] at hneg
    cases hneg

include hfree hrts hm in
/-- **A negative right is moved** to its father and its positive sibling. -/
theorem inv_climb_moving (h : Moving v rts m₀ w te g tks n d) :
    Inv v rts m₀ (climb v rts w te g tks) := by
  have hte : te = positiveOf v n d := h.te_eq
  have hg : g.father = d.father := by rw [h.g_eq]; rfl
  have hclimb := climb_moving hm h
  cases hf : fetch v rts d.father with
  | none =>
    rw [hclimb, hf]
    exact ⟨n, d, h.origin, .inl hf⟩
  | some f =>
    have hneg : f.isNegative = false := (hm.origin h.origin).2 f hf
    have hvalue : ∀ w', (climb v rts w te g tks).work = some w' →
        w'.value (coords v rts) (coords v rts ∘ sibling v rts) =
          w.value (coords v rts) (coords v rts ∘ sibling v rts) := by
      intro w' hw'
      refine climb_value ?_ (fun f' hf' hneg' => ?_) (fun x _ a => kept_coords x a) hw'
      · rw [hg, hte]
        have hsplit := coords_split hfree hrts hm h.origin
        exact hsplit
      · rw [hg, hf] at hf'
        cases hf'
        rw [hneg] at hneg'
        cases hneg'
    have hstart : w.value (coords v rts) (coords v rts ∘ sibling v rts) =
        worth (coords v rts) m₀ := by
      have hsibling : sibling v rts te = n := by
        rw [hte]
        exact sibling_positive hfree hrts h.origin.fetched h.origin.negative
      rw [Work.value, h.siblings, worth_bump (kept_coords _ _), worth_empty, zero_add,
        Function.comp_apply, hsibling]
      exact h.value
    rw [hclimb, hf] at hvalue ⊢
    have hsiblings := siblings_moved h.siblings
    have hkeep : ∀ k g', fetch v rts k.right = some g' → g'.isNegative = true →
        Map.get (bump (unload w te tks).sumVals.vals (fatherOf te d) tks) k =
          w.sumVals.vals.get k := by
      intro k g' hg' hneg'
      obtain ⟨hkte, hkfather⟩ :=
        ne_of_negative hfree hrts h.origin.fetched hte hf hneg hg' hneg'
      rw [get_moved, if_neg hkte, if_neg hkfather, Int64.sub_zero, Int64.add_zero]
    refine .inl ⟨⟨hsiblings, ?_, ?_, ?_, ?_⟩, by rintro ⟨⟩⟩
    · have hend := (hvalue _ rfl).trans hstart
      rw [Work.value] at hend
      simp only [hsiblings, worth_empty, add_zero] at hend
      exact hend
    · intro k g' hg' hneg'
      rw [vals_add, hkeep k g' hg' hneg']
      exact h.original k g' hg' hneg'
    · intro k hk hne
      by_cases hkte : k = te
      · exact ⟨n, d, h.origin, hkte.trans hte⟩
      have hkfather : k ≠ fatherOf te d := by
        rintro rfl
        rw [fatherOf, hf] at hk
        cases hk
      rw [vals_add, get_moved, if_neg hkte, if_neg hkfather, Int64.sub_zero, Int64.add_zero] at hne
      exact h.undefined k hk hne
    · intro n' g' hn'
      by_cases hnn : n' = n
      · subst hnn
        cases h.origin.fetched.symm.trans hn'.fetched
        exact .inr ⟨f, hf⟩
      · rw [vals_add, hkeep n' g' hn'.fetched hn'.negative]
        exact h.father n' g' hn' hnn

include hfree hrts hm in
theorem inv_climb (h : Inv v rts m₀ (.climb w te g tks)) :
    Inv v rts m₀ (climb v rts w te g tks) := by
  rcases h with ⟨hcalm, hvisited⟩ | ⟨n, d, hmoving⟩
  · have hlookup : w.siblingVals.lookup te = none := by rw [hcalm.siblings]; rfl
    simp only [climb, hlookup]
    exact ⟨hcalm, hvisited⟩
  · exact inv_climb_moving hfree hrts hm hmoving

include hfree hrts hm in
/-- **One step** keeps the invariant. -/
theorem inv_next {s s' : State} {c : Choice} (hs : Inv v rts m₀ s)
    (h : next v rts s c = some s') : Inv v rts m₀ s' := by
  match s, c with
  | .pass w, .produce i =>
    simp only [next] at h
    split at h
    · cases h
      exact inv_visit hs.1 hs.2
    · cases h
  | .pass w, .endPass =>
    simp only [next] at h
    split at h
    case isTrue hdue =>
      cases h
      refine inv_again hs.1 fun hchecking k hk => ?_
      refine (hs.2 hchecking k hk).resolve_left ?_
      rw [hdue]
      exact notMem_empty k
    · cases h
  | .climb w te g tks, .step =>
    cases h
    exact inv_climb hfree hrts hm hs

include hfree hrts hm in
/-- **A run** keeps it. -/
theorem inv_run : ∀ {choices : List Choice} {s s' : State}, Inv v rts m₀ s →
    run v rts s choices = some s' → Inv v rts m₀ s'
  | [], _, _, hs, h => by
    cases h
    exact hs
  | c :: choices, s, s', hs, h => by
    rw [run, List.foldlM_cons] at h
    obtain ⟨t, ht, hrest⟩ := Option.bind_eq_some_iff.mp h
    exact inv_run (inv_next hfree hrts hm hs ht) hrest

include hm in
theorem inv_enter : Inv v rts m₀ (enter m₀) := by
  refine inv_again ⟨rfl, rfl, fun k g _ _ => .inr rfl, ?_, fun n g _ => .inl rfl⟩ nofun
  intro k hk hne
  obtain ⟨g, hg, _⟩ := hm.fetched hne
  rw [hk] at hg
  cases hg

/-! ## Every run ends -/

variable (v rts) in
/-- The element of a negative right. -/
def isNegativeAt (k : RElement) : Bool := (fetch v rts k.right).any RightDef.isNegative

variable (v rts) in
/-- What a step makes smaller: the negative rights in the map; whether one is being moved; the
entries of the map; whether the pass has changed something; the entries it may still produce. -/
def rankOf (w : Work) (phase : ℕ) : ℕ ×ₗ ℕ ×ₗ ℕ ×ₗ ℕ ×ₗ ℕ ×ₗ ℕ :=
  toLex ((w.sumVals.vals.keys.toFinset.filter (isNegativeAt v rts ·)).card,
    toLex (w.siblingVals.entries.length, toLex (w.sumVals.vals.keys.toFinset.card,
      toLex (w.checking.toNat, toLex (w.sumVals.due.card + w.sumVals.fresh.card, phase)))))

variable (v rts) in
def rank : State → ℕ ×ₗ ℕ ×ₗ ℕ ×ₗ ℕ ×ₗ ℕ ×ₗ ℕ
  | .climb w _ _ _ => rankOf v rts w 2
  | .pass w => rankOf v rts w 1
  | .finished w => rankOf v rts w 0
  | .undefined => toLex (0, toLex (0, toLex (0, toLex (0, toLex (0, 0)))))

theorem mem_keys_toFinset {m : Map RElement Int64} : k ∈ m.keys.toFinset ↔ k ∈ m := by
  rw [List.mem_toFinset]
  rfl

theorem keys_toFinset_erase (m : Map RElement Int64) (i : RElement) :
    (m.erase i).keys.toFinset = m.keys.toFinset.erase i := by
  ext k
  rw [mem_keys_toFinset, AList.mem_erase, mem_erase, mem_keys_toFinset]

theorem rank_visit {i : RElement} (hi : w.sumVals.Producible i) :
    rank v rts (visit v rts w i) < rankOf v rts w 1 := by
  have hmem : i ∈ w.sumVals.vals.keys.toFinset := mem_keys_toFinset.mpr (w.sumVals.present i hi)
  have hcard := card_erase_lt_of_mem hmem
  simp only [visit]
  split
  · have hneg := card_erase_le (s := w.sumVals.vals.keys.toFinset.filter (isNegativeAt v rts ·))
      (a := i)
    simp only [rank, rankOf, Prod.Lex.toLex_lt_toLex', vals_delete, vals_produce,
      keys_toFinset_erase, filter_erase]
    omega
  · split
    · simp only [rank, rankOf, Prod.Lex.toLex_lt_toLex']
      omega
    rename_i g hg
    split
    case isTrue hneg =>
      have hat : isNegativeAt v rts i = true := by
        rw [isNegativeAt, hg, Option.any_some]
        exact hneg
      have hless := card_erase_lt_of_mem (mem_filter (p := (isNegativeAt v rts ·)).mpr ⟨hmem, hat⟩)
      simp only [rank, rankOf, Prod.Lex.toLex_lt_toLex', vals_delete, vals_produce,
        keys_toFinset_erase, filter_erase]
      omega
    · have hproduce : (w.sumVals.due.erase i).card + (w.sumVals.fresh.erase i).card <
          w.sumVals.due.card + w.sumVals.fresh.card := by
        have hdue := card_erase_le (s := w.sumVals.due) (a := i)
        have hfresh := card_erase_le (s := w.sumVals.fresh) (a := i)
        rcases hi with hi | hi
        · have := card_erase_lt_of_mem hi
          omega
        · have := card_erase_lt_of_mem hi
          omega
      simp only [rank, rankOf, Prod.Lex.toLex_lt_toLex', produce]
      omega

theorem mem_of_mem_unload {m : Int64} (h : k ∈ (unload w te m).sumVals.vals) :
    k = te ∨ k ∈ w.sumVals.vals := by
  simp only [unload] at h
  split at h
  · rw [vals_delete, AList.mem_erase, vals_sub, dock, AList.mem_insert] at h
    exact h.2
  · rw [vals_sub, dock, AList.mem_insert] at h
    exact h

include hfree hrts hm in
theorem rank_climb_moving (h : Moving v rts m₀ w te g tks n d) :
    rank v rts (climb v rts w te g tks) < rankOf v rts w 2 := by
  rw [climb_moving hm h]
  cases hf : fetch v rts d.father with
  | none =>
    simp only [rank, rankOf, Prod.Lex.toLex_lt_toLex']
    omega
  | some f =>
    have hfneg : f.isNegative = false := (hm.origin h.origin).2 f hf
    have hmoving : w.siblingVals.entries.length = 1 := by
      rw [h.siblings, bump, AList.entries_insert]
      rfl
    have hless : ((bump (unload w te tks).sumVals.vals (fatherOf te d) tks).keys.toFinset.filter
          (isNegativeAt v rts ·)).card ≤
        (w.sumVals.vals.keys.toFinset.filter (isNegativeAt v rts ·)).card := by
      refine card_le_card fun k hk => ?_
      obtain ⟨hk, hkneg⟩ := Finset.mem_filter.mp hk
      obtain ⟨g', hg', hneg'⟩ := (Option.any_eq_true _ _).mp hkneg
      obtain ⟨hkte, hkfather⟩ :=
        ne_of_negative hfree hrts h.origin.fetched h.te_eq hf hfneg hg' hneg'
      refine Finset.mem_filter.mpr ⟨mem_keys_toFinset.mpr ?_, hkneg⟩
      have hunload := (mem_bump _ _ _ _).mp (mem_keys_toFinset.mp hk)
      exact (mem_of_mem_unload (hunload.resolve_left hkfather)).resolve_left hkte
    have hsiblings := siblings_moved h.siblings
    simp only [rank, rankOf, Prod.Lex.toLex_lt_toLex', hsiblings, vals_add, hmoving]
    have hnil : (∅ : Map RElement Int64).entries.length = 0 := rfl
    omega

include hfree hrts hm in
/-- **Each step** makes the rank smaller. -/
theorem rank_next {s s' : State} {c : Choice} (hs : Inv v rts m₀ s)
    (h : next v rts s c = some s') : rank v rts s' < rank v rts s := by
  match s, c with
  | .pass w, .produce i =>
    simp only [next] at h
    split at h
    case isTrue hi =>
      cases h
      exact rank_visit hi
    · cases h
  | .pass w, .endPass =>
    simp only [next] at h
    split at h
    · cases h
      simp only [again]
      split
      case isTrue hagain =>
        simp only [rank, rankOf, Prod.Lex.toLex_lt_toLex', vals_enter, hagain.1,
          Bool.toNat_true, Bool.toNat_false]
        omega
      · simp only [rank, rankOf, Prod.Lex.toLex_lt_toLex']
        omega
    · cases h
  | .climb w te g tks, .step =>
    cases h
    rcases hs with ⟨hcalm, -⟩ | ⟨n, d, hmoving⟩
    · have hlookup : w.siblingVals.lookup te = none := by rw [hcalm.siblings]; rfl
      simp only [climb, hlookup, rank, rankOf, Prod.Lex.toLex_lt_toLex']
      omega
    · exact rank_climb_moving hfree hrts hm hmoving

/-- **No run goes on for ever.** Whatever entries the range produces, an endless sequence of steps
from what was filed would make the rank smaller without end. -/
theorem no_endless_run {v : Views} {rts : Map Hash RightDef} {m₀ : Map RElement Int64}
    (hfree : CollisionFree v rts) (hrts : RightsKeyed v rts) (hm : Orderly v rts m₀) :
    ¬∃ s : ℕ → State, s 0 = enter m₀ ∧ ∀ i, ∃ c, next v rts (s i) c = some (s (i + 1)) := by
  rintro ⟨s, hstart, hstep⟩
  have hinv : ∀ i, Inv v rts m₀ (s i) := by
    intro i
    induction i with
    | zero =>
      rw [hstart]
      exact inv_enter hm
    | succ i ih =>
      obtain ⟨c, hc⟩ := hstep i
      exact inv_next hfree hrts hm ih hc
  refine not_strictAnti_of_wellFoundedLT (fun i => rank v rts (s i))
    (strictAnti_nat_of_succ_lt fun i => ?_)
  obtain ⟨c, hc⟩ := hstep i
  exact rank_next hfree hrts hm (hinv i) hc

end

/-- A right and its negative sibling. -/
theorem no_endless_split : ¬∃ s : ℕ → State,
    s 0 = enter (.insert (elementOf leftRight) 5 (.singleton (elementOf leftRight.negative) 5)) ∧
      ∀ i, ∃ c, next splitViews ∅ (s i) c = some (s (i + 1)) :=
  no_endless_run (collisionFree_ofRights (by decide +kernel)) (fun _ _ h => by cases h)
    (by decide +kernel)

end Zent.Validate
