import Zent.Validate.RightsWorth

/-!
# Conservation of rights

The rights that a check can see form a forest: a father is split into a positive right and its
negative sibling. In the free abelian group over the elements `(token type, right, polygon)`, modulo
"a father is its two rights", the amounts in the two maps of the work loop have a value.

* `RightsGroup`, `Work.worth` — the group, and the value of the maps; what is filed for the sibling
  of an element counts as the negative sibling.
-/

namespace Zent.Validate

open Go List AList Int64

universe u

/-! ## The forest of rights -/

section Forest

variable (v : Views) (rts : Map Hash RightDef)

/-- The check can fetch the right. -/
def Known (e : RightDef) : Prop := ∃ h, fetch v rts h = some e

/-- A known right, or a sibling of one. -/
def InForest (e : RightDef) : Prop := ∃ d, Known v rts d ∧ (e = d ∨ e = d.positive ∨ e = d.negative)

/-- The rights that the transaction defines are kept under their hashes. -/
def RightsKeyed : Prop := ∀ h e, rts.lookup h = some e → v.rightHash e = h

/-- No two rights of the forest have the same hash. -/
def CollisionFree : Prop :=
  ∀ d e, InForest v rts d → InForest v rts e → v.rightHash d = v.rightHash e → d = e

/-- A father and the two rights it is split into, for tokens of one type and polygon. -/
def Halves (whole part rest : RElement) : Prop :=
  ∃ d, Known v rts d ∧ part.right = v.rightHash d.positive ∧
    whole = { part with right := d.father } ∧
    rest = { part with right := v.rightHash d.negative }

/-- The free abelian group over the elements, modulo "a father is its two rights". -/
abbrev RightsGroup : Type := Split (Halves v rts)

open Classical in
/-- The negative sibling of an element. -/
noncomputable def sibling (te : RElement) : RElement :=
  if h : ∃ d, Known v rts d ∧ v.rightHash d.positive = te.right then
    { te with right := v.rightHash h.choose.negative }
  else te

end Forest

section

variable {v : Views} {rts : Map Hash RightDef} {d : RightDef}

theorem InForest.of_known (h : Known v rts d) : InForest v rts d :=
  ⟨d, h, .inl rfl⟩

theorem InForest.positive_of_known (h : Known v rts d) :
    InForest v rts d.positive := ⟨d, h, .inr (.inl rfl)⟩

theorem stored_or_defined_of_fetch {h : Hash} {e : RightDef} (hfetch : fetch v rts h = some e) :
    v.stored h = some (.right e) ∨ rts.lookup h = some e := by
  simp only [fetch, unirightfetch, Views.getRight] at hfetch
  grind

theorem rightHash_of_fetch (hrts : RightsKeyed v rts) {h : Hash}
    {e : RightDef} (hfetch : fetch v rts h = some e) : v.rightHash e = h :=
  (stored_or_defined_of_fetch hfetch).elim v.keyed (hrts h e)

theorem sibling_eq (hfree : CollisionFree v rts) (hd : Known v rts d) {te : RElement}
    (hte : te.right = v.rightHash d.positive) :
    sibling v rts te = { te with right := v.rightHash d.negative } := by
  have hex : ∃ d, Known v rts d ∧ v.rightHash d.positive = te.right := ⟨d, hd, hte.symm⟩
  have hchoose := hex.choose_spec
  have heq : hex.choose.positive = d.positive :=
    hfree _ _ (.positive_of_known hchoose.1) (.positive_of_known hd) (hchoose.2.trans hte)
  have hneg : hex.choose.negative = d.negative := by
    rw [← RightDef.negative_positive, heq, RightDef.negative_positive]
  rw [sibling, dif_pos hex, hneg]

/-- A negative right is the sibling of its positive sibling. -/
theorem sibling_positive (hfree : CollisionFree v rts) (hrts : RightsKeyed v rts)
    {i : RElement} {g : RightDef}
    (hg : fetch v rts i.right = some g) (hneg : g.isNegative = true) :
    sibling v rts { i with right := v.rightHash g.positive } = i := by
  rw [sibling_eq hfree ⟨i.right, hg⟩ rfl, RightDef.negative_of_isNegative hneg,
    rightHash_of_fetch hrts hg]

end

/-! ## Runs -/

section Run

variable {v : Views} {rts : Map Hash RightDef} {A : Type u} [AddCommGroup A] {φ : RElement → A}

variable (v rts) in
/-- The inner loop stands at the element of its right, which is a known one or the positive sibling
of one. -/
def Placed : State → Prop
  | .climb _ te g _ => te.right = v.rightHash g ∧ ∃ d, Known v rts d ∧ d.positive = g
  | _ => True

variable (v rts) in
/-- A condition on each step of a run. -/
def Along (P : State → Choice → Prop) : State → List Choice → Prop
  | _, [] => True
  | s, c :: rest => P s c ∧ ∀ s', next v rts s c = some s' → Along P s' rest

variable (v rts) in
/-- A valuation of the elements that values a father as its two rights. -/
def Respects (φ : RElement → A) : Prop :=
  ∀ whole part rest, Halves v rts whole part rest → φ whole = φ part + φ rest

theorem Respects.father (hφ : Respects v rts φ) (hfree : CollisionFree v rts) {te : RElement}
    {g : RightDef} (hte : te.right = v.rightHash g) (hg : ∃ d, Known v rts d ∧ d.positive = g) :
    φ { te with right := g.father } = φ te + φ (sibling v rts te) := by
  obtain ⟨d, hd, rfl⟩ := hg
  rw [sibling_eq hfree hd hte]
  exact hφ _ te _ ⟨d, hd, hte, rfl, rfl⟩

theorem placed_visit (hrts : RightsKeyed v rts) (w : Work)
    (i : RElement) : Placed v rts (visit v rts w i) := by
  simp only [visit]
  split
  · trivial
  split
  · trivial
  rename_i g hg
  split
  · exact ⟨rfl, g, ⟨_, hg⟩, rfl⟩
  case isFalse hneg =>
    have hpos := RightDef.positive_of_not_isNegative (by simpa using hneg)
    exact ⟨(rightHash_of_fetch hrts hg).symm, g, ⟨_, hg⟩, hpos⟩

theorem placed_climb (hrts : RightsKeyed v rts) (w : Work)
    (te : RElement) (g : RightDef) (tks : Int64) : Placed v rts (climb v rts w te g tks) := by
  simp only [climb]
  split
  · trivial
  split
  · split
    · trivial
    case h_2 f hf =>
      simp only [load]
      split
      · exact ⟨rfl, f, ⟨_, hf⟩, rfl⟩
      case isFalse hneg =>
        have hpos := RightDef.positive_of_not_isNegative (by simpa using hneg)
        exact ⟨(rightHash_of_fetch hrts hf).symm, f, ⟨_, hf⟩, hpos⟩
  · trivial

theorem placed_again (w : Work) : Placed v rts (again w) := by
  simp only [again]
  split
  · trivial
  · trivial

/-- **One step** keeps the value of the maps. -/
theorem value_of_next (hfree : CollisionFree v rts) (hrts : RightsKeyed v rts)
    (hφ : Respects v rts φ)
    {s s' : State} {c : Choice} (hplaced : Placed v rts s)
    (hkept : ∀ x ∈ sums v rts s c, ∀ a : A, Kept x a) (h : next v rts s c = some s') :
    Placed v rts s' ∧ ∃ w, s.work = some w ∧ ∀ w', s'.work = some w' →
      w'.value φ (φ ∘ sibling v rts) = w.value φ (φ ∘ sibling v rts) := by
  match s, c with
  | .pass w, .produce i =>
    simp only [next] at h
    split at h
    · cases h
      refine ⟨placed_visit hrts w i, w, rfl, fun w' hw' => ?_⟩
      refine visit_value (fun g hg hneg => ?_) hkept hw'
      exact congrArg φ (sibling_positive hfree hrts hg hneg)
    · cases h
  | .pass w, .endPass =>
    simp only [next] at h
    split at h
    · cases h
      exact ⟨placed_again w, w, rfl, fun w' hw' => again_value hw'⟩
    · cases h
  | .climb w te g tks, .step =>
    cases h
    refine ⟨placed_climb hrts w te g tks, w, rfl, fun w' hw' => ?_⟩
    refine climb_value (hφ.father hfree hplaced.1 hplaced.2) (fun f hf hneg => ?_) hkept hw'
    exact congrArg φ (sibling_positive (i := { te with right := g.father }) hfree hrts hf hneg)

/-- **A run** keeps the value of the maps, whatever the range produces. -/
theorem value_of_run (hfree : CollisionFree v rts) (hrts : RightsKeyed v rts)
    (hφ : Respects v rts φ) :
    ∀ {choices : List Choice} {s s' : State} {w w' : Work}, Placed v rts s →
      Along v rts (fun s c => ∀ x ∈ sums v rts s c, ∀ a : A, Kept x a) s choices →
      run v rts s choices = some s' → s.work = some w → s'.work = some w' →
      w'.value φ (φ ∘ sibling v rts) = w.value φ (φ ∘ sibling v rts)
  | [], s, s', w, w', _, _, hrun, hw, hw' => by
    cases hrun
    cases hw.symm.trans hw'
    rfl
  | c :: choices, s, s', w, w', hplaced, halong, hrun, hw, hw' => by
    obtain ⟨t, ht, hrest⟩ := Option.bind_eq_some_iff.mp hrun
    obtain ⟨hplaced', u, hu, hstep⟩ := value_of_next hfree hrts hφ hplaced halong.1 ht
    cases hu.symm.trans hw
    -- a run that goes on from here has not returned yet, or ends here
    cases hwork : t.work with
    | none =>
      cases t with
      | undefined =>
        cases choices with
        | nil =>
          cases hrest
          cases hw'
        | cons c' rest =>
          rw [foldlM_cons] at hrest
          obtain ⟨_, hnone, _⟩ := Option.bind_eq_some_iff.mp hrest
          cases c' <;> cases hnone
      | pass _ | climb _ _ _ _ | finished _ => cases hwork
    | some u' =>
      rw [value_of_run hfree hrts hφ hplaced' (halong.2 t ht) hrest hwork hw', hstep u' hwork]

end Run

/-! ## What is filed -/

section Filing

variable (v : Views) (tx : MsgTx)

/-- The rights and sets that the transaction defines. -/
def definedBy : Defined :=
  match tx.txDef.foldlM (noteDef v) (∅, ∅) with
  | .ok defd => defd
  | .error _ => (∅, ∅)

/-- The elements of a token: one, or one for each right of a set. -/
def members (p : Fetched) (te : RElement) : List RElement :=
  match p with
  | .rightSet (some rights) => rights.map fun r => { te with right := r }
  | _ => [te]

/-- A token with rights, as amounts of elements. -/
def counts (get : Hash → Fetched) (t : Token) : List (RElement × Int) :=
  if t.tokenType &&& 2 = 0 then []
  else
    match tokenAmount t, rightsOf t with
    | .ok (polygon, x), .ok right =>
      (members (get right) ⟨t.tokenType, right, polygon⟩).map fun te => (te, x.toInt)
    | _, _ => []

/-- The token that an input spends. -/
def spentToken (y : TxIn) : Option Token :=
  if y.zeroHash then none else (v.utxo.lookupEntry y.previousOutPoint).map tokenOf

/-- What an input takes. -/
def inputCounts (y : TxIn) : List (RElement × Int) :=
  ((spentToken v y).map (counts v.getRight)).getD []

/-- What an output gives. -/
def outputCounts (x : TxOut) : List (RElement × Int) :=
  if x.isSeparator then []
  else
    counts (fun r => unirightfetch v r (definedBy v tx).1 (some (definedBy v tx).2)) x.toToken

/-- All spent inputs. -/
def inputs : List (RElement × Int) :=
  if tx.isCrossChain then [] else tx.txIn.flatMap (inputCounts v)

/-- All outputs. -/
def outputs : List (RElement × Int) := tx.txOut.flatMap (outputCounts v tx)

/-- The opposite amounts. -/
def opposite (l : List (RElement × Int)) : List (RElement × Int) := l.map fun p => (p.1, -p.2)

/-- What `ioRTokens` files, in its order. -/
def filed : List (RElement × Int) := opposite (inputs v tx) ++ outputs v tx

/-- No token with rights, spent or created, has the zero hash for its right. -/
def NoZeroRight : Prop :=
  ∀ t ∈ tx.txIn.filterMap (spentToken v) ++ tx.txOut.map TxOut.toToken,
    t.tokenType &&& 2 ≠ 0 → t.rights ≠ some zerohash

instance : Decidable (NoZeroRight v tx) :=
  inferInstanceAs (Decidable (∀ t ∈ tx.txIn.filterMap (spentToken v) ++ tx.txOut.map TxOut.toToken,
    t.tokenType &&& 2 ≠ 0 → t.rights ≠ some zerohash))

end Filing

section

variable {v : Views} {tx : MsgTx} {res res' : Map RElement Int64} {right : Hash}
  {sumVals : Map RElement Int64} {rts : Map Hash RightDef}

theorem definedBy_keyed {h : Hash} {e : RightDef} (hlook : (definedBy v tx).1.lookup h = some e) :
    v.rightHash e = h := by
  rw [definedBy] at hlook
  split at hlook
  case h_1 defd hdefd =>
    refine foldlM_induction (P := fun _ s => ∀ h e, s.1.lookup h = some e → v.rightHash e = h)
      (fun h e hnone => ?_) ?_ hdefd h e hlook
    · cases hnone
    · intro _ x s s' hs hstep h e hlook
      cases x with
      | rightDef father desc attrib =>
        cases hstep
        by_cases heq : h = v.rightHash ⟨father, desc, attrib⟩
        · rw [heq, lookup_insert] at hlook
          cases hlook
          exact heq.symm
        · rw [lookup_insert_ne heq] at hlook
          exact hs h e hlook
      | rightSetDef rights =>
        cases hstep
        exact hs h e hlook
      | separatorDef =>
        cases hstep
        exact hs h e hlook
      | vertexDef _ => cases hstep
      | borderDef _ _ _ => cases hstep
      | polygonDef _ => cases hstep
  · cases hlook

theorem getRight_ne_nil (h : right ≠ zerohash) : v.getRight right ≠ .nil := by
  rw [Views.getRight, if_neg h]
  split <;> nofun

theorem unirightfetch_ne_nil (h : right ≠ zerohash) (rts : Map Hash RightDef)
    (sets : Option (Map Hash (List Hash))) : unirightfetch v right rts sets ≠ .nil := by
  have hget := getRight_ne_nil (v := v) h
  rw [unirightfetch]
  grind

theorem wrapped_append (l l' : List (RElement × Int)) :
    wrapped (l ++ l') = wrapped l ++ wrapped l' := map_append

theorem file_eq_ok {p : Fetched} {te : RElement} {x : Int64} (hnil : p ≠ .nil)
    (h : file p te x res = .ok res') : res' = tally res ((members p te).map fun te => (te, x)) := by
  match p with
  | .right (some _) =>
    cases h
    rfl
  | .rightSet (some rights) =>
    cases h
    rw [members, tally, map_map, foldl_map]
    rfl
  | .right none => cases h
  | .rightSet none => cases h
  | .nil => exact absurd rfl hnil

theorem tally_of_foldlM {α : Type} {step : Map RElement Int64 → α → Checked (Map RElement Int64)}
    {f : α → List (RElement × Int)} {l : List α}
    (hstep : ∀ x ∈ l, ∀ u u', step u x = .ok u' → u' = tally u (wrapped (f x)))
    (h : l.foldlM step res = .ok res') : res' = tally res (wrapped (l.flatMap f)) := by
  refine foldlM_induction_run (P := fun done u => u = tally res (wrapped (done.flatMap f))) rfl ?_ h
  intro done x rest u u' hl _ hu hx
  have hmem : x ∈ l := by rw [hl]; exact mem_append_right done mem_cons_self
  rw [flatMap_append, flatMap_singleton, wrapped_append, tally_append, ← hu]
  exact hstep x hmem u u' hx

theorem rights_of_rightsOf {t : Token} (h : rightsOf t = .ok right) : t.rights = some right := by
  rw [rightsOf] at h
  split at h
  · cases h
    assumption
  · cases h

theorem fileInput_eq_ok {y : TxIn}
    (hzero : ∀ t ∈ spentToken v y, t.tokenType &&& 2 ≠ 0 → t.rights ≠ some zerohash)
    (h : fileInput v res y = .ok res') :
    res' = tally res (wrapped (opposite (inputCounts v y))) := by
  simp only [fileInput] at h
  split at h
  case isTrue hz =>
    cases h
    simp [inputCounts, spentToken, hz, opposite, wrapped]
  rename_i hz
  split at h
  · cases h
  rename_i e he
  have hspent : spentToken v y = some (tokenOf e) := by simp [spentToken, hz, he]
  have hcounts : inputCounts v y = counts v.getRight (tokenOf e) := by
    rw [inputCounts, hspent]
    rfl
  have htype : (tokenOf e).tokenType = e.tokenType := rfl
  rw [hcounts, counts, htype]
  split at h
  case isTrue h2 =>
    cases h
    simp [h2, opposite, wrapped]
  rename_i h2
  obtain ⟨⟨polygon, x⟩, hx, h⟩ := of_bind h
  obtain ⟨right, hright, h⟩ := of_bind h
  have hne : right ≠ zerohash := by
    rintro rfl
    exact hzero (tokenOf e) hspent h2 (rights_of_rightsOf hright)
  rw [file_eq_ok (getRight_ne_nil hne) h, if_neg h2, hx, hright]
  simp only [opposite, wrapped, map_map, Function.comp_def, ofInt_neg, ofInt_toInt]

theorem fileOutput_eq_ok {x : TxOut} (hzero : x.tokenType &&& 2 ≠ 0 → x.rights ≠ some zerohash)
    (h : fileOutput v (definedBy v tx) res x = .ok res') :
    res' = tally res (wrapped (outputCounts v tx x)) := by
  simp only [fileOutput] at h
  rw [outputCounts]
  split at h
  case isTrue hskip =>
    cases h
    rcases hskip with hsep | h2
    · simp [hsep, wrapped]
    · simp [counts, h2, wrapped]
  rename_i hskip
  obtain ⟨hsep, h2⟩ := not_or.mp hskip
  obtain ⟨⟨polygon, val⟩, hval, h⟩ := of_bind h
  obtain ⟨right, hright, h⟩ := of_bind h
  have hne : right ≠ zerohash := by
    rintro rfl
    exact hzero h2 (rights_of_rightsOf hright)
  rw [file_eq_ok (unirightfetch_ne_nil hne _ _) h, if_neg hsep, counts, if_neg h2, hval, hright]
  simp only [wrapped, map_map, Function.comp_def, ofInt_toInt]

/-- **What the check starts from** is the tally of all the tokens. -/
theorem ioRTokens_eq_ok (hzero : NoZeroRight v tx) (h : ioRTokens v tx = .ok (sumVals, rts)) :
    sumVals = tally ∅ (wrapped (filed v tx)) := by
  obtain ⟨res, hres, h⟩ := of_bind h
  obtain ⟨defd, hdefd, h⟩ := of_bind h
  obtain ⟨res', hres', h⟩ := of_bind h
  cases h
  have hdefined : definedBy v tx = defd := by rw [definedBy, hdefd]
  rw [← hdefined] at hres'
  have hin : res = tally ∅ (wrapped (opposite (inputs v tx))) := by
    rw [inputs]
    rw [fileInputs] at hres
    split at hres
    case isTrue hx =>
      cases hres
      rw [if_pos hx]
      rfl
    rename_i hx
    rw [if_neg hx, opposite, map_flatMap]
    refine tally_of_foldlM (fun y hy u u' hstep => fileInput_eq_ok ?_ hstep) hres
    intro t ht
    exact hzero t (mem_append_left _ (mem_filterMap.mpr ⟨y, hy, ht⟩))
  have hout : sumVals = tally res (wrapped (tx.txOut.flatMap (outputCounts v tx))) := by
    refine tally_of_foldlM (fun x hx u u' hstep => fileOutput_eq_ok ?_ hstep) hres'
    exact hzero x.toToken (mem_append_right _ (mem_map_of_mem hx))
  rw [hout, hin, filed, wrapped_append, tally_append, outputs]

theorem rts_of_ioRTokens (h : ioRTokens v tx = .ok (sumVals, rts)) : rts = (definedBy v tx).1 := by
  obtain ⟨res, hres, h⟩ := of_bind h
  obtain ⟨defd, hdefd, h⟩ := of_bind h
  obtain ⟨res', hres', h⟩ := of_bind h
  cases h
  rw [definedBy, hdefd]

end

/-! ## Conservation -/

section

variable {v : Views} {rts : Map Hash RightDef} {tx : MsgTx} {A : Type u} [AddCommGroup A]

/-- The worth of amounts of elements. -/
def listWorth (φ : RElement → A) (l : List (RElement × Int)) : A :=
  (l.map fun p => p.2 • φ p.1).sum

theorem listWorth_opposite (φ : RElement → A) (l : List (RElement × Int)) :
    listWorth φ (opposite l) = -listWorth φ l := by
  induction l with
  | nil => simp [listWorth, opposite]
  | cons p l ih =>
    simp only [listWorth, opposite, map_cons, sum_cons, neg_smul] at ih ⊢
    rw [ih, neg_add]

variable (v rts) in
/-- An element of the token type `t`, as a member of the group. -/
def ofType (t : UInt64) (e : RElement) : RightsGroup v rts :=
  if e.tokenType = t then Split.of (Halves v rts) e else 0

theorem respects_of : Respects v rts (Split.of (Halves v rts)) :=
  fun _ _ _ h => Split.of_whole h

theorem respects_ofType (t : UInt64) : Respects v rts (ofType v rts t) := by
  rintro whole part rest ⟨d, hd, hpart, rfl, rfl⟩
  by_cases ht : part.tokenType = t
  · simp only [ofType, ht, if_true]
    exact Split.of_whole ⟨d, hd, hpart, by simp [ht], by simp [ht]⟩
  · simp only [ofType, ht, if_false, add_zero]

variable (v rts) in
/-- No sum of the step leaves the range of `int64`. -/
def Fits (s : State) (c : Choice) : Prop := ∀ x ∈ sums v rts s c, InInt64 x

theorem Along.imp {P Q : State → Choice → Prop} (hPQ : ∀ s c, P s c → Q s c) :
    ∀ {choices : List Choice} {s : State}, Along v rts P s choices → Along v rts Q s choices
  | [], _, _ => trivial
  | _ :: _, _, h => ⟨hPQ _ _ h.1, fun s' hs' => Along.imp hPQ (h.2 s' hs')⟩

theorem work_enter (sumVals : Map RElement Int64) :
    ∃ w, (enter sumVals).work = some w ∧ w.sumVals.vals = sumVals ∧ w.siblingVals = ∅ := by
  simp only [enter, again]
  split
  · exact ⟨_, rfl, rfl, rfl⟩
  · exact ⟨_, rfl, rfl, rfl⟩

variable {w : Work} {sumVals : Map RElement Int64}

/-- What a run from the start keeps. -/
theorem value_of_fits (hfree : CollisionFree v rts) (hrts : RightsKeyed v rts) {φ : RElement → A}
    (hφ : Respects v rts φ) {choices : List Choice}
    (hfits : Along v rts (Fits v rts) (enter sumVals) choices) {s : State}
    (hrun : run v rts (enter sumVals) choices = some s) (hw : s.work = some w) :
    w.value φ (φ ∘ sibling v rts) = worth φ sumVals := by
  obtain ⟨w₀, hw₀, hsum, hsibling⟩ := work_enter sumVals
  have hkept := hfits.imp (Q := fun s c => ∀ x ∈ sums v rts s c, ∀ a : A, Kept x a)
    fun s c h x hx a => kept_of_inInt64 (h x hx)
  rw [value_of_run hfree hrts hφ (placed_again _) hkept hrun hw₀ hw, Work.value, hsum, hsibling,
    worth_empty, add_zero]

theorem eq_zero_of_verdict {sh : Shuffle ((_ : RElement) × Int64)} {checkPolygon b : Bool}
    (h : verdict v tx sh checkPolygon w = .ok b) :
    (∀ e ∈ w.sumVals.vals.entries, e.1.tokenType ≠ 3 → e.2 = 0) ∧
      ∀ e ∈ w.siblingVals.entries, e.1.tokenType ≠ 3 → e.2 = 0 := by
  obtain ⟨_, hsums, h⟩ := of_bind h
  obtain ⟨_, hsiblings, h⟩ := of_bind h
  rw [forM_eq_ok] at hsums hsiblings
  constructor
  · intro e he h3
    have hpass := failIf_eq_ok.mp (hsums e (sh.mem_run.mpr he))
    exact not_not.mp fun hne => hpass ⟨h3, hne⟩
  · intro e he h3
    have hpass := failIf_eq_ok.mp (hsiblings e (sh.mem_run.mpr he))
    exact not_not.mp fun hne => hpass ⟨h3, hne⟩

theorem tokenType_sibling (te : RElement) : (sibling v rts te).tokenType = te.tokenType := by
  rw [sibling]
  split
  · rfl
  · rfl

/-- Nothing of a type that is checked is left. -/
theorem value_eq_zero {t : UInt64} (ht : t ≠ 3)
    (hsums : ∀ e ∈ w.sumVals.vals.entries, e.1.tokenType ≠ 3 → e.2 = 0)
    (hsiblings : ∀ e ∈ w.siblingVals.entries, e.1.tokenType ≠ 3 → e.2 = 0) :
    w.value (ofType v rts t) (ofType v rts t ∘ sibling v rts) = 0 := by
  have hentry : ∀ e : (_ : RElement) × Int64, (e.1.tokenType ≠ 3 → e.2 = 0) →
      ∀ te : RElement, te.tokenType = e.1.tokenType → e.2.toInt • ofType v rts t te = 0 := by
    intro e he te hte
    by_cases htype : te.tokenType = t
    · rw [he (by rw [← hte, htype]; exact ht), toInt_zero, zero_smul]
    · rw [ofType, if_neg htype, smul_zero]
  have hleft : worth (ofType v rts t) w.sumVals.vals = 0 :=
    worth_eq_zero fun e he => hentry e (hsums e he) e.1 rfl
  have hright : worth (ofType v rts t ∘ sibling v rts) w.siblingVals = 0 :=
    worth_eq_zero fun e he => hentry e (hsiblings e he) _ (tokenType_sibling e.1)
  rw [Work.value, hleft, hright, add_zero]

theorem run_of_quickCheckRight {orders : Orders} {b : Bool}
    (hio : ioRTokens v tx = .ok (sumVals, rts)) (h : quickCheckRight v tx orders = some (.ok b)) :
    ∃ w checkPolygon, run v rts (enter sumVals) orders.choices = some (.finished w) ∧
      verdict v tx orders.last checkPolygon w = .ok b := by
  simp only [quickCheckRight, hio] at h
  split at h
  · cases h
  rename_i checkPolygon _
  split at h
  case h_1 w hrun => exact ⟨w, checkPolygon, hrun, Option.some_inj.mp h⟩
  · cases h
  · cases h

end

/-- **Rights are conserved** as long as no sum leaves the range of `int64`. In every run of such
steps, whatever the range loops produce, the two maps keep their value in the group; and when the
check returns without an error, no token with rights having the zero right, the outputs of every
numeric token type are worth what is spent. -/
theorem conserved_of_fits (v : Views) (tx : MsgTx) (sumVals : Map RElement Int64)
    (rts : Map Hash RightDef) (hio : ioRTokens v tx = .ok (sumVals, rts))
    (hfree : CollisionFree v rts) (hzero : NoZeroRight v tx)
    (hfiled : ∀ k, InInt64 (exactTotal (filed v tx) k)) (choices : List Choice)
    (hfits : Along v rts (Fits v rts) (enter sumVals) choices) :
    (∀ s w, run v rts (enter sumVals) choices = some s → s.work = some w →
        w.value (Split.of (Halves v rts)) (Split.of (Halves v rts) ∘ sibling v rts) =
          worth (Split.of (Halves v rts)) sumVals) ∧
      ∀ sh b, quickCheckRight v tx ⟨choices, sh⟩ = some (.ok b) →
        ∀ t : UInt64, t &&& 1 = 0 → t &&& 2 ≠ 0 →
          listWorth (ofType v rts t) (outputs v tx) = listWorth (ofType v rts t) (inputs v tx) := by
  have hrts : RightsKeyed v rts := by
    intro h e hlook
    rw [rts_of_ioRTokens hio] at hlook
    exact definedBy_keyed hlook
  refine ⟨fun s w hrun hw => value_of_fits hfree hrts respects_of hfits hrun hw, ?_⟩
  intro sh b hcheck t hnumeric hrights
  obtain ⟨w, checkPolygon, hrun, hverdict⟩ := run_of_quickCheckRight hio hcheck
  obtain ⟨hsums, hsiblings⟩ := eq_zero_of_verdict hverdict
  have ht : t ≠ 3 := by
    rintro rfl
    exact absurd hnumeric (by decide)
  have hvalue := value_of_fits hfree hrts (respects_ofType t) hfits hrun rfl
  rw [value_eq_zero ht hsums hsiblings, ioRTokens_eq_ok hzero hio, worth_tally fun k =>
    kept_of_inInt64 (hfiled k), filed, map_append, sum_append] at hvalue
  have hin := listWorth_opposite (ofType v rts t) (inputs v tx)
  rw [listWorth] at hin
  rw [hin] at hvalue
  exact (neg_add_eq_zero.mp hvalue.symm).symm

/-! ### Views of a few rights -/

/-- A view that stores the rights of a list. -/
def Views.ofRights (hashH : Bytes → Hash) (utxo : UtxoViewpoint) (rights : List RightDef) :
    Views where
  hashH := hashH
  txHash := fun _ => zerohash
  utxo := utxo
  stored h := (rights.find? fun e => hashH e.bytes = h).map .right
  keyed := by
    intro h e hstored
    obtain ⟨d, hd, hde⟩ := Option.map_eq_some_iff.mp hstored
    cases hde
    simpa using find?_some hd

section

variable {hashH : Bytes → Hash} {utxo : UtxoViewpoint} {rights : List RightDef}

theorem mem_of_known_ofRights {e : RightDef} (h : Known (.ofRights hashH utxo rights) ∅ e) :
    e ∈ rights := by
  obtain ⟨hash, hfetch⟩ := h
  rcases stored_or_defined_of_fetch hfetch with hstored | hdefined
  · obtain ⟨d, hd, hde⟩ := Option.map_eq_some_iff.mp hstored
    cases hde
    exact mem_of_find?_eq_some hd
  · cases hdefined

/-- The rights of a list and their siblings. -/
def withSiblings (rights : List RightDef) : List RightDef :=
  rights.flatMap fun e => [e, e.positive, e.negative]

theorem collisionFree_ofRights (h : ∀ d ∈ withSiblings rights, ∀ e ∈ withSiblings rights,
      hashH d.bytes = hashH e.bytes → d = e) : CollisionFree (.ofRights hashH utxo rights) ∅ := by
  have hmem : ∀ d, InForest (.ofRights hashH utxo rights) ∅ d → d ∈ withSiblings rights := by
    rintro d ⟨e, he, hd⟩
    refine mem_flatMap.mpr ⟨e, mem_of_known_ofRights he, ?_⟩
    simpa using hd
  exact fun d e hd he => h d (hmem d hd) e (hmem e he)

end

/-- Amounts whose sizes add up to less than `2^63`. -/
theorem inInt64_exactTotal {l : List (RElement × Int)}
    (h : (l.map fun p => p.2.natAbs).sum < 2 ^ 63) (k : RElement) : InInt64 (exactTotal l k) := by
  have hbound : ∀ l : List (RElement × Int),
      (exactTotal l k).natAbs ≤ (l.map fun p => p.2.natAbs).sum := by
    intro l
    induction l with
    | nil => simp [exactTotal]
    | cons p l ih =>
      rw [exactTotal_cons, map_cons, sum_cons]
      split
      · omega
      · omega
  have := hbound l
  unfold InInt64
  omega

instance (v : Views) (rts : Map Hash RightDef) (s : State) (c : Choice) :
    Decidable (Fits v rts s c) := inferInstanceAs (Decidable (∀ x ∈ sums v rts s c, InInt64 x))

instance decidableAlong (v : Views) (rts : Map Hash RightDef) (P : State → Choice → Prop)
    [∀ s c, Decidable (P s c)] : (s : State) → (choices : List Choice) →
    Decidable (Along v rts P s choices)
  | _, [] => .isTrue trivial
  | s, c :: rest =>
    match hs : next v rts s c with
    | none =>
      decidable_of_iff (P s c) ⟨fun h => ⟨h, fun _ hs' => by rw [hs] at hs'; cases hs'⟩, And.left⟩
    | some s' =>
      have := decidableAlong v rts P s' rest
      decidable_of_iff (P s c ∧ Along v rts P s' rest)
        ⟨fun h => ⟨h.1, fun _ ht => by rw [hs] at ht; cases ht; exact h.2⟩,
          fun h => ⟨h.1, h.2 s' hs⟩⟩

/-- A hash for the examples. -/
def sampleHash (b : Bytes) : Hash := BitVec.ofNat 256 (b.foldl (fun a x => 31 * a + x.toNat) 7)

/-- A right that is not split from another one. -/
def rootRight : RightDef := ⟨zerohash, [1], 0⟩

/-- One half of it. -/
def leftRight : RightDef := ⟨sampleHash rootRight.bytes, [2], 0⟩

/-- An unspent amount of a token with a right. -/
def unspentRight (e : RightDef) (amount : Int64) : UtxoEntry :=
  ⟨2, some (.numToken amount), some (sampleHash e.bytes), [], 0, false, false, false, false, []⟩

/-- An output with a right. -/
def payRight (e : RightDef) (amount : Int64) : TxOut :=
  ⟨⟨2, some (.numToken amount), some (sampleHash e.bytes)⟩, []⟩

/-- The element of a right in the examples. -/
def elementOf (e : RightDef) : RElement := ⟨2, sampleHash e.bytes, zerohash⟩

/-- Ten tokens of the root right are unspent. -/
def splitViews : Views :=
  .ofRights sampleHash (singleton ⟨7, 0⟩ (unspentRight rootRight 10))
    [rootRight, leftRight, leftRight.negative]

/-- They are split into ten of each half. -/
def splitTx : MsgTx where
  version := 1
  txDef := []
  txIn := [⟨⟨7, 0⟩, 0, 0⟩]
  txOut := [payRight leftRight 10, payRight leftRight.negative 10]
  lockTime := 0
  signatureScripts := []

def splitChoices : List Choice :=
  [.produce (elementOf leftRight.negative), .step, .step, .produce (elementOf rootRight), .endPass]

/-- Splitting a right keeps what the tokens are worth. -/
theorem conserved_of_fits_split :
    quickCheckRight splitViews splitTx ⟨splitChoices, .stored⟩ = some (.ok true) ∧
      listWorth (ofType splitViews ∅ 2) (outputs splitViews splitTx) =
        listWorth (ofType splitViews ∅ 2) (inputs splitViews splitTx) := by
  have hcheck : quickCheckRight splitViews splitTx ⟨splitChoices, .stored⟩ = some (.ok true) := by
    decide +kernel
  refine ⟨hcheck, ?_⟩
  have hzero : NoZeroRight splitViews splitTx := by decide +kernel
  obtain ⟨⟨sumVals, rts⟩, hio⟩ : ∃ r, ioRTokens splitViews splitTx = .ok r :=
    succeeds_iff.mp (by decide +kernel)
  have hrts : rts = ∅ := rts_of_ioRTokens hio
  have hfits : Along splitViews ∅ (Fits splitViews ∅) (enter sumVals) splitChoices := by
    rw [ioRTokens_eq_ok hzero hio]
    decide +kernel
  rw [hrts] at hio
  exact (conserved_of_fits splitViews splitTx sumVals ∅ hio
    (collisionFree_ofRights (by decide +kernel)) hzero (inInt64_exactTotal (by decide +kernel))
    splitChoices hfits).2 .stored true hcheck 2 (by decide) (by decide)

/-- A view without rights, in which one token without rights is unspent. -/
def bareViews : Views :=
  .ofRights sampleHash (singleton ⟨7, 0⟩
    ⟨0, some (.numToken 5), none, [], 0, false, false, false, false, []⟩) []

/-- It is spent for a thousand tokens with the zero right. -/
def mintTx : MsgTx where
  version := 1
  txDef := []
  txIn := [⟨⟨7, 0⟩, 0, 0⟩]
  txOut := [⟨⟨2, some (.numToken 1000), some zerohash⟩, []⟩]
  lockTime := 0
  signatureScripts := []

/-- **Tokens with the zero right are not counted.** They can be made from nothing. -/
theorem mint_not_conserved :
    quickCheckRight bareViews mintTx ⟨[], .stored⟩ = some (.ok true) ∧
      listWorth (ofType bareViews ∅ 2) (outputs bareViews mintTx) ≠
        listWorth (ofType bareViews ∅ 2) (inputs bareViews mintTx) := by
  refine ⟨by decide +kernel, ?_⟩
  have hout : outputs bareViews mintTx = [(⟨2, zerohash, zerohash⟩, 1000)] := by decide +kernel
  have hin : inputs bareViews mintTx = [] := by decide +kernel
  have hnone : ∀ whole part rest, ¬ Halves bareViews ∅ whole part rest := by
    rintro _ _ _ ⟨d, hd, _⟩
    exact absurd (mem_of_known_ofRights hd) not_mem_nil
  intro heq
  -- every element counts as one
  have hone := congrArg (Split.lift (fun _ => (1 : Int)) fun _ _ _ h => absurd h (hnone _ _ _)) heq
  simp [hout, hin, listWorth, ofType, Split.lift_of] at hone

end Zent.Validate
