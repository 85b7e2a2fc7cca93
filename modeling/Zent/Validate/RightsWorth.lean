import Zent.Go.Worth
import Zent.Validate.Rights

/-!
# What the work loop keeps

The rights are valued in an abelian group: `φ` values an amount filed under an element, and `ψ` an
amount filed for the negative sibling of an element. A step of the work loop of `QuickCheckRight`
moves amounts between the two maps. It keeps what they are worth together, when a father is worth
the two rights it is split into and no sum of the step is changed by storing it as `int64`.
-/

namespace Zent.Validate

open Go List

universe u

section

variable (v : Views) (rts : Map Hash RightDef)

/-! ## The sums of a step -/

/-- The sum computed when an entry is visited: that of a negative right is moved. -/
def visitSums (w : Work) (i : RElement) : List Int :=
  match fetch v rts i.right with
  | none => []
  | some g =>
    if g.isNegative then
      [(w.siblingVals.get { i with right := v.rightHash g.positive }).toInt +
        (w.sumVals.vals.get i).toInt]
    else []

/-- The sum computed when a father is given `m`. -/
def loadSums (w : Work) (te : RElement) (f : RightDef) (m : Int64) : List Int :=
  if f.isNegative then
    [(w.siblingVals.get { te with right := v.rightHash f.positive }).toInt + m.toInt]
  else [(w.sumVals.vals.get te).toInt + m.toInt]

/-- The sums computed by one iteration of the inner loop. -/
def climbSums (w : Work) (te : RElement) (g : RightDef) (tks : Int64) : List Int :=
  match w.siblingVals.lookup te with
  | none => []
  | some s =>
    if s * tks > 0 then
      let m := share s tks
      [s.toInt - m.toInt, (w.sumVals.vals.get te).toInt - m.toInt] ++
        match fetch v rts g.father with
        | none => []
        | some f => loadSums v (unload w te m) { te with right := g.father } f m
    else []

/-- The sums that a step computes, as exact integers. -/
def sums (s : State) (c : Choice) : List Int :=
  match s, c with
  | .pass w, .produce i => visitSums v rts w i
  | .climb w te g tks, .step => climbSums v rts w te g tks
  | _, _ => []

/-- The maps, unless the loop has returned. -/
def State.work : State → Option Work
  | .pass w => some w
  | .climb w _ _ _ => some w
  | .finished w => some w
  | .undefined => none

end

/-! ## Steps -/

section

variable {v : Views} {rts : Map Hash RightDef} {A : Type u} [AddCommGroup A] (φ ψ : RElement → A)

/-- What both maps are worth. -/
def Work.value (w : Work) : A := worth φ w.sumVals.vals + worth ψ w.siblingVals

variable {φ ψ} {w w' : Work} {i te : RElement} {g f : RightDef} {m tks : Int64}

theorem worth_erase_of_zero {χ : RElement → A} {m : Map RElement Int64} {k : RElement}
    (h : m.get k = 0) : worth χ (m.erase k) = worth χ m := by
  rw [worth_erase, h, Int64.toInt_zero, zero_smul, sub_zero]

/-- **Visiting an entry** keeps the worth: what is filed under a negative right is moved to the
sibling's account of its positive sibling. -/
theorem visit_value
    (hsibling : ∀ g, fetch v rts i.right = some g → g.isNegative = true →
      ψ { i with right := v.rightHash g.positive } = φ i)
    (hkept : ∀ x ∈ visitSums v rts w i, ∀ a : A, Kept x a)
    (h : (visit v rts w i).work = some w') : w'.value φ ψ = w.value φ ψ := by
  simp only [visit] at h
  split at h
  case isTrue hzero =>
    cases h
    simp only [Work.value, Ranging.vals_delete, Ranging.vals_produce, worth_erase_of_zero hzero]
  split at h
  · cases h
  rename_i g hg
  split at h
  case isTrue hneg =>
    cases h
    simp only [visitSums, hg, hneg, if_true, forall_mem_singleton] at hkept
    simp only [Work.value, Ranging.vals_delete, Ranging.vals_produce, worth_erase,
      worth_bump (hkept _), hsibling g hg hneg]
    abel
  · cases h
    rfl

theorem unload_value (hsibling : ∀ a : A, Kept ((w.siblingVals.get te).toInt - m.toInt) a)
    (hsum : ∀ a : A, Kept ((w.sumVals.vals.get te).toInt - m.toInt) a) :
    (unload w te m).value φ ψ = w.value φ ψ - m.toInt • (φ te + ψ te) := by
  have hsums : worth φ (unload w te m).sumVals.vals = worth φ (dock w.sumVals.vals te m) := by
    simp only [unload]
    split
    case isTrue hzero => exact worth_erase_of_zero hzero
    · rfl
  have hsiblings : worth ψ (unload w te m).siblingVals = worth ψ (dock w.siblingVals te m) := by
    simp only [unload]
    split
    case isTrue hzero => exact worth_erase_of_zero hzero
    · rfl
  rw [Work.value, hsums, hsiblings, worth_dock (hsum _), worth_dock (hsibling _), Work.value,
    smul_add]
  abel

theorem load_value
    (hsibling : f.isNegative = true → ψ { te with right := v.rightHash f.positive } = φ te)
    (hkept : ∀ x ∈ loadSums v w te f m, ∀ a : A, Kept x a)
    (h : (load v w te f m).work = some w') : w'.value φ ψ = w.value φ ψ + m.toInt • φ te := by
  simp only [load] at h
  by_cases hneg : f.isNegative = true
  · rw [if_pos hneg] at h
    cases h
    rw [loadSums, if_pos hneg, forall_mem_singleton] at hkept
    simp only [Work.value, worth_bump (hkept _), hsibling hneg, add_assoc]
  rw [if_neg hneg] at h
  cases h
  rw [loadSums, if_neg hneg, forall_mem_singleton] at hkept
  simp only [Work.value, Ranging.vals_add, worth_bump (hkept _)]
  abel

/-- **One iteration of the inner loop** keeps the worth: `m` of an element and `m` of its sibling
are `m` of their father. -/
theorem climb_value (hsplit : φ { te with right := g.father } = φ te + ψ te)
    (hsibling : ∀ f, fetch v rts g.father = some f → f.isNegative = true →
      ψ { te with right := v.rightHash f.positive } = φ { te with right := g.father })
    (hkept : ∀ x ∈ climbSums v rts w te g tks, ∀ a : A, Kept x a)
    (h : (climb v rts w te g tks).work = some w') : w'.value φ ψ = w.value φ ψ := by
  simp only [climb] at h
  split at h
  · cases h
    rfl
  rename_i s hs
  split at h
  case isFalse =>
    cases h
    rfl
  rename_i htest
  split at h
  · cases h
  rename_i f hf
  have hget : w.siblingVals.get te = s := by rw [Map.get, hs]; rfl
  simp only [climbSums, hs, if_pos htest, hf, cons_append, nil_append, forall_mem_cons] at hkept
  obtain ⟨hleft, hright, hload⟩ := hkept
  rw [load_value (fun hneg => hsibling f hf hneg) hload h,
    unload_value (by rw [hget]; exact hleft) hright, hsplit, sub_add_cancel]

theorem again_value (h : (again w).work = some w') : w'.value φ ψ = w.value φ ψ := by
  simp only [again] at h
  split at h
  · cases h
    rfl
  · cases h
    rfl

end

end Zent.Validate
