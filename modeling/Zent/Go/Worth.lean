import Mathlib.GroupTheory.FreeAbelianGroup
import Mathlib.GroupTheory.QuotientGroup.Defs
import Mathlib.Tactic.Abel
import Zent.Go.Tally

/-!
# What a tally is worth

A tally holds amounts of things. When the things are valued in an abelian group, so is the tally.
An entry that is changed by an amount changes the worth of the tally by that amount of the thing,
unless the sum leaves the range of `int64`; where `2^64` of a thing are worth nothing, always.

* `worth φ m` — the worth of the tally `m`.
* `Kept x a` — storing the amount `x` of a thing as `int64` does not change what it is worth.
* `Split R` — the things of `κ` with nothing known about them but that a whole is worth its two
  parts; `Split.lift` values it in any group where that is so.
-/

namespace Go

open List Int64 FreeAbelianGroup

universe u v

section Worth

variable {κ : Type u} {A : Type v} [AddCommGroup A]

/-- The worth of the entries of a map. -/
def worth (φ : κ → A) (m : Map κ Int64) : A := (m.entries.map fun e => e.2.toInt • φ e.1).sum

/-- An amount is worth the same after it has been stored as `int64`. -/
def Kept (x : Int) (a : A) : Prop := (ofInt x).toInt • a = x • a

theorem kept_of_inInt64 {x : Int} {a : A} (h : InInt64 x) : Kept x a := by
  rw [Kept, toInt_ofInt_iff.mpr h]

/-- Whole turns are worth nothing. -/
theorem kept_of_torsion {x : Int} {a : A} (h : (2 ^ 64 : Int) • a = 0) : Kept x a := by
  have hx := turns_add_wrap x
  calc (ofInt x).toInt • a
      = (2 ^ 64 * turns x) • a + (ofInt x).toInt • a := by
        rw [mul_comm, mul_smul, h, smul_zero, zero_add]
    _ = x • a := by rw [← add_smul, hx]

@[simp] theorem worth_empty (φ : κ → A) : worth φ ∅ = 0 := rfl

variable {φ : κ → A} {m : Map κ Int64}

theorem worth_eq_zero (h : ∀ e ∈ m.entries, e.2.toInt • φ e.1 = 0) : worth φ m = 0 := by
  apply sum_eq_zero
  intro x hx
  obtain ⟨e, he, rfl⟩ := mem_map.mp hx
  exact h e he

theorem map_worth {B : Type*} [AddCommGroup B] (f : A →+ B) (φ : κ → A) (m : Map κ Int64) :
    f (worth φ m) = worth (f ∘ φ) m := by
  rw [worth, map_list_sum, map_map, worth]
  refine congrArg sum (map_congr_left fun e _ => ?_)
  exact map_zsmul f e.2.toInt (φ e.1)

theorem worth_apply {ι : Type*} (φ : κ → ι → A) (m : Map κ Int64) (i : ι) :
    worth φ m i = worth (fun k => φ k i) m :=
  map_worth (Pi.evalAddMonoidHom (fun _ => A) i) φ m

variable [DecidableEq κ] {k : κ}

theorem worth_erase (φ : κ → A) (m : Map κ Int64) (k : κ) :
    worth φ (m.erase k) = worth φ m - (m.get k).toInt • φ k := by
  cases hk : m.lookup k with
  | none =>
    have hget : m.get k = 0 := by rw [Map.get, hk]; rfl
    have herase : (m.erase k).entries = m.entries :=
      kerase_of_notMem_keys (AList.lookup_eq_none.mp hk)
    rw [worth, herase, hget, toInt_zero, zero_smul, sub_zero, worth]
  | some v =>
    have hget : m.get k = v := by rw [Map.get, hk]; rfl
    have hperm := (entries_perm_erase hk).map fun e => e.2.toInt • φ e.1
    rw [hget, worth, worth, hperm.sum_eq, map_cons, sum_cons, add_sub_cancel_left]

theorem worth_of_single (h : ∀ e ∈ m.entries, e.1 ≠ k → e.2.toInt • φ e.1 = 0) :
    worth φ m = (m.get k).toInt • φ k := by
  have hrest : worth φ (m.erase k) = 0 := by
    refine worth_eq_zero fun e he => h e (kerase_sublist k m.entries |>.subset he) ?_
    rintro rfl
    exact (notMem_keys_kerase e.1 m.nodupKeys) (mem_keys_of_mem he)
  rw [worth_erase, sub_eq_zero] at hrest
  exact hrest

theorem worth_insert (φ : κ → A) (m : Map κ Int64) (k : κ) (v : Int64) :
    worth φ (m.insert k v) = worth φ m + (v.toInt - (m.get k).toInt) • φ k := by
  have hentries : (m.insert k v).entries = ⟨k, v⟩ :: (m.erase k).entries := AList.entries_insert
  have herase := worth_erase φ m k
  rw [worth] at herase
  rw [worth, hentries, map_cons, sum_cons, herase, sub_smul]
  abel

/-- `m[k] += v` -/
theorem worth_bump {v : Int64} (h : Kept ((m.get k).toInt + v.toInt) (φ k)) :
    worth φ (bump m k v) = worth φ m + v.toInt • φ k := by
  have hsum : (m.get k + v).toInt • φ k = ((m.get k).toInt + v.toInt) • φ k := by
    rw [← h, ofInt_add, ofInt_toInt, ofInt_toInt]
  rw [bump, worth_insert, sub_smul, hsum, add_smul, add_sub_cancel_left]

/-- `m[k] -= v` -/
theorem worth_dock {v : Int64} (h : Kept ((m.get k).toInt - v.toInt) (φ k)) :
    worth φ (dock m k v) = worth φ m - v.toInt • φ k := by
  have hdiff : (m.get k - v).toInt • φ k = ((m.get k).toInt - v.toInt) • φ k := by
    rw [← h, ofInt_sub, ofInt_toInt, ofInt_toInt]
  rw [dock, worth_insert, sub_smul, hdiff, sub_smul]
  abel

theorem worth_eq_sum {s : Finset κ} :
    ∀ {m : Map κ Int64}, (∀ k ∈ m, k ∈ s) → worth φ m = ∑ k ∈ s, (m.get k).toInt • φ k := by
  intro m hs
  have hkeys : m.keys.toFinset ⊆ s := fun k hk => hs k (mem_toFinset.mp hk)
  have hrest : ∀ k ∈ s, k ∉ m.keys.toFinset → (m.get k).toInt • φ k = 0 := by
    intro k _ hk
    rw [get_of_notMem fun hmem => hk (mem_toFinset.mpr hmem), toInt_zero, zero_smul]
  rw [← Finset.sum_subset hkeys hrest, sum_toFinset _ m.keys_nodup, worth, AList.keys,
    keys, map_map]
  refine congrArg sum (map_congr_left fun e he => ?_)
  have hget : m.get e.1 = e.2 := by rw [Map.get, AList.mem_lookup_iff.mpr he]; rfl
  rw [Function.comp_apply, hget]

end Worth

/-! ## Filing exact amounts -/

section Filing

variable {κ : Type u} [DecidableEq κ] {A : Type v} [AddCommGroup A]

/-- The exact total of the amounts filed under a key. -/
def exactTotal (l : List (κ × Int)) (k : κ) : Int :=
  (l.map fun p => if p.1 = k then p.2 else 0).sum

theorem exactTotal_cons (p : κ × Int) (l : List (κ × Int)) (k : κ) :
    exactTotal (p :: l) k = (if p.1 = k then p.2 else 0) + exactTotal l k := by
  rw [exactTotal, map_cons, sum_cons, exactTotal]

/-- Amounts as they are filed. -/
def wrapped (l : List (κ × Int)) : List (κ × Int64) := l.map fun p => (p.1, ofInt p.2)

theorem get_tally_wrapped (l : List (κ × Int)) (k : κ) :
    (tally ∅ (wrapped l)).get k = ofInt (exactTotal l k) := by
  rw [get_tally_empty]
  induction l with
  | nil => rfl
  | cons p l ih =>
    have hwrapped : wrapped (p :: l) = (p.1, ofInt p.2) :: wrapped l := rfl
    rw [hwrapped, total_cons, exactTotal_cons, ofInt_add, ofInt_add, ih]
    by_cases h : p.1 = k
    · rw [if_pos h, if_pos h, ofInt_toInt]
    · rw [if_neg h, if_neg h]

/-- **A tally is worth what was filed**, when each total is kept. -/
theorem worth_tally {φ : κ → A} {l : List (κ × Int)} (h : ∀ k, Kept (exactTotal l k) (φ k)) :
    worth φ (tally ∅ (wrapped l)) = (l.map fun p => p.2 • φ p.1).sum := by
  have hkeys : ∀ k ∈ tally ∅ (wrapped l), k ∈ (l.map Prod.fst).toFinset := by
    intro k hk
    rw [mem_tally, wrapped, map_map] at hk
    exact mem_toFinset.mpr (hk.resolve_right (AList.notMem_empty k))
  rw [worth_eq_sum hkeys]
  have hterm : ∀ k ∈ (l.map Prod.fst).toFinset,
      ((tally ∅ (wrapped l)).get k).toInt • φ k = exactTotal l k • φ k := by
    intro k _
    rw [get_tally_wrapped]
    exact h k
  rw [Finset.sum_congr rfl hterm]
  -- the sum over the keys is the sum over what was filed
  have hgen : ∀ (s : Finset κ) (l : List (κ × Int)), (∀ p ∈ l, p.1 ∈ s) →
      ∑ k ∈ s, exactTotal l k • φ k = (l.map fun p => p.2 • φ p.1).sum := by
    intro s l
    induction l with
    | nil => intro _; simp [exactTotal]
    | cons p l ih =>
      intro hs
      have hsplit : ∀ k, exactTotal (p :: l) k • φ k =
          (if p.1 = k then p.2 • φ k else 0) + exactTotal l k • φ k := by
        intro k
        rw [exactTotal_cons, add_smul, ite_smul, zero_smul]
      simp only [hsplit, Finset.sum_add_distrib, Finset.sum_ite_eq, map_cons, sum_cons]
      rw [if_pos (hs p mem_cons_self), ih fun q hq => hs q (mem_cons_of_mem p hq)]
  exact hgen _ l fun p hp => mem_toFinset.mpr (mem_map_of_mem hp)

end Filing

/-! ## Wholes and their parts -/

section Split

variable {κ : Type u} {A : Type v} [AddCommGroup A]

/-- The differences between a whole and its two parts. -/
def splits (R : κ → κ → κ → Prop) : AddSubgroup (FreeAbelianGroup κ) :=
  AddSubgroup.closure {x | ∃ whole part rest, R whole part rest ∧
    x = of whole - (of part + of rest)}

/-- The free abelian group over `κ` modulo "a whole is its two parts". -/
abbrev Split (R : κ → κ → κ → Prop) : Type u := FreeAbelianGroup κ ⧸ splits R

namespace Split

variable {R : κ → κ → κ → Prop}

/-- One of a thing. -/
def of (R : κ → κ → κ → Prop) (k : κ) : Split R := QuotientAddGroup.mk (FreeAbelianGroup.of k)

theorem of_whole {whole part rest : κ} (h : R whole part rest) :
    of R whole = of R part + of R rest := by
  refine QuotientAddGroup.eq_iff_sub_mem.mpr ?_
  exact AddSubgroup.subset_closure ⟨whole, part, rest, h, rfl⟩

theorem splits_le_ker {φ : κ → A}
    (h : ∀ whole part rest, R whole part rest → φ whole = φ part + φ rest) :
    splits R ≤ (lift φ).ker := by
  rw [splits, AddSubgroup.closure_le]
  rintro x ⟨whole, part, rest, hR, rfl⟩
  simp [AddMonoidHom.mem_ker, h whole part rest hR]

/-- A valuation that respects the parts values the group. -/
def lift (φ : κ → A) (h : ∀ whole part rest, R whole part rest → φ whole = φ part + φ rest) :
    Split R →+ A :=
  QuotientAddGroup.lift (splits R) (FreeAbelianGroup.lift φ) (splits_le_ker h)

theorem lift_of (φ : κ → A) (h : ∀ whole part rest, R whole part rest → φ whole = φ part + φ rest)
    (k : κ) : lift φ h (of R k) = φ k := by
  rw [lift, of, QuotientAddGroup.lift_mk, FreeAbelianGroup.lift_apply_of]

end Split

end Split

end Go
