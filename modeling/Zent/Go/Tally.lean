import Mathlib.Data.List.AList
import Mathlib.Algebra.BigOperators.Group.Finset.Basic
import Mathlib.Algebra.BigOperators.Group.Finset.Piecewise
import Mathlib.Data.Int.ModEq
import Mathlib.Algebra.BigOperators.Ring.Finset
import Mathlib.Algebra.Order.BigOperators.Group.List

/-!
# Totals in machine integers

A loop that adds amounts into a Go map of type `map[K]int64` computes, under each
key, the sum of the amounts modulo `2^64`. This file relates such a map to the
exact (unbounded) sums.

* `total l k` — the mathematical total of the amounts filed under `k`.
* `turns` — how many times a total has left the `int64` range; a wrapped total
  together with its number of turns is the exact total (`turns_add_wrap`).
-/

namespace Go

open List Int64 AList Option Prod Int

universe u

/-- A Go map. -/
abbrev Map (κ : Type u) (ν : Type) : Type u := AList (fun _ : κ => ν)

section PutAll

variable {κ : Type u} [DecidableEq κ] {ν : Type} {m : Map κ ν} {k : κ} {v : ν}

/-- What is found after an assignment is the value assigned, or was there. -/
theorem lookup_insert_cases {k' : κ} {v' : ν} (h : (m.insert k v).lookup k' = some v') :
    k' = k ∧ v' = v ∨ k' ≠ k ∧ m.lookup k' = some v' := by
  by_cases hk : k' = k
  · subst hk
    rw [lookup_insert] at h
    exact .inl ⟨rfl, (some_inj.mp h).symm⟩
  · rw [lookup_insert_ne hk] at h
    exact .inr ⟨hk, h⟩

theorem mem_of_lookup (h : m.lookup k = some v) : k ∈ m :=
  lookup_isSome.mp (isSome_of_mem h)

theorem ne_of_lookup {j : κ} (hj : m.lookup j = some v) (hk : m.lookup k = none) : j ≠ k := by
  rintro rfl
  rw [hj] at hk
  cases hk

theorem lookup_insert_ite (m : Map κ ν) (j k : κ) (v : ν) :
    (m.insert j v).lookup k = if k = j then some v else m.lookup k := by
  split
  · subst k
    exact lookup_insert m
  · exact lookup_insert_ne ‹_›

theorem lookup_erase_ite (m : Map κ ν) (j k : κ) :
    (m.erase j).lookup k = if k = j then none else m.lookup k := by
  split
  · subst k
    exact lookup_erase j m
  · exact lookup_erase_ne ‹_›

/-- What is cached from a database makes no difference. -/
theorem lookup_insert_or {db : Map κ ν} {j : κ} (hm : m.lookup j = none)
    (hdb : db.lookup j = some v) (k : κ) :
    ((m.insert j v).lookup k).or (db.lookup k) = (m.lookup k).or (db.lookup k) := by
  rw [lookup_insert_ite]
  split
  · rename_i hk
    rw [hk, hm, hdb]
    rfl
  · rfl

/-- Store a list of values, each under its key. -/
def putAll (m : Map κ ν) (l : List (κ × ν)) : Map κ ν := l.foldl (fun m p => m.insert p.1 p.2) m

@[simp] theorem putAll_nil (m : Map κ ν) : putAll m [] = m := rfl

@[simp] theorem putAll_append (m : Map κ ν) (l l' : List (κ × ν)) :
    putAll m (l ++ l') = putAll (putAll m l) l' := foldl_append ..

theorem lookup_putAll_of_notMem :
    ∀ (l : List (κ × ν)) (m : Map κ ν), k ∉ l.map fst →
      (putAll m l).lookup k = m.lookup k := by
  intro l
  induction l with
  | nil => intro m _; rfl
  | cons p rest ih =>
    intro m hk
    rw [map_cons, mem_cons, not_or] at hk
    have hstep : putAll m (p :: rest) = putAll (m.insert p.1 p.2) rest := rfl
    rw [hstep, ih _ hk.2, lookup_insert_ne hk.1]

theorem lookup_putAll {p : κ × ν} :
    ∀ (l : List (κ × ν)) (m : Map κ ν), (l.map fst).Nodup → p ∈ l →
      (putAll m l).lookup p.1 = some p.2 := by
  intro l
  induction l with
  | nil => intro m _ hp; cases hp
  | cons q rest ih =>
    intro m hnodup hp
    rw [map_cons, nodup_cons] at hnodup
    have hstep : putAll m (q :: rest) = putAll (m.insert q.1 q.2) rest := rfl
    rcases mem_cons.mp hp with rfl | hp
    · rw [hstep, lookup_putAll_of_notMem rest _ hnodup.1, lookup_insert]
    · exact ih _ hnodup.2 hp

theorem mem_putAll : ∀ (l : List (κ × ν)) (m : Map κ ν),
    k ∈ putAll m l ↔ k ∈ l.map fst ∨ k ∈ m
  | [], m => by simp
  | p :: rest, m => by
    have hstep : putAll m (p :: rest) = putAll (m.insert p.1 p.2) rest := rfl
    rw [hstep, mem_putAll rest, mem_insert, map_cons, mem_cons]
    tauto

end PutAll

section RangeWrites

variable {κ : Type u} [DecidableEq κ] {ν ν' : Type} {f : Map κ ν → ((_ : κ) × ν') → Map κ ν}
  {g : κ → ν' → Option ν → Option ν}
  (hf : ∀ m e k, (f m e).lookup k = if k = e.1 then g k e.2 (m.lookup k) else m.lookup k)

include hf

/-- Writes that leave the key alone. -/
theorem lookup_foldl_of_notMem {k : κ} :
    ∀ (l : List ((_ : κ) × ν')) (m : Map κ ν), k ∉ l.keys → (l.foldl f m).lookup k = m.lookup k
  | [], _, _ => rfl
  | e :: rest, m, hk => by
    rw [keys_cons, mem_cons, not_or] at hk
    rw [foldl_cons, lookup_foldl_of_notMem rest _ hk.2, hf m e k, if_neg hk.1]

/-- **A range over a map whose body writes under the key it is at.** What it leaves there is what
the body writes for the entry. -/
theorem lookup_foldl_entries (r : Map κ ν') (m : Map κ ν) (k : κ) :
    (r.entries.foldl f m).lookup k =
      (r.lookup k).elim (m.lookup k) fun v => g k v (m.lookup k) := by
  cases hk : r.lookup k with
  | none =>
    refine lookup_foldl_of_notMem hf _ m ?_
    exact lookup_eq_none.mp hk
  | some v =>
    have hmem : (⟨k, v⟩ : (_ : κ) × ν') ∈ r.entries := mem_lookup_iff.mp hk
    obtain ⟨before, after, hsplit⟩ := append_of_mem hmem
    have hnodup := r.nodupKeys
    rw [hsplit, List.NodupKeys, List.keys, map_append, map_cons, nodup_append, nodup_cons] at hnodup
    have hbefore : k ∉ before.keys := fun h => hnodup.2.2 k h k mem_cons_self rfl
    rw [hsplit, foldl_append, foldl_cons, lookup_foldl_of_notMem hf after _ hnodup.2.1.1,
      hf _ ⟨k, v⟩, if_pos rfl, lookup_foldl_of_notMem hf before m hbefore]
    rfl

/-- The same, whatever the order in which the entries are visited. -/
theorem lookup_foldl_perm {r : Map κ ν'} {l : List ((_ : κ) × ν')} (hl : l.Perm r.entries)
    (m : Map κ ν) (k : κ) :
    (l.foldl f m).lookup k = (r.lookup k).elim (m.lookup k) fun v => g k v (m.lookup k) := by
  have hnodup : l.NodupKeys := (perm_nodupKeys hl).mpr r.nodupKeys
  have hfold := lookup_foldl_entries hf ⟨l, hnodup⟩ m k
  have hlookup : AList.lookup k (⟨l, hnodup⟩ : Map κ ν') = r.lookup k := perm_lookup hl
  rwa [hlookup] at hfold

end RangeWrites

/-- The entries of a map are the one at a key and those left when it is deleted. -/
theorem entries_perm_erase {κ : Type u} [DecidableEq κ] {ν : Type} {m : Map κ ν} {k : κ} {v : ν}
    (h : m.lookup k = some v) : m.entries.Perm (⟨k, v⟩ :: (m.erase k).entries) := by
  have hmem : (⟨k, v⟩ : (_ : κ) × ν) ∈ m.entries := mem_lookup_iff.mp h
  obtain ⟨v', l, l', -, hsplit, herase⟩ := exists_of_kerase (mem_keys_of_mem hmem)
  have hv : v' = v := by
    have hmem' : (⟨k, v'⟩ : (_ : κ) × ν) ∈ m.entries := by
      rw [hsplit]
      exact mem_append_right l mem_cons_self
    exact some_inj.mp ((mem_lookup_iff.mpr hmem').symm.trans h)
  have hentries : (m.erase k).entries = l ++ l' := herase
  rw [hentries, hsplit, hv]
  exact perm_middle

theorem sum_map_entries {κ : Type u} [DecidableEq κ] {ν A : Type} [AddCommMonoid A] {m : Map κ ν}
    {k : κ} {v : ν} (h : m.lookup k = some v) (φ : (_ : κ) × ν → A) :
    (m.entries.map φ).sum = φ ⟨k, v⟩ + ((m.erase k).entries.map φ).sum := by
  rw [((entries_perm_erase h).map φ).sum_eq, map_cons, sum_cons]

section

variable {κ : Type u} [DecidableEq κ]

/-- Read `m[k]` of a map of integers: an absent key reads as zero. -/
def Map.get (m : Map κ Int64) (k : κ) : Int64 := (m.lookup k).getD 0

theorem get_of_mem_entries {m : Map κ Int64} {k : κ} (h : k ∈ m) :
    (⟨k, m.get k⟩ : (_ : κ) × Int64) ∈ m.entries := by
  obtain ⟨v, hv⟩ := isSome_iff_exists.mp (lookup_isSome.mpr h)
  rw [Map.get, hv]
  exact mem_lookup_iff.mp hv

theorem get_of_notMem {m : Map κ Int64} {k : κ} (h : k ∉ m) : m.get k = 0 := by
  rw [Map.get, lookup_eq_none.mpr h]
  rfl

variable (m : Map κ Int64) (k : κ)

theorem get_erase (k' : κ) : Map.get (m.erase k) k' = if k' = k then 0 else m.get k' := by
  simp only [Map.get, lookup_erase_ite]
  split <;> rfl

/-- The statement `m[k] += v`. -/
def bump (m : Map κ Int64) (k : κ) (v : Int64) : Map κ Int64 := m.insert k (m.get k + v)

theorem get_bump (k' : κ) (v : Int64) :
    (bump m k v).get k' = if k' = k then m.get k + v else m.get k' := by
  simp only [Map.get, bump, lookup_insert_ite]
  split <;> rfl

theorem mem_bump (k' : κ) (v : Int64) : k' ∈ bump m k v ↔ k' = k ∨ k' ∈ m := by
  simp [bump]

/-- The statement `m[k] -= v`. -/
def dock (m : Map κ Int64) (k : κ) (v : Int64) : Map κ Int64 := m.insert k (m.get k - v)

theorem get_dock (k' : κ) (v : Int64) :
    (dock m k v).get k' = if k' = k then m.get k - v else m.get k' := by
  simp only [Map.get, dock, lookup_insert_ite]
  split <;> rfl

/-- File a list of amounts, each under its key. -/
def tally (m : Map κ Int64) (l : List (κ × Int64)) : Map κ Int64 :=
  l.foldl (fun m p => bump m p.1 p.2) m

@[simp] theorem tally_nil : tally m [] = m := rfl

variable (l : List (κ × Int64))

@[simp] theorem tally_append (l' : List (κ × Int64)) :
    tally m (l ++ l') = tally (tally m l) l' := foldl_append ..

@[simp] theorem tally_singleton (p : κ × Int64) :
    tally m [p] = bump m p.1 p.2 := rfl

theorem tally_cons (p : κ × Int64) (l : List (κ × Int64)) :
    tally m (p :: l) = tally (bump m p.1 p.2) l := rfl

/-- The mathematical total of the amounts filed under `k`. -/
def total (l : List (κ × Int64)) (k : κ) : Int :=
  ((l.filter (fun p => p.1 = k)).map (fun p => p.2.toInt)).sum

@[simp] theorem total_nil : total ([] : List (κ × Int64)) k = 0 := rfl

theorem total_cons (p : κ × Int64) (l : List (κ × Int64)) (k : κ) :
    total (p :: l) k = (if p.1 = k then p.2.toInt else 0) + total l k := by
  by_cases h : p.1 = k
  · simp [total, h]
  · simp [total, h]

theorem total_append (l' : List (κ × Int64)) (k : κ) :
    total (l ++ l') k = total l k + total l' k := by
  simp [total]

theorem total_eq_zero_of_notMem {l : List (κ × Int64)} {k : κ} (h : k ∉ l.map fst) :
    total l k = 0 := by
  have hnil : l.filter (fun p => p.1 = k) = [] := by
    rw [filter_eq_nil_iff]
    intro p hp hk
    exact h (mem_map.mpr ⟨p, hp, by simpa using hk⟩)
  simp [total, hnil]

theorem total_nonneg {l : List (κ × Int64)} (h : ∀ p ∈ l, 0 ≤ p.2.toInt) (k : κ) :
    0 ≤ total l k := by
  apply sum_nonneg
  intro x hx
  obtain ⟨p, hp, rfl⟩ := mem_map.mp hx
  exact h p (mem_of_mem_filter hp)

theorem mem_tally : ∀ m : Map κ Int64, k ∈ tally m l ↔ k ∈ l.map fst ∨ k ∈ m := by
  induction l with
  | nil => intro m; simp
  | cons p rest ih =>
    intro m
    rw [tally_cons, ih, mem_bump, map_cons, mem_cons]
    tauto

/-- **A tally holds the wrapped exact totals**, on top of what the map held. -/
theorem get_tally : ∀ m : Map κ Int64, (tally m l).get k = m.get k + ofInt (total l k) := by
  induction l with
  | nil => intro m; simp
  | cons p rest ih =>
    intro m
    rw [tally_cons, ih, get_bump, total_cons, ofInt_add]
    by_cases h : k = p.1
    · subst h
      simp [ofInt_toInt, Int64.add_assoc]
    · simp [h, Ne.symm h]

theorem get_tally_empty : (tally ∅ l).get k = ofInt (total l k) := by
  rw [get_tally]
  simp [Map.get]

end

/-! ## Turns around the `int64` range -/

/-- How many times the exact amount `x` has left the `int64` range, counted with sign. -/
def turns (x : Int) : Int := x.bdiv (2 ^ 64)

/-- An exact amount is its wrapped value plus its turns. -/
theorem turns_add_wrap (x : Int) : 2 ^ 64 * turns x + (ofInt x).toInt = x := by
  rw [turns, toInt_ofInt]
  exact bdiv_add_bmod x (2 ^ 64)

/-- The amount is one of `int64`. -/
def InInt64 (x : Int) : Prop := -2 ^ 63 ≤ x ∧ x < 2 ^ 63

instance (x : Int) : Decidable (InInt64 x) := inferInstanceAs (Decidable (_ ∧ _))

variable {x : Int}

theorem toInt_ofInt_iff : (ofInt x).toInt = x ↔ InInt64 x := by
  refine ⟨fun h => ?_, fun h => toInt_ofInt_of_le h.1 h.2⟩
  rw [← h]
  exact ⟨le_toInt _, toInt_lt _⟩

theorem wrap_eq_iff_modEq (x y : Int) : ofInt x = ofInt y ↔ x ≡ y [ZMOD 2 ^ 64] := by
  have hx := turns_add_wrap x
  have hy := turns_add_wrap y
  have hxlo := le_toInt (ofInt x)
  have hxhi := toInt_lt (ofInt x)
  have hylo := le_toInt (ofInt y)
  have hyhi := toInt_lt (ofInt y)
  rw [← toInt_inj, Int.ModEq]
  omega

/-- Amounts that wrap to the same value are equal exactly when they took equally many turns. -/
theorem eq_iff_turns_eq {y : Int} (h : ofInt x = ofInt y) : x = y ↔ turns x = turns y := by
  have hx := turns_add_wrap x
  have hy := turns_add_wrap y
  rw [h] at hx
  constructor
  · rintro rfl
    rfl
  · intro ht
    omega

/-- Amounts whose wrapped values are in order are in order exactly when their turns are. -/
theorem le_iff_turns_le {y : Int} (h : (ofInt x).toInt ≤ (ofInt y).toInt) :
    x ≤ y ↔ turns x ≤ turns y := by
  have hx := turns_add_wrap x
  have hy := turns_add_wrap y
  have hlo := le_toInt (ofInt x)
  have hhi := toInt_lt (ofInt y)
  constructor
  · intro hxy
    by_contra hlt
    omega
  · intro ht
    omega

theorem turns_nonneg (h : 0 ≤ x) : 0 ≤ turns x := by
  have hx := turns_add_wrap x
  have hhi := toInt_lt (ofInt x)
  omega

/-- The overflow test of two's complement: a sum of non-negative amounts that reads
non-negative has not wrapped. -/
theorem toInt_add_of_nonneg {a b : Int64} (ha : 0 ≤ a.toInt) (hb : 0 ≤ b.toInt)
    (hab : 0 ≤ (a + b).toInt) : (a + b).toInt = a.toInt + b.toInt := by
  have hsum := turns_add_wrap (a.toInt + b.toInt)
  rw [ofInt_add, ofInt_toInt, ofInt_toInt] at hsum
  have halt := toInt_lt a
  have hblt := toInt_lt b
  have hlt := toInt_lt (a + b)
  omega

/-- An unsigned amount that reads non-negative as `int64` is read exactly. -/
theorem toInt_toInt64_of_nonneg {u : UInt64} (h : 0 ≤ u.toInt64.toInt) :
    u.toInt64.toInt = u.toNat := by
  have hwrap : u.toInt64.toInt = (ofInt u.toNat).toInt := by
    rw [toInt_ofInt, toInt.eq_1, UInt64.toBitVec_toInt64, BitVec.toInt_eq_toNat_bmod]
    rfl
  have hsum := turns_add_wrap u.toNat
  have hlt : u.toNat < 2 ^ 64 := u.toNat_lt
  have hhi := toInt_lt u.toInt64
  omega

/-- An amount below `2^63` is read exactly as `int64`. -/
theorem toInt_toInt64_ofNat {n : Nat} (h : n < 2 ^ 63) : (UInt64.ofNat n).toInt64.toInt = n := by
  rw [toInt.eq_1, UInt64.toBitVec_toInt64, BitVec.toInt_eq_toNat_bmod]
  have hn : (UInt64.ofNat n).toBitVec.toNat = n :=
    UInt64.toNat_ofNat_of_lt' (by rw [UInt64.size]; omega)
  rw [hn]
  exact bmod_eq_of_le_mul_two (by omega) (by omega)

/-! ## Merging keys -/

section Rekey

variable {κ : Type u} {g : κ → κ}

/-- File the same amounts under other keys. -/
def rekey (f : κ → κ) (l : List (κ × Int64)) : List (κ × Int64) := l.map (fun p => (f p.1, p.2))

/-- A map of the keys absorbs one that it does not see. -/
theorem rekey_absorb {f : κ → κ} (h : ∀ k, g (f k) = g k) (l : List (κ × Int64)) :
    rekey g l = rekey g (rekey f l) := by
  simp [rekey, h]

theorem map_fst_rekey (f : κ → κ) (l : List (κ × Int64)) :
    (rekey f l).map fst = (l.map fst).map f := by
  simp [rekey]

variable [DecidableEq κ] {c : κ}

/-- The total under a merged key is the sum of the totals of the keys merged into it. -/
theorem total_rekey (g : κ → κ) (c : κ) (keys : Finset κ) :
    ∀ l : List (κ × Int64), (∀ p ∈ l, p.1 ∈ keys) →
      total (rekey g l) c = ∑ k ∈ keys with g k = c, total l k := by
  intro l
  induction l with
  | nil => intro _; simp [rekey]
  | cons p rest ih =>
    intro hkeys
    have hp : p.1 ∈ keys := hkeys p (by simp)
    have hrest := ih (fun q hq => hkeys q (by simp [hq]))
    have hcons : rekey g (p :: rest) = (g p.1, p.2) :: rekey g rest := rfl
    simp only [hcons, total_cons, hrest, Finset.sum_add_distrib, Finset.sum_ite_eq,
      Finset.mem_filter, hp, true_and]

/-- The total under a key that stands for itself splits into its own part and the parts of the
other keys merged into it. -/
theorem total_rekey_split (hc : g c = c) (l : List (κ × Int64)) :
    ∃ stray : Finset κ, (∀ k ∈ stray, g k = c ∧ k ≠ c) ∧
      total (rekey g l) c = total l c + ∑ k ∈ stray, total l k := by
  let keys : Finset κ := insert c (l.map fst).toFinset
  have hkeys : ∀ p ∈ l, p.1 ∈ keys := by
    intro p hp
    simp only [keys, Finset.mem_insert, List.mem_toFinset]
    exact .inr (mem_map_of_mem hp)
  have hmem : c ∈ keys.filter (fun k => g k = c) := by simp [keys, hc]
  refine ⟨(keys.filter (fun k => g k = c)).erase c, fun k hk => ?_, ?_⟩
  · simp only [Finset.mem_erase, Finset.mem_filter] at hk
    exact ⟨hk.2.2, hk.1⟩
  · rw [total_rekey g c keys l hkeys, Finset.add_sum_erase _ _ hmem]

/-- Merging keys whose own totals vanish modulo `2^64` into `c` leaves the wrapped total of
`c` as it was. -/
theorem total_rekey_modEq (hc : g c = c) (l : List (κ × Int64))
    (hstray : ∀ k, g k = c → k ≠ c → total l k ≡ 0 [ZMOD 2 ^ 64]) :
    total (rekey g l) c ≡ total l c [ZMOD 2 ^ 64] := by
  obtain ⟨stray, hmem, hsplit⟩ := total_rekey_split hc l
  have hzero : (∑ k ∈ stray, total l k) ≡ 0 [ZMOD 2 ^ 64] := by
    rw [modEq_zero_iff_dvd]
    apply Finset.dvd_sum
    intro k hk
    exact modEq_zero_iff_dvd.mp (hstray k (hmem k hk).1 (hmem k hk).2)
  rw [hsplit]
  simpa using Int.ModEq.add_left (total l c) hzero

/-- Merging keys whose own totals vanish into `c` leaves the total of `c` as it was. -/
theorem total_rekey_eq (hc : g c = c) (l : List (κ × Int64))
    (hstray : ∀ k, g k = c → k ≠ c → total l k = 0) : total (rekey g l) c = total l c := by
  obtain ⟨stray, hmem, hsplit⟩ := total_rekey_split hc l
  rw [hsplit, Finset.sum_eq_zero, add_zero]
  intro k hk
  exact hstray k (hmem k hk).1 (hmem k hk).2

variable (l : List (κ × Int64))

/-- A key that only itself is filed under keeps its total. -/
theorem total_rekey_of_fixed {f : κ → κ} {k : κ} (h : ∀ u, f u = k ↔ u = k) :
    total (rekey f l) k = total l k := by
  induction l with
  | nil => rfl
  | cons p rest ih =>
    have hcons : rekey f (p :: rest) = (f p.1, p.2) :: rekey f rest := rfl
    rw [hcons, total_cons, total_cons, ih]
    simp only [h]

end Rekey

end Go
