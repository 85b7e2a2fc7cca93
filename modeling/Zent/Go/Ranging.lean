import Mathlib.Data.Finset.Basic
import Zent.Go.Tally

/-!
# Ranging over a map that is being changed

The body of a Go `range` may change the map it ranges over. An entry that is deleted before it has
been reached is not produced, and one that is created during the loop may be produced or not.

* `Ranging` — a map together with the entries the loop has yet to produce (`due`) and those it may
  still produce (`fresh`); both are entries of the map.
-/

namespace Go

open Finset

universe u

variable {κ : Type u} [DecidableEq κ] {ν : Type}

/-- A map in the course of a range over it. -/
structure Ranging (κ : Type u) (ν : Type) where
  vals : Map κ ν
  /-- there when the loop was entered, and not reached yet -/
  due : Finset κ
  /-- created since the loop was entered, and not produced -/
  fresh : Finset κ
  present : ∀ k, k ∈ due ∨ k ∈ fresh → k ∈ vals

namespace Ranging

/-- Enter a loop over `m`. -/
def enter (m : Map κ ν) : Ranging κ ν where
  vals := m
  due := m.keys.toFinset
  fresh := ∅
  present := by
    intro k hk
    exact List.mem_toFinset.mp (hk.resolve_right (notMem_empty k))

/-- The loop can produce the entry of `k` next. -/
def Producible (r : Ranging κ ν) (k : κ) : Prop := k ∈ r.due ∨ k ∈ r.fresh

instance (r : Ranging κ ν) (k : κ) : Decidable (r.Producible k) :=
  inferInstanceAs (Decidable (_ ∨ _))

/-- The loop produces the entry of `k`. -/
def produce (r : Ranging κ ν) (k : κ) : Ranging κ ν where
  vals := r.vals
  due := r.due.erase k
  fresh := r.fresh.erase k
  present := by
    intro k' hk'
    exact r.present k' (hk'.imp mem_of_mem_erase mem_of_mem_erase)

/-- `m[k] = v` -/
def put (r : Ranging κ ν) (k : κ) (v : ν) : Ranging κ ν where
  vals := r.vals.insert k v
  due := r.due
  fresh := if k ∈ r.vals then r.fresh else insert k r.fresh
  present := by
    intro k' hk'
    rw [AList.mem_insert]
    rcases hk' with hk' | hk'
    · exact .inr (r.present k' (.inl hk'))
    · split at hk'
      · exact .inr (r.present k' (.inr hk'))
      · exact (mem_insert.mp hk').imp_right fun h => r.present k' (.inr h)

/-- `delete(m, k)` -/
def delete (r : Ranging κ ν) (k : κ) : Ranging κ ν where
  vals := r.vals.erase k
  due := r.due.erase k
  fresh := r.fresh.erase k
  present := by
    intro k' hk'
    rw [AList.mem_erase]
    rcases hk' with hk' | hk'
    · exact ⟨ne_of_mem_erase hk', r.present k' (.inl (mem_of_mem_erase hk'))⟩
    · exact ⟨ne_of_mem_erase hk', r.present k' (.inr (mem_of_mem_erase hk'))⟩

@[simp] theorem vals_enter (m : Map κ ν) : (enter m).vals = m := rfl

@[simp] theorem vals_produce (r : Ranging κ ν) (k : κ) : (r.produce k).vals = r.vals := rfl

@[simp] theorem vals_delete (r : Ranging κ ν) (k : κ) : (r.delete k).vals = r.vals.erase k := rfl

/-- `m[k] += v` -/
def add (r : Ranging κ Int64) (k : κ) (v : Int64) : Ranging κ Int64 :=
  r.put k (r.vals.get k + v)

/-- `m[k] -= v` -/
def sub (r : Ranging κ Int64) (k : κ) (v : Int64) : Ranging κ Int64 :=
  r.put k (r.vals.get k - v)

@[simp] theorem vals_add (r : Ranging κ Int64) (k : κ) (v : Int64) :
    (r.add k v).vals = bump r.vals k v := rfl

@[simp] theorem vals_sub (r : Ranging κ Int64) (k : κ) (v : Int64) :
    (r.sub k v).vals = dock r.vals k v := rfl

end Ranging

end Go
