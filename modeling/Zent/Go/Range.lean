import Mathlib.Data.List.Perm.Basic
import Mathlib.Data.List.Forall2

/-!
# Ranging over a map

A Go `range` over a map visits the entries in an arbitrary order, a new one for every loop. An
order (`Shuffle`) is a function that rearranges the entries; what a function returns for all orders
is what it returns.
-/

namespace Go

open List

universe u

variable {α : Type u}

/-- An order in which the entries of a map are visited. -/
structure Shuffle (α : Type u) where
  run : List α → List α
  perm : ∀ l, (run l).Perm l

namespace Shuffle

/-- The entries as they are stored. -/
def stored : Shuffle α := ⟨fun l => l, fun l => List.Perm.refl l⟩

/-- Last to first. -/
def reversed : Shuffle α := ⟨List.reverse, fun l => reverse_perm l⟩

/-- The order that visits the entries of `l` as `l'`, and those of every other map as stored. -/
def moving [DecidableEq α] {l l' : List α} (h : l'.Perm l) : Shuffle α where
  run x := if x = l then l' else x
  perm x := by
    by_cases hx : x = l
    · rw [if_pos hx, hx]
      exact h
    · rw [if_neg hx]

@[simp] theorem moving_run [DecidableEq α] {l l' : List α} (h : l'.Perm l) :
    (moving h).run l = l' := if_pos rfl

variable (sh : Shuffle α)

theorem mem_run {l : List α} {a : α} : a ∈ sh.run l ↔ a ∈ l := (sh.perm l).mem_iff

@[simp] theorem run_nil : sh.run [] = [] := perm_nil.mp (sh.perm [])

@[simp] theorem run_singleton (a : α) : sh.run [a] = [a] := perm_singleton.mp (sh.perm [a])

theorem run_eq_of_length_le_one {l : List α} (h : l.length ≤ 1) : sh.run l = l := by
  match l, h with
  | [], _ => exact sh.run_nil
  | [a], _ => exact sh.run_singleton a

end Shuffle

/-! ## What is put together in an order -/

/-- Two elements at the front of a list in some order can be exchanged. -/
theorem exists_swap {l l' : List α} (hperm : l'.Perm l) (h : ¬l.length ≤ 1) :
    ∃ p q rest, l' = p :: q :: rest ∧ (q :: p :: rest).Perm l := by
  match l', hperm with
  | [], hperm =>
    rw [← hperm.length_eq] at h
    exact absurd (Nat.zero_le 1) h
  | [p], hperm =>
    rw [← hperm.length_eq] at h
    exact absurd (Nat.le_refl 1) h
  | p :: q :: rest, hperm => exact ⟨p, q, rest, rfl, (List.Perm.swap p q rest).trans hperm⟩

/-- Parts that commute can be put together in any order. -/
theorem flatten_map_perm {β : Type u} {f : α → List β} {l l' : List α} (h : l.Perm l')
    (hcomm : ∀ a ∈ l, ∀ b ∈ l, a ≠ b → f a ++ f b = f b ++ f a) :
    (l.map f).flatten = (l'.map f).flatten := by
  induction h with
  | nil => rfl
  | cons a _ ih =>
    rw [map_cons, flatten_cons, map_cons, flatten_cons,
      ih fun b hb c hc => hcomm b (mem_cons_of_mem a hb) c (mem_cons_of_mem a hc)]
  | swap a b rest =>
    simp only [map_cons, flatten_cons, ← append_assoc]
    by_cases hab : b = a
    · rw [hab]
    · rw [hcomm b mem_cons_self a (mem_cons_of_mem b mem_cons_self) hab]
  | trans hp _ ih ih' =>
    exact (ih hcomm).trans (ih' fun a ha b hb => hcomm a (hp.mem_iff.mpr ha) b (hp.mem_iff.mpr hb))

/-- What a relation that determines its second side gives for a list is given by a function. -/
theorem exists_map_of_forall₂ {β : Type u} [Inhabited β] {R : α → β → Prop}
    (hR : ∀ {a b b'}, R a b → R a b' → b = b') {l : List α} {r : List β}
    (h : List.Forall₂ R l r) : ∃ f, (∀ a ∈ l, R a (f a)) ∧ r = l.map f := by
  classical
  let f : α → β := fun a => if ha : ∃ b, R a b then ha.choose else default
  have hf : ∀ {a b}, R a b → R a (f a) := by
    intro a b hab
    have hex : ∃ b, R a b := ⟨b, hab⟩
    rw [show f a = hex.choose from dif_pos hex]
    exact hex.choose_spec
  refine ⟨f, ?_⟩
  induction h with
  | nil => exact ⟨fun a ha => absurd ha not_mem_nil, rfl⟩
  | cons hab _ ih =>
    refine ⟨forall_mem_cons.mpr ⟨hf hab, ih.1⟩, ?_⟩
    rw [map_cons, ← ih.2, hR hab (hf hab)]

/-- Parts of the same lengths are found again in what they make up. -/
theorem eq_of_flatten_eq {β : Type u} : ∀ {l l' : List (List β)},
    List.Forall₂ (fun a b => a.length = b.length) l l' → l.flatten = l'.flatten → l = l'
  | [], [], _, _ => rfl
  | a :: l, b :: l', .cons hlen hrest, h => by
    obtain ⟨hab, h⟩ := append_inj h hlen
    rw [hab, eq_of_flatten_eq hrest h]

end Go
