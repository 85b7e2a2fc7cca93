import Mathlib.Algebra.Group.Basic
import Mathlib.Data.List.Infix
import Mathlib.Data.List.TakeWhile

/-!
# Branches of a block tree

A node of a block tree is written as its **branch**: the data of the blocks from the node
down to, and without, genesis, newest first. The parent of a node is the tail of its branch,
its height is the length, genesis is the empty branch, and a node is an ancestor of another
(or the other itself) exactly when its branch is a suffix. No index, hash or pointer is left to
keep consistent.
-/

/-- A node of a block tree, as the blocks from it down to genesis. -/
abbrev Branch (δ : Type) := List δ

namespace Branch

open List

variable {δ : Type}

/-- The height of a node; genesis has height 0. -/
def height (b : Branch δ) : Nat := b.length

/-- The parent of a node (genesis is its own). -/
def parent (b : Branch δ) : Branch δ := b.tail

@[simp] theorem height_cons (x : δ) (b : Branch δ) : height (x :: b) = height b + 1 := rfl

@[simp] theorem parent_cons (x : δ) (b : Branch δ) : parent (x :: b) = b := rfl

/-- The ancestor of a node at a height not above its own. -/
def ancestor (b : Branch δ) (h : Nat) : Branch δ := b.drop (height b - h)

theorem ancestor_suffix (b : Branch δ) (h : Nat) : ancestor b h <:+ b := drop_suffix _ _

/-- The node of the best chain, given by its tip, at a height. -/
def nodeByHeight (tip : Branch δ) (h : Nat) : Option (Branch δ) :=
  if h ≤ height tip then some (ancestor tip h) else none

theorem nodeByHeight_eq_some (tip n : Branch δ) :
    nodeByHeight tip (height n) = some n ↔ n <:+ tip := by
  unfold nodeByHeight ancestor
  refine ⟨fun h => ?_, fun h => ?_⟩
  · split at h
    case isTrue hle =>
      rw [← Option.some.inj h]
      exact drop_suffix _ _
    · cases h
  · rw [if_pos (show height n ≤ height tip from h.length_le)]
    exact congrArg some (suffix_iff_eq_drop.mp h).symm

/-! ## The fork point -/

section Fork

variable [DecidableEq δ]

/-- The walk down from a node to the first one that stands on the best chain. -/
def walkDown (tip : Branch δ) : Branch δ → Branch δ
  | [] => []
  | x :: b => if nodeByHeight tip (height (x :: b)) = some (x :: b) then x :: b else walkDown tip b

/-- The last node that a branch shares with the best chain: a node above the tip is first
lowered to the height of the tip. -/
def findFork (tip node : Branch δ) : Branch δ :=
  walkDown tip (if height node > height tip then ancestor node (height tip) else node)

theorem walkDown_spec (tip : Branch δ) :
    ∀ node, walkDown tip node <:+ node ∧ walkDown tip node <:+ tip ∧
      ∀ n, n <:+ node → n <:+ tip → n <:+ walkDown tip node
  | [] => ⟨suffix_refl _, nil_suffix, fun _ h _ => h⟩
  | x :: b => by
    obtain ⟨hnode, htip, hmax⟩ := walkDown_spec tip b
    rw [walkDown]
    split
    case isTrue h =>
      exact ⟨suffix_refl _, (nodeByHeight_eq_some tip _).mp h, fun n hn _ => hn⟩
    rename_i h
    refine ⟨hnode.trans (suffix_cons x b), htip, fun n hn ht => ?_⟩
    rcases suffix_cons_iff.mp hn with rfl | hn
    · exact absurd ((nodeByHeight_eq_some tip _).mpr ht) h
    · exact hmax n hn ht

/-- **The fork point.** It is an ancestor of both nodes, and the last common one. -/
theorem findFork_spec (tip node : Branch δ) :
    findFork tip node <:+ node ∧ findFork tip node <:+ tip ∧
      ∀ n, n <:+ node → n <:+ tip → n <:+ findFork tip node := by
  unfold findFork
  split
  case isFalse => exact walkDown_spec tip node
  rename_i hgt
  obtain ⟨hnode, htip, hmax⟩ := walkDown_spec tip (ancestor node (height tip))
  refine ⟨hnode.trans (ancestor_suffix _ _), htip, fun n hn ht => hmax n ?_ ht⟩
  -- an ancestor of the tip is not higher than the tip, so lowering the node keeps it
  refine suffix_of_suffix_length_le hn (ancestor_suffix _ _) ?_
  have := ht.length_le
  simp only [ancestor, height, length_drop] at hgt ⊢
  omega

theorem findFork_suffix_node (tip node : Branch δ) : findFork tip node <:+ node :=
  (findFork_spec tip node).1

theorem findFork_suffix_tip (tip node : Branch δ) : findFork tip node <:+ tip :=
  (findFork_spec tip node).2.1

end Fork

/-! ## Runs of nodes over a base -/

/-- Every node of the list is a child of the one before it, the first one of the base. -/
def Extends (base : Branch δ) : List (Branch δ) → Prop
  | [] => True
  | n :: l => (∃ x, n = x :: base) ∧ Extends n l

/-- The node a list of nodes over a base leads to. -/
def lead (base : Branch δ) : List (Branch δ) → Branch δ
  | [] => base
  | n :: l => lead n l

@[simp] theorem lead_nil (base : Branch δ) : lead base [] = base := rfl

@[simp] theorem lead_cons (base n : Branch δ) (l : List (Branch δ)) :
    lead base (n :: l) = lead n l := rfl

theorem lead_append (base : Branch δ) (l l' : List (Branch δ)) :
    lead base (l ++ l') = lead (lead base l) l' := by
  induction l generalizing base with
  | nil => rfl
  | cons n l ih => exact ih n

theorem extends_append (base : Branch δ) (l l' : List (Branch δ)) :
    Extends base (l ++ l') ↔ Extends base l ∧ Extends (lead base l) l' := by
  induction l generalizing base with
  | nil => simp [Extends]
  | cons n l ih => simp only [cons_append, Extends, ih, lead_cons, and_assoc]

variable {base : Branch δ} {l : List (Branch δ)}

theorem Extends.of_isPrefix {l' : List (Branch δ)} (h : Extends base l') (hl : l <+: l') :
    Extends base l := by
  obtain ⟨r, rfl⟩ := hl
  exact ((extends_append base l r).mp h).1

theorem Extends.height_lead (h : Extends base l) :
    height (lead base l) = height base + l.length := by
  induction l generalizing base with
  | nil => rfl
  | cons n l ih =>
    obtain ⟨⟨x, rfl⟩, hl⟩ := h
    rw [lead_cons, ih hl, height_cons, length_cons]
    omega

theorem Extends.suffix_lead (h : Extends base l) : base <:+ lead base l := by
  induction l generalizing base with
  | nil => exact suffix_refl _
  | cons n l ih =>
    obtain ⟨⟨x, rfl⟩, hl⟩ := h
    exact (suffix_cons x base).trans (ih hl)

theorem Extends.ne_nil (h : Extends base l) : ∀ n ∈ l, n ≠ [] := by
  induction l generalizing base with
  | nil => exact fun n hn => nomatch hn
  | cons n l ih =>
    obtain ⟨⟨x, rfl⟩, hl⟩ := h
    exact forall_mem_cons.mpr ⟨cons_ne_nil _ _, ih hl⟩

variable {tip : Branch δ}

/-- A list that starts off a branch never leads back to it. -/
theorem Extends.lead_ne (h : Extends base l) (hne : l ≠ []) (hoff : ∀ n ∈ l.head?, ¬ n <:+ tip) :
    lead base l ≠ tip := by
  rintro rfl
  cases l with
  | nil => exact hne rfl
  | cons n l => exact hoff n rfl h.2.suffix_lead

section Above

variable [DecidableEq δ]

/-- The nodes of a branch over one of its ancestors, lowest first. -/
def above (base : Branch δ) : Branch δ → List (Branch δ)
  | [] => []
  | x :: b => if x :: b = base then [] else above base b ++ [x :: b]

theorem above_self (base : Branch δ) : above base base = [] := by
  cases base with
  | nil => rfl
  | cons x b => rw [above, if_pos rfl]

/-- Up from an ancestor to the node, one node at a time. -/
theorem above_induction {motive : Branch δ → List (Branch δ) → Prop} (self : motive base [])
    (up : ∀ x b, base <:+ b → motive b (above base b) →
      motive (x :: b) (above base b ++ [x :: b])) :
    ∀ {node}, base <:+ node → motive node (above base node)
  | [], h => by
    obtain rfl := suffix_nil.mp h
    exact self
  | x :: b, h => by
    rw [above]
    split
    case isTrue heq => exact heq ▸ self
    rename_i hne
    have hb : base <:+ b := (suffix_cons_iff.mp h).resolve_left fun h => hne h.symm
    exact up x b hb (above_induction self up hb)

variable {node : Branch δ}

theorem lead_above (h : base <:+ node) : lead base (above base node) = node :=
  above_induction (motive := fun node l => lead base l = node) rfl
    (fun _ _ _ _ => lead_append base _ _) h

theorem extends_above (h : base <:+ node) : Extends base (above base node) := by
  refine above_induction (motive := fun _ l => Extends base l) trivial (fun x b hb ih => ?_) h
  rw [extends_append, lead_above hb]
  exact ⟨ih, ⟨x, rfl⟩, trivial⟩

theorem above_lead (h : Extends base l) : above base (lead base l) = l := by
  induction l using reverseRecOn with
  | nil => exact above_self base
  | append_singleton l n ih =>
    obtain ⟨hl, ⟨x, hx⟩, -⟩ := (extends_append base l [n]).mp h
    rw [lead_append, lead_cons, lead_nil, hx, above, ih hl]
    refine if_neg fun heq => ?_
    have hlen := congrArg length heq
    have hle := hl.suffix_lead.length_le
    rw [length_cons] at hlen
    omega

/-- The nodes above a base stand between the base and the node. -/
theorem mem_above (h : base <:+ node) : ∀ n ∈ above base node, base <:+ parent n ∧ n <:+ node := by
  refine above_induction (motive := fun node l => ∀ n ∈ l, base <:+ parent n ∧ n <:+ node) nofun
    (fun x b hb ih => ?_) h
  refine forall_mem_append.mpr ⟨fun n hn => ?_, forall_mem_singleton.mpr ?_⟩
  · obtain ⟨hparent, hnode⟩ := ih n hn
    exact ⟨hparent, hnode.trans (suffix_cons x b)⟩
  · exact ⟨hb, suffix_refl _⟩

/-- No node above the fork point stands on the best chain. -/
theorem not_suffix_of_extends_findFork {n : Branch δ} {x : δ}
    (hn : n = x :: findFork tip node) (hnode : n <:+ node) : ¬ n <:+ tip := by
  intro htip
  have hle := ((findFork_spec tip node).2.2 n hnode htip).length_le
  rw [hn, length_cons] at hle
  omega

end Above

/-! ## Totals along a branch -/

section Total

variable {G : Type*} [AddCommGroup G] (w : Branch δ → G)

/-- The total of a weight over the nodes of a branch, without genesis. -/
def total : Branch δ → G
  | [] => 0
  | x :: b => total b + w (x :: b)

@[simp] theorem total_cons (x : δ) (b : Branch δ) : total w (x :: b) = total w b + w (x :: b) := rfl

variable [DecidableEq δ] {base node : Branch δ}

/-- Taking the weights off on the way down to an ancestor leads to the total of the ancestor. -/
theorem foldl_sub_above (h : base <:+ node) :
    (above base node).reverse.foldl (fun r n => r - w n) (total w node) = total w base := by
  refine above_induction (motive := fun node l =>
    l.reverse.foldl (fun r n => r - w n) (total w node) = total w base) rfl (fun x b _ ih => ?_) h
  rw [reverse_append, reverse_singleton, singleton_append, foldl_cons,
    total_cons, add_sub_cancel_right, ih]

/-- Adding them on the way down leads from the total of the ancestor to that of the node. -/
theorem foldl_add_above (h : base <:+ node) (r : G) :
    (above base node).reverse.foldl (fun r n => r + w n) (r + total w base) = r + total w node := by
  refine above_induction (motive := fun node l => ∀ r, l.reverse.foldl (fun r n => r + w n)
    (r + total w base) = r + total w node) (fun _ => rfl) (fun x b _ ih r => ?_) h r
  rw [reverse_append, reverse_singleton, singleton_append, foldl_cons,
    add_right_comm, ih (r + w (x :: b)), total_cons, add_right_comm, add_assoc]

/-- **The walk over a fork.** Down one branch to a common ancestor and up another one: from the
total of the first node to that of the second. -/
theorem walk_total (htip : base <:+ tip) (hnode : base <:+ node) :
    (above base node).reverse.foldl (fun r n => r + w n)
      ((above base tip).reverse.foldl (fun r n => r - w n) (total w tip)) = total w node := by
  rw [foldl_sub_above w htip]
  simpa only [zero_add] using foldl_add_above w hnode 0

end Total

/-! ## Connecting and disconnecting -/

/-- A list of nodes read from its end downwards: each is the tip when the ones before it have
been taken off. -/
def Descends (tip : Branch δ) : List (Branch δ) → Prop
  | [] => True
  | n :: l => n = tip ∧ (∃ x, n = x :: parent n) ∧ Descends (parent n) l

/-- The node that is left when a descending list has been taken off. -/
def drain (tip : Branch δ) : List (Branch δ) → Branch δ
  | [] => tip
  | n :: l => drain (parent n) l

theorem descends_reverse (h : Extends base l) :
    Descends (lead base l) l.reverse ∧ drain (lead base l) l.reverse = base := by
  induction l using reverseRecOn with
  | nil => exact ⟨trivial, rfl⟩
  | append_singleton l n ih =>
    obtain ⟨hl, ⟨x, hx⟩, -⟩ := (extends_append base l [n]).mp h
    rw [reverse_append, lead_append]
    subst hx
    exact ⟨⟨rfl, ⟨x, rfl⟩, (ih hl).1⟩, (ih hl).2⟩

variable {l : List (Branch δ)}

theorem Descends.height_eq (hl : Descends tip l) :
    height tip = height (drain tip l) + l.length := by
  induction l generalizing tip with
  | nil => rfl
  | cons n l ih =>
    obtain ⟨rfl, ⟨x, hx⟩, hl⟩ := hl
    have hn : height n = height (parent n) + 1 := by rw [hx]; rfl
    rw [hn, ih hl, length_cons]
    exact Nat.add_assoc _ _ _

theorem Descends.ne_nil (hl : Descends tip l) : ∀ n ∈ l, n ≠ [] := by
  induction l generalizing tip with
  | nil => exact nofun
  | cons n l ih =>
    obtain ⟨-, ⟨x, hx⟩, hl⟩ := hl
    exact forall_mem_cons.mpr ⟨by rw [hx]; exact cons_ne_nil _ _, ih hl⟩

theorem Descends.drain_suffix (hl : Descends tip l) : drain tip l <:+ tip := by
  induction l generalizing tip with
  | nil => exact suffix_refl _
  | cons n l ih =>
    obtain ⟨rfl, -, hl⟩ := hl
    exact (ih hl).trans (tail_suffix n)

theorem Descends.getLast_parent (hl : Descends tip l) :
    ∀ last ∈ l.getLast?, last ≠ [] ∧ parent last = drain tip l := by
  induction l generalizing tip with
  | nil => exact nofun
  | cons n l ih =>
    obtain ⟨-, ⟨x, hx⟩, hl⟩ := hl
    intro last hlast
    cases l with
    | nil =>
      cases hlast
      exact ⟨by rw [hx]; exact cons_ne_nil _ _, rfl⟩
    | cons m l => exact ih hl last (by simpa using hlast)

/-! ## Side branches -/

/-- The two lists of an exchange: the best chain from the tip down to the fork, and a branch up
from the fork whose first node is not on the best chain. -/
structure SideBranch (tip fork : Branch δ) (detach attach : List (Branch δ)) : Prop where
  descends : Descends tip detach
  drains : drain tip detach = fork
  grows : Extends fork attach
  off : ∀ n ∈ attach.head?, ¬ n <:+ tip

namespace SideBranch

variable {tip fork : Branch δ} {detach attach : List (Branch δ)}

section

variable (hs : SideBranch tip fork detach attach)

include hs

theorem of_isPrefix (hl : l <+: attach) : SideBranch tip fork detach l := by
  refine ⟨hs.descends, hs.drains, hs.grows.of_isPrefix hl, ?_⟩
  obtain ⟨r, rfl⟩ := hl
  cases l with
  | nil => rintro _ ⟨⟩
  | cons n l => exact hs.off

theorem height_tip : height tip = height fork + detach.length := by
  rw [hs.descends.height_eq, hs.drains]

theorem getLast_parent : ∀ last ∈ detach.getLast?, last ≠ [] ∧ parent last = fork := by
  rw [← hs.drains]
  exact hs.descends.getLast_parent

/-- Attaching something does not lead back to the old tip. -/
theorem lead_ne (hne : attach ≠ []) : lead fork attach ≠ tip :=
  hs.grows.lead_ne hne hs.off

theorem fork_eq_tip_iff : fork = tip ↔ detach = [] := by
  have hheight := hs.height_tip
  constructor
  · intro h
    rw [h] at hheight
    exact length_eq_zero_iff.mp (by omega)
  · rintro rfl
    exact hs.drains.symm

/-- An exchange leads back to the old tip only where it changes nothing. -/
theorem lead_eq_tip_iff : lead fork attach = tip ↔ detach = [] ∧ attach = [] := by
  by_cases hnil : attach = []
  · rw [hnil, lead_nil, hs.fork_eq_tip_iff, and_iff_left rfl]
  · exact iff_of_false (hs.lead_ne hnil) fun h => hnil h.2

/-- The fork of the old tip with the node the exchange leads to is the fork. -/
theorem findFork_lead [DecidableEq δ] : findFork tip (lead fork attach) = fork := by
  obtain ⟨hnode, hfind, hmax⟩ := findFork_spec tip (lead fork attach)
  have hfork := hmax fork hs.grows.suffix_lead (hs.drains ▸ hs.descends.drain_suffix)
  cases attach with
  | nil => exact hnode.eq_of_length (Nat.le_antisymm hnode.length_le hfork.length_le)
  | cons n l =>
    obtain ⟨⟨x, rfl⟩, hl⟩ := hs.grows
    -- were it longer, the first node to attach would stand on the best chain
    rcases suffix_or_suffix_of_suffix hnode hl.suffix_lead with h | h
    · rcases suffix_cons_iff.mp h with h | h
      · exact absurd (h ▸ hfind) (hs.off _ rfl)
      · exact h.eq_of_length (Nat.le_antisymm h.length_le hfork.length_le)
    · exact absurd (h.trans hfind) (hs.off _ rfl)

end

/-- The best chain above the fork of a node, and nodes in a row on the way to it, are the lists
of an exchange. -/
theorem of_findFork [DecidableEq δ] {node top : Branch δ} (hfork : findFork tip node <:+ top)
    (htop : top <:+ node) (hl : attach <+: above (findFork tip node) top) :
    SideBranch tip (findFork tip node) (above (findFork tip node) tip).reverse attach := by
  have hforkTip := findFork_suffix_tip tip node
  obtain ⟨hdesc, hdrain⟩ := descends_reverse (extends_above hforkTip)
  rw [lead_above hforkTip] at hdesc hdrain
  have hgrows := (extends_above hfork).of_isPrefix hl
  refine ⟨hdesc, hdrain, hgrows, fun n hn => ?_⟩
  -- the first node to attach is a child of the fork on the way to the node
  have hnode := (mem_above hfork n (hl.subset (mem_of_mem_head? hn))).2.trans htop
  obtain ⟨l, rfl⟩ := head?_eq_some_iff.mp (Option.mem_def.mp hn)
  obtain ⟨⟨x, hx⟩, -⟩ := hgrows
  exact not_suffix_of_extends_findFork hx hnode

end SideBranch

end Branch
