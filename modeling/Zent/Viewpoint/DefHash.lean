import Zent.Viewpoint.Border

/-!
# Hashes of definitions

`Hash` of the definitions in `omega/token/token.go`, for the function `chainhash.HashH`: the parts
of a definition are put one after the other. Borders, polygons, rights and sets of rights are stored
under their hashes, the last two in one store.
-/

namespace Zent

open Go List

def polygonBytes (loops : List (List Hash)) : Bytes := loops.flatten.flatMap hashBytes

/-- A right is given by its father, its description and its attributes. -/
def rightBytes (r : Hash × Bytes × UInt8) : Bytes := hashBytes r.1 ++ r.2.1 ++ [r.2.2]

/-- `RightSetDef.sort`: by the bytes of the hashes. -/
def sortRights (rights : List Hash) : List Hash :=
  rights.mergeSort fun x y => decide (hashBytes x ≤ hashBytes y)

def rightSetBytes (rights : List Hash) : Bytes := (sortRights rights).flatMap hashBytes

/-- Two definitions that are stored in one place. -/
inductive DefPair where
  | borders (b c : BorderDef)
  | polygons (p q : List (List Hash))
  | rights (r s : Hash × Bytes × UInt8)
  | rightSets (r s : List Hash)
  | rightAndSet (r : Hash × Bytes × UInt8) (s : List Hash)

namespace DefPair

/-- What is hashed. -/
def contents : DefPair → Bytes × Bytes
  | borders b c => (hashBytes b.father ++ b.begin_.serialize ++ b.end_.serialize,
      hashBytes c.father ++ c.begin_.serialize ++ c.end_.serialize)
  | polygons p q => (polygonBytes p, polygonBytes q)
  | rights r s => (rightBytes r, rightBytes s)
  | rightSets r s => (rightSetBytes r, rightSetBytes s)
  | rightAndSet r s => (rightBytes r, rightSetBytes s)

/-- Both have the same `Hash`; the lowest bit of that of a border is cleared. -/
def SameHash (hashH : Bytes → Hash) : DefPair → Prop
  | borders b c => b.hash hashH = c.hash hashH
  | p => hashH p.contents.1 = hashH p.contents.2

/-- Both are the same definition, sets of rights up to their order. -/
def Same : DefPair → Prop
  | borders b c => b = c
  | polygons p q => p = q
  | rights r s => r = s
  | rightSets r s => r.Perm s
  | rightAndSet _ _ => False

/-- Polygons have no other borders or the same loops, and a right does not read as a set. -/
def Apart : DefPair → Prop
  | polygons p q => p.flatten = q.flatten → p = q
  | rightAndSet r s => rightBytes r ≠ rightSetBytes s
  | _ => True

/-- The two contents do not collide, also when the lowest bit is cleared. -/
def CollisionFree (hashH : Bytes → Hash) (p : DefPair) : Prop :=
  undirected (hashH p.contents.1) = undirected (hashH p.contents.2) → p.contents.1 = p.contents.2

end DefPair

/-! ## Reading the contents back -/

theorem flatMap_hashBytes {l l' : List Hash} :
    l.flatMap hashBytes = l'.flatMap hashBytes ↔ l = l' := by
  refine ⟨fun h => ?_, congrArg _⟩
  have hlen := congrArg List.length h
  simp only [length_flatMap, length_hashBytes, map_const', sum_replicate] at hlen
  induction l generalizing l' with
  | nil => cases l' <;> simp_all
  | cons x l ih =>
    cases l' with
    | nil => simp at hlen
    | cons y l' =>
      obtain ⟨hx, hl⟩ := append_inj h (by simp)
      rw [hashBytes_injective hx, ih hl (by simpa using hlen)]

theorem VertexDef.serialize_injective {v w : VertexDef} (h : v.serialize = w.serialize) :
    v = w := by
  obtain ⟨h, halt⟩ := append_inj h rfl
  obtain ⟨hlat, hlng⟩ := append_inj h rfl
  have hput : ∀ {x y : Int32}, putUint32 x.toUInt32 = putUint32 y.toUInt32 → x = y :=
    fun h => congrArg Int32.ofUInt32 (putUint32_injective h)
  cases v
  cases w
  rw [VertexDef.mk.injEq]
  exact ⟨hput hlat, hput hlng, hput halt⟩

theorem sortRights_eq {r s : List Hash} : sortRights r = sortRights s ↔ r.Perm s := by
  constructor
  · intro h
    exact (mergeSort_perm r _).symm.trans (.trans (.of_eq h) (mergeSort_perm s _))
  · intro h
    have hsorted : ∀ l, (sortRights l).Pairwise fun x y => decide (hashBytes x ≤ hashBytes y) := by
      refine pairwise_mergeSort (fun x y z hxy hyz => ?_) (fun x y => ?_)
      · simp only [decide_eq_true_eq] at *
        exact List.le_trans hxy hyz
      · simpa using List.le_total _ _
    refine List.Perm.eq_of_pairwise (fun x y _ _ hxy hyx => ?_) (hsorted r) (hsorted s)
      ((mergeSort_perm r _).trans (h.trans (mergeSort_perm s _).symm))
    simp only [decide_eq_true_eq] at *
    exact hashBytes_injective (List.le_antisymm hxy hyx)

variable {hashH : Bytes → Hash} {p : DefPair}

theorem DefPair.sameHash_iff (hfree : p.CollisionFree hashH) :
    p.SameHash hashH ↔ p.contents.1 = p.contents.2 := by
  cases p with
  | borders b c => exact ⟨hfree, fun h => congrArg (undirected <| hashH ·) h⟩
  | _ => exact ⟨fun h => hfree (congrArg undirected h), fun h => congrArg hashH h⟩

/-- **Definitions are told apart by their hashes**, except for polygons that divide the same borders
into other loops, and for a right that reads as a set of rights. -/
theorem sameHash_iff_same (hfree : p.CollisionFree hashH) :
    (p.SameHash hashH ↔ p.Same) ↔ p.Apart := by
  rw [DefPair.sameHash_iff hfree]
  cases p with
  | borders b c =>
    refine iff_of_true ⟨fun h => ?_, ?_⟩ trivial
    · obtain ⟨h, hend⟩ := append_inj' h rfl
      obtain ⟨hfather, hbegin⟩ := append_inj' h rfl
      cases b
      cases c
      exact Eq.mpr (BorderDef.mk.injEq ..) ⟨hashBytes_injective hfather,
        VertexDef.serialize_injective hbegin, VertexDef.serialize_injective hend⟩
    · rintro rfl
      rfl
  | polygons p q =>
    simp only [DefPair.contents, polygonBytes, flatMap_hashBytes, DefPair.Same, DefPair.Apart]
    exact ⟨Iff.mp, fun h => ⟨h, congrArg _⟩⟩
  | rights r s =>
    refine iff_of_true ⟨fun h => ?_, ?_⟩ trivial
    · obtain ⟨h, hattrib⟩ := append_inj' h rfl
      obtain ⟨hfather, hdesc⟩ := append_inj h (by simp)
      exact Prod.ext (hashBytes_injective hfather) (Prod.ext hdesc (singleton_inj.mp hattrib))
    · rintro rfl
      rfl
  | rightSets r s =>
    simp [DefPair.contents, rightSetBytes, flatMap_hashBytes, sortRights_eq, DefPair.Same,
      DefPair.Apart]
  | rightAndSet r s => simp [DefPair.contents, DefPair.Same, DefPair.Apart]

theorem sameHash_iff_same_of_apart : ∃ hashH : Bytes → Hash,
    (DefPair.polygons [[2, 4, 6]] [[8, 10, 12]]).SameHash hashH ↔
      (DefPair.polygons [[2, 4, 6]] [[8, 10, 12]]).Same :=
  ⟨fun bs => BitVec.ofNat 256 (2 * (bs.headD 0).toNat),
    (sameHash_iff_same fun h => absurd h (by decide +kernel)).mpr nofun⟩

/-- **Definitions with one hash**: a loop of six borders and two loops of three, and a right whose
description fills up two hashes and the set of these. -/
theorem definitions_collide :
    ∃ p q : DefPair, ¬ p.Same ∧ ¬ q.Same ∧ ∀ hashH, p.SameHash hashH ∧ q.SameHash hashH := by
  refine ⟨.polygons [[2, 4, 6, 8, 10, 12]] [[2, 4, 6], [8, 10, 12]],
    .rightAndSet (2, (hashBytes 4).take 31, 0) [2, 4], by simp [DefPair.Same],
    by simp [DefPair.Same], fun hashH => ⟨rfl, ?_⟩⟩
  have hsorted : sortRights [2, 4] = [2, 4] := mergeSort_of_pairwise (by decide +kernel)
  refine congrArg hashH (?_ : _ = (sortRights [2, 4]).flatMap hashBytes)
  rw [hsorted]
  decide +kernel

end Zent
