import Mathlib.Algebra.Order.Ring.Nat
import Zent.Go.Returns
import Zent.Go.Tally
import Zent.Wire.Encoding

/-!
# Borders

`omega/viewpoint/border.go`: a border is a line between two vertices. It can be divided into child
borders, which name it as their father; a father keeps the list of its children and a bounding box.

Adding a border walks up the chain of fathers for as long as the box of a father grows. Every father
on the way gets the new border as a child, not only the one that the border names.

* `BoundingBox` — boxes, ordered by `contain`; `merge` is their supremum.
* `climb`, `addBorder` — the walk. It ends because boxes cannot grow without end (`climb_isSome`).
-/

namespace Zent

open Go List AList

/-! ## Boxes -/

structure BoundingBox where
  east : Int32
  west : Int32
  south : Int32
  north : Int32
  deriving DecidableEq, Repr

namespace BoundingBox

/-- `Contain`, with the containing box on the right. -/
instance : LE BoundingBox where
  le c b := b.west ≤ c.west ∧ c.east ≤ b.east ∧ b.south ≤ c.south ∧ c.north ≤ b.north

instance (b c : BoundingBox) : Decidable (b ≤ c) :=
  inferInstanceAs (Decidable (_ ∧ _ ∧ _ ∧ _))

theorem le_def {b c : BoundingBox} :
    b ≤ c ↔ c.west ≤ b.west ∧ b.east ≤ c.east ∧ c.south ≤ b.south ∧ b.north ≤ c.north := Iff.rfl

variable (b : BoundingBox)

protected theorem le_refl : b ≤ b :=
  ⟨Int32.le_refl _, Int32.le_refl _, Int32.le_refl _, Int32.le_refl _⟩

protected theorem le_trans {a b c : BoundingBox} (hab : a ≤ b) (hbc : b ≤ c) : a ≤ c := by
  rw [le_def] at *
  grind

protected theorem le_antisymm {b c : BoundingBox} (hbc : b ≤ c) (hcb : c ≤ b) : b = c := by
  obtain ⟨e, w, s, n⟩ := b
  obtain ⟨e', w', s', n'⟩ := c
  rw [le_def] at hbc hcb
  grind

/-- The box of two points. -/
def newBound (x1 x2 y1 y2 : Int32) : BoundingBox where
  east := if x1 < x2 then x2 else x1
  west := if x1 < x2 then x1 else x2
  south := if y1 < y2 then y1 else y2
  north := if y1 < y2 then y2 else y1

/-- `Merge`: the box grows to contain the other one; with it, whether it has changed. -/
def merge (box b : BoundingBox) : BoundingBox × Bool :=
  let ce := box.east < b.east
  let cw := b.west < box.west
  let cn := box.north < b.north
  let cs := b.south < box.south
  ({ east := if ce then b.east else box.east
     west := if cw then b.west else box.west
     north := if cn then b.north else box.north
     south := if cs then b.south else box.south },
    ce || cw || cn || cs)

theorem le_merge_left (box b : BoundingBox) : box ≤ (box.merge b).1 := by
  rw [le_def]
  simp only [merge]
  grind

theorem le_merge_right (box b : BoundingBox) : b ≤ (box.merge b).1 := by
  rw [le_def]
  simp only [merge]
  grind

theorem merge_le {box b c : BoundingBox} (hbox : box ≤ c) (hb : b ≤ c) : (box.merge b).1 ≤ c := by
  rw [le_def] at *
  simp only [merge]
  grind

theorem merge_changed (box b : BoundingBox) : (box.merge b).2 = false ↔ b ≤ box := by
  rw [le_def]
  simp only [merge, Bool.or_eq_false_iff, decide_eq_false_iff_not, Int32.not_lt]
  grind

theorem merge_of_le {box b : BoundingBox} (h : b ≤ box) : (box.merge b).1 = box :=
  BoundingBox.le_antisymm (merge_le (BoundingBox.le_refl box) h) (le_merge_left box b)

/-- The room that is left for a box to grow. -/
def slack (b : BoundingBox) : Nat :=
  (2 ^ 31 - b.east.toInt).toNat + (b.west.toInt + 2 ^ 31).toNat + (b.south.toInt + 2 ^ 31).toNat +
    (2 ^ 31 - b.north.toInt).toNat

/-- A box that changes has less room. -/
theorem slack_merge_lt {box b : BoundingBox} (h : (box.merge b).2 = true) :
    (box.merge b).1.slack < box.slack := by
  have he := b.east.toInt_lt
  have hw := b.west.le_toInt
  have hs := b.south.le_toInt
  have hn := b.north.toInt_lt
  simp only [merge, Bool.or_eq_true, decide_eq_true_eq, Int32.lt_iff_toInt_lt] at h
  simp only [slack, merge, Int32.lt_iff_toInt_lt]
  split_ifs <;> omega

end BoundingBox

/-! ## Definitions and entries -/

/-- `token.BorderDef` -/
structure BorderDef where
  father : Hash
  begin_ : VertexDef
  end_ : VertexDef
  deriving DecidableEq, Repr

/-- The box of the end points. -/
def BorderDef.box (b : BorderDef) : BoundingBox :=
  .newBound b.begin_.lng b.end_.lng b.begin_.lat b.end_.lat

/-- `h[0] &= 0xFE`: the lowest bit of a reference tells the direction. -/
def undirected (h : Hash) : Hash := h &&& ~~~1

@[simp] theorem undirected_undirected (h : Hash) : undirected (undirected h) = undirected h := by
  rw [undirected, undirected, BitVec.and_assoc, BitVec.and_self]

/-- `BorderDef.Hash`, for the function `chainhash.HashH`. -/
def BorderDef.hash (hashH : Bytes → Hash) (b : BorderDef) : Hash :=
  undirected (hashH (hashBytes b.father ++ b.begin_.serialize ++ b.end_.serialize))

@[simp] theorem undirected_hash (hashH : Bytes → Hash) (b : BorderDef) :
    undirected (b.hash hashH) = b.hash hashH := undirected_undirected _

/-- The details of a border in a view. -/
structure BorderEntry where
  father : Hash
  begin_ : VertexDef
  end_ : VertexDef
  children : List Hash
  bound : Option BoundingBox
  newchildren : Bool
  refCnt : Int32
  /-- change in the count of references; not stored -/
  refChg : Int32
  /-- `TfModified` -/
  tfModified : Bool
  /-- `TfSpent` -/
  tfSpent : Bool
  deriving DecidableEq, Repr

namespace BorderEntry

/-- The box of the end points. -/
def endBox (e : BorderEntry) : BoundingBox where
  east := if e.end_.lng < e.begin_.lng then e.begin_.lng else e.end_.lng
  west := if e.begin_.lng < e.end_.lng then e.begin_.lng else e.end_.lng
  south := if e.begin_.lat < e.end_.lat then e.begin_.lat else e.end_.lat
  north := if e.end_.lat < e.begin_.lat then e.begin_.lat else e.end_.lat

def getBound (e : BorderEntry) : BoundingBox := e.bound.getD e.endBox

def isModified (e : BorderEntry) : Bool := e.tfModified || e.refChg != 0

def toDelete (e : BorderEntry) : Bool := e.tfSpent

/-- `mergeBound`: the box that results, whether it has changed, and the entry. -/
def mergeBound (fe : BorderEntry) (b : BoundingBox) : BoundingBox × Bool × BorderEntry :=
  let (box, c) := fe.getBound.merge b
  (box, c, if c then { fe with tfModified := true, bound := some box } else fe)

/-- The new border becomes a child. -/
def adopt (fe : BorderEntry) (h : Hash) : BorderEntry :=
  { fe with
    newchildren := true
    children := fe.children ++ [h]
    tfModified := true
    tfSpent := false }

variable (fe : BorderEntry) (b : BoundingBox)

@[simp] theorem mergeBound_changed :
    (fe.mergeBound b).2.1 = (fe.getBound.merge b).2 := rfl

theorem getBound_mergeBound : (fe.mergeBound b).2.2.getBound = (fe.getBound.merge b).1 := by
  simp only [mergeBound]
  split
  · rfl
  · rename_i hc
    rw [BoundingBox.merge_of_le ((BoundingBox.merge_changed _ _).mp (Bool.eq_false_iff.mpr hc))]

@[simp] theorem mergeBound_father : (fe.mergeBound b).2.2.father = fe.father := by
  simp only [mergeBound]
  split <;> rfl

@[simp] theorem mergeBound_children : (fe.mergeBound b).2.2.children = fe.children := by
  simp only [mergeBound]
  split <;> rfl

@[simp] theorem mergeBound_newchildren : (fe.mergeBound b).2.2.newchildren = fe.newchildren := by
  simp only [mergeBound]
  split <;> rfl

@[simp] theorem mergeBound_endBox : (fe.mergeBound b).2.2.endBox = fe.endBox := by
  simp only [mergeBound]
  split <;> rfl

@[simp] theorem adopt_getBound (h : Hash) :
    (fe.adopt h).getBound = fe.getBound := rfl

@[simp] theorem adopt_endBox (h : Hash) : (fe.adopt h).endBox = fe.endBox := rfl

end BorderEntry

/-- The entry of a border that is added. -/
def BorderDef.toEntry (b : BorderDef) : BorderEntry where
  father := b.father
  begin_ := b.begin_
  end_ := b.end_
  children := []
  bound := none
  newchildren := false
  refCnt := 0
  refChg := 0
  tfModified := true
  tfSpent := false

theorem BorderDef.toEntry_getBound (b : BorderDef) : b.toEntry.getBound = b.box := by
  simp only [BorderEntry.getBound, BorderDef.toEntry, Option.getD_none, BorderEntry.endBox,
    BorderDef.box, BoundingBox.newBound, BoundingBox.mk.injEq]
  grind

/-! ## The view -/

/-- `BorderViewpoint.entries` -/
abbrev BorderViewpoint : Type := Map Hash BorderEntry

def BorderViewpoint.lookupEntry (view : BorderViewpoint) (p : Hash) : Option BorderEntry :=
  view.lookup (undirected p)

/-- `FetchBorderEntry`: an entry of the database is brought into the view. The view is asked for the
border without its direction, the database for the reference as it is. -/
def fetchBorderEntry (db view : BorderViewpoint) (hash : Hash) :
    Option BorderEntry × BorderViewpoint :=
  match view.lookupEntry hash with
  | some e => (some e, view)
  | none =>
    match db.lookup hash with
    | none => (none, view)
    | some e => (some e, view.insert (undirected hash) e)

/-- The loop of `addBorder` over the fathers of the new border `h`. It returns whether the border
has been added. -/
def climb (db : BorderViewpoint) (h : Hash) :
    Nat → BorderViewpoint → Hash → BoundingBox → Option (Bool × BorderViewpoint)
  | 0, _, _, _ => none
  | n + 1, view, f, box =>
    if f = zerohash then some (true, view)
    else
      match fetchBorderEntry db view f with
      | (none, view) => some (false, view.erase h)
      | (some fe, view) =>
        let (box, c, fe) := fe.mergeBound box
        if fe.children = [] ∨ fe.newchildren then
          let view := view.insert (undirected f) (fe.adopt h)
          if c then climb db h n view fe.father box else some (true, view)
        else some (false, (view.insert (undirected f) fe).erase h)

/-- The room for growth in the view and in what the database has besides. -/
def room (db view : BorderViewpoint) : Nat :=
  (view.entries.map fun e => e.2.getBound.slack).sum +
    (db.entries.map fun e => if undirected e.1 ∈ view then 0 else e.2.getBound.slack).sum

def addBorder (hashH : Bytes → Hash) (db view : BorderViewpoint) (b : BorderDef) :
    Bool × BorderViewpoint :=
  let h := b.hash hashH
  match view.lookupEntry h with
  | some _ => (false, view)
  | none =>
    let view := view.insert h b.toEntry
    (climb db h (room db view + 2) view b.father b.box).getD (false, view)

/-! ## The walk ends -/

section Walk

variable {db view view' : BorderViewpoint} {h : Hash}

theorem room_insert (db : BorderViewpoint) {k : Hash} {e : BorderEntry} (e' : BorderEntry)
    (hk : view.lookup k = some e) :
    room db (view.insert k e') + e.getBound.slack = room db view + e'.getBound.slack := by
  have hinsert : (view.insert k e').entries = ⟨k, e'⟩ :: (view.erase k).entries := rfl
  have hmem : ∀ k', k' ∈ view.insert k e' ↔ k' ∈ view := by
    intro k'
    have hin : k ∈ view := mem_of_lookup hk
    rw [mem_insert]
    exact ⟨fun h => h.elim (fun h => h ▸ hin) id, .inr⟩
  simp only [room, hmem, sum_map_entries hk, hinsert, map_cons, sum_cons]
  omega

/-- An entry that is fetched is in the view, and was there or in the database. -/
theorem fetchBorderEntry_some {f : Hash} {fe : BorderEntry}
    (hfetch : fetchBorderEntry db view f = (some fe, view')) :
    view'.lookup (undirected f) = some fe ∧ room db view' ≤ room db view := by
  rw [fetchBorderEntry, BorderViewpoint.lookupEntry] at hfetch
  split at hfetch
  · rename_i e he
    cases hfetch
    exact ⟨he, le_refl _⟩
  rename_i hnone
  split at hfetch
  · cases hfetch
  rename_i e he
  cases hfetch
  refine ⟨lookup_insert view, ?_⟩
  have hnotin : undirected f ∉ view := lookup_eq_none.mp hnone
  have hentries : (view.insert (undirected f) fe).entries = ⟨undirected f, fe⟩ :: view.entries :=
    entries_insert_of_notMem hnotin
  have hrest : ((db.erase f).entries.map fun e => if undirected e.1 ∈ view.insert (undirected f) fe
      then 0 else e.2.getBound.slack).sum ≤
      ((db.erase f).entries.map fun e =>
        if undirected e.1 ∈ view then 0 else e.2.getBound.slack).sum := by
    refine sum_le_sum fun e _ => ?_
    by_cases hin : undirected e.1 ∈ view
    · rw [if_pos hin, if_pos (mem_insert view |>.mpr (.inr hin))]
    split
    · exact Nat.zero_le _
    · exact le_refl _
  -- the entry leaves the part of the database
  rw [room, room, sum_map_entries he, sum_map_entries he, hentries, map_cons, sum_cons,
    if_pos (mem_insert view |>.mpr (.inl rfl)), if_neg hnotin]
  simp only
  omega

/-- **The walk ends**: it goes on only after a box has grown. -/
theorem climb_isSome (db : BorderViewpoint) (h : Hash) :
    ∀ {n : Nat} {view : BorderViewpoint} {f : Hash} {box : BoundingBox}, room db view < n →
      (climb db h n view f box).isSome := by
  intro n
  induction n with
  | zero =>
    intro view f box hroom
    exact absurd hroom (Nat.not_lt_zero _)
  | succ n ih =>
    intro view f box hroom
    rw [climb]
    split
    · rfl
    split
    · rfl
    rename_i fe view₁ hfetch
    obtain ⟨hfe, hle⟩ := fetchBorderEntry_some hfetch
    simp only
    split
    · split
      · rename_i hc
        refine ih ?_
        have hinsert := room_insert db ((fe.mergeBound box).2.2.adopt h) hfe
        rw [BorderEntry.adopt_getBound, BorderEntry.getBound_mergeBound] at hinsert
        have hlt : (fe.getBound.merge box).1.slack < fe.getBound.slack :=
          BoundingBox.slack_merge_lt hc
        change room db (view₁.insert (undirected f) ((fe.mergeBound box).2.2.adopt h)) < n
        omega
      · rfl
    · rfl

end Walk

end Zent
