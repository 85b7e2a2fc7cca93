import Mathlib.Logic.Relation
import Zent.Viewpoint.Border

/-!
# The forest of borders

Borders that are added to an empty view form a forest: each is among the children of its father, and
the box of a border contains those of its descendants. It stays one exactly as long as every border
that is added fits: it names its father without a direction, and lies in the box of the father or
the father is a root. Otherwise the walk goes on to the fathers above, which take the new border for
a child of their own.
-/

namespace Zent

open Go BorderEntry List BoundingBox AList Option

/-! ## The invariant -/

/-- The entry of `h` has the father `f`. -/
def FatherOf (view : BorderViewpoint) (h f : Hash) : Prop :=
  ∃ e, view.lookup h = some e ∧ e.father = f

/-- The vertex lies in the box. -/
def BoundingBox.Covers (b : BoundingBox) (v : VertexDef) : Prop :=
  b.west ≤ v.lng ∧ v.lng ≤ b.east ∧ b.south ≤ v.lat ∧ v.lat ≤ b.north

/-- Children are the borders that name the entry as their father, each of them once, and the bound
of an entry contains its end points and the bounds of its descendants. -/
structure Forest (view : BorderViewpoint) : Prop where
  children : ∀ f fe h, view.lookup f = some fe → (h ∈ fe.children ↔ FatherOf view h f)
  nodup : ∀ f fe, view.lookup f = some fe → fe.children.Nodup
  ends : ∀ f fe, view.lookup f = some fe →
    fe.getBound.Covers fe.begin_ ∧ fe.getBound.Covers fe.end_
  descendants : ∀ f fe h e, view.lookup f = some fe → Relation.TransGen (FatherOf view) h f →
    view.lookup h = some e → e.getBound ≤ fe.getBound

/-- The box of the end points is the smallest one that covers them. -/
theorem BorderEntry.endBox_le {e : BorderEntry} {b : BoundingBox} :
    e.endBox ≤ b ↔ b.Covers e.begin_ ∧ b.Covers e.end_ := by
  rw [le_def]
  simp only [endBox, BoundingBox.Covers]
  grind

/-- The bound of a child lies in that of its father. -/
def Nested (view : BorderViewpoint) : Prop :=
  ∀ f fe h e, view.lookup f = some fe → view.lookup h = some e → e.father = f →
    e.getBound ≤ fe.getBound

variable {view : BorderViewpoint} {view' : BorderViewpoint}

/-- For descendants, children are enough. -/
theorem Nested.descendants (hn : Nested view) {f h : Hash} {fe e : BorderEntry}
    (hf : view.lookup f = some fe) (hdesc : Relation.TransGen (FatherOf view) h f)
    (he : view.lookup h = some e) : e.getBound ≤ fe.getBound := by
  induction hdesc generalizing fe with
  | single hstep =>
    obtain ⟨e', he', hfather⟩ := hstep
    rw [he] at he'
    cases he'
    exact hn _ fe h e hf he hfather
  | tail _ hstep ih =>
    obtain ⟨e', he', hfather⟩ := hstep
    exact BoundingBox.le_trans (ih he') (hn _ fe _ e' hf he' hfather)

theorem Forest.nested (hv : Forest view) : Nested view :=
  fun f fe h e hf he hfather => hv.descendants f fe h e hf (.single ⟨e, he, hfather⟩) he

theorem forest_empty : Forest ∅ := ⟨nofun, nofun, nofun, nofun⟩

/-- The invariant only depends on what is found. -/
theorem Forest.congr (h : ∀ k, view'.lookup k = view.lookup k) (hv : Forest view) :
    Forest view' := by
  have hfather : FatherOf view' = FatherOf view := by
    funext x y
    simp only [FatherOf, h]
  refine ⟨fun f fe x hf => ?_, fun f fe hf => ?_, fun f fe hf => ?_, fun f fe x e hf hx he => ?_⟩
  · rw [hfather]
    exact hv.children f fe x (h f ▸ hf)
  · exact hv.nodup f fe (h f ▸ hf)
  · exact hv.ends f fe (h f ▸ hf)
  · rw [hfather] at hx
    exact hv.descendants f fe x e (h f ▸ hf) hx (h x ▸ he)

/-- What all calls keep. -/
structure Linked (view : BorderViewpoint) : Prop where
  keys : ∀ h e, view.lookup h = some e →
    undirected h = h ∧ h ≠ zerohash ∧ undirected e.father ≠ h
  linked : ∀ h e, view.lookup h = some e → e.father ≠ zerohash →
    ∃ fe, view.lookup (undirected e.father) = some fe ∧ h ∈ fe.children
  marked : ∀ h e, view.lookup h = some e → e.children ≠ [] → e.newchildren = true

theorem linked_empty : Linked ∅ := ⟨nofun, nofun, nofun⟩

theorem Linked.congr (h : ∀ k, view'.lookup k = view.lookup k) (hv : Linked view) :
    Linked view' := by
  refine ⟨fun x e hx => hv.keys x e (h x ▸ hx), fun x e hx hne => ?_,
    fun x e hx => hv.marked x e (h x ▸ hx)⟩
  rw [h]
  exact hv.linked x e (h x ▸ hx) hne

/-! ## One call -/

/-- Entries keep their fathers and their children; they may have got new ones. -/
def Grown (view view' : BorderViewpoint) : Prop :=
  ∀ k, match view.lookup k with
    | none => view'.lookup k = none
    | some e => ∃ e', view'.lookup k = some e' ∧ e'.father = e.father ∧
        (∀ x ∈ e.children, x ∈ e'.children) ∧ (e'.children ≠ [] → e'.newchildren = true)

section Call

variable {h : Hash} {view view' view'' : BorderViewpoint} {k : Hash} {f : Hash}

section

variable (hg : Grown view view')

include hg

theorem Grown.kept {e : BorderEntry} (hk : view.lookup k = some e) :
    ∃ e', view'.lookup k = some e' ∧ e'.father = e.father ∧
      (∀ x ∈ e.children, x ∈ e'.children) ∧ (e'.children ≠ [] → e'.newchildren = true) := by
  have h := hg k
  rw [hk] at h
  exact h

theorem Grown.absent (hk : view.lookup k = none) :
    view'.lookup k = none := by
  have h := hg k
  rw [hk] at h
  exact h

/-- Every entry comes from one before. -/
theorem Grown.of_some {e' : BorderEntry} (hk : view'.lookup k = some e') :
    ∃ e, view.lookup k = some e ∧ e'.father = e.father ∧
      (∀ x ∈ e.children, x ∈ e'.children) ∧ (e'.children ≠ [] → e'.newchildren = true) := by
  cases he : view.lookup k with
  | none =>
    rw [hg.absent he] at hk
    cases hk
  | some e =>
    obtain ⟨e₁, he₁, hrest⟩ := hg.kept he
    rw [hk] at he₁
    cases he₁
    exact ⟨e, rfl, hrest⟩

theorem Grown.trans (hg' : Grown view' view'') : Grown view view'' := by
  intro k
  split
  · rename_i hk
    exact hg'.absent (hg.absent hk)
  rename_i e hk
  obtain ⟨e₁, he₁, hfather₁, hsub₁, -⟩ := hg.kept hk
  obtain ⟨e₂, he₂, hfather₂, hsub₂, hmark₂⟩ := hg'.kept he₁
  exact ⟨e₂, he₂, hfather₂.trans hfather₁, fun x hx => hsub₂ x (hsub₁ x hx), hmark₂⟩

theorem Grown.isSome (hk : (view.lookup k).isSome) :
    (view'.lookup k).isSome := by
  obtain ⟨e, he⟩ := isSome_iff_exists.mp hk
  obtain ⟨e', he', -⟩ := hg.kept he
  rw [he']
  rfl

/-- Children are marked as new, and fathers are there. -/
def Closed (view : BorderViewpoint) : Prop :=
  ∀ k e, view.lookup k = some e → (e.children ≠ [] → e.newchildren = true) ∧
    (e.father ≠ zerohash → (view.lookup (undirected e.father)).isSome)

theorem Grown.closed (hc : Closed view) : Closed view' := by
  intro k e' hk
  obtain ⟨e, he, hfather, -, hmark⟩ := hg.of_some hk
  refine ⟨hmark, fun hne => ?_⟩
  rw [hfather] at hne ⊢
  exact hg.isSome ((hc k e he).2 hne)

end

/-- The father after a step of the walk. -/
def BorderEntry.grow (fe : BorderEntry) (box : BoundingBox) (h : Hash) : BorderEntry :=
  (fe.mergeBound box).2.2.adopt h

section

variable (fe : BorderEntry) (box : BoundingBox) (h : Hash)

@[simp] theorem BorderEntry.grow_father : (fe.grow box h).father = fe.father :=
  fe.mergeBound_father box

@[simp] theorem BorderEntry.grow_children : (fe.grow box h).children = fe.children ++ [h] := by
  rw [grow, adopt, mergeBound_children]

theorem BorderEntry.mem_grow : h ∈ (fe.grow box h).children := by
  exact mem_append_right _ mem_cons_self

@[simp] theorem BorderEntry.grow_endBox : (fe.grow box h).endBox = fe.endBox := by
  rw [grow, adopt_endBox, mergeBound_endBox]

@[simp] theorem BorderEntry.grow_getBound :
    (fe.grow box h).getBound = (fe.getBound.merge box).1 := by
  rw [grow, adopt_getBound, getBound_mergeBound]

end

theorem Closed.grown_refl (hc : Closed view) : Grown view view := by
  intro k
  split
  · assumption
  · rename_i e he
    exact ⟨e, he, rfl, fun x hx => hx, (hc k e he).1⟩

variable {fe : BorderEntry} {box : BoundingBox}

theorem grown_insert (hc : Closed view) (hf : view.lookup f = some fe) (box : BoundingBox) :
    Grown view (view.insert f (fe.grow box h)) := by
  intro k
  by_cases hk : k = f
  · subst hk
    rw [hf]
    refine ⟨fe.grow box h, lookup_insert view, fe.grow_father box h, fun x hx => ?_, fun _ => rfl⟩
    rw [fe.grow_children]
    exact mem_append_left [h] hx
  · rw [lookup_insert_ne hk]
    exact hc.grown_refl k

theorem climb_succ (hc : Closed view) {n : Nat} (hf : f ≠ zerohash)
    (hfe : view.lookup (undirected f) = some fe) :
    climb ∅ h (n + 1) view f box =
      if (fe.getBound.merge box).2 then
        climb ∅ h n (view.insert (undirected f) (fe.grow box h)) fe.father (fe.getBound.merge box).1
      else some (true, view.insert (undirected f) (fe.grow box h)) := by
  have hopen : (fe.mergeBound box).2.2.children = [] ∨
      (fe.mergeBound box).2.2.newchildren = true := by
    rw [mergeBound_children, mergeBound_newchildren]
    by_cases hnil : fe.children = []
    · exact .inl hnil
    · exact .inr ((hc _ fe hfe).1 hnil)
  rw [climb, if_neg hf, fetchBorderEntry, BorderViewpoint.lookupEntry, hfe]
  simp only [if_pos hopen, mergeBound_father]
  rfl

theorem climb_zero (n : Nat) (view : BorderViewpoint) (box : BoundingBox) :
    climb ∅ h (n + 1) view zerohash box = some (true, view) := by
  rw [climb, if_pos rfl]

/-- The walk does not fail, and only adds children. -/
theorem climb_grown : ∀ {n : Nat} {view : BorderViewpoint} {f : Hash} {box : BoundingBox}
    {r : Bool × BorderViewpoint}, Closed view →
    (f ≠ zerohash → (view.lookup (undirected f)).isSome) → climb ∅ h n view f box = some r →
    r.1 = true ∧ Grown view r.2 := by
  intro n
  induction n with
  | zero => exact fun _ _ h => nomatch h
  | succ n ih =>
    intro view f box r hc hf hclimb
    by_cases hzero : f = zerohash
    · subst hzero
      rw [climb_zero] at hclimb
      cases hclimb
      exact ⟨rfl, hc.grown_refl⟩
    obtain ⟨fe, hfe⟩ := isSome_iff_exists.mp (hf hzero)
    have hgrown : Grown view (view.insert (undirected f) (fe.grow box h)) :=
      grown_insert hc hfe box
    rw [climb_succ hc hzero hfe] at hclimb
    split at hclimb
    · obtain ⟨hok, hrest⟩ := ih (hgrown.closed hc)
        (fun hne => hgrown.isSome ((hc _ fe hfe).2 hne)) hclimb
      exact ⟨hok, hgrown.trans hrest⟩
    · cases hclimb
      exact ⟨rfl, hgrown⟩

/-- A father that the walk comes to takes the border for a child. -/
theorem climb_adopts (hc : Closed view) {n : Nat} {r : Bool × BorderViewpoint} (hf : f ≠ zerohash)
    (hfe : view.lookup (undirected f) = some fe) (hclimb : climb ∅ h (n + 1) view f box = some r) :
    r.1 = true ∧ Grown (view.insert (undirected f) (fe.grow box h)) r.2 := by
  have hgrown : Grown view (view.insert (undirected f) (fe.grow box h)) := grown_insert hc hfe box
  rw [climb_succ hc hf hfe] at hclimb
  split at hclimb
  · exact climb_grown (hgrown.closed hc) (fun hne => hgrown.isSome ((hc _ fe hfe).2 hne)) hclimb
  · cases hclimb
    exact ⟨rfl, (hgrown.closed hc).grown_refl⟩

end Call

section AddBorder

variable {hashH : Bytes → Hash} {view : BorderViewpoint} {b : BorderDef} {fe : BorderEntry}
  {db : BorderViewpoint}

theorem Linked.closed (hv : Linked view) : Closed view := by
  intro k e he
  refine ⟨hv.marked k e he, fun hne => ?_⟩
  obtain ⟨fe, hfe, -⟩ := hv.linked k e he hne
  rw [hfe]
  rfl

theorem lookupEntry_hash (hashH : Bytes → Hash) (view : BorderViewpoint) (b : BorderDef) :
    view.lookupEntry (b.hash hashH) = view.lookup (b.hash hashH) := by
  rw [BorderViewpoint.lookupEntry, undirected_hash]

theorem addBorder_known (hknown : (view.lookup (b.hash hashH)).isSome) :
    addBorder hashH db view b = (false, view) := by
  obtain ⟨e, he⟩ := isSome_iff_exists.mp hknown
  simp only [addBorder, lookupEntry_hash, he]

section

variable (hnew : view.lookup (b.hash hashH) = none)

include hnew

/-- A border that is new is put into the view before the walk. -/
theorem addBorder_new :
    addBorder hashH db view b =
      (climb db (b.hash hashH) (room db (view.insert (b.hash hashH) b.toEntry) + 1 + 1)
        (view.insert (b.hash hashH) b.toEntry) b.father b.box).getD
        (false, view.insert (b.hash hashH) b.toEntry) := by
  simp only [addBorder, lookupEntry_hash, hnew]

theorem addBorder_climb (db : BorderViewpoint) :
    climb db (b.hash hashH) (room db (view.insert (b.hash hashH) b.toEntry) + 1 + 1)
      (view.insert (b.hash hashH) b.toEntry) b.father b.box = some (addBorder hashH db view b) := by
  obtain ⟨r, hr⟩ := isSome_iff_exists.mp (climb_isSome db (b.hash hashH)
    (Nat.lt_add_of_pos_right Nat.two_pos) : (climb _ _ _ _ b.father b.box).isSome)
  rw [addBorder_new hnew, hr, getD_some]

theorem addBorder_root (hroot : b.father = zerohash) :
    addBorder hashH ∅ view b = (true, view.insert (b.hash hashH) b.toEntry) := by
  rw [addBorder_new hnew, hroot, climb_zero]
  rfl

theorem addBorder_orphan (hf : b.father ≠ zerohash) (hself : undirected b.father ≠ b.hash hashH)
    (hnone : view.lookup (undirected b.father) = none) :
    addBorder hashH ∅ view b =
      (false, (view.insert (b.hash hashH) b.toEntry).erase (b.hash hashH)) := by
  rw [addBorder_new hnew, climb, if_neg hf, fetchBorderEntry, BorderViewpoint.lookupEntry,
    lookup_insert_ne hself, hnone]
  rfl

/-- With its father there, a new border starts the walk in a closed view. -/
theorem Linked.closed_insert (hv : Linked view) (hself : undirected b.father ≠ b.hash hashH)
    (hfe : view.lookup (undirected b.father) = some fe) :
    Closed (view.insert (b.hash hashH) b.toEntry) := by
  intro k e he
  by_cases hk : k = b.hash hashH
  · subst hk
    rw [lookup_insert] at he
    cases he
    refine ⟨fun h => absurd rfl h, fun _ => ?_⟩
    rw [show b.toEntry.father = b.father from rfl, lookup_insert_ne hself, hfe]
    rfl
  · rw [lookup_insert_ne hk] at he
    refine ⟨hv.marked k e he, fun hne => ?_⟩
    obtain ⟨ge, hge, -⟩ := hv.linked k e he hne
    rw [lookup_insert_ne (ne_of_lookup hge hnew), hge]
    rfl

end

/-- The view after the first step of the walk. -/
def withChild (hashH : Bytes → Hash) (view : BorderViewpoint) (b : BorderDef) (fe : BorderEntry) :
    BorderViewpoint :=
  (view.insert (b.hash hashH) b.toEntry).insert (undirected b.father)
    (fe.grow b.box (b.hash hashH))

section

variable (hv : Linked view) (hnew : view.lookup (b.hash hashH) = none) (hf : b.father ≠ zerohash)
  (hself : undirected b.father ≠ b.hash hashH) (hfe : view.lookup (undirected b.father) = some fe)

include hv hnew hf hself hfe

/-- The walk ends at the father. -/
theorem addBorder_child (hfits : fe.father = zerohash ∨ b.box ≤ fe.getBound) :
    addBorder hashH ∅ view b = (true, withChild hashH view b fe) := by
  rw [addBorder_new hnew,
    climb_succ (hv.closed_insert hnew hself hfe) hf ((lookup_insert_ne hself).trans hfe)]
  split
  · rename_i hc
    obtain hroot | hle := hfits
    · rw [hroot, climb_zero]
      rfl
    · rw [(merge_changed _ _).mpr hle] at hc
      cases hc
  · rfl

/-- The walk goes on to the father of the father. -/
theorem addBorder_climbs (hfather : fe.father ≠ zerohash) (hbox : ¬b.box ≤ fe.getBound) :
    ∃ view', addBorder hashH ∅ view b = (true, view') ∧ Grown (withChild hashH view b fe) view' ∧
      ∃ ge, view'.lookup (undirected fe.father) = some ge ∧ b.hash hashH ∈ ge.children := by
  have hclosed := hv.closed_insert hnew hself hfe
  have hlookup : (view.insert (b.hash hashH) b.toEntry).lookup (undirected b.father) = some fe := by
    rw [lookup_insert_ne hself, hfe]
  have hchanged : (fe.getBound.merge b.box).2 = true := by
    rw [← Bool.not_eq_false, merge_changed]
    exact hbox
  have hgrown : Grown (view.insert (b.hash hashH) b.toEntry) (withChild hashH view b fe) :=
    grown_insert hclosed hlookup b.box
  -- the father of the father is there
  obtain ⟨ge, hge⟩ := isSome_iff_exists.mp ((hclosed _ fe hlookup).2 hfather)
  obtain ⟨ge₁, hge₁, -, -, -⟩ := hgrown.kept hge
  have hclimb := addBorder_climb hnew ∅
  rw [climb_succ hclosed hf hlookup, if_pos hchanged] at hclimb
  obtain ⟨hok, hrest⟩ := climb_adopts (hgrown.closed hclosed) hfather hge₁ hclimb
  refine ⟨_, by rw [← hok], (grown_insert (hgrown.closed hclosed) hge₁ _).trans hrest, ?_⟩
  obtain ⟨ge', hge', -, hsub, -⟩ := hrest.kept (lookup_insert _)
  exact ⟨ge', hge', hsub _ (mem_grow ..)⟩

end

/-- The view with the new border, which its father has taken for a child. -/
structure Extends (hashH : Bytes → Hash) (view : BorderViewpoint) (b : BorderDef)
    (view' : BorderViewpoint) : Prop where
  new : view'.lookup (b.hash hashH) = some b.toEntry
  other : ∀ k, k ≠ b.hash hashH → view'.lookup k = (view.lookup k).map fun e =>
    if k = undirected b.father then e.grow b.box (b.hash hashH) else e

theorem extends_insert (hl : Linked view) (hroot : b.father = zerohash) :
    Extends hashH view b (view.insert (b.hash hashH) b.toEntry) where
  new := lookup_insert view
  other k hk := by
    rw [lookup_insert_ne hk]
    cases he : view.lookup k with
    | none => rfl
    | some e =>
      have hne : k ≠ undirected b.father := by
        rw [hroot]
        exact (hl.keys k e he).2.1
      rw [map_some, if_neg hne]

theorem extends_withChild (hself : undirected b.father ≠ b.hash hashH)
    (hfe : view.lookup (undirected b.father) = some fe) :
    Extends hashH view b (withChild hashH view b fe) where
  new := by rw [withChild, lookup_insert_ne hself.symm, lookup_insert]
  other k hk := by
    by_cases hf : k = undirected b.father
    · subst hf
      rw [withChild, lookup_insert, hfe, map_some, if_pos rfl]
    rw [withChild, lookup_insert_ne hf, lookup_insert_ne hk]
    cases view.lookup k with
    | none => rfl
    | some e => rw [map_some, if_neg hf]

variable {view' : BorderViewpoint} {x : Hash}

theorem BorderEntry.father_ite (e : BorderEntry) (box : BoundingBox) (h : Hash) (p : Prop)
    [Decidable p] : (if p then e.grow box h else e).father = e.father := by
  split
  · rw [grow_father]
  · rfl

theorem Linked.not_fatherOf (hl : Linked view) (hnew : view.lookup (b.hash hashH) = none)
    (hne : b.hash hashH ≠ zerohash) : ¬FatherOf view x (b.hash hashH) := by
  rintro ⟨e, he, hfather⟩
  obtain ⟨fe, hfe, -⟩ := hl.linked x e he (by rw [hfather]; exact hne)
  rw [hfather, undirected_hash, hnew] at hfe
  cases hfe

theorem Linked.grown (hl : Linked view) (hg : Grown view view') : Linked view' := by
  refine ⟨fun k e' he' => ?_, fun k e' he' hne => ?_, fun k e' he' => ?_⟩
  · obtain ⟨e, he, hfather, -⟩ := hg.of_some he'
    rw [hfather]
    exact hl.keys k e he
  · obtain ⟨e, he, hfather, -⟩ := hg.of_some he'
    rw [hfather] at hne ⊢
    obtain ⟨fe, hfe, hmem⟩ := hl.linked k e he hne
    obtain ⟨fe', hfe', -, hsub, -⟩ := hg.kept hfe
    exact ⟨fe', hfe', hsub k hmem⟩
  · obtain ⟨e, he, -, -, hmark⟩ := hg.of_some he'
    exact hmark

/-- A new border that names its father without a direction, and lies in the bound of the father or
has a root for its father. -/
structure Fitting (hashH : Bytes → Hash) (view : BorderViewpoint) (b : BorderDef) : Prop where
  new : view.lookup (b.hash hashH) = none
  ne_zero : b.hash hashH ≠ zerohash
  ne_father : undirected b.father ≠ b.hash hashH
  even : undirected b.father = b.father
  fits : ∀ fe, view.lookup b.father = some fe → fe.father = zerohash ∨ b.box ≤ fe.getBound

section

variable {f : Hash} {fe' : BorderEntry} (hx : Extends hashH view b view')

include hx

/-- An entry is that of the new border, or an old one, which has grown if it is the father. -/
theorem Extends.cases {k : Hash} {e' : BorderEntry}
    (he' : view'.lookup k = some e') : (k = b.hash hashH ∧ e' = b.toEntry) ∨
      ∃ e, view.lookup k = some e ∧
        e' = if k = undirected b.father then e.grow b.box (b.hash hashH) else e := by
  by_cases hk : k = b.hash hashH
  · subst hk
    rw [hx.new] at he'
    cases he'
    exact .inl ⟨rfl, rfl⟩
  · rw [hx.other k hk] at he'
    obtain ⟨e, he, rfl⟩ := map_eq_some_iff.mp he'
    exact .inr ⟨e, he, rfl⟩

/-- Fathers stay, and the new border has its own. -/
theorem Extends.fatherOf_iff (hnew : view.lookup (b.hash hashH) = none) {k : Hash} :
    FatherOf view' x k ↔ (x = b.hash hashH ∧ b.father = k) ∨ FatherOf view x k := by
  constructor
  · rintro ⟨e', he', hfather⟩
    obtain ⟨rfl, rfl⟩ | ⟨e, he, rfl⟩ := hx.cases he'
    · exact .inl ⟨rfl, hfather⟩
    · exact .inr ⟨e, he, (e.father_ite ..).symm.trans hfather⟩
  · rintro (⟨rfl, hfather⟩ | ⟨e, he, hfather⟩)
    · exact ⟨b.toEntry, hx.new, hfather⟩
    · exact ⟨_, by rw [hx.other x (ne_of_lookup he hnew), he, map_some],
        (e.father_ite ..).trans hfather⟩

variable (hl : Linked view)

include hl

theorem Extends.linked (hnew : view.lookup (b.hash hashH) = none) (hne : b.hash hashH ≠ zerohash)
    (hself : undirected b.father ≠ b.hash hashH)
    (hfather : b.father ≠ zerohash → (view.lookup (undirected b.father)).isSome) :
    Linked view' := by
  refine ⟨fun k e' he' => ?_, fun k e' he' hne' => ?_, fun k e' he' => ?_⟩
  all_goals obtain ⟨rfl, rfl⟩ | ⟨e, he, rfl⟩ := hx.cases he'
  · exact ⟨undirected_hash hashH b, hne, hself⟩
  · rw [e.father_ite]
    exact hl.keys k e he
  · obtain ⟨fe, hfe⟩ := isSome_iff_exists.mp (hfather hne')
    exact ⟨_, by rw [show b.toEntry.father = b.father from rfl, hx.other _ hself, hfe,
      map_some, if_pos rfl], fe.mem_grow ..⟩
  · rw [e.father_ite] at hne' ⊢
    obtain ⟨fe, hfe, hmem⟩ := hl.linked k e he hne'
    refine ⟨_, by rw [hx.other _ (ne_of_lookup hfe hnew), hfe, map_some], ?_⟩
    split
    · rw [grow_children]
      exact mem_append_left _ hmem
    · exact hmem
  · exact fun hnil => absurd rfl hnil
  · split
    · exact fun _ => rfl
    · exact hl.marked k e he

variable (hb : Fitting hashH view b)

include hb

theorem Extends.not_fatherOf_new : ¬FatherOf view' x (b.hash hashH) := by
  rw [hx.fatherOf_iff hb.new]
  rintro (⟨-, hfather⟩ | hold)
  · exact hb.ne_father (hb.even.trans hfather)
  · exact hl.not_fatherOf hb.new hb.ne_zero hold

theorem Extends.nested (hv : Nested view) : Nested view' := by
  -- bounds only grow
  have hgrow : ∀ k (e : BorderEntry), e.getBound ≤
      (if k = undirected b.father then e.grow b.box (b.hash hashH) else e).getBound := by
    intro k e
    split
    · rw [grow_getBound]
      exact le_merge_left _ _
    · exact BoundingBox.le_refl _
  intro f fe' x e' hf hxe hfather
  obtain ⟨rfl, rfl⟩ | ⟨fe, hfe, rfl⟩ := hx.cases hf
  · exact absurd ⟨e', hxe, hfather⟩ (hx.not_fatherOf_new hl hb)
  obtain ⟨rfl, rfl⟩ | ⟨e, he, rfl⟩ := hx.cases hxe
  · -- the new border lies in the bound of its father
    rw [if_pos (hfather.symm.trans hb.even.symm), grow_getBound, BorderDef.toEntry_getBound]
    exact le_merge_right _ _
  rw [e.father_ite] at hfather
  refine BoundingBox.le_trans ?_ (hgrow f fe)
  split
  · -- the father has not grown, unless it is a root
    rename_i hxf
    rw [grow_getBound]
    rw [hxf, hb.even] at he
    obtain hroot | hle := hb.fits e he
    · rw [← hfather, hroot] at hfe
      exact absurd rfl (hl.keys _ fe hfe).2.1
    · rw [merge_of_le hle]
      exact hv f fe _ e hfe he hfather
  · exact hv f fe x e hfe he hfather

variable (hv : Forest view)

include hv

theorem Extends.children (hf : view'.lookup f = some fe') :
    x ∈ fe'.children ↔ FatherOf view' x f := by
  obtain ⟨rfl, rfl⟩ | ⟨fe, hfe, rfl⟩ := hx.cases hf
  · exact iff_of_false not_mem_nil (hx.not_fatherOf_new hl hb)
  rw [hx.fatherOf_iff hb.new, ← hv.children f fe x hfe, hb.even]
  by_cases hff : f = b.father
  · rw [if_pos hff, grow_children, mem_append, mem_singleton, or_comm]
    exact or_congr_left (iff_self_and.mpr fun _ => hff.symm)
  · rw [if_neg hff]
    exact (or_iff_right fun h => hff h.2.symm).symm

omit hl in
theorem Extends.nodup (hf : view'.lookup f = some fe') : fe'.children.Nodup := by
  obtain ⟨rfl, rfl⟩ | ⟨fe, hfe, rfl⟩ := hx.cases hf
  · exact nodup_nil
  split
  · have hnotmem : b.hash hashH ∉ fe.children := by
      intro hmem
      obtain ⟨e, he, -⟩ := (hv.children f fe _ hfe).mp hmem
      rw [hb.new] at he
      cases he
    rw [grow_children]
    exact nodup_append_comm.mp (nodup_cons.mpr ⟨hnotmem, hv.nodup f fe hfe⟩)
  · exact hv.nodup f fe hfe

omit hl hb in
theorem Extends.ends (hf : view'.lookup f = some fe') : fe'.endBox ≤ fe'.getBound := by
  obtain ⟨rfl, rfl⟩ | ⟨fe, hfe, rfl⟩ := hx.cases hf
  · exact BoundingBox.le_refl _
  have hends := endBox_le.mpr (hv.ends f fe hfe)
  split
  · rw [grow_endBox, grow_getBound]
    exact BoundingBox.le_trans hends (le_merge_left _ _)
  · exact hends

/-- **A border that fits keeps the forest.** The father gets one more child, and only its own bound
can grow. -/
theorem Extends.forest : Forest view' where
  children _ _ _ hf := hx.children hl hb hv hf
  nodup _ _ hf := hx.nodup hb hv hf
  ends _ _ hf := endBox_le.mp (hx.ends hv hf)
  descendants _ _ _ _ hf hdesc he := (hx.nested hl hb hv.nested).descendants hf hdesc he

end

/-- The call keeps the forest: the border is known, or its father is not there, or it fits. -/
def Fits (hashH : Bytes → Hash) (view : BorderViewpoint) (b : BorderDef) : Prop :=
  (view.lookup (b.hash hashH)).isSome ∨ b.father = zerohash ∨
    ∀ fe ∈ view.lookup (undirected b.father),
      undirected b.father = b.father ∧ (fe.father = zerohash ∨ b.box ≤ fe.getBound)

instance : Decidable (Fits hashH view b) :=
  inferInstanceAs (Decidable (_ ∨ _ ∨ _))

theorem lookup_erase_insert {h : Hash} {e : BorderEntry} (hnew : view.lookup h = none) (k : Hash) :
    ((view.insert h e).erase h).lookup k = view.lookup k := by
  by_cases hk : k = h
  · subst hk
    rw [lookup_erase, hnew]
  · rw [lookup_erase_ne hk, lookup_insert_ne hk]

/-- One call: the links stay, and the forest exactly if the border fits. -/
theorem addBorder_step (hv : Forest view) (hl : Linked view) (hne : b.hash hashH ≠ zerohash)
    (hself : undirected b.father ≠ b.hash hashH) :
    Linked (addBorder hashH ∅ view b).2 ∧
      (Forest (addBorder hashH ∅ view b).2 ↔ Fits hashH view b) := by
  cases hnew : view.lookup (b.hash hashH) with
  | some e =>
    have hknown : (view.lookup (b.hash hashH)).isSome := by rw [hnew]; rfl
    rw [addBorder_known hknown]
    exact ⟨hl, iff_of_true hv (.inl hknown)⟩
  | none =>
    by_cases hf : b.father = zerohash
    · have hx : Extends hashH view b (view.insert (b.hash hashH) b.toEntry) := extends_insert hl hf
      have hb : Fitting hashH view b := by
        refine ⟨hnew, hne, hself, by rw [hf]; rfl, fun fe hfe => ?_⟩
        rw [hf] at hfe
        exact absurd rfl (hl.keys _ fe hfe).2.1
      rw [addBorder_root hnew hf]
      exact ⟨hx.linked hl hnew hne hself fun h => absurd hf h,
        iff_of_true (hx.forest hl hb hv) (.inr (.inl hf))⟩
    · cases hfe : view.lookup (undirected b.father) with
      | none =>
        have hsame := lookup_erase_insert (e := b.toEntry) hnew
        rw [addBorder_orphan hnew hf hself hfe]
        refine ⟨hl.congr hsame, iff_of_true (hv.congr hsame) (.inr (.inr fun fe h => ?_))⟩
        rw [hfe] at h
        cases h
      | some fe =>
        have hx : Extends hashH view b (withChild hashH view b fe) := extends_withChild hself hfe
        have hlinked : Linked (withChild hashH view b fe) :=
          hx.linked hl hnew hne hself fun _ => by rw [hfe]; rfl
        -- the father has the new border among its children
        have hadopted : ∀ view', Grown (withChild hashH view b fe) view' → Forest view' →
            undirected b.father = b.father ∧ FatherOf view' (b.hash hashH) b.father := by
          intro view' hg hforest
          obtain ⟨e', he', hfather, -⟩ := hg.kept hx.new
          obtain ⟨fe', hfe', -, hsub, -⟩ := hg.kept
            (by rw [hx.other _ hself, hfe, map_some, if_pos rfl])
          obtain ⟨e₁, he₁, hfather₁⟩ :=
            (hforest.children _ fe' _ hfe').mp (hsub _ (fe.mem_grow ..))
          rw [he'] at he₁
          cases he₁
          exact ⟨hfather₁.symm.trans hfather, e', he', hfather⟩
        have hfits : Fits hashH view b ↔
            undirected b.father = b.father ∧ (fe.father = zerohash ∨ b.box ≤ fe.getBound) := by
          rw [Fits, hnew, hfe]
          simp [hf]
        rw [hfits]
        by_cases hstop : fe.father = zerohash ∨ b.box ≤ fe.getBound
        · rw [addBorder_child hl hnew hf hself hfe hstop]
          refine ⟨hlinked, fun hforest => ⟨(hadopted _ hlinked.closed.grown_refl hforest).1, hstop⟩,
            fun h => hx.forest hl ⟨hnew, hne, hself, h.1, fun fe' hfe' => ?_⟩ hv⟩
          rw [← h.1, hfe] at hfe'
          cases hfe'
          exact h.2
        rw [not_or] at hstop
        obtain ⟨view', hrun, hgrown, ge, hge, hmem⟩ :=
          addBorder_climbs hl hnew hf hself hfe hstop.1 hstop.2
        rw [hrun]
        refine ⟨hlinked.grown hgrown, iff_of_false (fun hforest => ?_) fun h =>
          h.2.elim hstop.1 hstop.2⟩
        -- the father of the father has it too
        obtain ⟨heven, e₁, he₁, hfather₁⟩ := hadopted view' hgrown hforest
        obtain ⟨e₂, he₂, hfather₂⟩ := (hforest.children _ ge _ hge).mp hmem
        rw [he₁] at he₂
        cases he₂
        refine (hl.keys _ fe hfe).2.2 ?_
        rw [← hfather₂, hfather₁, heven]

end AddBorder

/-- **The forest over a run of calls.** From an empty view and an empty database, all views of the
run are forests exactly if each border fits into the view that it is added to. The hash of a border
must not be zero, nor what the border names as its father. -/
theorem forest_run_iff (hashH : Bytes → Hash) (calls : List BorderDef)
    (hhash : ∀ b ∈ calls, b.hash hashH ≠ zerohash ∧ undirected b.father ≠ b.hash hashH) :
    (∀ n ≤ calls.length,
        Forest ((calls.take n).foldl (fun view b => (addBorder hashH ∅ view b).2) ∅)) ↔
      ∀ done b rest, calls = done ++ b :: rest →
        Fits hashH (done.foldl (fun view b => (addBorder hashH ∅ view b).2) ∅) b :=
  foldl_take_iff
    (fun _ b hb hv hl => (addBorder_step hv hl (hhash b hb).1 (hhash b hb).2).2)
    (fun _ b hb hv hl => (addBorder_step hv hl (hhash b hb).1 (hhash b hb).2).1)
    forest_empty linked_empty

/-! ## Samples -/

/-- A hash that reads the latitude of the first vertex. -/
def latitudeHash (bs : Bytes) : Hash := BitVec.ofNat 256 (2 * (bs.getD 32 0).toNat)

/-- A line of the given latitude. -/
def levelBorder (father : Hash) (lat lng : Int32) : BorderDef :=
  ⟨father, ⟨lat, 0, 0⟩, ⟨lat, lng, 0⟩⟩

/-- A root and a child of it. -/
theorem forest_of_child : ∃ calls : List BorderDef, calls ≠ [] ∧ ∀ n ≤ calls.length,
    Forest ((calls.take n).foldl (fun view b => (addBorder latitudeHash ∅ view b).2) ∅) := by
  refine ⟨[levelBorder 0 1 9, levelBorder 2 2 5], cons_ne_nil _ _, (forest_run_iff latitudeHash _
    (by decide +kernel)).mpr fun done b rest hcalls => ?_⟩
  obtain ⟨j, rfl, hget⟩ := exists_take hcalls
  match j with
  | 0 | 1 =>
    cases hget
    decide +kernel
  | j + 2 => cases hget

/-- **A border becomes a child of the father of its father.** A root, a child, and a child of the
child that goes beyond its father: all calls succeed, and the root has both as children. -/
theorem addBorder_adopts_grandchild :
    ((∀ b ∈ [levelBorder 0 1 9, levelBorder 2 2 5, levelBorder 4 3 7],
        b.hash latitudeHash ≠ zerohash ∧ undirected b.father ≠ b.hash latitudeHash)) ∧
      ∃ view, [levelBorder 0 1 9, levelBorder 2 2 5, levelBorder 4 3 7].foldl
        (fun view b => (addBorder latitudeHash ∅ view b).2) ∅ = view ∧
      (view.lookup 2).map children = some [4, 6] ∧
      (view.lookup 6).map father = some 4 ∧ ¬Forest view := by
  have hroot : (([levelBorder 0 1 9, levelBorder 2 2 5, levelBorder 4 3 7].foldl
      (fun view b => (addBorder latitudeHash ∅ view b).2) ∅).lookup 2).map children =
        some [4, 6] := by
    decide +kernel
  refine ⟨by decide +kernel, _, rfl, hroot, by decide +kernel, fun hforest => ?_⟩
  obtain ⟨fe, hfe, hchildren⟩ := map_eq_some_iff.mp hroot
  have hfather : FatherOf _ 6 2 := (hforest.children 2 fe 6 hfe).mp (by rw [hchildren]; decide)
  revert hfather
  unfold FatherOf
  decide +kernel

end Zent
