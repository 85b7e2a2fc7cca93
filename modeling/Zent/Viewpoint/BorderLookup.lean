import Zent.Viewpoint.BorderForest

/-!
# What a view finds in its database

Borders are stored without a direction, but a reference that has one is asked for in the database as
it is. Adding a border brings its fathers into the view and changes them before it knows whether the
border is taken.
-/

namespace Zent

open Go BorderEntry Option AList BoundingBox

variable {db view : BorderViewpoint}

/-! ## Both directions of a reference -/

/-- The view holds borders as the database has them. -/
def Caches (db view : BorderViewpoint) : Prop :=
  ∀ k e, view.lookup k = some e → undirected k = k ∧ db.lookup k = some e

/-- A reference and its reverse find what the database stores for the border. -/
def DirectionFree (db view : BorderViewpoint) (h : Hash) : Prop :=
  (fetchBorderEntry db view h).1 = db.lookup (undirected h) ∧
    (fetchBorderEntry db view (h ^^^ 1)).1 = db.lookup (undirected h)

theorem fetchBorderEntry_fst (db view : BorderViewpoint) (h : Hash) :
    (fetchBorderEntry db view h).1 = (view.lookup (undirected h)).or (db.lookup h) := by
  rw [fetchBorderEntry, BorderViewpoint.lookupEntry]
  cases view.lookup (undirected h) with
  | some e => rfl
  | none => cases db.lookup h <;> rfl

theorem direction_cases (h : Hash) : undirected (h ^^^ 1) = undirected h ∧
    (h = undirected h ∧ h ^^^ 1 = undirected h ||| 1 ∨
      h = undirected h ||| 1 ∧ h ^^^ 1 = undirected h) := by
  have hone : ∀ i, (1 : Hash).getLsbD i = decide (i = 0) := by
    intro i
    simp
  cases h0 : h.getLsbD 0
  case' false => refine ⟨?_, .inl ⟨?_, ?_⟩⟩
  case' true => refine ⟨?_, .inr ⟨?_, ?_⟩⟩
  all_goals
    refine BitVec.eq_of_getLsbD_eq fun i hi => ?_
    simp only [undirected, BitVec.getLsbD_and, BitVec.getLsbD_not, BitVec.getLsbD_or,
      BitVec.getLsbD_xor, hone]
    grind

/-- A view that holds borders as the database has them may miss the stored one, since the database
is asked for the reference with its direction. -/
theorem directionFree_iff (hview : Caches db view) (h : Hash) : DirectionFree db view h ↔
    undirected h ∈ view ∨ db.lookup (undirected h ||| 1) = db.lookup (undirected h) := by
  obtain ⟨hback, hdir⟩ := direction_cases h
  rw [DirectionFree, fetchBorderEntry_fst, fetchBorderEntry_fst, hback]
  cases hv : view.lookup (undirected h) with
  | some e =>
    have hin : undirected h ∈ view := mem_of_lookup hv
    simp only [(hview _ e hv).2, some_or, hin, true_or, and_self]
  | none =>
    have hout : undirected h ∉ view := lookup_eq_none.mp hv
    rw [none_or, none_or, or_iff_right hout]
    obtain ⟨hh, hh'⟩ | ⟨hh, hh'⟩ := hdir
    · rw [hh', ← hh, and_iff_right rfl]
    · rw [hh', ← hh, and_iff_left rfl]

theorem directionFree_cached : DirectionFree (singleton 2 (levelBorder 0 1 9).toEntry)
    (singleton 2 (levelBorder 0 1 9).toEntry) 3 := by
  refine (directionFree_iff (fun k e he => ⟨?_, he⟩) 3).mpr (.inl (by decide +kernel))
  obtain rfl := List.mem_singleton.mp (mem_of_lookup he)
  decide +kernel

/-- **The stored border is not found by the reference with a direction**, if the view is empty. -/
theorem not_directionFree : Caches (singleton 2 (levelBorder 0 1 9).toEntry) ∅ ∧
    ¬ DirectionFree (singleton 2 (levelBorder 0 1 9).toEntry) ∅ 3 :=
  ⟨nofun, fun h => absurd h.1 (by decide +kernel)⟩

/-! ## Rejected borders -/

variable {view' : BorderViewpoint} {h f k : Hash} {fe e : BorderEntry} {box : BoundingBox}

/-- The view is as before, apart from what has been cached from the database. -/
def Traceless (db view view' : BorderViewpoint) : Prop :=
  ∀ k, view'.lookup k = view.lookup k ∨ view.lookup k = none ∧ view'.lookup k = db.lookup k

/-- The border is known, or its father is not there, or the father takes no more children and has
the border in its bound. -/
def Untouched (hashH : Bytes → Hash) (db view : BorderViewpoint) (b : BorderDef) : Prop :=
  (view.lookup (b.hash hashH)).isSome ∨ ∀ fe ∈ (fetchBorderEntry db view b.father).1,
    fe.children ≠ [] ∧ fe.newchildren = false ∧ b.box ≤ fe.getBound

theorem lookup_fetchBorderEntry (db view : BorderViewpoint) (f k : Hash) :
    (fetchBorderEntry db view f).2.lookup k =
      if k = undirected f then (fetchBorderEntry db view f).1 else view.lookup k := by
  rw [fetchBorderEntry, BorderViewpoint.lookupEntry]
  cases hv : view.lookup (undirected f) with
  | some e => grind
  | none =>
    cases db.lookup f with
    | some e => exact lookup_insert_ite ..
    | none => grind

/-- An entry keeps its children during the walk, unless it is the new border. -/
theorem climb_long (hkh : k ≠ h) {len : Nat} : ∀ {n : Nat} {view : BorderViewpoint} {f : Hash}
    {box : BoundingBox} {r : Bool × BorderViewpoint}, climb db h n view f box = some r →
    (∃ e, view.lookup k = some e ∧ len ≤ e.children.length) →
      ∃ e, r.2.lookup k = some e ∧ len ≤ e.children.length := by
  intro n
  induction n with
  | zero => nofun
  | succ n ih =>
    rintro view f box r hr ⟨e, he, hlen⟩
    rw [climb] at hr
    split at hr
    · cases hr
      exact ⟨e, he, hlen⟩
    have hlook := lookup_fetchBorderEntry db view f
    rw [fetchBorderEntry_fst] at hlook
    have hfetched : (fetchBorderEntry db view f).2.lookup k = some e := by
      rw [hlook]
      split
      · rename_i hkf
        rw [← hkf, he, some_or]
      · exact he
    split at hr
    · rename_i hfetch
      cases hr
      rw [hfetch] at hfetched
      exact ⟨e, by rw [lookup_erase_ne hkh, hfetched], hlen⟩
    rename_i fe view₁ hfetch
    rw [hfetch] at hfetched
    -- the father is replaced by one that has its children
    have hput : ∀ fe' : BorderEntry, fe.children.length ≤ fe'.children.length →
        ∃ e', (view₁.insert (undirected f) fe').lookup k = some e' ∧ len ≤ e'.children.length := by
      intro fe' hle
      rw [lookup_insert_ite]
      split
      · rename_i hkf
        rw [hkf, (fetchBorderEntry_some hfetch).1] at hfetched
        cases hfetched
        exact ⟨fe', rfl, hlen.trans hle⟩
      · exact ⟨e, hfetched, hlen⟩
    simp only at hr
    split at hr
    · have hgrown := hput (fe.grow box h) (by simp)
      split at hr
      · exact ih hr hgrown
      · cases hr
        exact hgrown
    · cases hr
      rw [lookup_erase_ne hkh]
      exact hput _ (by rw [mergeBound_children])

theorem BorderEntry.mergeBound_eq_self (h : box ≤ fe.getBound) : (fe.mergeBound box).2.2 = fe := by
  simp only [mergeBound, (merge_changed _ _).mpr h, Bool.false_eq_true, if_false]

/-- A father that has been found is as before. -/
theorem Traceless.found (ht : Traceless db view view') (hdb : ∀ k ∈ db, undirected k = k)
    (hfe : (fetchBorderEntry db view f).1 = some fe)
    (he : view'.lookup (undirected f) = some e) : e = fe := by
  rw [fetchBorderEntry_fst] at hfe
  obtain hold | ⟨hnone, hcached⟩ := ht (undirected f)
  · rw [← hold, he] at hfe
    exact some_inj.mp hfe
  · rw [hnone, none_or] at hfe
    rw [he, hdb f (mem_of_lookup hfe), hfe] at hcached
    exact some_inj.mp hcached

variable {hashH : Bytes → Hash} {b : BorderDef}

section

variable (hnew : view.lookup (b.hash hashH) = none) (hrej : (addBorder hashH db view b).1 = false)

include hnew hrej

/-- A border that names itself as its father is not rejected. -/
theorem ne_of_rejected : undirected b.father ≠ b.hash hashH := by
  intro hself
  have hrun := addBorder_climb hnew db
  have hbox : (b.toEntry.mergeBound b.box).2.1 = false := by
    rw [mergeBound_changed, BoundingBox.merge_changed, BorderDef.toEntry_getBound]
    exact BoundingBox.le_refl _
  rw [climb, fetchBorderEntry, BorderViewpoint.lookupEntry, hself, lookup_insert] at hrun
  simp only [hbox, mergeBound_children] at hrun
  split at hrun
  case' isFalse => rw [if_pos (.inl rfl)] at hrun
  all_goals
    rw [← some_inj.mp hrun] at hrej
    cases hrej

theorem rejected_cases :
    ((fetchBorderEntry db view b.father).1 = none ∧
      ∀ k, (addBorder hashH db view b).2.lookup k = view.lookup k) ∨
    ∃ fe, (fetchBorderEntry db view b.father).1 = some fe ∧
      ((fe.children = [] ∨ fe.newchildren) ∧
          (∃ e, (addBorder hashH db view b).2.lookup (undirected b.father) = some e ∧
            fe.children.length < e.children.length) ∨
        ¬ (fe.children = [] ∨ fe.newchildren) ∧ ∀ k, (addBorder hashH db view b).2.lookup k =
          if k = undirected b.father then some (fe.mergeBound b.box).2.2 else view.lookup k) := by
  have hself := ne_of_rejected hnew hrej
  have hrun := addBorder_climb hnew db
  generalize addBorder hashH db view b = r at hrej hrun ⊢
  have hfst := fetchBorderEntry_fst db (view.insert (b.hash hashH) b.toEntry) b.father
  rw [lookup_insert_ne hself, ← fetchBorderEntry_fst] at hfst
  have hlook := lookup_fetchBorderEntry db (view.insert (b.hash hashH) b.toEntry) b.father
  rw [climb] at hrun
  split at hrun
  · cases hrun
    cases hrej
  split at hrun
  · rename_i view₁ hfetch
    cases hrun
    rw [hfetch] at hfst hlook
    refine .inl ⟨hfst.symm, fun k => ?_⟩
    rw [fetchBorderEntry_fst] at hfst
    rw [lookup_erase_ite, hlook, lookup_insert_ite]
    grind
  rename_i fe view₁ hfetch
  rw [hfetch] at hfst hlook
  refine .inr ⟨fe, hfst.symm, ?_⟩
  simp only [mergeBound_children, mergeBound_newchildren] at hrun
  split at hrun
  · rename_i hopen
    split at hrun
    · refine .inl ⟨hopen, climb_long hself hrun ⟨_, lookup_insert view₁, ?_⟩⟩
      simp [adopt]
    · cases hrun
      cases hrej
  · rename_i hclosed
    cases hrun
    refine .inr ⟨hclosed, fun k => ?_⟩
    rw [lookup_erase_ite, lookup_insert_ite, hlook, lookup_insert_ite]
    grind

end

/-- **A rejected border leaves no trace** exactly if it is known or the first father on the way
rejects it without growing. The keys of the database have no direction. -/
theorem traceless_iff (hdb : ∀ k ∈ db, undirected k = k)
    (hrej : (addBorder hashH db view b).1 = false) :
    Traceless db view (addBorder hashH db view b).2 ↔ Untouched hashH db view b := by
  cases hnew : view.lookup (b.hash hashH) with
  | some e =>
    have hknown := isSome_of_mem hnew
    rw [addBorder_known hknown]
    exact iff_of_true (fun k => .inl rfl) (.inl hknown)
  | none =>
    rw [Untouched, hnew, or_iff_right (by simp)]
    obtain ⟨hnone, hsame⟩ | ⟨fe, hfe, ⟨hopen, e, he, hlen⟩ | ⟨hclosed, hlook⟩⟩ :=
      rejected_cases hnew hrej
    · rw [hnone]
      exact iff_of_true (fun k => .inl (hsame k)) nofun
    · rw [hfe]
      refine iff_of_false (fun ht => ?_) (fun hu => ?_)
      · rw [ht.found hdb hfe he] at hlen
        exact Nat.lt_irrefl _ hlen
      · obtain ⟨hne, hold, -⟩ := hu fe rfl
        exact hopen.elim hne (Bool.eq_false_iff.mp hold)
    · rw [hfe]
      constructor
      · rintro ht _ ⟨⟩
        have hbound := fe.getBound_mergeBound b.box
        rw [ht.found hdb hfe ((hlook _).trans (if_pos rfl))] at hbound
        obtain ⟨hne, hold⟩ := not_or.mp hclosed
        exact ⟨hne, Bool.eq_false_iff.mpr hold, hbound ▸ le_merge_right _ _⟩
      · intro hu k
        rw [hlook, mergeBound_eq_self (hu fe rfl).2.2, ← hfe, fetchBorderEntry_fst]
        split
        · rename_i hk
          subst hk
          cases hv : view.lookup (undirected b.father) with
          | some e => exact .inl rfl
          | none =>
            rw [fetchBorderEntry_fst, hv, none_or] at hfe
            exact .inr ⟨rfl, by rw [none_or, hdb _ (mem_of_lookup hfe)]⟩
        · exact .inl rfl

/-- A divided line, as the database returns it: its child is the line of latitude 4. -/
def dividedLine : BorderViewpoint :=
  singleton 2 { (levelBorder 0 1 9).toEntry with
    children := [8], bound := some ⟨9, 0, 1, 4⟩, tfModified := false }

theorem undirected_dividedLine : ∀ k ∈ dividedLine, undirected k = k := by
  intro k hk
  obtain rfl := List.mem_singleton.mp hk
  decide +kernel

/-- A border within the bound of the line. -/
theorem traceless_within :
    Traceless dividedLine ∅ (addBorder latitudeHash dividedLine ∅ (levelBorder 2 3 5)).2 := by
  refine (traceless_iff undirected_dividedLine (by decide +kernel)).mpr (.inr fun fe hfe => ?_)
  obtain rfl := Option.some_inj.mp hfe
  exact ⟨by decide, rfl, by decide⟩

/-- **The bound of a father grows for a border that it rejects.** The father has a child, with which
it came from the database. -/
theorem rejected_grows : (∀ k ∈ dividedLine, undirected k = k) ∧
    (addBorder latitudeHash dividedLine ∅ (levelBorder 2 5 5)).1 = false ∧
    ¬ Traceless dividedLine ∅ (addBorder latitudeHash dividedLine ∅ (levelBorder 2 5 5)).2 := by
  refine ⟨undirected_dividedLine, by decide +kernel, fun ht => ?_⟩
  obtain hold | ⟨-, hcached⟩ := ht 2
  · exact absurd hold (by decide +kernel)
  · exact absurd hcached (by decide +kernel)

end Zent
