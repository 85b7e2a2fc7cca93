import Zent.Blockchain.SpendJournal
import Zent.Viewpoint.Border

/-!
# Writing a view to the database

`DbPutViews` writes the four parts of a view, each in a loop over its map: an entry that has been
modified is deleted from the bucket if it is marked as deleted, and stored otherwise. The loop over
the borders returns after the first deletion.
-/

namespace Zent.Viewpoint

open Go BorderEntry List

/-! ## Entries -/

structure PolygonEntry where
  loops : List (List Hash)
  bound : BoundingBox
  firstCW : Bool
  depth : UInt8
  /-- `TfModified` -/
  tfModified : Bool
  /-- `TfSpent` -/
  tfSpent : Bool
  deriving DecidableEq, Repr

structure RightEntry where
  father : Hash
  root : Hash
  depth : Int32
  desc : Bytes
  attrib : UInt8
  deriving DecidableEq, Repr

/-- What the view of rights holds: `RightEntry` or `RightSetEntry`. -/
inductive RightItem where
  | right (e : RightEntry)
  | rightSet (rights : List Hash)
  deriving DecidableEq, Repr

/-- An entry of the view of rights, with its flags. -/
structure RightViewEntry where
  item : RightItem
  /-- `TfModified` -/
  tfModified : Bool
  /-- `TfSpent` -/
  tfSpent : Bool
  deriving DecidableEq, Repr

abbrev PolygonViewpoint : Type := Map Hash PolygonEntry

abbrev RightViewpoint : Type := Map Hash RightViewEntry

/-- The parts of a view. A nil entry is left out. -/
structure ViewPointSet where
  utxo : UtxoViewpoint
  border : BorderViewpoint
  polygon : PolygonViewpoint
  rights : RightViewpoint

/-- The buckets, with their entries as they are read back. -/
structure Buckets where
  utxo : UtxoViewpoint
  /-- the index of monitors, in the bucket of the outputs under keys of another length -/
  monitors : Map Bytes OutPoint
  border : BorderViewpoint
  polygon : PolygonViewpoint
  rights : RightViewpoint

/-! ## What is read back -/

/-- `serializeBorderEntry` adds the change of the references to the count; neither flags nor
`newchildren` are stored. -/
def storedBorder (e : BorderEntry) : BorderEntry :=
  { e with
    refCnt := e.refCnt + e.refChg
    refChg := 0
    newchildren := false
    tfModified := false
    tfSpent := false }

def PolygonEntry.stored (e : PolygonEntry) : PolygonEntry :=
  { e with tfModified := false, tfSpent := false }

def RightViewEntry.stored (e : RightViewEntry) : RightViewEntry :=
  { e with tfModified := false, tfSpent := false }

/-- `SerializeUtxoEntry` reads the amount as the token type says, and the rights of a type that has
them. -/
def serializable (e : UtxoEntry) : Bool :=
  (match e.amount with
    | some (.numToken _) => e.tokenType &&& 1 == 0
    | some (.hashToken _) => e.tokenType &&& 1 != 0
    | none => false) &&
    (e.tokenType &&& 2 != 2 || e.rights.isSome)

/-! ## Loops that visit every entry -/

section Put

variable {κ ν : Type} [DecidableEq κ] (modified deleted : ν → Bool) (stored : ν → ν)

/-- One entry of a view. -/
def put (db : Map κ ν) (e : (_ : κ) × ν) : Map κ ν :=
  if !modified e.2 then db else if deleted e.2 then db.erase e.1 else db.insert e.1 (stored e.2)

/-- What the entry of a view leaves where `old` was. -/
def overlay (e : Option ν) (old : Option ν) : Option ν :=
  match e with
  | none => old
  | some e => if !modified e then old else if deleted e then none else some (stored e)

theorem lookup_put (db : Map κ ν) (e : (_ : κ) × ν) (k : κ) :
    (put modified deleted stored db e).lookup k =
      if k = e.1 then overlay modified deleted stored (some e.2) (db.lookup k)
      else db.lookup k := by
  simp only [put, overlay, apply_ite (AList.lookup k), lookup_erase_ite, lookup_insert_ite]
  split_ifs <;> rfl

/-- **A loop over all entries** leaves the view laid over the old contents, in every order. -/
theorem lookup_foldl_put {l : List ((_ : κ) × ν)} {view : Map κ ν} (hl : l.Perm view.entries)
    (db : Map κ ν) (k : κ) :
    (l.foldl (put modified deleted stored) db).lookup k =
      overlay modified deleted stored (view.lookup k) (db.lookup k) := by
  rw [lookup_foldl_perm (g := fun _ e old => overlay modified deleted stored (some e) old)
    (lookup_put modified deleted stored) hl db k]
  cases view.lookup k with
  | none => rfl
  | some e => rfl

end Put

/-- One output of `DbPutUtxoView`. -/
def putUtxoEntry (db : Buckets) (p : (_ : OutPoint) × UtxoEntry) : Result Buckets :=
  if !p.2.isModified then .ok db
  else if p.2.isSpent then
    .ok { db with
      utxo := db.utxo.erase p.1
      monitors := if p.2.isMonitoring then db.monitors.erase p.2.monitor else db.monitors }
  else if !serializable p.2 then crash
  else
    .ok { db with
      utxo := db.utxo.insert p.1 p.2.stored
      monitors := if p.2.isMonitoring then db.monitors.insert p.2.monitor p.1 else db.monitors }

/-- The orders in which the maps of a view are ranged over. -/
structure Orders where
  utxo : Shuffle ((_ : OutPoint) × UtxoEntry)
  polygon : Shuffle ((_ : Hash) × PolygonEntry)
  border : Shuffle ((_ : Hash) × BorderEntry)
  rights : Shuffle ((_ : Hash) × RightViewEntry)

variable (ord : Orders) (db : Buckets)

def dbPutUtxoView (view : UtxoViewpoint) : Result Buckets :=
  (ord.utxo.run view.entries).foldlM putUtxoEntry db

def dbPutPolygonView (view : PolygonViewpoint) : Buckets :=
  { db with
    polygon := (ord.polygon.run view.entries).foldl
      (put PolygonEntry.tfModified PolygonEntry.tfSpent PolygonEntry.stored) db.polygon }

def dbPutRightView (view : RightViewpoint) : Buckets :=
  { db with
    rights := (ord.rights.run view.entries).foldl
      (put RightViewEntry.tfModified RightViewEntry.tfSpent RightViewEntry.stored) db.rights }

/-! ## The loop over the borders -/

/-- The loop of `DbPutBorderView`, over the bucket and the view: what has been written is not
modified any more. After a deletion the loop is left. -/
def dbPutBorders : List ((_ : Hash) × BorderEntry) → BorderViewpoint × BorderViewpoint →
    BorderViewpoint × BorderViewpoint
  | [], s => s
  | e :: rest, (db, view) =>
    if !e.2.isModified then dbPutBorders rest (db, view)
    else if e.2.toDelete then
      (db.erase e.1, view.insert e.1 { e.2 with tfModified := false })
    else
      dbPutBorders rest (db.insert e.1 (storedBorder e.2), view.insert e.1
        { e.2 with
          refCnt := e.2.refCnt + e.2.refChg
          refChg := 0
          tfModified := false })

def dbPutBorderView (view : BorderViewpoint) :
    Buckets × BorderViewpoint :=
  let (border, view) := dbPutBorders (ord.border.run view.entries) (db.border, view)
  ({ db with border := border }, view)

/-- `DbPutViews`. The errors of the first three parts are dropped; a panic is not. -/
def dbPutViews (view : ViewPointSet) :
    Result (Buckets × ViewPointSet) := do
  let db ← dbPutUtxoView ord db view.utxo
  let db := dbPutPolygonView ord db view.polygon
  let (db, border) := dbPutBorderView ord db view.border
  return (dbPutRightView ord db view.rights, { view with border := border })

/-! ## Completeness -/

/-- The view laid over the old database, in each of the four stores. -/
structure Flushed (view : ViewPointSet) (db db' : Buckets) : Prop where
  utxo : ∀ o, db'.utxo.lookup o =
    overlay UtxoEntry.isModified UtxoEntry.isSpent UtxoEntry.stored (view.utxo.lookup o)
      (db.utxo.lookup o)
  polygon : ∀ h, db'.polygon.lookup h =
    overlay PolygonEntry.tfModified PolygonEntry.tfSpent PolygonEntry.stored
      (view.polygon.lookup h) (db.polygon.lookup h)
  border : ∀ h, db'.border.lookup h =
    overlay isModified toDelete storedBorder (view.border.lookup h)
      (db.border.lookup h)
  rights : ∀ h, db'.rights.lookup h =
    overlay RightViewEntry.tfModified RightViewEntry.tfSpent RightViewEntry.stored
      (view.rights.lookup h) (db.rights.lookup h)

/-- The outputs that are to be stored can be serialized. -/
def Serializable (view : UtxoViewpoint) : Prop :=
  ∀ o e, view.lookup o = some e → e.isModified = true → e.isSpent = false → serializable e = true

/-- Besides a border that is to be deleted, nothing is to be written: the database has all other
borders as they are to be stored. -/
def BordersSettled (view db : BorderViewpoint) : Prop :=
  ∀ d e, view.lookup d = some e → e.isModified = true → e.toDelete = true →
    ∀ k, k ≠ d → db.lookup k =
      overlay isModified toDelete storedBorder (view.lookup k) (db.lookup k)

/-! ### Outputs -/

variable {p : (_ : OutPoint) × UtxoEntry}

/-- The outputs after one entry are those of the plain loop. -/
theorem putUtxoEntry_ok {db db' : Buckets} (h : putUtxoEntry db p = .ok db') :
    db'.utxo = put UtxoEntry.isModified UtxoEntry.isSpent UtxoEntry.stored db.utxo p ∧
      db'.polygon = db.polygon ∧ db'.border = db.border ∧ db'.rights = db.rights ∧
      (p.2.isModified = true → p.2.isSpent = false → serializable p.2 = true) := by
  rw [putUtxoEntry] at h
  rw [put]
  split at h
  · rename_i hm
    cases h
    exact ⟨(if_pos hm).symm, rfl, rfl, rfl, fun hmod => by simp [hmod] at hm⟩
  rename_i hm
  rw [if_neg hm]
  split at h
  · rename_i hs
    cases h
    exact ⟨(if_pos hs).symm, rfl, rfl, rfl, fun _ hspent => by simp [hspent] at hs⟩
  rename_i hs
  rw [if_neg hs]
  split at h
  · cases h
  · rename_i hser
    cases h
    exact ⟨rfl, rfl, rfl, rfl, fun _ _ => by simpa using hser⟩

theorem putUtxoEntry_ends (db : Buckets)
    (h : p.2.isModified = true → p.2.isSpent = false → serializable p.2 = true) :
    ∃ db', putUtxoEntry db p = .ok db' := by
  rw [putUtxoEntry]
  split
  · exact ⟨_, rfl⟩
  rename_i hm
  split
  · exact ⟨_, rfl⟩
  · rename_i hs
    rw [if_neg (by simp [h (by simpa using hm) (by simpa using hs)])]
    exact ⟨_, rfl⟩

variable {l : List ((_ : OutPoint) × UtxoEntry)}

/-- The loop over the outputs has visited every entry. -/
theorem putUtxos_ok {db db' : Buckets} (h : l.foldlM putUtxoEntry db = .ok db') :
    db'.utxo = l.foldl (put UtxoEntry.isModified UtxoEntry.isSpent UtxoEntry.stored) db.utxo ∧
      db'.polygon = db.polygon ∧ db'.border = db.border ∧ db'.rights = db.rights ∧
      ∀ p ∈ l, p.2.isModified = true → p.2.isSpent = false → serializable p.2 = true := by
  induction l generalizing db with
  | nil =>
    cases h
    exact ⟨rfl, rfl, rfl, rfl, nofun⟩
  | cons p l ih =>
    obtain ⟨db₁, hstep, hrun⟩ := of_bind h
    obtain ⟨hutxo, hpolygon, hborder, hrights, hser⟩ := putUtxoEntry_ok hstep
    rw [forall_mem_cons, foldl_cons, ← hutxo, ← hpolygon, ← hborder, ← hrights]
    obtain ⟨hutxo', hpolygon', hborder', hrights', hser'⟩ := ih hrun
    exact ⟨hutxo', hpolygon', hborder', hrights', hser, hser'⟩

theorem putUtxos_ends (db : Buckets)
    (h : ∀ p ∈ l, p.2.isModified = true → p.2.isSpent = false → serializable p.2 = true) :
    ∃ db', l.foldlM putUtxoEntry db = .ok db' := by
  obtain ⟨db', hrun, -⟩ := ends_foldlM (P := fun _ => True) (s := db) trivial
    fun db p hp _ => (putUtxoEntry_ends db (h p hp)).imp fun _ hdb => ⟨hdb, trivial⟩
  exact ⟨db', hrun⟩

/-! ### Borders -/

/-- The entries that the loop over the borders visits: up to the first deletion. -/
def visited : List ((_ : Hash) × BorderEntry) → List ((_ : Hash) × BorderEntry)
  | [] => []
  | e :: rest => if e.2.isModified && e.2.toDelete then [e] else e :: visited rest

theorem dbPutBorders_eq (l : List ((_ : Hash) × BorderEntry))
    (s : BorderViewpoint × BorderViewpoint) :
    (dbPutBorders l s).1 =
      (visited l).foldl (put isModified toDelete storedBorder) s.1 := by
  induction l generalizing s with
  | nil => rfl
  | cons e l ih =>
    obtain ⟨db, view⟩ := s
    rw [dbPutBorders, visited]
    cases hm : e.2.isModified with
    | false =>
      rw [Bool.false_and, if_neg Bool.false_ne_true, foldl_cons, put, hm]
      exact ih (db, view)
    | true =>
      cases hd : e.2.toDelete with
      | true => simp [put, hm, hd]
      | false => simp [put, hm, hd, ih]

theorem visited_sublist : ∀ l, (visited l).Sublist l
  | [] => List.Sublist.refl []
  | e :: l => by
    rw [visited]
    split
    · exact (nil_sublist l).cons_cons e
    · exact (visited_sublist l).cons_cons e

/-- All entries are visited, or one that is deleted. -/
theorem visited_cases : ∀ l, visited l = l ∨
    ∃ e ∈ visited l, e.2.isModified = true ∧ e.2.toDelete = true
  | [] => .inl rfl
  | e :: l => by
    rw [visited]
    split
    · rename_i h
      rw [Bool.and_eq_true] at h
      exact .inr ⟨e, mem_singleton.mpr rfl, h⟩
    · obtain hall | ⟨d, hd, hdel⟩ := visited_cases l
      · exact .inl (congrArg (e :: ·) hall)
      · exact .inr ⟨d, mem_cons_of_mem e hd, hdel⟩

section Borders

variable {view db : BorderViewpoint}

/-- The borders that are visited, as a map. -/
def visitedMap (ord : Orders) (view : BorderViewpoint) : BorderViewpoint where
  entries := visited (ord.border.run view.entries)
  nodupKeys := (((visited_sublist _).map Sigma.fst).nodup
    ((perm_nodupKeys (ord.border.perm _)).mpr view.nodupKeys))

theorem lookup_dbPutBorders (ord : Orders) (h : Hash) :
    (dbPutBorders (ord.border.run view.entries) (db, view)).1.lookup h =
      overlay isModified toDelete storedBorder
        ((visitedMap ord view).lookup h) (db.lookup h) := by
  have hentries : (visited (ord.border.run view.entries)).Perm (visitedMap ord view).entries :=
    List.Perm.refl _
  rw [dbPutBorders_eq, lookup_foldl_put _ _ _ hentries]

theorem lookup_visitedMap {ord : Orders} {h : Hash} {e : BorderEntry}
    (hv : (visitedMap ord view).lookup h = some e) : view.lookup h = some e :=
  AList.mem_lookup_iff.mpr ((ord.border.mem_run).mp
    ((visited_sublist _).subset (AList.mem_lookup_iff.mp hv)))

/-- **The borders are written in every order** exactly if there is nothing else to write besides a
deletion. -/
theorem borders_flushed_iff :
    (∀ ord : Orders, ∀ h, (dbPutBorders (ord.border.run view.entries) (db, view)).1.lookup h =
        overlay isModified toDelete storedBorder (view.lookup h)
          (db.lookup h)) ↔
      BordersSettled view db := by
  constructor
  · intro hall d e hd hmod hdel k hk
    -- the order that comes to the deletion first
    have hperm : (⟨d, e⟩ :: (view.erase d).entries).Perm view.entries :=
      (entries_perm_erase hd).symm
    have hfirst := hall ⟨.stored, .stored, .moving hperm, .stored⟩ k
    rw [← hfirst, Shuffle.moving_run, dbPutBorders, hmod, hdel]
    exact (AList.lookup_erase_ne hk).symm
  · intro hsettled ord h
    rw [lookup_dbPutBorders]
    cases hv : (visitedMap ord view).lookup h with
    | some e => rw [lookup_visitedMap hv]
    | none =>
      obtain hall | ⟨⟨d, e⟩, hd, hmod, hdel⟩ := visited_cases (ord.border.run view.entries)
      · have hnone : view.lookup h = none := by
          rw [AList.lookup_eq_none, AList.mem_keys] at hv ⊢
          intro hmem
          have hkeys : (visitedMap ord view).keys = (ord.border.run view.entries).keys :=
            congrArg keys hall
          rw [hkeys] at hv
          exact hv (((ord.border.perm view.entries).map Sigma.fst).mem_iff.mpr hmem)
        rw [hnone]
      · have hfound : (visitedMap ord view).lookup d = some e := AList.mem_lookup_iff.mpr hd
        exact hsettled d e (lookup_visitedMap hfound) hmod hdel h (ne_of_lookup hfound hv).symm

end Borders

/-! ### All stores -/

/-- **Writing a view is complete.** In every order of the loops the database has the view laid over
its old contents exactly if the outputs can be serialized and there is no border to be written
besides one that is deleted. -/
theorem flushed_iff (view : ViewPointSet) (db : Buckets) :
    (∀ ord, Ends (dbPutViews ord db view) fun r => Flushed view db r.1) ↔
      Serializable view.utxo ∧ BordersSettled view.border db.border := by
  -- one order: the loop over the outputs ends, and the borders are written
  have hone : ∀ ord, Ends (dbPutViews ord db view) (fun r => Flushed view db r.1) ↔
      Serializable view.utxo ∧
        ∀ h,
          (dbPutBorders (ord.border.run view.border.entries) (db.border, view.border)).1.lookup h =
          overlay isModified toDelete storedBorder (view.border.lookup h)
            (db.border.lookup h) := by
    intro ord
    constructor
    · rintro ⟨r, hrun, hflushed⟩
      obtain ⟨db₁, hloop, hrun⟩ := of_bind hrun
      obtain ⟨-, -, hborder, -, hser⟩ := putUtxos_ok hloop
      cases hrun
      have hwritten := hflushed.border
      simp only [dbPutRightView, dbPutPolygonView, hborder] at hwritten
      refine ⟨fun o e he => ?_, hwritten⟩
      exact hser ⟨o, e⟩ ((ord.utxo.mem_run).mpr (AList.mem_lookup_iff.mp he))
    · rintro ⟨hser, hwritten⟩
      obtain ⟨db₁, hloop⟩ := putUtxos_ends db fun p hp =>
        hser p.1 p.2 (AList.mem_lookup_iff.mpr ((ord.utxo.mem_run).mp hp))
      obtain ⟨hutxo, hpolygon, hborder, hrights, -⟩ := putUtxos_ok hloop
      rw [dbPutViews, dbPutUtxoView, hloop, ok_bind]
      refine ends_ok ⟨fun o => ?_, fun h => ?_, ?_, fun h => ?_⟩
      · rw [← lookup_foldl_put _ _ _ (ord.utxo.perm _), ← hutxo]
        rfl
      · rw [← lookup_foldl_put _ _ _ (ord.polygon.perm _), ← hpolygon]
        rfl
      · simp only [dbPutRightView, dbPutPolygonView, hborder]
        exact hwritten
      · rw [← lookup_foldl_put _ _ _ (ord.rights.perm _), ← hrights]
        rfl
  rw [forall_congr' hone, forall_and, borders_flushed_iff]
  exact and_congr_left fun _ => ⟨fun h => h ⟨.stored, .stored, .stored, .stored⟩, fun h _ => h⟩

/-- A root border without children. -/
def plainBorder (modified deleted : Bool) : BorderEntry where
  father := zerohash
  begin_ := ⟨0, 0, 0⟩
  end_ := ⟨0, 1, 0⟩
  children := []
  bound := none
  newchildren := false
  refCnt := 0
  refChg := 0
  tfModified := modified
  tfSpent := deleted

/-- One border has been removed, and another one added. -/
def sampleView : ViewPointSet where
  utxo := ∅
  border :=
    ((∅ : BorderViewpoint).insert 4 (plainBorder true false)).insert 2 (plainBorder true true)
  polygon := ∅
  rights := ∅

def sampleBuckets : Buckets where
  utxo := ∅
  monitors := ∅
  border := (∅ : BorderViewpoint).insert 2 (plainBorder false false)
  polygon := ∅
  rights := ∅

/-- **A border that is added is lost when another one is deleted before it.** -/
theorem dbPutViews_loses_border :
    ∃ r, dbPutViews ⟨.stored, .stored, .stored, .stored⟩ sampleBuckets sampleView = .ok r ∧
      r.1.border.lookup 4 = none ∧ r.1.border.lookup 2 = none ∧
      sampleView.border.lookup 4 = some (plainBorder true false) ∧
      ¬Flushed sampleView sampleBuckets r.1 := by
  refine exists_end (Q := fun r => r.1.border.lookup 4 = none ∧ r.1.border.lookup 2 = none)
    (by decide +kernel) fun r _ h => ⟨h.1, h.2, by decide +kernel, fun hflushed => ?_⟩
  exact absurd ((hflushed.border 4).symm.trans h.1) (by decide)

end Zent.Viewpoint
