import Zent.Ovm.Commit

/-!
# The commit of one contract

Caches that have been filled from the database are committed in full, and rolled back, exactly when
they are clean: a storage key that has changed does not have the name of an unchanged entry about
the contract, no old value is empty but there, nothing is pending under the empty key, and a new
contract has something to record.
-/

namespace Zent.Ovm

open Go StateDB Option List AList Bucket

/-! ## One contract -/

/-- The caches have been filled from the buckets: old values are those of the database. -/
structure StateDB.Coherent (db : Buckets) (d : StateDB) : Prop where
  fresh : d.fresh = true ↔ db.lookup d.contract = none
  data : ∀ k e, d.data.lookup k = some e → e.olddata = d.stored db k
  metas : ∀ k e, d.metas.lookup k = some e → e.olddata = d.getMeta db k
  suicided : d.suicided = true → d.data = ∅ ∧ d.metas = ∅ ∧
    ∀ b, db.lookup d.contract = some b → b.contract.get suicidedKey = none

/-- What a storage key is to hold after the commit: its pending value, nothing if this is empty. -/
def StateDB.committed (db : Buckets) (d : StateDB) (k : Key) : Option Bytes :=
  (d.data.lookup k).elim (d.stored db k) fun e => norm e.data

/-- The same for the data about the contract. -/
def StateDB.committedMeta (db : Buckets) (d : StateDB) (k : Key) : Option Bytes :=
  (d.metas.lookup k).elim (d.getMeta db k) fun e => norm e.data

/-- The contract is marked as suicided in its bucket, if it has one; nothing else changes. -/
def Marked : Option Account → Option Account → Prop
  | none, none => True
  | some b, some b' => (∀ k, b'.storage.get k = b.storage.get k) ∧
      ∀ k, b'.contract.get k = if k = suicidedKey then some [1] else b.contract.get k
  | _, _ => False

/-- All pending values are in the buckets. -/
def StateDB.Written (db : Buckets) (d : StateDB) : Option Account → Prop
  | none => False
  | some b => (∀ k, b.storage.get k = d.committed db k) ∧
      ∀ k, b.contract.get k = d.committedMeta db k

/-- The buckets `acc` hold all that is pending. For a contract that has suicided it is the mark. -/
def StateDB.Complete (db : Buckets) (d : StateDB) (acc : Option Account) : Prop :=
  if d.suicided then Marked (db.lookup d.contract) acc else d.Written db acc

/-- Buckets with the same contents. -/
def SameAccount : Option Account → Option Account → Prop
  | none, none => True
  | some b, some b' =>
    (∀ k, b'.contract.get k = b.contract.get k) ∧ ∀ k, b'.storage.get k = b.storage.get k
  | _, _ => False

/-- The commit of a contract is complete, and its record leads back. -/
def StateDB.Commits (ord : Orders) (db : Buckets) (d : StateDB) : Prop :=
  d.Complete db (d.commitAccount ord (db.lookup d.contract)).2 ∧
    if (d.commitAccount ord (db.lookup d.contract)).1.data ≠ [] ∨
        (d.commitAccount ord (db.lookup d.contract)).1.metas ≠ [] then
      Ends ((d.commitAccount ord (db.lookup d.contract)).1.undoAccount
        (d.commitAccount ord (db.lookup d.contract)).2) (SameAccount (db.lookup d.contract))
    else SameAccount (db.lookup d.contract) (d.commitAccount ord (db.lookup d.contract)).2

/-- The caches of a contract can be committed and rolled back: a storage key that has changed does
not have the name of an unchanged entry about the contract, no old value is empty but there, nothing
is pending under the empty key, and a new contract has something to record. -/
def StateDB.Clean (d : StateDB) : Prop :=
  d.suicided = true ∨
    (∀ k e m, d.data.lookup k = some e → d.metas.lookup k = some m → e.changed = true →
      m.changed = true) ∧
    (∀ k e, d.data.lookup k = some e ∨ d.metas.lookup k = some e →
      e.olddata ≠ some [] ∧ (k = [] → size e.data = 0)) ∧
    (d.fresh = true → (∃ k m, d.metas.lookup k = some m) ∨
      ∃ k e, d.data.lookup k = some e ∧ e.changed = true)

section Local

variable {ord : Orders} {db : Buckets} {d : StateDB} {w : Entry}

/-- The buckets a commit starts from. -/
def StateDB.base (db : Buckets) (d : StateDB) : Account := (db.lookup d.contract).getD ⟨∅, ∅⟩

/-- A contract that is not new has buckets. -/
theorem StateDB.Coherent.lookup_eq (hc : d.Coherent db) (hf : d.fresh = false) :
    db.lookup d.contract = some (d.base db) := by
  cases hb : db.lookup d.contract with
  | none => exact absurd (hc.fresh.mpr hb) (Bool.eq_false_iff.mp hf)
  | some b => rw [base, hb, getD_some]

/-- The entries of the storage that are written. -/
def StateDB.writes (d : StateDB) : Map Key Entry := pruneByMeta d.metas (pruneData d.data)

variable {k : Key} {sh : Shuffle ((_ : Key) × Entry)}

/-- An entry is written when it has changed, and no unchanged entry has its name. -/
theorem StateDB.lookup_writes :
    d.writes.lookup k = some w ↔ ∃ e, d.data.lookup k = some e ∧ e.changed = true ∧
      (∀ m, d.metas.lookup k = some m → m.changed = true) ∧ e.settle = w := by
  rw [writes, lookup_pruneByMeta, lookup_pruneData]
  cases d.data.lookup k with
  | none =>
    cases d.metas.lookup k with
    | none => simp
    | some m => simp
  | some e =>
    cases d.metas.lookup k with
    | none => cases hchanged : e.changed <;> simp [hchanged]
    | some m =>
      cases hchanged : e.changed <;> cases hm : m.changed <;> simp [hchanged, hm]

theorem StateDB.lookup_writes_none (h : ∀ e, d.data.lookup k = some e →
    e.changed = true → ∃ m, d.metas.lookup k = some m ∧ m.changed = false) :
    d.writes.lookup k = none := by
  cases hw : d.writes.lookup k with
  | none => rfl
  | some w =>
    obtain ⟨e, he, hchanged, hmeta, -⟩ := lookup_writes.mp hw
    obtain ⟨m, hm, hfalse⟩ := h e he hchanged
    rw [hmeta m hm] at hfalse
    cases hfalse

/-- Nothing is pending under the empty key. -/
def StateDB.Keyed (d : StateDB) : Prop :=
  ∀ e, d.data.lookup [] = some e ∨ d.metas.lookup [] = some e → size e.data = 0

/-- The storage bucket after the commit. -/
def StateDB.storageAfter (ord : Orders) (db : Buckets) (d : StateDB) : Bucket :=
  (ord.data.run d.writes.entries).foldl (fun b e => e.2.write e.1 b) (d.base db).storage

/-- The bucket about the contract after the commit. -/
def StateDB.contractAfter (ord : Orders) (db : Buckets) (d : StateDB) : Bucket :=
  (ord.metas.run (settleMeta d.metas).entries).foldl (fun b e => e.2.write e.1 b)
    (d.base db).contract

theorem lookup_settleMeta_some {metas : Map Key Entry} :
    (settleMeta metas).lookup k = some w ↔
      ∃ m, metas.lookup k = some m ∧ (if m.changed then m.settle else m) = w := by
  rw [lookup_settleMeta, map_eq_some_iff]

variable {m : Map Key Entry}

theorem lookup_of_mem_run {e : (_ : Key) × Entry} (h : e ∈ sh.run m.entries) :
    m.lookup e.1 = some e.2 :=
  mem_lookup_iff.mpr ((sh.mem_run).mp h)

variable {e : Entry}

theorem StateDB.Keyed.writes (hk : d.Keyed) (h : d.writes.lookup [] = some e) :
    size e.data = 0 := by
  obtain ⟨e', he', -, -, rfl⟩ := lookup_writes.mp h
  rw [Entry.settle_data]
  exact hk e' (.inl he')

theorem StateDB.Keyed.settled (hk : d.Keyed) (h : (settleMeta d.metas).lookup [] = some e) :
    size e.data = 0 := by
  obtain ⟨m, hm, rfl⟩ := lookup_settleMeta_some.mp h
  have hdata : (if m.changed then m.settle else m).data = m.data := by
    split
    · exact m.settle_data
    · rfl
  rw [hdata]
  exact hk m (.inr hm)

/-- **What the commit of a living contract does.** It writes the changed values of the storage, all
entries about the contract, and records what was there before. -/
theorem StateDB.commitAccount_eq (hs : d.suicided = false) (hk : d.Keyed) :
    d.commitAccount ord (db.lookup d.contract) =
      ({ newContract := d.fresh
         data := (ord.data.run d.writes.entries).map record
         metas := (ord.metas.run (settleMeta d.metas).entries).map record },
        some ⟨d.contractAfter ord db, d.storageAfter ord db⟩) := by
  have hdata := foldlM_writeEntry (l := ord.data.run d.writes.entries)
    (fun e he hnil => hk.writes (by rw [← hnil]; exact lookup_of_mem_run he)) (d.base db).storage []
  have hmetas := foldlM_writeEntry (l := ord.metas.run (settleMeta d.metas).entries)
    (fun e he hnil => hk.settled (by rw [← hnil]; exact lookup_of_mem_run he))
    (d.base db).contract []
  rw [writes, base] at hdata
  rw [base] at hmetas
  simp only [commitAccount, if_neg (Bool.eq_false_iff.mp hs), hdata, hmetas]
  rfl

theorem StateDB.get_storageAfter (hk : d.Keyed) (k : Key) :
    (d.storageAfter ord db).get k =
      (d.writes.lookup k).elim ((d.base db).storage.get k) fun e => norm e.data := by
  rw [storageAfter, get_foldl_write (ord.data.perm _) (fun e he => hk.writes he)]
  cases hw : d.writes.lookup k with
  | none => rfl
  | some w =>
    obtain ⟨e, -, hchanged, -, rfl⟩ := lookup_writes.mp hw
    simp only [elim_some, Entry.settle_changed, hchanged, if_true]

@[simp] theorem Bucket.get_nil (b : Bucket) : b.get [] = none := if_pos rfl

theorem Entry.size_settle_olddata (h : e.olddata = none) : size e.settle.olddata = 0 := by
  rw [Entry.settle, if_pos h]
  rfl

/-- A bucket from which nothing but the mark has been taken. -/
theorem get_insert_erase_suicided {b : Bucket} (h : b.get suicidedKey = none) (k : Key) :
    get ((b.insert suicidedKey [1]).erase suicidedKey) k = b.get k := by
  by_cases hk : k = suicidedKey
  · rw [hk, h, Bucket.get, lookup_erase, ite_self]
  · rw [Bucket.get, lookup_erase_ne hk, lookup_insert_ne hk, Bucket.get]

/-- A contract that has suicided is marked, and the mark is taken back. -/
theorem StateDB.commits_of_suicided (hc : d.Coherent db) (hs : d.suicided = true) :
    d.Commits ord db := by
  rw [StateDB.Commits, StateDB.Complete, if_pos hs, commitAccount.eq_def, if_pos hs]
  cases hb : db.lookup d.contract with
  | none => simp [SameAccount, Marked]
  | some b =>
    have hmark := (hc.suicided hs).2.2 b hb
    have hf : d.fresh = false := by
      rw [Bool.eq_false_iff]
      intro hf
      rw [hc.fresh.mp hf] at hb
      cases hb
    refine ⟨⟨fun _ => rfl, fun k => ?_⟩, ?_⟩
    · by_cases hk : k = suicidedKey
      · rw [hk, if_pos rfl, Bucket.get, lookup_insert]
        rfl
      · rw [if_neg hk, Bucket.get, lookup_insert_ne hk, Bucket.get]
    · simp only [hmark, hf, if_true, ne_eq, not_false_eq_true, or_true, cons_ne_nil,
        PrevInfo.undoAccount, Bool.false_eq_true, if_false]
      exact ends_ok ⟨get_insert_erase_suicided hmark, fun _ => rfl⟩

theorem entries_ne_nil_iff {ν : Type} {m : Map Key ν} :
    m.entries ≠ [] ↔ ∃ k v, m.lookup k = some v := by
  constructor
  · intro h
    obtain ⟨e, he⟩ := exists_mem_of_ne_nil _ h
    exact ⟨e.1, e.2, mem_lookup_iff.mpr he⟩
  · rintro ⟨k, v, h⟩ hnil
    have hmem := mem_lookup_iff.mp h
    rw [hnil] at hmem
    cases hmem

theorem map_run_ne_nil_iff :
    (sh.run m.entries).map record ≠ [] ↔ ∃ k e, m.lookup k = some e := by
  rw [ne_eq, map_eq_nil_iff, ← entries_ne_nil_iff, not_iff_not]
  exact ⟨fun h => perm_nil.mp (h ▸ (sh.perm m.entries).symm), fun h => by rw [h, sh.run_nil]⟩

/-- The commit of a living contract has something to record. -/
def StateDB.Records (d : StateDB) : Prop :=
  (∃ k w, d.writes.lookup k = some w) ∨ ∃ k m, d.metas.lookup k = some m

theorem StateDB.recorded_iff (hs : d.suicided = false) (hk : d.Keyed) :
    ((d.commitAccount ord (db.lookup d.contract)).1.data ≠ [] ∨
        (d.commitAccount ord (db.lookup d.contract)).1.metas ≠ []) ↔ d.Records := by
  rw [commitAccount_eq hs hk, Records]
  simp only [map_run_ne_nil_iff, lookup_settleMeta_some]
  refine or_congr_right ⟨?_, ?_⟩
  · rintro ⟨k, -, m, hm, -⟩
    exact ⟨k, m, hm⟩
  · rintro ⟨k, m, hm⟩
    exact ⟨k, _, m, hm, rfl⟩

/-- A living contract whose commit is complete has nothing pending under the empty key. -/
theorem StateDB.Commits.keyed (hs : d.suicided = false) (h : d.Commits ord db) : d.Keyed := by
  have hcomplete := h.1
  rw [StateDB.Complete, if_neg (Bool.eq_false_iff.mp hs)] at hcomplete
  cases hacc : (d.commitAccount ord (db.lookup d.contract)).2 with
  | none =>
    rw [hacc] at hcomplete
    exact hcomplete.elim
  | some b =>
    rw [hacc] at hcomplete
    intro e he
    have hnorm : norm e.data = none := by
      rcases he with he | he
      · have hnil := hcomplete.1 []
        rw [get_nil, committed, he] at hnil
        exact hnil.symm
      · have hnil := hcomplete.2 []
        rw [get_nil, committedMeta, he] at hnil
        exact hnil.symm
    by_contra hsize
    rw [norm, if_neg hsize] at hnorm
    rw [hnorm] at hsize
    exact hsize rfl

section

variable (hc : d.Coherent db) (hs : d.suicided = false)

include hc hs

/-- All reads of a contract are from the buckets of the base. -/
theorem StateDB.Coherent.read_eq (bucket : Account → Bucket)
    (hempty : bucket ⟨∅, ∅⟩ = ∅) (k : Key) :
    (if d.suicided || d.fresh then none
      else (db.lookup d.contract).bind fun b => (bucket b).get k) = (bucket (d.base db)).get k := by
  rw [hs, Bool.false_or]
  cases hf : d.fresh with
  | true =>
    rw [base, hc.fresh.mp hf, if_pos rfl, getD_none, hempty, Bucket.get, lookup_empty, ite_self]
  | false =>
    rw [hc.lookup_eq hf]
    rfl

theorem StateDB.Coherent.stored_eq (k : Key) :
    d.stored db k = (d.base db).storage.get k := hc.read_eq hs Account.storage rfl k

theorem StateDB.Coherent.getMeta_eq (k : Key) :
    d.getMeta db k = (d.base db).contract.get k := hc.read_eq hs Account.contract rfl k

/-- An old value under the empty key is none. -/
theorem StateDB.Coherent.size_olddata_nil
    (h : d.data.lookup [] = some e ∨ d.metas.lookup [] = some e) : e.olddata = none := by
  rcases h with h | h
  · rw [hc.data [] e h, hc.stored_eq hs, get_nil]
  · rw [hc.metas [] e h, hc.getMeta_eq hs, get_nil]

theorem StateDB.Coherent.size_writes_nil (h : d.writes.lookup [] = some w) :
    size w.olddata = 0 := by
  obtain ⟨e, he, -, -, rfl⟩ := lookup_writes.mp h
  exact Entry.size_settle_olddata (hc.size_olddata_nil hs (.inl he))

theorem StateDB.Coherent.size_settled_nil (h : (settleMeta d.metas).lookup [] = some w) :
    size w.olddata = 0 := by
  obtain ⟨m, hm, rfl⟩ := lookup_settleMeta_some.mp h
  have hnone := hc.size_olddata_nil hs (.inr hm)
  split
  · exact Entry.size_settle_olddata hnone
  · rw [hnone]
    rfl

variable (hk : d.Keyed)

include hk

theorem StateDB.get_contractAfter (k : Key) :
    (d.contractAfter ord db).get k = d.committedMeta db k := by
  rw [contractAfter, get_foldl_write (ord.metas.perm _) (fun e he => hk.settled he),
    lookup_settleMeta, committedMeta, ← hc.getMeta_eq hs k]
  cases hm : d.metas.lookup k with
  | none => rfl
  | some m =>
    simp only [map_some, elim_some]
    cases hchanged : m.changed with
    | true => simp [hchanged]
    | false =>
      -- what has not changed is there already, or empty
      simp only [hchanged, Bool.false_eq_true, if_false]
      by_cases hsize : size m.data = 0
      · rw [if_pos hsize, norm, if_pos hsize]
      have hsame := Entry.changed_eq_false hchanged
      have hold : norm m.olddata = m.olddata := by
        rw [norm_eq_self_iff]
        intro hempty
        rw [hempty, norm, if_neg hsize] at hsame
        rw [hsame] at hsize
        exact hsize rfl
      rw [if_neg hsize, hsame, hold, hc.metas k m hm]

/-- **The storage is complete** when no unchanged entry about the contract has the name of one that
has changed, and unchanged values are not empty but there. -/
theorem StateDB.storage_complete_iff (ord : Orders) :
    (∀ k, (d.storageAfter ord db).get k = d.committed db k) ↔
      ∀ k e, d.data.lookup k = some e →
        (e.changed = true → ∀ m, d.metas.lookup k = some m → m.changed = true) ∧
        (e.changed = false → e.olddata ≠ some []) := by
  refine forall_congr' fun k => ?_
  rw [get_storageAfter hk, committed, ← hc.stored_eq hs k]
  cases he : d.data.lookup k with
  | none =>
    rw [lookup_writes_none fun e he' => by rw [he] at he'; cases he']
    simp
  | some e =>
    simp only [elim_some, some.injEq, forall_eq']
    rw [← hc.data k e he]
    cases hchanged : e.changed with
    | false =>
      rw [lookup_writes_none fun e' he' hchanged' => by
        rw [he] at he'
        cases he'
        rw [hchanged] at hchanged'
        cases hchanged']
      rw [elim_none, Entry.changed_eq_false hchanged, eq_comm, norm_eq_self_iff]
      simp
    | true =>
      by_cases hmeta : ∀ m, d.metas.lookup k = some m → m.changed = true
      · rw [lookup_writes.mpr ⟨e, he, hchanged, hmeta, rfl⟩]
        simpa using hmeta
      have hnot : e.olddata ≠ norm e.data := by
        intro hsame
        have hbytes := congrArg (fun v => getD v []) hsame
        rw [getD_norm] at hbytes
        rw [Entry.changed, hbytes] at hchanged
        simp at hchanged
      have hnone : d.writes.lookup k = none := by
        refine lookup_writes_none fun _ _ _ => ?_
        by_contra hnone
        refine hmeta fun m hm => ?_
        by_contra hm'
        exact hnone ⟨m, hm, Bool.eq_false_iff.mpr hm'⟩
      rw [hnone, elim_none]
      exact iff_of_false hnot fun h => hmeta (h.1 rfl)

/-- **The record of a contract that is not new leads back** when no old value is empty but there. -/
theorem StateDB.undo_iff (hf : d.fresh = false) :
    Ends ((d.commitAccount ord (db.lookup d.contract)).1.undoAccount
        (d.commitAccount ord (db.lookup d.contract)).2) (SameAccount (db.lookup d.contract)) ↔
      (∀ k m, d.metas.lookup k = some m → m.olddata ≠ some []) ∧
        ∀ k w, d.writes.lookup k = some w → norm w.olddata = (d.base db).storage.get k := by
  have hmetas := foldlM_undoEntry (l := ord.metas.run (settleMeta d.metas).entries)
    (fun e he hnil => hc.size_settled_nil hs (by rw [← hnil]; exact lookup_of_mem_run he))
    (d.contractAfter ord db)
  have hdata := foldlM_undoEntry (l := ord.data.run d.writes.entries)
    (fun e he hnil => hc.size_writes_nil hs (by rw [← hnil]; exact lookup_of_mem_run he))
    (d.storageAfter ord db)
  have hgetMetas := get_foldl_undo (ord.metas.perm (settleMeta d.metas).entries)
    (fun e he => hc.size_settled_nil hs he) (d.contractAfter ord db)
  have hgetData := get_foldl_undo (ord.data.perm d.writes.entries)
    (fun e he => hc.size_writes_nil hs he) (d.storageAfter ord db)
  rw [commitAccount_eq hs hk]
  simp only [PrevInfo.undoAccount, hf, Bool.false_eq_true, if_false, hmetas, hdata, ok_bind]
  rw [hc.lookup_eq hf]
  rw [ends_pure_iff, SameAccount]
  refine and_congr (forall_congr' fun k => ?_) (forall_congr' fun k => ?_)
  · rw [hgetMetas k, lookup_settleMeta, get_contractAfter hc hs hk, committedMeta,
      hc.getMeta_eq hs k]
    cases hm : d.metas.lookup k with
    | none => simp
    | some m =>
      have hold : norm (if m.changed then m.settle else m).olddata = norm m.olddata := by
        split
        · exact m.norm_settle
        · rfl
      simp only [map_some, elim_some, some.injEq, forall_eq', hold]
      rw [← hc.getMeta_eq hs k, ← hc.metas k m hm]
      exact norm_eq_self_iff
  · rw [hgetData k, get_storageAfter hk]
    cases d.writes.lookup k with
    | none => simp
    | some w => simp

theorem StateDB.complete_iff :
    d.Complete db (d.commitAccount ord (db.lookup d.contract)).2 ↔
      ∀ k e, d.data.lookup k = some e →
        (e.changed = true → ∀ m, d.metas.lookup k = some m → m.changed = true) ∧
        (e.changed = false → e.olddata ≠ some []) := by
  rw [commitAccount_eq hs hk, StateDB.Complete, if_neg (Bool.eq_false_iff.mp hs),
    ← storage_complete_iff hc hs hk ord]
  exact and_iff_left fun k => get_contractAfter hc hs hk k

/-- Without records, a contract that is not new is as before. -/
theorem StateDB.same_of_unrecorded (hf : d.fresh = false) (hnone : ¬d.Records) :
    SameAccount (db.lookup d.contract) (d.commitAccount ord (db.lookup d.contract)).2 := by
  rw [commitAccount_eq hs hk, hc.lookup_eq hf]
  refine ⟨fun k => ?_, fun k => ?_⟩
  · have hm : d.metas.lookup k = none := by
      rw [eq_none_iff_forall_ne_some]
      exact fun m hm => hnone (.inr ⟨k, m, hm⟩)
    rw [get_contractAfter hc hs hk, committedMeta, hm, elim_none, hc.getMeta_eq hs]
  · have hw : d.writes.lookup k = none := by
      rw [eq_none_iff_forall_ne_some]
      exact fun w hw => hnone (.inl ⟨k, w, hw⟩)
    rw [get_storageAfter hk, hw, elim_none]

/-- Where the record leads back, no old value is empty but there. -/
theorem StateDB.olddata_ne_of_commits (h : d.Commits ord db)
    (he : d.data.lookup k = some e ∨ d.metas.lookup k = some e) : e.olddata ≠ some [] := by
  have hcomplete := (complete_iff hc hs hk).mp h.1
  cases hf : d.fresh with
  | true =>
    -- a new contract has no old values
    have hnone : e.olddata = none := by
      rcases he with he | he
      · rw [hc.data k e he, stored, hf, Bool.or_true, if_pos rfl]
      · rw [hc.metas k e he, getMeta, hf, Bool.or_true, if_pos rfl]
    rw [hnone]
    simp
  | false =>
    have hundo : d.Records →
        (∀ k m, d.metas.lookup k = some m → m.olddata ≠ some []) ∧
          ∀ k w, d.writes.lookup k = some w → norm w.olddata = (d.base db).storage.get k := by
      intro hrecorded
      have hback := h.2
      rw [if_pos ((recorded_iff hs hk).mpr hrecorded)] at hback
      exact (undo_iff hc hs hk hf).mp hback
    rcases he with he | he
    · cases hchanged : e.changed with
      | false => exact (hcomplete k e he).2 hchanged
      | true =>
        have hw := lookup_writes.mpr ⟨e, he, hchanged, (hcomplete k e he).1 hchanged, rfl⟩
        have hback := (hundo (.inl ⟨k, _, hw⟩)).2 k _ hw
        rw [Entry.norm_settle, ← hc.stored_eq hs, ← hc.data k e he] at hback
        exact norm_eq_self_iff.mp hback
    · exact (hundo (.inr ⟨k, e, he⟩)).1 k e he

end

/-- **One contract is committed in full, and its record leads back,** exactly when its caches are
clean. They must have been filled from the database that they are written to. -/
theorem StateDB.commits_iff (hc : d.Coherent db) : d.Commits ord db ↔ d.Clean := by
  cases hs : d.suicided with
  | true => exact iff_of_true (commits_of_suicided hc hs) (.inl hs)
  | false =>
    constructor
    · intro h
      have hk := h.keyed hs
      have hcomplete := (complete_iff hc hs hk).mp h.1
      refine .inr ⟨fun k e m he hm hchanged => (hcomplete k e he).1 hchanged m hm,
        fun k e he => ⟨?_, fun hnil => hk e (hnil ▸ he)⟩, fun hf => ?_⟩
      · exact olddata_ne_of_commits hc hs hk h he
      · by_contra hnone
        have hun : ¬d.Records := by
          rintro (⟨k, w, hw⟩ | hm)
          · obtain ⟨e, he, hchanged, -⟩ := lookup_writes.mp hw
            exact hnone (.inr ⟨k, e, he, hchanged⟩)
          · exact hnone (.inl hm)
        have hsame := h.2
        rw [if_neg (mt (recorded_iff hs hk).mp hun), hc.fresh.mp hf,
          ← hc.fresh.mp hf, commitAccount_eq hs hk, hc.fresh.mp hf] at hsame
        exact hsame
    · rintro (hs' | ⟨huntangled, hentries, hnew⟩)
      · rw [hs] at hs'
        cases hs'
      · have hk : d.Keyed := fun e he => (hentries [] e he).2 rfl
        refine ⟨(complete_iff hc hs hk).mpr fun k e he =>
          ⟨fun hchanged m hm => huntangled k e m he hm hchanged,
            fun _ => (hentries k e (.inl he)).1⟩, ?_⟩
        cases hf : d.fresh with
        | true =>
          have hrecorded : d.Records := by
            rcases hnew hf with hm | ⟨k, e, he, hchanged⟩
            · exact .inr hm
            · exact .inl ⟨k, _, lookup_writes.mpr
                ⟨e, he, hchanged, fun m hm => huntangled k e m he hm hchanged, rfl⟩⟩
          rw [if_pos ((recorded_iff hs hk).mpr hrecorded), commitAccount_eq hs hk,
            PrevInfo.undoAccount, if_pos hf, hc.fresh.mp hf]
          exact ends_ok trivial
        | false =>
          by_cases hrecorded : d.Records
          · rw [if_pos ((recorded_iff hs hk).mpr hrecorded), undo_iff hc hs hk hf]
            refine ⟨fun k m hm => (hentries k m (.inr hm)).1, fun k w hw => ?_⟩
            obtain ⟨e, he, -, -, rfl⟩ := lookup_writes.mp hw
            rw [Entry.norm_settle, norm_eq_self_iff.mpr (hentries k e (.inl he)).1,
              hc.data k e he, hc.stored_eq hs]
          · rw [if_neg (mt (recorded_iff hs hk).mp hrecorded)]
            exact same_of_unrecorded hc hs hk hf hrecorded

end Local

end Zent.Ovm
