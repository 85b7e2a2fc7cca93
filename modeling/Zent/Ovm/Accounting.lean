import Mathlib.Algebra.Order.BigOperators.Group.Finset
import Zent.Go.Returns
import Zent.Ovm.StateDB

/-!
# Accounting for storage

The bytes that a contract stores are counted in its usage, and its quota is to be at least its
usage. Both are kept up to date by every operation on the storage. They come out right as long as
each `SetState` is careful: the key is in the cache if it holds anything, and the new usage is above
the quota in the database or within the pending one.
-/

namespace Zent.Ovm.StateDB

open Go UInt32 Option AList Finset

variable {db : Buckets} {d : StateDB}

/-! ## The bytes of all pending values -/

/-- The storage keys in the database. -/
def storedKeys (db : Buckets) (d : StateDB) : Finset Key :=
  if d.suicided || d.fresh then ∅
  else (db.lookup d.contract).elim ∅ fun b => b.storage.keys.toFinset

/-- The storage keys that may hold a value. -/
def keys (db : Buckets) (d : StateDB) : Finset Key := d.data.keys.toFinset ∪ d.storedKeys db

/-- The total byte length of the pending values. -/
def total (db : Buckets) (d : StateDB) : Nat := ∑ k ∈ d.keys db, size (d.pending db k)

theorem stored_eq_none {k : Key} (h : k ∉ d.storedKeys db) : d.stored db k = none := by
  rw [stored]
  split
  · rfl
  rename_i hlive
  rw [storedKeys, if_neg hlive] at h
  cases hb : db.lookup d.contract with
  | none => rfl
  | some b =>
    rw [hb, elim_some, List.mem_toFinset, ← mem_keys] at h
    rw [bind_some, Bucket.get, lookup_eq_none.mpr h, ite_self]

theorem pending_eq_none {k : Key} (h : k ∉ d.keys db) : d.pending db k = none := by
  rw [keys, Finset.mem_union, not_or, List.mem_toFinset, ← mem_keys] at h
  rw [pending, lookup_eq_none.mpr h.1]
  exact stored_eq_none h.2

theorem total_eq_sum {s : Finset Key} (h : d.keys db ⊆ s) :
    d.total db = ∑ k ∈ s, size (d.pending db k) := by
  refine sum_subset h fun k _ hk => ?_
  rw [pending_eq_none hk]
  rfl

/-- **A change of one value** changes the total by the difference of its lengths. -/
theorem total_update (d d' : StateDB) (key : Key)
    (h : ∀ k, k ≠ key → d'.pending db k = d.pending db k) :
    d'.total db + size (d.pending db key) = d.total db + size (d'.pending db key) := by
  have hkey : key ∈ insert key (d.keys db ∪ d'.keys db) := mem_insert_self ..
  have hsub : d.keys db ∪ d'.keys db ⊆ insert key (d.keys db ∪ d'.keys db) :=
    subset_insert ..
  rw [total_eq_sum (union_subset_left hsub), total_eq_sum (union_subset_right hsub),
    ← add_sum_erase _ _ hkey, ← add_sum_erase _ (fun k => size (d.pending db k)) hkey]
  have hrest : ∑ k ∈ (insert key (d.keys db ∪ d'.keys db)).erase key, size (d'.pending db k) =
      ∑ k ∈ (insert key (d.keys db ∪ d'.keys db)).erase key, size (d.pending db k) := by
    refine sum_congr rfl fun k hk => ?_
    rw [h k (ne_of_mem_erase hk)]
  omega

theorem size_pending_le_total (k : Key) : size (d.pending db k) ≤ d.total db := by
  by_cases hk : k ∈ d.keys db
  · exact single_le_sum (f := fun k => size (d.pending db k)) (fun _ _ => Nat.zero_le _) hk
  · rw [pending_eq_none hk]
    exact Nat.zero_le _

/-! ## The counters -/

/-- A pending number among the data about the contract; nothing counts as zero. -/
def pendingWord (db : Buckets) (d : StateDB) (key : Key) : Comp UInt32 :=
  match d.metas.lookup key with
  | some e => littleEndianUint32 (e.data.getD [])
  | none =>
    match d.getMeta db key with
    | none => .ok 0
    | some m => littleEndianUint32 m

variable (db d) in
theorem pendingWord_insert (key : Key) (e : Entry) (key' : Key) :
    pendingWord db { d with metas := d.metas.insert key e } key' =
      if key' = key then littleEndianUint32 (e.data.getD []) else d.pendingWord db key' := by
  by_cases hk : key' = key
  · simp only [pendingWord, lookup_insert_ite, if_pos hk]
  · simp only [pendingWord, lookup_insert_ite, if_neg hk]
    rfl

theorem getUsage_spec {q : UInt32} (h : d.pendingWord db usageKey = .ok q) :
    ∃ metas, d.getUsage db = .ok (q, { d with metas := metas }) ∧
      ∀ key, pendingWord db { d with metas := metas } key = d.pendingWord db key := by
  rw [pendingWord] at h
  cases he : d.metas.lookup usageKey with
  | some e =>
    rw [he] at h
    refine ⟨d.metas, ?_, fun _ => rfl⟩
    simp only [getUsage, he, h, ok_bind]
    rfl
  | none =>
    simp only [he] at h
    cases hm : d.getMeta db usageKey with
    | none =>
      rw [hm] at h
      cases h
      refine ⟨d.metas, ?_, fun _ => rfl⟩
      simp only [getUsage, he, hm]
    | some m =>
      simp only [hm] at h
      refine ⟨d.metas.insert usageKey ⟨some m, some m⟩, ?_, fun key => ?_⟩
      · simp only [getUsage, he, hm, h, ok_bind]
        rfl
      · rw [pendingWord_insert]
        split
        · rename_i hkey
          subst hkey
          simp only [pendingWord, he, hm, getD_some]
        · rfl

variable (db) in
theorem setWord_spec (hs : d.suicided = false) (key : Key) (q : UInt32) :
    ∃ metas, d.setWord db key q = { d with metas := metas } ∧
      ∀ key', pendingWord db { d with metas := metas } key' =
        if key' = key then .ok q else d.pendingWord db key' := by
  have hput : ∀ old key', pendingWord db
      { d with metas := d.metas.insert key ⟨old, some (putUint32 q)⟩ } key' =
        if key' = key then .ok q else d.pendingWord db key' := by
    intro old key'
    rw [pendingWord_insert, getD_some, littleEndianUint32_putUint32]
  rw [setWord, if_neg (Bool.eq_false_iff.mp hs)]
  split
  · exact ⟨_, rfl, hput _⟩
  · exact ⟨_, rfl, hput _⟩

variable (db) in
theorem setQuota_spec (hs : d.suicided = false) (c : Prop) [Decidable c] (q : UInt32) :
    ∃ metas, (if c then d.setQuota db q else d) = { d with metas := metas } ∧
      ∀ key, pendingWord db { d with metas := metas } key =
        if c ∧ key = quotaKey then .ok q else d.pendingWord db key := by
  by_cases hc : c
  · obtain ⟨metas, hset, hword⟩ := setWord_spec db hs quotaKey q
    refine ⟨metas, by rw [if_pos hc, setQuota, hset], fun key => ?_⟩
    simp only [hword, hc, true_and]
  · exact ⟨d.metas, if_neg hc, fun key => (if_neg fun h => hc h.1).symm⟩

/-! ## What the operations do -/

variable (db d) in
theorem pending_insert (key : Key) (e : Entry) (k : Key) :
    pending db { d with data := d.data.insert key e } k =
      if k = key then e.data else d.pending db k := by
  by_cases hk : k = key
  · simp only [pending, lookup_insert_ite, if_pos hk]
  · simp only [pending, lookup_insert_ite, if_neg hk]
    rfl

variable (db) in
theorem getState_spec (loc : Key) :
    ∃ data, d.getState db loc = (if d.suicided then none else d.pending db loc,
        { d with data := data }) ∧
      ∀ k, pending db { d with data := data } k = d.pending db k := by
  rw [getState]
  split
  · exact ⟨d.data, rfl, fun _ => rfl⟩
  cases ht : d.data.lookup loc with
  | some t =>
    refine ⟨d.data, ?_, fun _ => rfl⟩
    simp only [pending, ht]
  | none =>
    cases he : d.stored db loc with
    | none =>
      refine ⟨d.data, ?_, fun _ => rfl⟩
      simp only [pending, ht, he]
    | some e =>
      refine ⟨d.data.insert loc ⟨some e, some e⟩, ?_, fun k => ?_⟩
      · simp only [pending, ht, he]
      · rw [pending_insert]
        split
        · rename_i hk
          subst hk
          simp only [pending, ht, he]
        · rfl

/-- What the cache takes the old value to be long. -/
def cachedSize (d : StateDB) (key : Key) : Nat :=
  match d.data.lookup key with
  | none => 0
  | some e => size e.data

variable (db) in
theorem cacheState_spec (hs : d.suicided = false) (q : UInt32) (key : Key) (val : Bytes) :
    ∃ data, d.cacheState db q key val =
        (q + ofNat val.length - ofNat (d.cachedSize key), { d with data := data }) ∧
      ∀ k, pending db { d with data := data } k =
        if k = key then some val else d.pending db k := by
  cases he : d.data.lookup key with
  | none =>
    obtain ⟨data, hget, hpend⟩ := getState_spec db (d := d) key
    refine ⟨data.insert key ⟨d.pending db key, some val⟩, ?_, fun k => ?_⟩
    · simp only [cacheState, cachedSize, he, hget, hs, Bool.false_eq_true, if_false]
      simp
    · rw [← hpend k]
      exact pending_insert db { d with data := data } key _ k
  | some e =>
    refine ⟨d.data.insert key ⟨e.olddata, some val⟩, ?_, pending_insert db d key _⟩
    simp only [cacheState, cachedSize, he, overwrite_eq]

/-- The operation leaves a value under the key and the two counters; the rest is as before. -/
def Updates (db : Buckets) (d : StateDB) (r : Comp StateDB) (key : Key) (val : Option Bytes)
    (q u : UInt32) : Prop :=
  ∃ data metas, r = .ok { d with data := data, metas := metas } ∧
    (∀ k, pending db { d with data := data, metas := metas } k =
      if k = key then val else d.pending db k) ∧
    pendingWord db { d with data := data, metas := metas } usageKey = .ok q ∧
    pendingWord db { d with data := data, metas := metas } quotaKey = .ok u

section Specs

variable (hs : d.suicided = false) {q u u₀ : UInt32} (hq : d.pendingWord db usageKey = .ok q)
  (hu : d.pendingWord db quotaKey = .ok u) (hu₀ : d.getQuota db = .ok u₀) (key : Key)

include hs hq hu hu₀

theorem setState_spec (val : Bytes) :
    ∃ q', q' = q + ofNat val.length - ofNat (d.cachedSize key) ∧
      d.Updates db (d.setState db key val) key (some val) q' (if u₀ < q' then q' else u) := by
  obtain ⟨m1, husage, hword1⟩ := getUsage_spec hq
  obtain ⟨data, hcache, hpend⟩ :=
    cacheState_spec db (d := { d with metas := m1 }) hs q key val
  have hsize : cachedSize { d with metas := m1 } key = d.cachedSize key := rfl
  rw [hsize] at hcache
  generalize q + ofNat val.length - ofNat (d.cachedSize key) = q' at hcache ⊢
  have hstored : getQuota db { d with data := data, metas := m1 } = .ok u₀ := hu₀
  obtain ⟨m2, hset2, hword2⟩ :=
    setQuota_spec db (d := { d with data := data, metas := m1 }) hs (u₀ < q') q'
  obtain ⟨m3, hset3, hword3⟩ :=
    setWord_spec db (d := { d with data := data, metas := m2 }) hs usageKey q'
  refine ⟨q', rfl, data, m3, ?_, hpend, (hword3 _).trans (if_pos rfl), ?_⟩
  · rw [setState, if_neg (Bool.eq_false_iff.mp hs), husage, ok_bind]
    simp only [hcache, hstored, ok_bind, hset2, setUsage, hset3]
    rfl
  · have h := (hword1 quotaKey).trans hu
    refine (hword3 _).trans ((if_neg (by decide)).trans ((hword2 _).trans ?_))
    simp only [and_true, apply_ite Except.ok]
    exact congrArg (ite _ _) h

theorem dropState_spec (s : Entry) :
    ∃ q' u', q' = q - ofNat (size s.data) ∧ (u' = u ∨ u' = q') ∧
      d.Updates db (d.dropState db key s) key none q' u' := by
  obtain ⟨m1, husage, hword1⟩ := getUsage_spec hq
  generalize hq' : q - ofNat (size s.data) = q'
  obtain ⟨m2, hset2, hword2⟩ := setWord_spec db (d := { d with metas := m1 }) hs usageKey q'
  obtain ⟨m3, hset3, hword3⟩ := setQuota_spec db (d := { d with metas := m2 }) hs (q' < u₀) q'
  have hstored : getQuota db { d with metas := m1 } = .ok u₀ := hu₀
  refine ⟨q', if q' < u₀ then q' else u, rfl, ?_, d.data.insert key ⟨s.olddata, none⟩, m3, ?_,
    pending_insert db d key _, ?_, ?_⟩
  · split
    · exact .inr rfl
    · exact .inl rfl
  · rw [dropState, husage, ok_bind]
    simp only [hstored, ok_bind, setUsage, hq', hset2, hset3]
    rfl
  · refine (hword3 _).trans ((if_neg fun h => absurd h.2 (by decide)).trans ?_)
    exact (hword2 _).trans (if_pos rfl)
  · have h := (hword2 quotaKey).trans ((if_neg (by decide)).trans ((hword1 quotaKey).trans hu))
    refine (hword3 _).trans ?_
    simp only [and_true, h, apply_ite Except.ok]

theorem deleteState_spec :
    ∃ q' u', q' = q - ofNat (size (d.pending db key)) ∧ (u' = u ∨ u' = q') ∧
      d.Updates db (d.deleteState db key) key none q' u' := by
  rw [deleteState, if_neg (Bool.eq_false_iff.mp hs)]
  cases ht : d.data.lookup key with
  | some t =>
    have hold : d.pending db key = t.data := by simp only [pending, ht]
    rw [hold]
    exact dropState_spec hs hq hu hu₀ key t
  | none =>
    obtain ⟨data, hget, hpend⟩ := getState_spec db (d := d) key
    rw [if_neg (Bool.eq_false_iff.mp hs)] at hget
    simp only [hget]
    cases he : d.pending db key with
    | none =>
      refine ⟨q, u, by simp [size], .inl rfl, data, d.metas, rfl, fun k => ?_, hq, hu⟩
      split
      · rename_i hk
        rw [hk, ← he]
        exact hpend key
      · exact hpend k
    | some e =>
      obtain ⟨q', u', hq', hu', data', metas, hdrop, hpend', hrest⟩ :=
        dropState_spec (d := { d with data := data }) hs hq hu hu₀ key ⟨some e, some e⟩
      refine ⟨q', u', hq', hu', data', metas, hdrop, fun k => ?_, hrest⟩
      have h := hpend' k
      rw [hpend k] at h
      exact h

end Specs

/-! ## Accounts -/

/-- The accounts are right: the usage is the total byte length of the pending values, so that no
value can be taken from it below zero, and the quota is at least the usage. -/
def Accounted (db : Buckets) (d : StateDB) : Prop :=
  ∃ q u, d.pendingWord db usageKey = .ok q ∧ d.pendingWord db quotaKey = .ok u ∧
    q.toNat = d.total db ∧ (∀ k, size (d.pending db k) ≤ q.toNat) ∧ q ≤ u

/-- An operation on the storage. -/
inductive Op where
  | get (loc : Key)
  | set (key : Key) (val : Bytes)
  | delete (key : Key)
  deriving DecidableEq, Repr

def Op.run (db : Buckets) (d : StateDB) : Op → Comp StateDB
  | .get loc => .ok (d.getState db loc).2
  | .set key val => d.setState db key val
  | .delete key => d.deleteState db key

/-- The number, zero if it cannot be read. -/
def word (x : Comp UInt32) : Nat :=
  match x with
  | .ok q => q.toNat
  | .error _ => 0

/-- The total when the value of one key is replaced. -/
def totalWith (db : Buckets) (d : StateDB) (key : Key) (val : Bytes) : Nat :=
  d.total db - size (d.pending db key) + val.length

/-- The operation keeps the accounts. A `SetState` finds in the cache what the key holds, comes to a
total that the usage can hold, and this is above the quota in the database or within the pending
quota. -/
def Careful (db : Buckets) (d : StateDB) : Op → Prop
  | .set key val =>
    d.suicided = true ∨
      (d.data.lookup key = none → size (d.stored db key) = 0) ∧
      d.totalWith db key val < 2 ^ 32 ∧
      (word (d.getQuota db) < d.totalWith db key val ∨
        d.totalWith db key val ≤ word (d.pendingWord db quotaKey))
  | _ => True

instance (db : Buckets) (d : StateDB) (op : Op) : Decidable (d.Careful db op) :=
  match op with
  | .set _ _ => inferInstanceAs (Decidable (_ ∨ _ ∧ _ ∧ _))
  | .get _ => .isTrue trivial
  | .delete _ => .isTrue trivial

theorem exists_of_returns {α : Type} {x : Comp α} (h : Returns x) : ∃ a, x = .ok a := by
  match x with
  | .ok a => exact ⟨a, rfl⟩
  | .error (.error e) => exact nomatch e
  | .error .panic => exact absurd rfl h

theorem getState_accounted (hd : d.Accounted db) (loc : Key) :
    Accounted db (d.getState db loc).2 := by
  obtain ⟨data, hget, hpend⟩ := getState_spec db (d := d) loc
  obtain ⟨q, u, hq, hu, htotal, hle, hqu⟩ := hd
  have hsame : total db { d with data := data } = d.total db := by
    have hupdate := total_update d { d with data := data } loc fun k _ => hpend k
    rw [hpend loc] at hupdate
    omega
  rw [hget]
  refine ⟨q, u, hq, hu, htotal.trans hsame.symm, fun k => ?_, hqu⟩
  rw [hpend k]
  exact hle k

/-- A contract that has suicided stays as it is. -/
theorem Op.run_of_suicided (hs : d.suicided = true) (op : Op) : op.run db d = .ok d := by
  cases op with
  | get loc => rw [run, getState, if_pos hs]
  | set key val => rw [run, setState, if_pos hs]
  | delete key => rw [run, deleteState, if_pos hs]

section

variable (hd : d.Accounted db) (hquota : Returns (d.getQuota db))

include hd hquota

/-- What is set is careful exactly when the counters come out right. -/
theorem setState_accounted_iff (hs : d.suicided = false) (key : Key) (val : Bytes) :
    Ends (d.setState db key val) (Accounted db) ↔ d.Careful db (.set key val) := by
  obtain ⟨q, u, hq, hu, htotal, hle, hqu⟩ := hd
  obtain ⟨u₀, hu₀⟩ := exists_of_returns hquota
  obtain ⟨q', hq', data, metas, hset, hpend, husage, hquota'⟩ := setState_spec hs hq hu hu₀ key val
  have hkey := hle key
  have hcached : d.cachedSize key ≤ size (d.pending db key) ∧
      (d.cachedSize key = size (d.pending db key) ↔
        (d.data.lookup key = none → size (d.stored db key) = 0)) := by
    simp only [cachedSize, pending]
    cases d.data.lookup key with
    | none => simp [eq_comm]
    | some e => simp
  have hnew : total db { d with data := data, metas := metas } = d.totalWith db key val := by
    have hupdate := total_update d { d with data := data, metas := metas } key
      fun k hk => by rw [hpend k, if_neg hk]
    rw [hpend key, if_pos rfl] at hupdate
    have hval : size (some val) = val.length := rfl
    rw [totalWith]
    omega
  -- the usage as the code computes it, and as it is to be
  have hword : q'.toNat = (q.toNat + val.length - d.cachedSize key) % 2 ^ 32 := by
    rw [hq', UInt32.toNat_sub, UInt32.toNat_add, toNat_ofNat', toNat_ofNat']
    omega
  have hright : q'.toNat = d.totalWith db key val ↔
      (d.data.lookup key = none → size (d.stored db key) = 0) ∧
        d.totalWith db key val < 2 ^ 32 := by
    rw [← hcached.2, hword, totalWith]
    have hlt := q.toNat_lt
    omega
  have hcareful : d.Careful db (.set key val) ↔ q'.toNat = d.totalWith db key val ∧
      q' ≤ if u₀ < q' then q' else u := by
    rw [Careful, hs, hu₀, hu]
    simp only [Bool.false_eq_true, false_or, word]
    rw [← and_assoc, ← hright]
    refine and_congr_right fun hq' => ?_
    rw [← hq']
    split
    · rename_i hlt
      exact iff_of_true (.inl (lt_iff_toNat_lt.mp hlt)) (UInt32.le_refl q')
    rename_i hge
    exact or_iff_right hge
  rw [hcareful]
  constructor
  · rintro ⟨d', hd', q₁, u₁, hq₁, hu₁, htotal₁, -, hqu₁⟩
    rw [hset] at hd'
    cases hd'
    rw [husage] at hq₁
    rw [hquota'] at hu₁
    cases hq₁
    cases hu₁
    exact ⟨htotal₁.trans hnew, hqu₁⟩
  · rintro ⟨hq', hqu'⟩
    rw [hset]
    refine ends_ok ⟨q', _, husage, hquota', hq'.trans hnew.symm, fun k => ?_, hqu'⟩
    rw [hq', ← hnew]
    exact size_pending_le_total k

theorem deleteState_accounted (hs : d.suicided = false) (key : Key) :
    Ends (d.deleteState db key) (Accounted db) := by
  obtain ⟨q, u, hq, hu, htotal, hle, hqu⟩ := hd
  obtain ⟨u₀, hu₀⟩ := exists_of_returns hquota
  obtain ⟨q', u', hq', hu', data, metas, hdelete, hpend, husage, hquota'⟩ :=
    deleteState_spec hs hq hu hu₀ key
  have hword : q'.toNat = q.toNat - size (d.pending db key) := by
    rw [hq', UInt32.toNat_sub, toNat_ofNat']
    have hlt := q.toNat_lt
    have hkey := hle key
    omega
  have hnew : total db { d with data := data, metas := metas } = q'.toNat := by
    have hupdate := total_update d { d with data := data, metas := metas } key
      fun k hk => by rw [hpend k, if_neg hk]
    rw [hpend key, if_pos rfl] at hupdate
    have hnone : size none = 0 := rfl
    omega
  rw [hdelete]
  refine ends_ok ⟨q', u', husage, hquota', hnew.symm, fun k => ?_, ?_⟩
  · rw [← hnew]
    exact size_pending_le_total k
  · rcases hu' with rfl | rfl
    · rw [le_iff_toNat_le] at hqu ⊢
      omega
    · exact UInt32.le_refl _

/-- **One operation** that starts from right accounts leaves them right, without a panic, exactly
when it is careful. -/
theorem run_accounted_iff (op : Op) : Ends (op.run db d) (Accounted db) ↔ d.Careful db op := by
  cases hs : d.suicided with
  | true =>
    rw [Op.run_of_suicided hs]
    refine iff_of_true (ends_ok hd) ?_
    cases op with
    | set key val => exact .inl hs
    | get loc => trivial
    | delete key => trivial
  | false =>
    cases op with
    | get loc => exact iff_of_true (ends_ok (getState_accounted hd loc)) trivial
    | set key val => exact setState_accounted_iff hd hquota hs key val
    | delete key => exact iff_of_true (deleteState_accounted hd hquota hs key) trivial

/-- Only the caches change. -/
theorem run_eq (op : Op) :
    ∃ data metas, op.run db d = .ok { d with data := data, metas := metas } := by
  obtain ⟨q, u, hq, hu, -, -, -⟩ := hd
  obtain ⟨u₀, hu₀⟩ := exists_of_returns hquota
  rcases Bool.eq_false_or_eq_true d.suicided with hs | hs
  · exact ⟨d.data, d.metas, op.run_of_suicided hs⟩
  cases op with
  | get loc =>
    obtain ⟨data, hget, -⟩ := getState_spec db (d := d) loc
    exact ⟨data, d.metas, by rw [Op.run, hget]⟩
  | set key val =>
    obtain ⟨q', -, data, metas, hset, -⟩ := setState_spec hs hq hu hu₀ key val
    exact ⟨data, metas, hset⟩
  | delete key =>
    obtain ⟨q', u', -, -, data, metas, hdelete, -⟩ := deleteState_spec hs hq hu hu₀ key
    exact ⟨data, metas, hdelete⟩

end

/-- **Storage accounting.** From accounts that are right, a run of operations keeps them right in
every state it reaches exactly when each of its operations is careful in the state it is applied
in. -/
theorem accounted_iff_careful (hd : d.Accounted db) (hquota : Returns (d.getQuota db))
    (ops : List Op) :
    (∀ n ≤ ops.length, Ends ((ops.take n).foldlM (Op.run db) d) (Accounted db)) ↔
      ∀ done op rest d', ops = done ++ op :: rest → done.foldlM (Op.run db) d = .ok d' →
        d'.Careful db op := by
  refine ends_take_iff (Q := fun e : StateDB => Returns (e.getQuota db)) (C := Careful db)
    (fun e op _ he hquota => run_accounted_iff he hquota op) ?_ hd hquota
  intro e op _ e' he hquota hrun
  obtain ⟨data, metas, hrun'⟩ := run_eq he hquota op
  rw [hrun'] at hrun
  cases hrun
  exact hquota

/-! ### A contract with one value of two bytes -/

/-- One value of two bytes, with usage and quota to match. -/
def sampleBuckets : Buckets :=
  (∅ : Buckets).insert 1
    { contract := ((∅ : Bucket).insert usageKey [2, 0, 0, 0]).insert quotaKey [2, 0, 0, 0]
      storage := (∅ : Bucket).insert [7] [1, 2] }

theorem sampleBuckets_accounted : (newStateDB 1).Accounted sampleBuckets := by
  have htotal : (newStateDB 1).total sampleBuckets = 2 := by decide +kernel
  refine ⟨2, 2, by decide +kernel, by decide +kernel, htotal.symm, fun k => ?_, by decide⟩
  exact (size_pending_le_total k).trans_eq htotal

theorem sampleBuckets_quota : Returns ((newStateDB 1).getQuota sampleBuckets) := by decide +kernel

/-- After the value has been read, it is replaced with right accounts. -/
theorem readThenSet_accounted : ∃ ops : List Op, ops ≠ [] ∧ ∀ n ≤ ops.length,
    Ends ((ops.take n).foldlM (Op.run sampleBuckets) (newStateDB 1)) (Accounted sampleBuckets) := by
  refine ⟨[.get [7], .set [7] [3]], List.cons_ne_nil _ _,
    (accounted_iff_careful sampleBuckets_accounted sampleBuckets_quota _).mpr ?_⟩
  intro done op rest d' hops hdone
  obtain ⟨j, rfl, hget⟩ := exists_take hops
  match j with
  | 0 =>
    cases hget
    trivial
  | 1 =>
    cases hget
    cases hdone
    decide +kernel
  | j + 2 => cases hget

/-- **The first value set in a block is added to the usage on top of the value it replaces**: with
one byte stored, the usage says three. After a deletion, the quota does not grow with the usage. -/
theorem setState_miscounts :
    (newStateDB 1).Accounted sampleBuckets ∧
      (∃ d, (newStateDB 1).setState sampleBuckets [7] [3] = .ok d ∧
        d.pendingWord sampleBuckets usageKey = .ok 3 ∧ d.total sampleBuckets = 1) ∧
      ∃ d, [Op.delete [7], .set [7] [3]].foldlM (Op.run sampleBuckets) (newStateDB 1) = .ok d ∧
        d.pendingWord sampleBuckets usageKey = .ok 1 ∧
        d.pendingWord sampleBuckets quotaKey = .ok 0 := by
  refine ⟨sampleBuckets_accounted, ⟨_, rfl, ?_, ?_⟩, _, rfl, ?_, ?_⟩
  · decide +kernel
  · decide +kernel
  · decide +kernel
  · decide +kernel

end Zent.Ovm.StateDB
