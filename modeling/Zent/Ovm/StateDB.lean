import Zent.Go.Tally
import Zent.Wire.Encoding

/-!
# The state of a contract

`omega/ovm/statedb.go`: what a block changes in the storage of a contract is kept in two caches over
the buckets of the database, one for the data the contract stores and one for the data about the
contract. An entry holds the value found in the bucket when the key was first touched, and the
pending value.

* `getState`, `setState`, `deleteState` — the storage; what it holds in bytes is counted in the
  entries `usage` and `quota` of the other cache.
-/

namespace Zent.Ovm

open Go List UInt32 Nat

/-- A computation that can panic and returns no error. -/
abbrev Comp (α : Type) : Type := Outcome Empty α

/-! ## The database -/

/-- A key of a bucket: a Go string or byte slice. -/
abbrev Key : Type := Bytes

/-- A bucket of the database. -/
abbrev Bucket : Type := Map Key Bytes

/-- There is nothing under the empty key. -/
def Bucket.get (b : Bucket) (k : Key) : Option Bytes := if k = [] then none else b.lookup k

/-- The buckets `"contract" + addr` and `"storage" + addr` of a contract; one is never created or
deleted without the other. -/
structure Account where
  contract : Bucket
  storage : Bucket

/-- The buckets of all contracts. -/
abbrev Buckets : Type := Map Address Account

/-! ## Entries -/

/-- A cached value. A nil slice is `none`. -/
structure Entry where
  olddata : Option Bytes
  data : Option Bytes
  deriving DecidableEq, Repr

/-- `len(b)` -/
def size (b : Option Bytes) : Nat := (b.getD []).length

/-- `copy(data, val)`, then `data` is extended by the rest of `val` or cut to its length. -/
def overwrite (data : Option Bytes) (val : Bytes) : Bytes :=
  let data := data.getD (List.replicate val.length 0)
  let data := val.take data.length ++ data.drop val.length
  if data.length < val.length then data ++ val.drop data.length
  else if val.length < data.length then data.take val.length
  else data

theorem overwrite_eq (data : Option Bytes) (val : Bytes) : overwrite data val = val := by
  simp only [overwrite]
  generalize data.getD (List.replicate val.length 0) = old
  rcases lt_trichotomy old.length val.length with hlt | heq | hgt
  · have hdata : val.take old.length ++ old.drop val.length = val.take old.length := by
      rw [drop_eq_nil_of_le (le_of_lt hlt), append_nil]
    have hlen : (val.take old.length).length = old.length :=
      length_take_of_le (le_of_lt hlt)
    rw [hdata, hlen, if_pos hlt, take_append_drop]
  · have hdata : val.take old.length ++ old.drop val.length = val := by
      rw [drop_eq_nil_of_le (le_of_eq heq), append_nil, heq, take_length]
    rw [hdata, if_neg (lt_irrefl _), if_neg (lt_irrefl _)]
  · have htake : val.take old.length = val := take_of_length_le (le_of_lt hgt)
    rw [htake, length_append, length_drop]
    rw [if_neg (by omega), if_pos (by omega), take_left]

/-- The caches of one contract. -/
structure StateDB where
  contract : Address
  data : Map Key Entry := ∅
  metas : Map Key Entry := ∅
  suicided : Bool := false
  /-- the contract has been created in this block -/
  fresh : Bool := false
  /-- what has been added to a transaction as output of the contract -/
  spendables : List OutPoint := []

def newStateDB (addr : Address) : StateDB := { contract := addr }

namespace StateDB

variable (db : Buckets) (d : StateDB)

def suicide : StateDB :=
  { d with
    data := ∅
    metas := ∅
    suicided := true }

/-! ## Data about the contract -/

/-- `stateDB.GetMeta`: what the database holds. -/
def getMeta (key : Key) : Option Bytes :=
  if d.suicided || d.fresh then none
  else (db.lookup d.contract).bind fun b => b.contract.get key

/-- `setMeta` -/
def setMeta (key : Key) (code : Bytes) : StateDB :=
  if d.suicided then d
  else
    match d.metas.lookup key with
    | none => { d with metas := d.metas.insert key ⟨d.getMeta db key, some code⟩ }
    | some e =>
      { d with metas := d.metas.insert key ⟨e.olddata, some (overwrite e.data code)⟩ }

/-- `"usage"` -/
def usageKey : Key := [0x75, 0x73, 0x61, 0x67, 0x65]

/-- `"quota"` -/
def quotaKey : Key := [0x71, 0x75, 0x6f, 0x74, 0x61]

/-- A number among the data about the contract. -/
def setWord (key : Key) (q : UInt32) : StateDB :=
  if d.suicided then d
  else
    match d.metas.lookup key with
    | none => { d with metas := d.metas.insert key ⟨d.getMeta db key, some (putUint32 q)⟩ }
    | some e => { d with metas := d.metas.insert key ⟨e.olddata, some (putUint32 q)⟩ }

def setQuota (q : UInt32) : StateDB := d.setWord db quotaKey q

def setUsage (q : UInt32) : StateDB := d.setWord db usageKey q

/-- The quota in the database: the cache is not looked at. -/
def getQuota : Comp UInt32 :=
  match d.getMeta db quotaKey with
  | none => .ok 0
  | some c => littleEndianUint32 c

/-- The pending usage. What is read from the database is cached. -/
def getUsage : Comp (UInt32 × StateDB) :=
  match d.metas.lookup usageKey with
  | some e => do return (← littleEndianUint32 (e.data.getD []), d)
  | none =>
    match d.getMeta db usageKey with
    | none => .ok (0, d)
    | some m => do
      let d := { d with metas := d.metas.insert usageKey ⟨some m, some m⟩ }
      return (← littleEndianUint32 m, d)

/-! ## Storage -/

/-- What the database holds under a storage key. -/
def stored (loc : Key) : Option Bytes :=
  if d.suicided || d.fresh then none
  else (db.lookup d.contract).bind fun b => b.storage.get loc

def getState (loc : Key) : Option Bytes × StateDB :=
  if d.suicided then (none, d)
  else
    match d.data.lookup loc with
    | some t => (t.data, d)
    | none =>
      match d.stored db loc with
      | none => (none, d)
      | some e => (some e, { d with data := d.data.insert loc ⟨some e, some e⟩ })

/-- The value of `SetState` is put into the cache; with it the new usage. Where the key is not
cached, the usage grows by the whole value. -/
def cacheState (q : UInt32) (key : Key) (val : Bytes) : UInt32 × StateDB :=
  match d.data.lookup key with
  | none =>
    let m := d.getState db key
    (q + ofNat val.length, { m.2 with data := m.2.data.insert key ⟨m.1, some val⟩ })
  | some e =>
    (q + ofNat val.length - ofNat (size e.data),
      { d with data := d.data.insert key ⟨e.olddata, some (overwrite e.data val)⟩ })

def setState (key : Key) (val : Bytes) : Comp StateDB :=
  if d.suicided then .ok d
  else do
    let (q, d) ← d.getUsage db
    let (q, d) := d.cacheState db q key val
    let u ← d.getQuota db
    let d := if u < q then d.setQuota db q else d
    return d.setUsage db q

/-- A cached entry is emptied. -/
def dropState (key : Key) (s : Entry) : Comp StateDB := do
  let (q, d) ← d.getUsage db
  let u ← d.getQuota db
  let q := q - ofNat (size s.data)
  let d := d.setUsage db q
  let d := if q < u then d.setQuota db q else d
  return { d with data := d.data.insert key ⟨s.olddata, none⟩ }

def deleteState (key : Key) : Comp StateDB :=
  if d.suicided then .ok d
  else
    match d.data.lookup key with
    | some s => d.dropState db key s
    | none =>
      match d.getState db key with
      | (none, d) => .ok d
      | (some e, d) => d.dropState db key ⟨some e, some e⟩

/-! ## Pending values -/

/-- What a storage key holds for the rest of the block. -/
def pending (k : Key) : Option Bytes :=
  match d.data.lookup k with
  | some e => e.data
  | none => d.stored db k

/-- What a key about the contract holds for the rest of the block. -/
def pendingMeta (k : Key) : Option Bytes :=
  match d.metas.lookup k with
  | some e => e.data
  | none => d.getMeta db k

end StateDB

end Zent.Ovm
