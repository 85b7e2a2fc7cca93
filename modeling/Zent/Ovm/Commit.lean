import Zent.Go.Range
import Zent.Ovm.Accounting

/-!
# Commit and rollback

`Commit` writes the caches of all contracts into the buckets of the database, together with a record
of the old values for the block; `Rollback` reads the record and puts the old values back.

Entries that have not changed are left out of the writes. In the loop over the data about the
contract the entry is deleted from the other map, so that a storage key with the name of an entry
that has not changed is not written.
-/

namespace Zent.Ovm

open Go List

/-! ## Records -/

/-- The old value of a key. -/
structure Rollback where
  key : Key
  value : Option Bytes
  deriving DecidableEq, Repr

/-- The old values of a contract: `Data[0]` of its storage and `Data[1]` of the data about it. -/
structure PrevInfo where
  newContract : Bool
  addr : Address := 0
  data : List Rollback := []
  metas : List Rollback := []
  deriving DecidableEq, Repr

/-- The old owner of a token type; none if it is new. -/
structure RBTokenTypes where
  id : UInt64
  addr : Option Address
  deriving DecidableEq, Repr

structure BlockRollBack where
  prevBlock : UInt64
  rollBacks : List PrevInfo
  tokentypes : List RBTokenTypes
  deriving DecidableEq, Repr

/-- What the database holds for the machine. -/
structure Database where
  buckets : Buckets
  /-- the bucket `issuedTokens` -/
  issuedTokens : Map UInt64 Address
  lastCommitBlock : Option UInt64
  /-- under `"Rollback"` and the height of the block -/
  rollbacks : Map UInt64 BlockRollBack

/-- `DbFetchVersion` of `lastCommitBlock` -/
def Database.version (db : Database) : UInt64 := db.lastCommitBlock.getD 0

/-- The orders in which the maps are ranged over. -/
structure Orders where
  data : Shuffle ((_ : Key) × Entry)
  metas : Shuffle ((_ : Key) × Entry)
  states : Shuffle ((_ : Address) × StateDB)
  types : Shuffle ((_ : UInt64) × Address)
  issues : Shuffle ((_ : UInt64) × Address)

/-- The entries as they are stored. -/
def Orders.stored : Orders := ⟨.stored, .stored, .stored, .stored, .stored⟩

/-! ## Writing the caches of a contract -/

/-- `bytes.Compare(t.data, t.olddata) != 0` -/
def Entry.changed (e : Entry) : Bool := e.data.getD [] != e.olddata.getD []

/-- An old value that is nil becomes an empty one. -/
def Entry.settle (e : Entry) : Entry :=
  if e.olddata = none then { e with olddata := some [] } else e

/-- The entries of the storage that have changed. -/
def pruneData (data : Map Key Entry) : Map Key Entry :=
  data.entries.foldl
    (fun m e => if e.2.changed then m.insert e.1 e.2.settle else m.erase e.1) data

/-- The loop over the data about the contract: what it deletes are entries of the storage. -/
def pruneByMeta (metas data : Map Key Entry) : Map Key Entry :=
  metas.entries.foldl (fun m e => if e.2.changed then m else m.erase e.1) data

def settleMeta (metas : Map Key Entry) : Map Key Entry :=
  metas.entries.foldl (fun m e => if e.2.changed then m.insert e.1 e.2.settle else m) metas

/-- What is written for an entry. -/
def Entry.write (e : Entry) (k : Key) (b : Bucket) : Bucket :=
  if size e.data = 0 then b.erase k
  else if e.changed then b.insert k (e.data.getD []) else b

/-- One entry: its old value is recorded and the new one written. A bucket takes nothing under the
empty key. -/
def writeEntry (s : Bucket × List Rollback) (e : (_ : Key) × Entry) :
    Except (List Rollback) (Bucket × List Rollback) :=
  let rb := s.2 ++ [⟨e.1, e.2.olddata⟩]
  if size e.2.data ≠ 0 ∧ e.2.changed ∧ e.1 = [] then .error rb
  else .ok (e.2.write e.1 s.1, rb)

/-- `"suicided"` -/
def suicidedKey : Key := [0x73, 0x75, 0x69, 0x63, 0x69, 0x64, 0x65, 0x64]

/-- `stateDB.commit`, on the buckets of the contract. An error undoes all the writes of a
transaction. -/
def StateDB.commitAccount (ord : Orders) (d : StateDB) (acc : Option Account) :
    PrevInfo × Option Account :=
  let rollBack : PrevInfo := { newContract := d.fresh }
  if d.suicided then
    match acc with
    | none => (rollBack, none)
    | some b =>
      ({ rollBack with
          metas := if b.contract.get suicidedKey = none then [⟨suicidedKey, some []⟩] else [] },
        some { b with contract := b.contract.insert suicidedKey [1] })
  else
    let data := pruneByMeta d.metas (pruneData d.data)
    let metas := settleMeta d.metas
    -- buckets that do not exist are created
    let b := acc.getD ⟨∅, ∅⟩
    match (ord.data.run data.entries).foldlM writeEntry (b.storage, []) with
    | .error rb => ({ rollBack with data := rb }, some b)
    | .ok (storage, rb) =>
      match (ord.metas.run metas.entries).foldlM writeEntry (b.contract, []) with
      | .error rb' => ({ rollBack with data := rb, metas := rb' }, some b)
      | .ok (contract, rb') =>
        ({ rollBack with data := rb, metas := rb' }, some ⟨contract, storage⟩)

/-! ## The machine -/

/-- What the machine has pending in a block. -/
structure OVM where
  stateDB : Map Address StateDB
  tokenTypes : Map UInt64 Address
  existingTokenTypes : Map UInt64 Address
  lastBlock : UInt64
  blockNumber : UInt64

/-- The buckets of a contract, after its commit. -/
def setAccount (bs : Buckets) (a : Address) (acc : Option Account) : Buckets :=
  match acc with
  | none => bs
  | some b => bs.insert a b

/-- The commit of one contract; it is recorded if it has changed anything. -/
def commitStep (ord : Orders) (s : List PrevInfo × Buckets) (e : (_ : Address) × StateDB) :
    List PrevInfo × Buckets :=
  let t := e.2.commitAccount ord (s.2.lookup e.2.contract)
  let info : PrevInfo := { t.1 with addr := e.1 }
  (if info.data ≠ [] ∨ info.metas ≠ [] then s.1 ++ [info] else s.1,
    setAccount s.2 e.2.contract t.2)

/-- The record for a token type: none if the owner stays. -/
def OVM.rollbackType (v : OVM) (e : (_ : UInt64) × Address) : Option RBTokenTypes :=
  match v.existingTokenTypes.lookup e.1 with
  | some a => if e.2 = a then none else some ⟨e.1, some a⟩
  | none => some ⟨e.1, none⟩

def OVM.commit (ord : Orders) (v : OVM) (db : Database) : OVM × Database :=
  if v.stateDB.entries = [] then (v, db)
  else if v.blockNumber ≤ db.version then (v, db)
  else
    let tokentypes := (ord.types.run v.tokenTypes.entries).filterMap v.rollbackType
    let s := (ord.states.run v.stateDB.entries).foldl (commitStep ord) ([], db.buckets)
    ({ v with
        stateDB := ∅
        tokenTypes := ∅
        existingTokenTypes := ∅
        lastBlock := v.blockNumber },
      { buckets := s.2
        issuedTokens := (ord.issues.run v.tokenTypes.entries).foldl
          (fun m e => m.insert e.1 e.2) db.issuedTokens
        lastCommitBlock := some v.blockNumber
        rollbacks := db.rollbacks.insert v.blockNumber ⟨db.version, s.1, tokentypes⟩ })

/-! ## Rollback -/

/-- An error of the database. -/
inductive DbError where
  /-- `put requires a key` -/
  | keyRequired
  /-- the record cannot be read -/
  | unmarshal
  deriving DecidableEq, Repr

def undoEntry (b : Bucket) (r : Rollback) : Outcome DbError Bucket :=
  if size r.value = 0 then .ok (b.erase r.key)
  else if r.key = [] then fail .keyRequired
  else .ok (b.insert r.key (r.value.getD []))

/-- The buckets of a contract are put back: those of a new one are deleted. -/
def PrevInfo.undoAccount (dd : PrevInfo) (acc : Option Account) :
    Outcome DbError (Option Account) :=
  if dd.newContract then .ok none
  else
    match acc with
    | none => if dd.metas = [] ∧ dd.data = [] then .ok none else crash
    | some b => do
      let contract ← dd.metas.foldlM undoEntry b.contract
      let storage ← dd.data.foldlM undoEntry b.storage
      return some ⟨contract, storage⟩

def PrevInfo.undo (bs : Buckets) (dd : PrevInfo) : Outcome DbError Buckets := do
  match ← dd.undoAccount (bs.lookup dd.addr) with
  | none => return bs.erase dd.addr
  | some b => return bs.insert dd.addr b

def undoType (m : Map UInt64 Address) (rb : RBTokenTypes) : Map UInt64 Address :=
  match rb.addr with
  | none => m.erase rb.id
  | some a => m.insert rb.id a

def OVM.rollback (v : OVM) (db : Database) : Outcome DbError (OVM × Database) :=
  if v.blockNumber ≠ v.lastBlock then .ok (v, db)
  else
    match db.rollbacks.lookup v.lastBlock with
    | none => fail .unmarshal
    | some rb => do
      let buckets ← rb.rollBacks.foldlM PrevInfo.undo db.buckets
      return ({ v with lastBlock := rb.prevBlock },
        { buckets := buckets
          issuedTokens := rb.tokentypes.foldl undoType db.issuedTokens
          lastCommitBlock := some rb.prevBlock
          rollbacks := db.rollbacks.erase v.lastBlock })

/-! ## What is left to write -/

/-- A value as it is stored: nothing for an empty one. -/
def norm (v : Option Bytes) : Option Bytes := if size v = 0 then none else v

theorem norm_eq_self_iff {v : Option Bytes} : norm v = v ↔ v ≠ some [] := by
  match v with
  | none => simp [norm]
  | some [] => simp [norm, size]
  | some (b :: bs) => simp [norm, size]

theorem getD_norm (v : Option Bytes) : (norm v).getD [] = v.getD [] := by
  match v with
  | none => rfl
  | some [] => rfl
  | some (b :: bs) => rfl

/-- Values are stored alike when they have the same bytes. -/
theorem norm_congr {v w : Option Bytes} (h : v.getD [] = w.getD []) : norm v = norm w := by
  match v, w, h with
  | none, none, _ => rfl
  | none, some w, h => rw [show w = [] from h.symm]; rfl
  | some v, none, h => rw [show v = [] from h]; rfl
  | some v, some w, h => rw [show v = w from h]

@[simp] theorem Entry.settle_data (e : Entry) : e.settle.data = e.data := by
  rw [Entry.settle]
  split <;> rfl

theorem Entry.norm_settle (e : Entry) : norm e.settle.olddata = norm e.olddata := by
  rw [Entry.settle]
  split
  · rename_i hnone
    rw [hnone]
    rfl
  · rfl

@[simp] theorem Entry.settle_changed (e : Entry) : e.settle.changed = e.changed := by
  rw [Entry.settle]
  split
  · rename_i hnone
    rw [Entry.changed, Entry.changed, hnone]
    rfl
  · rfl

theorem Entry.changed_eq_false {e : Entry} (h : e.changed = false) : norm e.data = norm e.olddata :=
  norm_congr (by simpa [Entry.changed] using h)

theorem lookup_pruneData (data : Map Key Entry) (k : Key) :
    (pruneData data).lookup k =
      (data.lookup k).elim none fun e => if e.changed then some e.settle else none := by
  refine (lookup_foldl_entries (g := fun _ e _ => if e.changed then some e.settle else none)
    (fun m e k => ?_) data data k).trans ?_
  · simp only [apply_ite (AList.lookup k), lookup_insert_ite, lookup_erase_ite]
    split_ifs <;> rfl
  · cases data.lookup k with
    | none => rfl
    | some e => rfl

/-- An entry is also left out where the data about the contract has an unchanged one of the same
name. -/
theorem lookup_pruneByMeta (metas data : Map Key Entry) (k : Key) :
    (pruneByMeta metas data).lookup k =
      (metas.lookup k).elim (data.lookup k) fun e => if e.changed then data.lookup k else none := by
  refine lookup_foldl_entries (g := fun _ e old => if e.changed then old else none)
    (fun m e k => ?_) metas data k
  simp only [apply_ite (AList.lookup k), lookup_erase_ite]
  split_ifs <;> rfl

theorem lookup_settleMeta (metas : Map Key Entry) (k : Key) :
    (settleMeta metas).lookup k =
      (metas.lookup k).map fun e => if e.changed then e.settle else e := by
  refine (lookup_foldl_entries (g := fun _ e old => if e.changed then some e.settle else old)
    (fun m e k => ?_) metas metas k).trans ?_
  · simp only [apply_ite (AList.lookup k), lookup_insert_ite]
    split_ifs <;> rfl
  · cases metas.lookup k with
    | none => rfl
    | some e =>
      simp only [Option.elim_some, Option.map_some]
      split <;> rfl

/-! ## The loops over a bucket -/

/-- The record of an entry. -/
def record (e : (_ : Key) × Entry) : Rollback := ⟨e.1, e.2.olddata⟩

variable {l : List ((_ : Key) × Entry)} {m : Map Key Entry}

/-- Without a value under the empty key, all entries are written. -/
theorem foldlM_writeEntry (hl : ∀ e ∈ l, e.1 = [] → size e.2.data = 0) (b : Bucket)
    (rb : List Rollback) :
    l.foldlM writeEntry (b, rb) =
      .ok (l.foldl (fun b e => e.2.write e.1 b) b, rb ++ l.map record) := by
  induction l generalizing b rb with
  | nil =>
    rw [map_nil, append_nil]
    rfl
  | cons e l ih =>
    have hstep : writeEntry (b, rb) e = .ok (e.2.write e.1 b, rb ++ [record e]) := by
      rw [writeEntry, if_neg fun h => h.1 (hl e mem_cons_self h.2.2)]
      rfl
    rw [foldlM_cons, hstep, ok_bind, ih fun e' he' => hl e' (mem_cons_of_mem e he'),
      foldl_cons, map_cons, append_assoc]
    rfl

theorem norm_eq (v : Option Bytes) : norm v = if size v = 0 then none else some (v.getD []) := by
  cases v with
  | none => rfl
  | some v => rfl

/-- A bucket after a loop that leaves `g e old` where `old` was under the key of `e`. -/
theorem get_foldl {f : Bucket → ((_ : Key) × Entry) → Bucket}
    {g : Entry → Option Bytes → Option Bytes}
    (hf : ∀ b e k, (f b e).lookup k = if k = e.1 then g e.2 (b.lookup k) else b.lookup k)
    (hl : l.Perm m.entries) (hm : ∀ e, m.lookup [] = some e → g e none = none) (b : Bucket)
    (k : Key) :
    Bucket.get (l.foldl f b) k = (m.lookup k).elim (b.get k) fun e => g e (b.get k) := by
  rw [Bucket.get, Bucket.get, lookup_foldl_perm (g := fun _ => g) hf hl]
  split
  · rename_i hk
    subst hk
    cases he : m.lookup [] with
    | none => rfl
    | some e => exact (hm e he).symm
  · rfl

theorem get_foldl_write (hl : l.Perm m.entries) (hm : ∀ e, m.lookup [] = some e → size e.data = 0)
    (b : Bucket) (k : Key) :
    Bucket.get (l.foldl (fun b e => e.2.write e.1 b) b) k =
      (m.lookup k).elim (b.get k) fun e =>
        if e.changed then norm e.data else if size e.data = 0 then none else b.get k := by
  refine get_foldl (g := fun e old => if e.changed then norm e.data else
    if size e.data = 0 then none else old) (fun b e k => ?_) hl (fun e he => ?_) b k
  · simp only [Entry.write, norm_eq, apply_ite (AList.lookup k), lookup_erase_ite,
      lookup_insert_ite]
    split_ifs <;> rfl
  · simp [norm, hm e he]

/-- Old values are put back, if there is none under the empty key. -/
theorem foldlM_undoEntry (hl : ∀ e ∈ l, e.1 = [] → size e.2.olddata = 0) (b : Bucket) :
    (l.map record).foldlM undoEntry b =
      .ok (l.foldl (fun b e => if size e.2.olddata = 0 then b.erase e.1
        else b.insert e.1 (e.2.olddata.getD [])) b) := by
  induction l generalizing b with
  | nil => rfl
  | cons e l ih =>
    have hstep : undoEntry b (record e) = .ok (if size e.2.olddata = 0 then b.erase e.1
        else b.insert e.1 (e.2.olddata.getD [])) := by
      rw [undoEntry]
      by_cases hsize : size e.2.olddata = 0
      · rw [if_pos hsize, if_pos (show size (record e).value = 0 from hsize)]
        rfl
      · rw [if_neg hsize, if_neg (show ¬size (record e).value = 0 from hsize),
          if_neg (show ¬(record e).key = [] from fun h => hsize (hl e mem_cons_self h))]
        rfl
    rw [map_cons, foldlM_cons, hstep, ok_bind,
      ih fun e' he' => hl e' (mem_cons_of_mem e he'), foldl_cons]

/-- The bucket after the old values have been put back. -/
theorem get_foldl_undo (hl : l.Perm m.entries) (hm : ∀ e, m.lookup [] = some e → size e.olddata = 0)
    (b : Bucket) (k : Key) :
    Bucket.get (l.foldl (fun b e => if size e.2.olddata = 0 then b.erase e.1
        else b.insert e.1 (e.2.olddata.getD [])) b) k =
      (m.lookup k).elim (b.get k) fun e => norm e.olddata := by
  refine get_foldl (g := fun e _ => norm e.olddata) (fun b e k => ?_) hl (fun e he => ?_) b k
  · simp only [norm_eq, apply_ite (AList.lookup k), lookup_erase_ite, lookup_insert_ite]
    split_ifs <;> rfl
  · simp [norm, hm e he]

end Zent.Ovm
