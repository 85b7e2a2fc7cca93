import Zent.Ovm.Undo

/-!
# Commit and rollback of a block

What a block has pending is committed in full, and taken back by the rollback of the block, exactly
when the caches of every contract are clean and every token type that the block deals with has the
owner in the database that the machine has noted.
-/

namespace Zent.Ovm

open Go PrevInfo List AList Option UInt32 StateDB

/-! ## How caches are filled -/

/-- An operation on the caches of a contract. -/
inductive Change where
  | state (op : StateDB.Op)
  | setMeta (key : Key) (code : Bytes)
  | suicide
  deriving DecidableEq, Repr

def Change.run (db : Buckets) (d : StateDB) : Change → Comp StateDB
  | .state op => op.run db d
  | .setMeta key code => .ok (d.setMeta db key code)
  | .suicide => .ok d.suicide

/-- The caches of a contract in the course of a block: of one that exists and has not suicided, or
of one that is created. -/
inductive Produced (db : Buckets) : StateDB → Prop where
  | load {a : Address} {b : Account} (hb : db.lookup a = some b)
    (hlive : b.contract.get suicidedKey = none) : Produced db (newStateDB a)
  | create {a : Address} (hnone : db.lookup a = none) :
    Produced db { newStateDB a with fresh := true }
  | step {d d' : StateDB} {c : Change} (hd : Produced db d) (hrun : c.run db d = .ok d') :
    Produced db d'

namespace StateDB

variable {db : Buckets} {d : StateDB} {d' : StateDB}

/-- The contract is not marked as suicided in its bucket. -/
def Unmarked (db : Buckets) (d : StateDB) : Prop :=
  ∀ b, db.lookup d.contract = some b → b.contract.get suicidedKey = none

/-- Coherent caches of a contract that has not suicided. -/
structure Live (db : Buckets) (d : StateDB) : Prop where
  coherent : d.Coherent db
  alive : d.suicided = false
  unmarked : d.Unmarked db

/-- A storage entry with the old value of the database. -/
theorem Live.insertData (hd : d.Live db) {k : Key} {e : Entry}
    (he : e.olddata = d.stored db k) : Live db { d with data := d.data.insert k e } where
  __ := hd
  coherent := { hd.coherent with
    suicided := fun h => absurd h (Bool.eq_false_iff.mp hd.alive)
    data := fun k' e' h => by
      obtain ⟨rfl, rfl⟩ | ⟨-, h⟩ := lookup_insert_cases h
      · exact he
      · exact hd.coherent.data k' e' h }

/-- An entry about the contract with the old value of the database. -/
theorem Live.insertMeta (hd : d.Live db) {k : Key} {e : Entry}
    (he : e.olddata = d.getMeta db k) : Live db { d with metas := d.metas.insert k e } where
  __ := hd
  coherent := { hd.coherent with
    suicided := fun h => absurd h (Bool.eq_false_iff.mp hd.alive)
    metas := fun k' e' h => by
      obtain ⟨rfl, rfl⟩ | ⟨-, h⟩ := lookup_insert_cases h
      · exact he
      · exact hd.coherent.metas k' e' h }

theorem Live.setWord (hd : d.Live db) (key : Key) (q : UInt32) : Live db (d.setWord db key q) := by
  rw [StateDB.setWord, if_neg (Bool.eq_false_iff.mp hd.alive)]
  split
  · exact hd.insertMeta rfl
  · rename_i e he
    exact hd.insertMeta (hd.coherent.metas key e he)

theorem stored_setWord (key : Key) (q : UInt32) (k : Key) :
    (d.setWord db key q).stored db k = d.stored db k := by
  rw [setWord]
  split
  · rfl
  · split
    · rfl
    · rfl

section

variable (hd : d.Live db)

include hd

theorem Live.setMeta (key : Key) (code : Bytes) :
    Live db (d.setMeta db key code) := by
  rw [StateDB.setMeta, if_neg (Bool.eq_false_iff.mp hd.alive)]
  split
  · exact hd.insertMeta rfl
  · rename_i e he
    exact hd.insertMeta (hd.coherent.metas key e he)

theorem Live.getUsage {r : UInt32 × StateDB} (h : d.getUsage db = .ok r) :
    Live db r.2 ∧ ∀ k, r.2.stored db k = d.stored db k := by
  rw [StateDB.getUsage] at h
  split at h
  · obtain ⟨q, -, h⟩ := of_bind h
    cases h
    exact ⟨hd, fun _ => rfl⟩
  split at h
  · cases h
    exact ⟨hd, fun _ => rfl⟩
  rename_i m hm
  obtain ⟨q, -, h⟩ := of_bind h
  cases h
  exact ⟨hd.insertMeta hm.symm, fun _ => rfl⟩

theorem Live.getState (loc : Key) : Live db (d.getState db loc).2 := by
  rw [StateDB.getState, if_neg (Bool.eq_false_iff.mp hd.alive)]
  split
  · exact hd
  split
  · exact hd
  · rename_i e he
    exact hd.insertData he.symm

/-- A key that is not cached is read from the database. -/
theorem Live.getState_value {loc : Key} (h : d.data.lookup loc = none) :
    (d.getState db loc).1 = (d.getState db loc).2.stored db loc := by
  rw [StateDB.getState, if_neg (Bool.eq_false_iff.mp hd.alive)]
  simp only [h]
  split
  · rename_i he
    exact he.symm
  · rename_i e he
    exact he.symm

theorem Live.cacheState (q : UInt32) (key : Key) (val : Bytes) :
    Live db (d.cacheState db q key val).2 := by
  rw [StateDB.cacheState]
  split
  · rename_i hnone
    exact (hd.getState key).insertData (hd.getState_value hnone)
  · rename_i e he
    exact hd.insertData (hd.coherent.data key e he)

variable {key : Key}

theorem Live.setState {val : Bytes} (h : d.setState db key val = .ok d') :
    Live db d' := by
  rw [StateDB.setState, if_neg (Bool.eq_false_iff.mp hd.alive)] at h
  obtain ⟨⟨q, d₁⟩, husage, h⟩ := of_bind h
  have hcache := (hd.getUsage husage).1.cacheState q key val
  simp only at hcache h
  generalize d₁.cacheState db q key val = c at hcache h
  obtain ⟨u, -, h⟩ := of_bind h
  cases h
  refine Live.setWord ?_ usageKey _
  split
  · exact hcache.setWord quotaKey _
  · exact hcache

/-- The cached entry that is emptied keeps its old value. -/
theorem Live.dropState {s : Entry} (hold : s.olddata = d.stored db key)
    (h : d.dropState db key s = .ok d') : Live db d' := by
  obtain ⟨⟨q, d₁⟩, husage, h⟩ := of_bind h
  obtain ⟨hlive, hstored⟩ := hd.getUsage husage
  obtain ⟨u, -, h⟩ := of_bind h
  have hused := hlive.setWord usageKey (q - ofNat (size s.data))
  have hold' : s.olddata =
      (d₁.setWord db usageKey (q - ofNat (size s.data))).stored db key := by
    rw [stored_setWord, hstored, hold]
  cases h
  split
  · refine (hused.setWord quotaKey (q - ofNat (size s.data))).insertData ?_
    rw [stored_setWord]
    exact hold'
  · exact hused.insertData hold'

theorem Live.deleteState (h : d.deleteState db key = .ok d') : Live db d' := by
  rw [StateDB.deleteState, if_neg (Bool.eq_false_iff.mp hd.alive)] at h
  split at h
  · rename_i s hs
    exact hd.dropState (hd.coherent.data key s hs) h
  rename_i hnone
  have hget := hd.getState key
  have hvalue := hd.getState_value hnone
  generalize d.getState db key = r at hget hvalue h
  obtain ⟨_ | e, d₁⟩ := r
  · cases h
    exact hget
  · exact hget.dropState hvalue h

end

/-- A contract that has suicided does not change any more. -/
theorem run_of_suicided (hc : d.Coherent db) (hs : d.suicided = true) (c : Change) :
    c.run db d = .ok d := by
  cases c with
  | state op => exact op.run_of_suicided hs
  | setMeta key code => rw [Change.run, setMeta, if_pos hs]
  | suicide =>
    obtain ⟨hdata, hmetas, -⟩ := hc.suicided hs
    cases d
    cases hdata
    cases hmetas
    cases hs
    rfl

/-- Every operation keeps the caches coherent. -/
theorem Coherent.run (hc : d.Coherent db) (hmark : d.Unmarked db) {c : Change}
    (h : c.run db d = .ok d') : d'.Coherent db ∧ d'.Unmarked db := by
  cases hs : d.suicided with
  | true =>
    rw [run_of_suicided hc hs c] at h
    cases h
    exact ⟨hc, hmark⟩
  | false =>
    have hd : d.Live db := ⟨hc, hs, hmark⟩
    cases c with
    | state op =>
      cases op with
      | get loc =>
        cases h
        exact ⟨(hd.getState loc).coherent, (hd.getState loc).unmarked⟩
      | set key val => exact ⟨(hd.setState h).coherent, (hd.setState h).unmarked⟩
      | delete key => exact ⟨(hd.deleteState h).coherent, (hd.deleteState h).unmarked⟩
    | setMeta key code =>
      cases h
      exact ⟨(hd.setMeta key code).coherent, (hd.setMeta key code).unmarked⟩
    | suicide =>
      cases h
      exact ⟨⟨hc.fresh, nofun, nofun, fun _ => ⟨rfl, rfl, hmark⟩⟩, hmark⟩

end StateDB

/-- The caches of a contract are coherent in the course of a block. -/
theorem Produced.coherent {db : Buckets} {d : StateDB} (hd : Produced db d) : d.Coherent db := by
  have hboth : d.Coherent db ∧ d.Unmarked db := by
    induction hd with
    | @load a b hb hlive =>
      refine ⟨⟨?_, nofun, nofun, nofun⟩, ?_⟩
      · simp [newStateDB, hb]
      · intro b' hb'
        rw [show (newStateDB a).contract = a from rfl, hb] at hb'
        cases hb'
        exact hlive
    | @create a hnone =>
      refine ⟨⟨?_, nofun, nofun, nofun⟩, ?_⟩
      · simp [newStateDB, hnone]
      · intro b' hb'
        rw [show ({ newStateDB a with fresh := true } : StateDB).contract = a from rfl,
          hnone] at hb'
        cases hb'
    | step _ hrun ih => exact ih.1.run ih.2 hrun
  exact hboth.1

/-! ## The loops over the contracts -/

section Loops

variable {ord : Orders} {l : List ((_ : Address) × StateDB)}

/-- The record of a contract; none if there is nothing to undo. -/
def infoOf (ord : Orders) (bs : Buckets) (e : (_ : Address) × StateDB) : Option PrevInfo :=
  let t := e.2.commitAccount ord (bs.lookup e.1)
  if t.1.data ≠ [] ∨ t.1.metas ≠ [] then some { t.1 with addr := e.1 } else none

theorem commitStep_eq {e : (_ : Address) × StateDB} (he : e.2.contract = e.1)
    (s : List PrevInfo × Buckets) :
    commitStep ord s e = (s.1 ++ (infoOf ord s.2 e).toList,
      setAccount s.2 e.1 (e.2.commitAccount ord (s.2.lookup e.1)).2) := by
  obtain ⟨a, d⟩ := e
  simp only at he
  subst he
  simp only [commitStep, infoOf]
  split
  · rfl
  · rw [toList_none, append_nil]

theorem lookup_setAccount_ne {a a' : Address} (h : a' ≠ a) (bs : Buckets) (acc : Option Account) :
    (setAccount bs a acc).lookup a' = bs.lookup a' := by
  cases acc with
  | none => rfl
  | some b => exact lookup_insert_ne h

/-- The commit of a contract leaves it without buckets only if it had none. -/
theorem StateDB.commitAccount_none {d : StateDB} {acc : Option Account}
    (h : (d.commitAccount ord acc).2 = none) : acc = none := by
  cases acc with
  | none => rfl
  | some b =>
    simp only [commitAccount] at h
    split at h
    · cases h
    split at h
    · cases h
    · split at h
      · cases h
      · cases h

theorem lookup_setAccount_commit (d : StateDB) (bs : Buckets) (a : Address) :
    (setAccount bs a (d.commitAccount ord (bs.lookup a)).2).lookup a =
      (d.commitAccount ord (bs.lookup a)).2 := by
  cases h : (d.commitAccount ord (bs.lookup a)).2 with
  | none => exact commitAccount_none h
  | some b => exact lookup_insert bs

/-- What is recorded in the loop: each contract is committed as if it were the only one. -/
theorem foldl_commitStep_infos (hl : l.NodupKeys) (hcontract : ∀ e ∈ l, e.2.contract = e.1)
    (s : List PrevInfo × Buckets) :
    (l.foldl (commitStep ord) s).1 = s.1 ++ l.filterMap (infoOf ord s.2) := by
  induction l generalizing s with
  | nil => rw [filterMap_nil, append_nil, foldl_nil]
  | cons e l ih =>
    rw [nodupKeys_cons] at hl
    rw [foldl_cons, commitStep_eq (hcontract e mem_cons_self),
      ih hl.2 fun e' he' => hcontract e' (mem_cons_of_mem e he')]
    have htail : ∀ e' ∈ l, infoOf ord (setAccount s.2 e.1
        (e.2.commitAccount ord (s.2.lookup e.1)).2) e' = infoOf ord s.2 e' := by
      intro e' he'
      have hne : e'.1 ≠ e.1 := fun h => hl.1 (h ▸ mem_keys_of_mem he')
      rw [infoOf, infoOf, lookup_setAccount_ne hne]
    rw [filterMap_congr htail, filterMap_cons, append_assoc]
    cases infoOf ord s.2 e with
    | none => rfl
    | some i => rfl

theorem lookup_foldl_commitStep (hl : l.NodupKeys) (hcontract : ∀ e ∈ l, e.2.contract = e.1)
    (s : List PrevInfo × Buckets) (a : Address) :
    (l.foldl (commitStep ord) s).2.lookup a =
      (l.dlookup a).elim (s.2.lookup a) fun d => (d.commitAccount ord (s.2.lookup a)).2 := by
  induction l generalizing s with
  | nil => rfl
  | cons e l ih =>
    rw [nodupKeys_cons] at hl
    rw [foldl_cons, commitStep_eq (hcontract e mem_cons_self),
      ih hl.2 fun e' he' => hcontract e' (mem_cons_of_mem e he')]
    by_cases ha : a = e.1
    · subst ha
      rw [dlookup_eq_none.mpr hl.1, elim_none, lookup_setAccount_commit, dlookup_cons_eq]
      rfl
    · rw [lookup_setAccount_ne ha, dlookup_cons_ne _ _ ha]

/-- The way back over all contracts: each record is undone on its own contract, and the other
contracts stay. -/
theorem ends_undo_iff {R : Address → Option Account → Prop} :
    ∀ {infos : List PrevInfo} {bs : Buckets}, (infos.map addr).Nodup →
      (Ends (infos.foldlM undo bs) (fun bs' => ∀ a, R a (bs'.lookup a)) ↔
        (∀ i ∈ infos, Ends (i.undoAccount (bs.lookup i.addr)) (R i.addr)) ∧
          ∀ a, a ∉ infos.map addr → R a (bs.lookup a)) := by
  intro infos
  induction infos with
  | nil =>
    intro bs _
    rw [foldlM_nil, ends_pure_iff]
    simp
  | cons i infos ih =>
    intro bs hnodup
    rw [map_cons, nodup_cons] at hnodup
    -- the buckets after the first record
    have hput : ∀ acc, i.undoAccount (bs.lookup i.addr) = .ok acc →
        ∃ bs', undo bs i = .ok bs' ∧ bs'.lookup i.addr = acc ∧
          ∀ a, a ≠ i.addr → bs'.lookup a = bs.lookup a := by
      intro acc hacc
      cases acc with
      | none =>
        refine ⟨bs.erase i.addr, ?_, lookup_erase _ _, fun a ha => lookup_erase_ne ha⟩
        rw [undo, hacc]
        rfl
      | some b =>
        refine ⟨bs.insert i.addr b, ?_, lookup_insert _, fun a ha => lookup_insert_ne ha⟩
        rw [undo, hacc]
        rfl
    have hrest : ∀ acc bs', bs'.lookup i.addr = acc →
        (∀ a, a ≠ i.addr → bs'.lookup a = bs.lookup a) →
        (Ends (infos.foldlM undo bs') (fun bs'' => ∀ a, R a (bs''.lookup a)) ↔
          (∀ j ∈ infos, Ends (j.undoAccount (bs.lookup j.addr)) (R j.addr)) ∧ R i.addr acc ∧
            ∀ a, a ∉ (i :: infos).map addr → R a (bs.lookup a)) := by
      intro acc bs' hsame hother
      have hne : ∀ j ∈ infos, j.addr ≠ i.addr := fun j hj h =>
        hnodup.1 (h ▸ mem_map_of_mem hj)
      rw [ih hnodup.2]
      constructor
      · rintro ⟨hinfos, hR⟩
        refine ⟨fun j hj => hother j.addr (hne j hj) ▸ hinfos j hj, hsame ▸ hR i.addr hnodup.1,
          fun a ha => ?_⟩
        rw [map_cons, mem_cons, not_or] at ha
        exact hother a ha.1 ▸ hR a ha.2
      · rintro ⟨hinfos, hi, hR⟩
        refine ⟨fun j hj => (hother j.addr (hne j hj)).symm ▸ hinfos j hj, fun a ha => ?_⟩
        by_cases hai : a = i.addr
        · rw [hai, hsame]
          exact hi
        rw [hother a hai]
        refine hR a ?_
        rw [map_cons, mem_cons, not_or]
        exact ⟨hai, ha⟩
    rw [foldlM_cons, forall_mem_cons]
    constructor
    · rintro ⟨bs'', hrun, hR⟩
      obtain ⟨bs', hundo, hrun⟩ := of_bind hrun
      obtain ⟨acc, hacc, -⟩ := of_bind hundo
      obtain ⟨bs₁, hundo₁, hsame, hother⟩ := hput acc hacc
      rw [hundo₁] at hundo
      cases hundo
      obtain ⟨hinfos, hi, hR⟩ := (hrest acc bs' hsame hother).mp ⟨bs'', hrun, hR⟩
      exact ⟨⟨⟨acc, hacc, hi⟩, hinfos⟩, hR⟩
    · rintro ⟨⟨⟨acc, hacc, hi⟩, hinfos⟩, hR⟩
      obtain ⟨bs', hundo, hsame, hother⟩ := hput acc hacc
      rw [hundo, ok_bind]
      exact (hrest acc bs' hsame hother).mpr ⟨hinfos, hi, hR⟩

end Loops

/-! ## Token types -/

/-- The way back for one token type. -/
def OVM.undoNoted (v : OVM) (m : Map UInt64 Address) (e : (_ : UInt64) × Address) :
    Map UInt64 Address :=
  (v.rollbackType e).elim m (undoType m)

theorem foldl_undoNoted (v : OVM) (l : List ((_ : UInt64) × Address)) (m : Map UInt64 Address) :
    (l.filterMap v.rollbackType).foldl undoType m = l.foldl v.undoNoted m := by
  rw [foldl_filterMap]
  congr 1
  funext m e
  rw [OVM.undoNoted]
  cases v.rollbackType e with
  | none => rfl
  | some rb => rfl

/-- What is written about token types, and what the rollback makes of it: the owner that the machine
has noted. -/
theorem lookup_undoTypes (ord : Orders) (v : OVM) (m : Map UInt64 Address) (t : UInt64) :
    (((ord.types.run v.tokenTypes.entries).filterMap v.rollbackType).foldl undoType
      ((ord.issues.run v.tokenTypes.entries).foldl (fun m e => m.insert e.1 e.2) m)).lookup t =
      if (v.tokenTypes.lookup t).isSome then v.existingTokenTypes.lookup t else m.lookup t := by
  have hissue : ((ord.issues.run v.tokenTypes.entries).foldl
      (fun m e => m.insert e.1 e.2) m).lookup t = (v.tokenTypes.lookup t).elim (m.lookup t) some :=
    lookup_foldl_perm (f := fun m (e : (_ : UInt64) × Address) => m.insert e.1 e.2)
      (g := fun _ a _ => some a) (fun m e k => lookup_insert_ite m e.1 k e.2)
      (ord.issues.perm _) m t
  have hundo := lookup_foldl_perm (f := v.undoNoted)
    (g := fun t a old => (v.existingTokenTypes.lookup t).elim none fun a' =>
      if a = a' then old else some a')
    (fun m e k => by
      simp only [OVM.undoNoted, OVM.rollbackType]
      cases hnoted : v.existingTokenTypes.lookup e.1 with
      | none =>
        refine (lookup_erase_ite m e.1 k).trans (if_ctx_congr .rfl (fun hk => ?_) fun _ => rfl)
        rw [hk, hnoted, elim_none]
      | some a =>
        by_cases ha : e.2 = a
        · simp only [if_pos ha, elim_none]
          split
          · rename_i hk
            rw [hk, hnoted]
            exact (if_pos ha).symm
          · rfl
        · simp only [if_neg ha]
          refine (lookup_insert_ite m e.1 k a).trans (if_ctx_congr .rfl (fun hk => ?_) fun _ => rfl)
          rw [hk, hnoted]
          exact (if_neg ha).symm)
    (ord.types.perm v.tokenTypes.entries)
  rw [foldl_undoNoted, hundo, hissue]
  cases v.tokenTypes.lookup t with
  | none => rfl
  | some a =>
    cases v.existingTokenTypes.lookup t with
    | none => rfl
    | some a' =>
      by_cases ha : a = a'
      · simp [ha]
      · simp [ha]

/-! ## A block -/

/-- The same contents of all buckets, the same owners of token types and the same last block. -/
def SameDatabase (db db' : Database) : Prop :=
  (∀ a, SameAccount (db.buckets.lookup a) (db'.buckets.lookup a)) ∧
    (∀ t, db'.issuedTokens.lookup t = db.issuedTokens.lookup t) ∧ db'.version = db.version

/-- The commit writes all that is pending and nothing else, and the rollback of the block restores
the database. -/
def OVM.CommitsAndRollsBack (ord : Orders) (v : OVM) (db : Database) : Prop :=
  (∀ a, (v.stateDB.lookup a).elim
    ((v.commit ord db).2.buckets.lookup a = db.buckets.lookup a)
    fun d => d.Complete db.buckets ((v.commit ord db).2.buckets.lookup a)) ∧
  Ends ((v.commit ord db).1.rollback (v.commit ord db).2) fun r => SameDatabase db r.2

/-- The block can be committed and rolled back: all caches are clean, and the owner that the machine
has noted for a token type is the one in the database. -/
def OVM.Clean (v : OVM) (db : Database) : Prop :=
  (∀ a d, v.stateDB.lookup a = some d → d.Clean) ∧
    (v.stateDB.entries ≠ [] → ∀ t, (v.tokenTypes.lookup t).isSome →
      v.existingTokenTypes.lookup t = db.issuedTokens.lookup t)

/-- What is pending in a block: caches that have been filled on top of the database, for a block
above the last one. -/
structure OVM.Pending (v : OVM) (db : Database) : Prop where
  contract : ∀ a d, v.stateDB.lookup a = some d → d.contract = a
  produced : ∀ a d, v.stateDB.lookup a = some d → Produced db.buckets d
  lastBlock : v.lastBlock = db.version
  above : db.version < v.blockNumber

theorem sameAccount_refl (acc : Option Account) : SameAccount acc acc := by
  cases acc with
  | none => trivial
  | some b => exact ⟨fun _ => rfl, fun _ => rfl⟩

theorem sameDatabase_refl (db : Database) : SameDatabase db db :=
  ⟨fun _ => sameAccount_refl _, fun _ => rfl, rfl⟩

section Block

variable {ord : Orders} {v : OVM} {db : Database}

/-- The records of the contracts. -/
def OVM.infos (ord : Orders) (v : OVM) (db : Database) : List PrevInfo :=
  (ord.states.run v.stateDB.entries).filterMap (infoOf ord db.buckets)

/-- The buckets after the commit. -/
def OVM.bucketsAfter (ord : Orders) (v : OVM) (db : Database) : Buckets :=
  ((ord.states.run v.stateDB.entries).foldl (commitStep ord) ([], db.buckets)).2

theorem OVM.nodupKeys_run : (ord.states.run v.stateDB.entries).NodupKeys :=
  (perm_nodupKeys (ord.states.perm _)).mpr v.stateDB.nodupKeys

theorem mem_infos {i : PrevInfo} : i ∈ v.infos ord db ↔
    ∃ a d, v.stateDB.lookup a = some d ∧ infoOf ord db.buckets ⟨a, d⟩ = some i := by
  rw [OVM.infos, mem_filterMap]
  constructor
  · rintro ⟨e, he, hi⟩
    exact ⟨e.1, e.2, mem_lookup_iff.mpr ((ord.states.mem_run).mp he), hi⟩
  · rintro ⟨a, d, hd, hi⟩
    exact ⟨⟨a, d⟩, (ord.states.mem_run).mpr (mem_lookup_iff.mp hd), hi⟩

theorem infoOf_addr {bs : Buckets} {e : (_ : Address) × StateDB} {i : PrevInfo}
    (h : infoOf ord bs e = some i) : i.addr = e.1 := by
  rw [infoOf] at h
  split at h
  · cases h
    rfl
  · cases h

theorem nodup_infos : ((v.infos ord db).map addr).Nodup := by
  have hkeys : ((v.infos ord db).map addr).Sublist
      (ord.states.run v.stateDB.entries).keys := by
    rw [OVM.infos]
    induction ord.states.run v.stateDB.entries with
    | nil => exact List.Sublist.refl _
    | cons e l ih =>
      rw [filterMap_cons, keys_cons]
      cases hi : infoOf ord db.buckets e with
      | none => exact ih.cons e.1
      | some i =>
        rw [map_cons, infoOf_addr hi]
        exact ih.cons_cons e.1
  exact hkeys.nodup OVM.nodupKeys_run

variable (hv : v.Pending db)

include hv

theorem OVM.Pending.contract_of_mem :
    ∀ e ∈ ord.states.run v.stateDB.entries, e.2.contract = e.1 := by
  intro e he
  exact hv.contract e.1 e.2 (mem_lookup_iff.mpr ((ord.states.mem_run).mp he))

theorem OVM.Pending.lookup_bucketsAfter (a : Address) :
    (v.bucketsAfter ord db).lookup a = (v.stateDB.lookup a).elim (db.buckets.lookup a)
      fun d => (d.commitAccount ord (db.buckets.lookup a)).2 := by
  have hlookup : (ord.states.run v.stateDB.entries).dlookup a = v.stateDB.lookup a :=
    perm_dlookup a OVM.nodupKeys_run (ord.states.perm _)
  rw [OVM.bucketsAfter, lookup_foldl_commitStep OVM.nodupKeys_run hv.contract_of_mem, hlookup]

/-- The commit of a block with contracts. -/
theorem OVM.Pending.commit_eq (hne : v.stateDB.entries ≠ []) :
    v.commit ord db =
      ({ v with
          stateDB := ∅
          tokenTypes := ∅
          existingTokenTypes := ∅
          lastBlock := v.blockNumber },
        { buckets := v.bucketsAfter ord db
          issuedTokens := (ord.issues.run v.tokenTypes.entries).foldl
            (fun m e => m.insert e.1 e.2) db.issuedTokens
          lastCommitBlock := some v.blockNumber
          rollbacks := db.rollbacks.insert v.blockNumber ⟨db.version, v.infos ord db,
            (ord.types.run v.tokenTypes.entries).filterMap v.rollbackType⟩ }) := by
  have hinfos : ((ord.states.run v.stateDB.entries).foldl (commitStep ord) ([], db.buckets)).1 =
      v.infos ord db := by
    rw [foldl_commitStep_infos OVM.nodupKeys_run hv.contract_of_mem, nil_append]
    rfl
  rw [OVM.commit, if_neg hne, if_neg (UInt64.not_le.mpr hv.above)]
  simp only [hinfos]
  rfl

/-- The rollback leads back when the records do, and the noted owners are those of the database. -/
theorem OVM.Pending.rollback_iff (hne : v.stateDB.entries ≠ []) :
    Ends ((v.commit ord db).1.rollback (v.commit ord db).2) (fun r => SameDatabase db r.2) ↔
      Ends ((v.infos ord db).foldlM undo (v.bucketsAfter ord db))
        (fun bs => ∀ a, SameAccount (db.buckets.lookup a) (bs.lookup a)) ∧
      ∀ t, (v.tokenTypes.lookup t).isSome →
        v.existingTokenTypes.lookup t = db.issuedTokens.lookup t := by
  rw [hv.commit_eq hne, OVM.rollback, if_neg (not_not_intro rfl)]
  simp only [lookup_insert]
  constructor
  · rintro ⟨r, hrun, hbuckets, htokens, -⟩
    obtain ⟨bs, hundo, hrun⟩ := of_bind hrun
    cases hrun
    refine ⟨⟨bs, hundo, hbuckets⟩, fun t ht => ?_⟩
    rw [← htokens t, lookup_undoTypes, if_pos ht]
  · rintro ⟨⟨bs, hundo, hbuckets⟩, htokens⟩
    rw [hundo, ok_bind]
    refine ends_ok ⟨hbuckets, fun t => ?_, rfl⟩
    rw [lookup_undoTypes]
    split
    · exact htokens t ‹_›
    · rfl

/-- The block is committed and undone contract by contract. -/
theorem OVM.Pending.contracts_iff :
    ((∀ a, (v.stateDB.lookup a).elim
        ((v.bucketsAfter ord db).lookup a = db.buckets.lookup a)
        fun d => d.Complete db.buckets ((v.bucketsAfter ord db).lookup a)) ∧
      Ends ((v.infos ord db).foldlM undo (v.bucketsAfter ord db))
        (fun bs => ∀ a, SameAccount (db.buckets.lookup a) (bs.lookup a))) ↔
      ∀ a d, v.stateDB.lookup a = some d → d.Commits ord db.buckets := by
  have hafter : ∀ {a d}, v.stateDB.lookup a = some d →
      (v.bucketsAfter ord db).lookup a =
        (d.commitAccount ord (db.buckets.lookup d.contract)).2 := by
    intro a d hd
    rw [hv.lookup_bucketsAfter, hd, hv.contract a d hd]
    rfl
  rw [ends_undo_iff (R := fun a => SameAccount (db.buckets.lookup a)) nodup_infos]
  constructor
  · rintro ⟨hcomplete, hinfos, hothers⟩ a d hd
    have hfull := hcomplete a
    rw [hd, elim_some, hafter hd] at hfull
    refine ⟨hfull, ?_⟩
    have haddr := hv.contract a d hd
    subst haddr
    split
    · rename_i hrecorded
      have hundo := hinfos _ (mem_infos.mpr ⟨d.contract, d, hd, if_pos hrecorded⟩)
      rw [hafter hd] at hundo
      exact hundo
    rename_i hunrecorded
    rw [← hafter hd]
    refine hothers d.contract fun hmem => ?_
    obtain ⟨i, hi, haddr⟩ := mem_map.mp hmem
    obtain ⟨a', d', hd', hinfo⟩ := mem_infos.mp hi
    have ha' : a' = d.contract := (infoOf_addr hinfo).symm.trans haddr
    subst ha'
    rw [hd] at hd'
    cases hd'
    rw [infoOf, if_neg hunrecorded] at hinfo
    cases hinfo
  · intro hcommits
    refine ⟨fun a => ?_, fun i hi => ?_, fun a ha => ?_⟩
    · cases hd : v.stateDB.lookup a with
      | none =>
        rw [elim_none, hv.lookup_bucketsAfter, hd]
        rfl
      | some d =>
        rw [elim_some, hafter hd]
        exact (hcommits a d hd).1
    · obtain ⟨a, d, hd, hinfo⟩ := mem_infos.mp hi
      have haddr := hv.contract a d hd
      subst haddr
      have hundo := (hcommits d.contract d hd).2
      rw [infoOf] at hinfo
      split at hinfo
      · rename_i hrecorded
        rw [if_pos hrecorded, ← hafter hd] at hundo
        cases hinfo
        exact hundo
      · cases hinfo
    · cases hd : v.stateDB.lookup a with
      | none =>
        rw [hv.lookup_bucketsAfter, hd]
        exact sameAccount_refl _
      | some d =>
        have haddr := hv.contract a d hd
        subst haddr
        have hundo := (hcommits d.contract d hd).2
        split at hundo
        · rename_i hrecorded
          have hinfo := mem_infos.mpr ⟨d.contract, d, hd, if_pos hrecorded⟩
          exact absurd (mem_map_of_mem (f := addr) hinfo) ha
        · rw [hafter hd]
          exact hundo

omit hv in
/-- **Commit and rollback of a block.** The commit writes everything that is pending, and the
rollback restores the database, exactly when the block is clean. -/
theorem commit_rollback_iff (ord : Orders) (v : OVM) (db : Database) (hv : v.Pending db) :
    v.CommitsAndRollsBack ord db ↔ v.Clean db := by
  by_cases hne : v.stateDB.entries = []
  · -- nothing is done for a block without contracts
    have hnone : ∀ a, v.stateDB.lookup a = none := by
      intro a
      rw [lookup_eq_none, AList.mem_keys, AList.keys, hne]
      exact not_mem_nil
    have hcommit : v.commit ord db = (v, db) := by rw [OVM.commit, if_pos hne]
    have hblock : v.blockNumber ≠ v.lastBlock := by
      rw [hv.lastBlock]
      exact (UInt64.ne_of_lt hv.above).symm
    refine ⟨fun _ => ⟨fun a d hd => ?_, fun h => absurd hne h⟩, fun _ => ⟨fun a => ?_, ?_⟩⟩
    · rw [hnone a] at hd
      cases hd
    · rw [hcommit, hnone a]
      rfl
    · rw [hcommit, OVM.rollback, if_pos hblock]
      exact ends_ok (sameDatabase_refl db)
  · have hbuckets : (v.commit ord db).2.buckets = v.bucketsAfter ord db := by
      rw [hv.commit_eq hne]
    have hclean : (∀ a d, v.stateDB.lookup a = some d → d.Commits ord db.buckets) ↔
        ∀ a d, v.stateDB.lookup a = some d → d.Clean :=
      forall_congr' fun a => forall_congr' fun d => imp_congr_right fun hd =>
        commits_iff (hv.produced a d hd).coherent
    rw [OVM.CommitsAndRollsBack, hv.rollback_iff hne, ← and_assoc, hbuckets, hv.contracts_iff,
      hclean, OVM.Clean]
    exact and_congr_right fun _ => ⟨fun h _ => h, fun h => h hne⟩

end Block

/-! ## Samples -/

open StateDB (usageKey quotaKey)

theorem eq_of_lookup_single {κ ν : Type} [DecidableEq κ] {k k' : κ} {v v' : ν}
    (h : AList.lookup k' ((∅ : Map κ ν).insert k v) = some v') : k' = k ∧ v' = v := by
  obtain heq | ⟨-, ⟨⟩⟩ := lookup_insert_cases h
  exact heq

/-- A contract that keeps a value of two bytes under `key`. -/
def keeping (key : Key) : Database where
  buckets := (∅ : Buckets).insert 1
    { contract := ((∅ : Bucket).insert usageKey [2, 0, 0, 0]).insert quotaKey [2, 0, 0, 0]
      storage := (∅ : Bucket).insert key [1, 2] }
  issuedTokens := ∅
  lastCommitBlock := some 4
  rollbacks := ∅

/-- The caches after the value has been read and replaced by another one of two bytes: the usage
has been read and stays. -/
def replacing (key : Key) : StateDB :=
  { newStateDB 1 with
    data := (∅ : Map Key Entry).insert key ⟨some [1, 2], some [3, 4]⟩
    metas := (∅ : Map Key Entry).insert usageKey ⟨some [2, 0, 0, 0], some [2, 0, 0, 0]⟩ }

/-- The block that has replaced the value. -/
def replacingBlock (key : Key) : OVM where
  stateDB := (∅ : Map Address StateDB).insert 1 (replacing key)
  tokenTypes := ∅
  existingTokenTypes := ∅
  lastBlock := 4
  blockNumber := 5

theorem pending_replacingBlock {key : Key}
    (hrun : [Change.state (.get key), .state (.set key [3, 4])].foldlM
      (fun d c => c.run (keeping key).buckets d) (newStateDB 1) = .ok (replacing key)) :
    (replacingBlock key).Pending (keeping key) where
  contract a d hd := by
    obtain ⟨rfl, rfl⟩ := eq_of_lookup_single hd
    rfl
  produced a d hd := by
    obtain ⟨rfl, rfl⟩ := eq_of_lookup_single hd
    obtain ⟨d₁, hget, hrun⟩ := of_bind hrun
    obtain ⟨d₂, hset, hrun⟩ := of_bind hrun
    cases hrun
    have hlive : Bucket.get (((∅ : Bucket).insert usageKey [2, 0, 0, 0]).insert quotaKey
        [2, 0, 0, 0]) suicidedKey = none := by decide +kernel
    exact .step (.step (.load (lookup_insert ∅) hlive) hget) hset
  lastBlock := rfl
  above := show (4 : UInt64) < 5 by decide

/-- A value under a key of its own is committed, and the rollback restores the old one. -/
theorem replacing_commits :
    (replacingBlock [7]).Pending (keeping [7]) ∧
      (replacingBlock [7]).CommitsAndRollsBack .stored (keeping [7]) := by
  have hpending : (replacingBlock [7]).Pending (keeping [7]) := pending_replacingBlock rfl
  refine ⟨hpending, (commit_rollback_iff .stored _ _ hpending).mpr ⟨fun a d hd => ?_, ?_⟩⟩
  · obtain ⟨rfl, rfl⟩ := eq_of_lookup_single hd
    refine .inr ⟨fun k e m he hm => ?_, fun k e he => ?_, nofun⟩
    · obtain ⟨rfl, -⟩ := eq_of_lookup_single he
      obtain ⟨hk, -⟩ := eq_of_lookup_single hm
      exact absurd hk (by decide)
    · obtain he | he := he
      · obtain ⟨rfl, rfl⟩ := eq_of_lookup_single he
        exact ⟨by decide, nofun⟩
      · obtain ⟨rfl, rfl⟩ := eq_of_lookup_single he
        exact ⟨by decide, nofun⟩
  · intro _ t ht
    cases ht

/-- **A storage key with the name of an unchanged entry about the contract is not written.** The
value under the storage key `usage` is replaced, and the old one is still there after the commit. -/
theorem commit_loses_write :
    (replacingBlock usageKey).Pending (keeping usageKey) ∧
      (replacing usageKey).committed (keeping usageKey).buckets usageKey = some [3, 4] ∧
      (((replacingBlock usageKey).commit .stored (keeping usageKey)).2.buckets.lookup 1).map
        (fun b => b.storage.get usageKey) = some (some [1, 2]) ∧
      ¬(replacingBlock usageKey).CommitsAndRollsBack .stored (keeping usageKey) := by
  have hpending : (replacing usageKey).committed (keeping usageKey).buckets usageKey =
      some [3, 4] := by decide +kernel
  have hafter : (((replacingBlock usageKey).commit .stored (keeping usageKey)).2.buckets.lookup
      1).map (fun b => b.storage.get usageKey) = some (some [1, 2]) := by decide +kernel
  refine ⟨pending_replacingBlock rfl, hpending, hafter, fun h => ?_⟩
  obtain ⟨b, hb, hvalue⟩ := map_eq_some_iff.mp hafter
  have hcomplete := h.1 1
  rw [hb] at hcomplete
  have hstored := hcomplete.1 usageKey
  rw [hvalue, hpending] at hstored
  cases hstored

end Zent.Ovm
