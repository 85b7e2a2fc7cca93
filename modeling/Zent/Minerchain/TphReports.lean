import Zent.Minerchain.Solver

/-!
# Reports of transactions per hour

A miner block reports the transactions per hour of the miners before it. `reportNotice` records the
reports of a block when it is connected to the best branch and removes them when it is disconnected,
so two nodes with the same miner blocks and different best branches have different records, and
`checkProofOfWork` reads them.
-/

namespace Zent.Minerchain

open Go List Option AList

/-- `NTBlockConnected` and `NTBlockDisconnected` -/
inductive NotificationType where
  | blockConnected
  | blockDisconnected

/-- What is done with one report about the miner `w`. -/
def record (note : NotificationType) (w : Address) (height : UInt32) (report : Address × UInt32)
    (db : Reports) : Reports :=
  match note with
  | .blockConnected => db.insert (w, height) report
  | .blockDisconnected => db.erase (w, height)

/-- The loop over the reports of a block, along its ancestors. It ends at a miner that was met
before. -/
def reportLoop (note : NotificationType) (height : UInt32) (reporter : Address) :
    List UInt32 → List PowHeader → List Address → Reports → Result Reports
  | [], _, _, db => .ok db
  -- there is no node to read
  | _ :: _, [], _, _ => crash
  | r :: rs, n :: parents, checked, db =>
    if n.miner ∈ checked then .ok db
    else reportLoop note height reporter rs parents (n.miner :: checked)
      (record note n.miner height (reporter, r) db)

/-- `reportNotice`, for a block of the best branch. -/
def reportNotice (note : NotificationType) (block : PowHeader) (parents : List PowHeader)
    (db : Reports) : Result Reports :=
  reportLoop note block.height.toUInt32 block.miner block.tphReports parents [] db

/-- The histories of a node: its best branch, genesis last, and its records. A read can trim the
records, if `trims`. -/
inductive Recording (env : PowChain) (trims : Bool) : List PowHeader → Reports → Prop where
  | genesis {g : PowHeader} : env.lookupNode g.hash = some (g, []) → g.height = 0 →
    Recording env trims [g] ∅
  | connect {x n : PowHeader} {p : List PowHeader} {db db' : Reports} :
    Recording env trims (n :: p) db → env.lookupNode x.hash = some (x, n :: p) →
    x.prevBlock = n.hash → x.height.toInt = n.height.toInt + 1 →
    reportNotice .blockConnected x (n :: p) db = .ok db' → Recording env trims (x :: n :: p) db'
  | disconnect {x n : PowHeader} {p : List PowHeader} {db db' : Reports} :
    Recording env trims (x :: n :: p) db →
    reportNotice .blockDisconnected x (n :: p) db = .ok db' → Recording env trims (n :: p) db'
  | read {p : List PowHeader} {db : Reports} (miner : Address) (h : UInt32) :
    Recording env trims p db → trims = true ∨ (reportsUpTo db miner h).length ≤ 1000 →
    Recording env trims p (tpsReportFromDB db miner h).2

/-- A node with the miner blocks and the transaction chain of `env`. -/
structure PowNode (env : PowChain) where
  best : List PowHeader
  reports : Reports
  reached : Recording env true best reports

/-- The verdict of a node on a header. -/
def PowNode.accepts {env : PowChain} (node : PowNode env) (header : PowHeader)
    (flags : BehaviorFlags) : Bool :=
  succeeds (checkProofOfWork env node.reports header flags)

/-- The nodes agree on the header, whatever its hash. -/
def SameVerdict {env : PowChain} (a b : PowNode env) (header : PowHeader) (flags : BehaviorFlags) :
    Prop :=
  ∀ hash, a.accepts { header with hash } flags = b.accepts { header with hash } flags

/-! ## When two nodes agree -/

variable {env : PowChain} {db db' : Reports} {header prev x n : PowHeader}
  {p parents : List PowHeader} {flags : BehaviorFlags} {trims : Bool}

/-- The hash has no part in the tests before the work. -/
theorem Weighed.hash {v : UInt32} (h : Weighed env header flags prev v) (hash : Hash) :
    Weighed env { header with hash } flags prev v :=
  ⟨h.pos, h.le, h.checked, h.parent, h.collateral⟩

theorem PowNode.accepts_iff {a : PowNode env} {v : UInt32} (h : Weighed env header flags prev v) :
    a.accepts header flags = true ↔
      hashToBig header.hash ≤ headerLimit env a.reports header prev flags v := by
  rw [PowNode.accepts, succeeds_iff, ← h.ok_iff]
  exact ⟨fun ⟨_, hu⟩ => hu, fun hu => ⟨(), hu⟩⟩

theorem hashLimit_le (hp : 0 ≤ env.powLimit) (target : Int) (factor h : Int64) :
    hashLimit env.powLimit target factor h ≤ env.powLimit := by
  rw [hashLimit]
  split
  case isTrue hpos =>
    have hint : 0 < factor.toInt := Int64.lt_iff_toInt_lt.mp hpos
    calc min (target * h.toInt) env.powLimit / factor.toInt
        ≤ env.powLimit / factor.toInt := Int.ediv_le_ediv hint (min_le_right _ _)
      _ ≤ env.powLimit := Int.ediv_le_self _ hp
  · exact min_le_right _ _

/-- The header is not weighed, or the two limits admit the same hashes. -/
def SameLimit (env : PowChain) (a b : PowNode env) (header : PowHeader) (flags : BehaviorFlags) :
    Prop :=
  ∀ prev v, Weighed env header flags prev v →
    max (headerLimit env a.reports header prev flags v) (-1) =
      max (headerLimit env b.reports header prev flags v) (-1)

/-- **When two nodes agree** on the headers that differ in the hash only: if the work of such a
header is looked at, the largest hash that passes has to be the same by the records of both. -/
theorem sameVerdict_iff (env : PowChain) (a b : PowNode env) (header : PowHeader)
    (flags : BehaviorFlags) : SameVerdict a b header flags ↔ SameLimit env a b header flags := by
  constructor
  · intro h prev v hweighed
    refine limit_eq_of_forall ?_ ?_ fun hash => ?_
    · exact (hashLimit_le env.powLimit_nonneg _ _ _).trans_lt env.powLimit_lt
    · exact (hashLimit_le env.powLimit_nonneg _ _ _).trans_lt env.powLimit_lt
    · have hsame := Bool.eq_iff_iff.mp (h hash)
      rw [PowNode.accepts_iff (hweighed.hash hash),
        PowNode.accepts_iff (hweighed.hash hash)] at hsame
      exact hsame
  · intro h hash
    by_cases hweighed : ∃ prev v, Weighed env header flags prev v
    · obtain ⟨prev, v, hweighed⟩ := hweighed
      have hlimit := h prev v hweighed
      have hnonneg : 0 ≤ hashToBig hash := Int.natCast_nonneg _
      rw [Bool.eq_iff_iff, PowNode.accepts_iff (hweighed.hash hash),
        PowNode.accepts_iff (hweighed.hash hash)]
      have hiff : hashToBig hash ≤ headerLimit env a.reports header prev flags v ↔
          hashToBig hash ≤ headerLimit env b.reports header prev flags v := by omega
      exact hiff
    · refine congrArg succeeds (checkProofOfWork_congr fun prev v hw => hweighed ⟨prev, v, ?_⟩)
      exact hw.hash header.hash

/-! ## What the records hold -/

/-- What a block reports of a miner. -/
def reportOf (w : Address) : List UInt32 → List PowHeader → List Address → Option UInt32
  | r :: rs, n :: parents, checked =>
    if n.miner ∈ checked then none
    else if n.miner = w then some r
    else reportOf w rs parents (n.miner :: checked)
  | _, _, _ => none

/-- What a branch has recorded of a miner at a height. -/
def recordedAt (w : Address) (k : UInt32) : List PowHeader → Option (Address × UInt32)
  | [] => none
  | x :: parents =>
    if k = x.height.toUInt32 then (reportOf w x.tphReports parents []).map (x.miner, ·)
    else recordedAt w k parents

variable {w : Address} {k height : UInt32} {reporter : Address}

theorem reportOf_cons {r : UInt32} {rs : List UInt32} {ps : List PowHeader} {checked : List Address}
    (hn : n.miner ∉ checked) : reportOf w (r :: rs) (n :: ps) checked =
      if n.miner = w then some r else reportOf w rs ps (n.miner :: checked) := by
  simp only [reportOf, if_neg hn]

theorem recordedAt_self : recordedAt w x.height.toUInt32 (x :: p) =
    (reportOf w x.tphReports p []).map (x.miner, ·) := by
  simp only [recordedAt, if_true]

theorem recordedAt_of_ne (hk : k ≠ x.height.toUInt32) :
    recordedAt w k (x :: p) = recordedAt w k p := by
  simp only [recordedAt, if_neg hk]

theorem reportOf_checked : ∀ {rs : List UInt32} {ps : List PowHeader} {checked : List Address},
    w ∈ checked → reportOf w rs ps checked = none
  | [], _, _, _ => by simp only [reportOf]
  | _ :: _, [], _, _ => by simp only [reportOf]
  | r :: rs, n :: ps, checked, hw => by
    by_cases hn : n.miner ∈ checked
    · simp only [reportOf, if_pos hn]
    · have hne : n.miner ≠ w := fun heq => hn (heq ▸ hw)
      rw [reportOf_cons hn, if_neg hne, reportOf_checked (mem_cons_of_mem _ hw)]

theorem lookup_record_ne {note : NotificationType} {key key' : Address × UInt32}
    {report : Address × UInt32} (hkey : key ≠ key') :
    (record note key'.1 key'.2 report db).lookup key = db.lookup key := by
  cases note with
  | blockConnected => exact lookup_insert_ne hkey
  | blockDisconnected => exact lookup_erase_ne hkey

theorem lookup_record_self (note : NotificationType) (report : Address × UInt32) (db : Reports) :
    (record note w k report db).lookup (w, k) = (record note w k report ∅).lookup (w, k) := by
  cases note with
  | blockConnected => rw [record, record, lookup_insert, lookup_insert]
  | blockDisconnected => rw [record, record, lookup_erase, lookup_erase]

/-- The records after a block has been connected or disconnected. -/
theorem lookup_reportLoop {note : NotificationType} : ∀ {rs : List UInt32} {ps : List PowHeader}
    {checked : List Address} {db db' : Reports},
    reportLoop note height reporter rs ps checked db = .ok db' → db'.lookup (w, k) =
      match if k = height then reportOf w rs ps checked else none with
      | none => db.lookup (w, k)
      | some r => (record note w k (reporter, r) ∅).lookup (w, k)
  | [], _, _, db, db', h => by
    cases h
    simp only [reportOf, ite_self]
  | _ :: _, [], _, _, _, h => by cases h
  | r :: rs, n :: ps, checked, db, db', h => by
    simp only [reportLoop] at h
    split at h
    case isTrue hn =>
      cases h
      simp only [reportOf, if_pos hn, ite_self]
    rename_i hn
    rw [lookup_reportLoop h, reportOf_cons hn]
    by_cases hk : k = height
    · subst hk
      by_cases hw : n.miner = w
      · subst hw
        simp only [if_true, reportOf_checked mem_cons_self]
        exact lookup_record_self note _ db
      · have hkey : (w, k) ≠ (n.miner, k) := fun heq => hw (congrArg Prod.fst heq).symm
        simp only [if_true, if_neg hw, lookup_record_ne hkey]
    · have hkey : (w, k) ≠ (n.miner, height) := fun heq => hk (congrArg Prod.snd heq)
      simp only [if_neg hk, lookup_record_ne hkey]

/-- The heights go up by one from genesis. -/
inductive Climbs : List PowHeader → Prop where
  | genesis {g : PowHeader} : g.height = 0 → Climbs [g]
  | block {x n : PowHeader} {p : List PowHeader} : Climbs (n :: p) →
    x.height.toInt = n.height.toInt + 1 → Climbs (x :: n :: p)

theorem Climbs.tail (h : Climbs (x :: n :: p)) : Climbs (n :: p) := by
  cases h with
  | block hp _ => exact hp

theorem Climbs.height_nonneg : ∀ {p : List PowHeader} {x : PowHeader}, Climbs (x :: p) →
    0 ≤ x.height.toInt
  | _, _, .genesis hg => by
    rw [hg]
    decide
  | _, _, .block hp hx => by
    have hlow := hp.height_nonneg
    omega

theorem Climbs.lt_of_mem : ∀ {p : List PowHeader} {x : PowHeader}, Climbs (x :: p) →
    ∀ y ∈ p, 0 ≤ y.height.toInt ∧ y.height.toInt < x.height.toInt
  | _, _, .genesis _, y, hy => by cases hy
  | _, _, .block hp hx, y, hy => by
    rcases mem_cons.mp hy with rfl | hy
    · exact ⟨hp.height_nonneg, by omega⟩
    · obtain ⟨hlow, hhigh⟩ := hp.lt_of_mem y hy
      exact ⟨hlow, by omega⟩

theorem toNat_toUInt32 {i : Int32} (h : 0 ≤ i.toInt) : i.toUInt32.toNat = i.toInt.toNat := by
  have hint : i.toInt = i.toBitVec.toInt := rfl
  have hnat : i.toUInt32.toNat = i.toBitVec.toNat := rfl
  have hcond := BitVec.toInt_eq_toNat_cond i.toBitVec
  split at hcond <;> omega

theorem Climbs.lt_height {y : PowHeader} (h : Climbs (x :: p)) (hy : y ∈ p) :
    y.height.toUInt32 < x.height.toUInt32 := by
  obtain ⟨hlow, hhigh⟩ := h.lt_of_mem y hy
  rw [UInt32.lt_iff_toNat_lt, toNat_toUInt32 h.height_nonneg, toNat_toUInt32 hlow]
  omega

/-- Ancestors have recorded nothing at the height of a block. -/
theorem recordedAt_eq_none (h : ∀ y ∈ p, y.height.toUInt32 < k) : recordedAt w k p = none := by
  induction p with
  | nil => rfl
  | cons y p ih =>
    rw [recordedAt_of_ne (UInt32.ne_of_lt (h y mem_cons_self)).symm]
    exact ih fun z hz => h z (mem_cons_of_mem y hz)

theorem Recording.climbs (h : Recording env trims p db) : Climbs p := by
  induction h with
  | genesis _ hg => exact .genesis hg
  | connect _ _ _ hx _ ih => exact .block ih hx
  | disconnect _ _ ih => exact ih.tail
  | read _ _ _ _ ih => exact ih

/-- **While nothing is trimmed, the records are those of the best branch**, whatever blocks were
connected and disconnected on the way. -/
theorem Recording.lookup_eq (h : Recording env false p db) :
    db.lookup (w, k) = recordedAt w k p := by
  induction h with
  | @genesis g _ _ =>
    have hnone : reportOf w g.tphReports [] [] = none := by cases g.tphReports <;> rfl
    simp only [recordedAt, hnone, map_none, ite_self]
    exact lookup_empty (w, k)
  | @connect x n p db db' hrec hknown hprev hheight hnotice ih =>
    rw [lookup_reportLoop hnotice, ih]
    by_cases hk : k = x.height.toUInt32
    · rw [if_pos hk, hk, recordedAt_self,
        recordedAt_eq_none fun y => (Climbs.block hrec.climbs hheight).lt_height]
      cases reportOf w x.tphReports (n :: p) [] with
      | none => rfl
      | some r => exact lookup_insert _
    · rw [if_neg hk, recordedAt_of_ne hk]
  | @disconnect x n p db db' hrec hnotice ih =>
    rw [lookup_reportLoop hnotice, ih]
    by_cases hk : k = x.height.toUInt32
    · rw [if_pos hk, hk, recordedAt_eq_none fun y => hrec.climbs.lt_height, recordedAt_self]
      cases reportOf w x.tphReports (n :: p) [] with
      | none => rfl
      | some r => exact lookup_erase _ _
    · rw [if_neg hk, recordedAt_of_ne hk]
  | @read p db miner h hrec hlen ih =>
    have hdrop : (reportsUpTo db miner h).drop 1000 = [] :=
      drop_eq_nil_of_le (hlen.resolve_left Bool.false_ne_true)
    rw [tpsReportFromDB, hdrop]
    exact ih

/-- Up to the height of a block of the branch, the block and its ancestors have recorded all. -/
theorem Climbs.recordedAt_suffix : ∀ {best : List PowHeader}, Climbs best → x :: p <:+ best →
    k ≤ x.height.toUInt32 → recordedAt w k best = recordedAt w k (x :: p)
  | y :: best, hbest, hsuffix, hk => by
    rcases suffix_cons_iff.mp hsuffix with heq | hsuffix
    · rw [heq]
    have hlt := UInt32.lt_of_le_of_lt hk (hbest.lt_height (hsuffix.subset mem_cons_self))
    rw [recordedAt_of_ne (UInt32.ne_of_lt hlt)]
    cases best with
    | nil => exact absurd (suffix_nil.mp hsuffix) (cons_ne_nil x p)
    | cons z best => exact hbest.tail.recordedAt_suffix hsuffix hk

variable {miner : Address} {h : UInt32}

theorem readReport_eq_some {r : TPSrv} {e : (_ : Address × UInt32) × (Address × UInt32)} :
    readReport miner h e = some r ↔
      r.height ≤ h ∧ e = ⟨(miner, r.height), (r.reporter, r.val)⟩ := by
  obtain ⟨⟨m, k⟩, reporter, val⟩ := e
  simp only [readReport]
  constructor
  · intro hread
    split at hread
    case isTrue hcond =>
      obtain rfl := some_inj.mp hread
      exact ⟨hcond.2, by rw [hcond.1]⟩
    · cases hread
  · rintro ⟨hk, heq⟩
    cases heq
    rw [if_pos ⟨rfl, hk⟩]

theorem mem_readReports {r : TPSrv} :
    r ∈ db.entries.filterMap (readReport miner h) ↔
      r.height ≤ h ∧ db.lookup (miner, r.height) = some (r.reporter, r.val) := by
  rw [mem_filterMap, ← mem_def, mem_lookup_iff]
  constructor
  · rintro ⟨e, hmem, hread⟩
    obtain ⟨hk, rfl⟩ := readReport_eq_some.mp hread
    exact ⟨hk, hmem⟩
  · rintro ⟨hk, hmem⟩
    exact ⟨_, hmem, readReport_eq_some.mpr ⟨hk, rfl⟩⟩

theorem nodup_readReports (db : Reports) (miner : Address) (h : UInt32) :
    (db.entries.filterMap (readReport miner h)).Nodup := by
  refine List.Nodup.filterMap ?_ db.nodupKeys.nodup
  intro e e' r hr hr'
  rw [(readReport_eq_some.mp hr).2, (readReport_eq_some.mp hr').2]

/-- The reports read depend on the records about the miner only, up to the height. -/
theorem reportsUpTo_congr (hsame : ∀ k ≤ h, db.lookup (miner, k) = db'.lookup (miner, k)) :
    reportsUpTo db miner h = reportsUpTo db' miner h := by
  have hperm : (db.entries.filterMap (readReport miner h)).Perm
      (db'.entries.filterMap (readReport miner h)) := by
    rw [perm_ext_iff_of_nodup (nodup_readReports _ _ _) (nodup_readReports _ _ _)]
    intro r
    rw [mem_readReports, mem_readReports]
    exact and_congr_right fun hk => by rw [hsame _ hk]
  refine List.Perm.eq_of_pairwise ?_ (pairwise_insertionSort _ _) (pairwise_insertionSort _ _)
    (((perm_insertionSort _ _).trans hperm).trans (perm_insertionSort _ _).symm)
  -- a height has one record
  intro a b ha hb hba hab
  have heq : a.height = b.height := UInt32.le_antisymm hab hba
  obtain ⟨hk, ha⟩ := mem_readReports.mp ((perm_insertionSort _ _).subset ha)
  obtain ⟨-, hb⟩ := mem_readReports.mp ((perm_insertionSort _ _).subset hb)
  rw [← hsame _ (heq ▸ hk), ← heq, ha] at hb
  obtain ⟨ha, hr, hv⟩ := a
  simp_all

/-- **Where the parent is on both best branches** and no record has been trimmed, two nodes agree,
whatever came after the parent and whatever was disconnected before. -/
theorem sameVerdict_of_shared {a b : PowNode env} (ha : Recording env false a.best a.reports)
    (hb : Recording env false b.best b.reports)
    (hprev : env.lookupNode header.prevBlock = some (prev, parents))
    (hpa : prev :: parents <:+ a.best) (hpb : prev :: parents <:+ b.best) :
    SameVerdict a b header flags := by
  intro hash
  by_cases hweighed : ∃ prev' v, Weighed env { header with hash } flags prev' v
  case neg =>
    exact congrArg succeeds (checkProofOfWork_congr fun prev' v hw => hweighed ⟨prev', v, hw⟩)
  obtain ⟨prev', v, hweighed⟩ := hweighed
  obtain rfl : prev = prev' :=
    some_inj.mp ((congrArg (Option.map Prod.fst) hprev).symm.trans hweighed.parent)
  have hreports : reportsUpTo a.reports header.miner prev.height.toUInt32 =
      reportsUpTo b.reports header.miner prev.height.toUInt32 := by
    refine reportsUpTo_congr fun k hk => ?_
    rw [ha.lookup_eq, hb.lookup_eq, ha.climbs.recordedAt_suffix hpa hk,
      hb.climbs.recordedAt_suffix hpb hk]
  rw [Bool.eq_iff_iff, PowNode.accepts_iff hweighed, PowNode.accepts_iff hweighed]
  simp only [headerLimit, tpsReportFromDB, hreports]

/-! ## Two branches -/

/-- A block of height `k` with the mean of genesis, which all its reports repeat. -/
def meanBlock (hash prevBlock : Hash) (k : Nat) (miner : Address) : PowHeader where
  toMingingRightBlock := { MingingRightBlock.zero with hash, height := Int32.ofNat k, miner }
  prevBlock
  bestBlock := 0
  bits := 0x01010000
  meanTPH := 1000
  tphReports := List.replicate (min k 3) 1000

/-- Branches of `meanBlock`s after genesis, with hashes from `base` on. -/
def meanBranch (base : Nat) (miner : Nat → Address) : Nat → List PowHeader
  | 0 => [meanBlock 1 0 0 0]
  | k + 1 =>
    meanBlock (BitVec.ofNat 256 (base + k + 1))
      (if k = 0 then 1 else BitVec.ofNat 256 (base + k)) (k + 1) (miner (k + 1)) ::
      meanBranch base miner k

/-- On the one branch the miner of genesis takes turns with another miner. -/
def busyBranch : Nat → List PowHeader := meanBranch 2000 fun k => BitVec.ofNat 160 (k % 2)

/-- On the other branch a third miner has mined all blocks. -/
def quietBranch : Nat → List PowHeader := meanBranch 1000 fun _ => 2

/-- The index with both branches, of 40 blocks each. -/
def twoBranches : PowChain where
  lookupNode hash :=
    if hash = 1 then some (meanBlock 1 0 0 0, [])
    else if 1000 < hash.toNat ∧ hash.toNat ≤ 1040 then
      (quietBranch (hash.toNat - 1000)).head?.map (·, (quietBranch (hash.toNat - 1000)).tail)
    else if 2000 < hash.toNat ∧ hash.toNat ≤ 2040 then
      (busyBranch (hash.toNat - 2000)).head?.map (·, (busyBranch (hash.toNat - 2000)).tail)
    else none
  __ := genesisChain 0

/-- The records after all blocks of a branch have been connected. -/
def connectAll : List PowHeader → Result Reports
  | [] => .ok ∅
  | [_] => .ok ∅
  | x :: n :: p => do
    let db ← connectAll (n :: p)
    reportNotice .blockConnected x (n :: p) db

/-- The blocks of a branch are known, and each follows the one before it. -/
def isKnown (env : PowChain) : List PowHeader → Bool
  | [] => false
  | [g] => env.lookupNode g.hash = some (g, []) ∧ g.height = 0
  | x :: n :: p => isKnown env (n :: p) && decide (env.lookupNode x.hash = some (x, n :: p) ∧
      x.prevBlock = n.hash ∧ x.height.toInt = n.height.toInt + 1)

theorem recording_connectAll : ∀ {best : List PowHeader} {db : Reports}, isKnown env best = true →
    connectAll best = .ok db → Recording env trims best db
  | [], _, hknown, _ => by cases hknown
  | [g], db, hknown, hdb => by
    obtain ⟨hg, hheight⟩ := of_decide_eq_true hknown
    cases hdb
    exact .genesis hg hheight
  | x :: n :: p, db, hknown, hdb => by
    obtain ⟨hp, hx⟩ := Bool.and_eq_true_iff.mp hknown
    obtain ⟨hlookup, hprev, hheight⟩ := of_decide_eq_true hx
    obtain ⟨db₀, hdb₀, hnotice⟩ := of_bind hdb
    exact .connect (recording_connectAll hp hdb₀) hlookup hprev hheight hnotice

theorem exists_powNode {best : List PowHeader} {P : Reports → Prop}
    (hknown : isKnown env best = true)
    (h : Ends (connectAll best) P) : ∃ a : PowNode env, P a.reports := by
  obtain ⟨db, hdb, hP⟩ := h
  exact ⟨⟨best, db, recording_connectAll hknown hdb⟩, hP⟩

/-- Early on, both nodes agree on a block after genesis. -/
theorem branches_agree : ∃ a b : PowNode twoBranches, a.best = busyBranch 2 ∧
    b.best = quietBranch 2 ∧ SameVerdict a b (meanBlock 9 1 1 0) BFWatingFactor := by
  obtain ⟨db, hdb⟩ : ∃ db, connectAll (busyBranch 2) = .ok db := ⟨_, rfl⟩
  obtain ⟨db', hdb'⟩ : ∃ db, connectAll (quietBranch 2) = .ok db := ⟨_, rfl⟩
  have hbusy {trims : Bool} : Recording twoBranches trims (busyBranch 2) db :=
    recording_connectAll (by decide +kernel) hdb
  have hquiet {trims : Bool} : Recording twoBranches trims (quietBranch 2) db' :=
    recording_connectAll (by decide +kernel) hdb'
  exact ⟨⟨_, db, hbusy⟩, ⟨_, db', hquiet⟩, rfl, rfl,
    sameVerdict_of_shared hbusy hquiet rfl ⟨[_, _], rfl⟩ ⟨[_, _], rfl⟩⟩

/-- A block of the miner of genesis on the busy branch. -/
def nextBlock : PowHeader := meanBlock (3 <<< 48) (BitVec.ofNat 256 2040) 41 0

/-- **A block that one node accepts and the other one does not.** Both know its parent and all other
blocks, and have them on different best branches. -/
theorem branches_differ : ∃ a b : PowNode twoBranches,
    (twoBranches.lookupNode nextBlock.prevBlock).isSome ∧
    a.accepts nextBlock BFWatingFactor = true ∧ b.accepts nextBlock BFWatingFactor = false ∧
    ¬ SameVerdict a b nextBlock BFWatingFactor := by
  have hverdicts : ∀ busy : Bool, Ends (connectAll (if busy then busyBranch 40 else quietBranch 40))
      fun db => succeeds (checkProofOfWork twoBranches db nextBlock BFWatingFactor) = busy := by
    decide +kernel
  obtain ⟨a, haccepts⟩ : ∃ a : PowNode twoBranches, a.accepts nextBlock BFWatingFactor = true :=
    exists_powNode (by decide +kernel) (hverdicts true)
  obtain ⟨b, hrefuses⟩ : ∃ b : PowNode twoBranches, b.accepts nextBlock BFWatingFactor = false :=
    exists_powNode (by decide +kernel) (hverdicts false)
  refine ⟨a, b, by decide +kernel, haccepts, hrefuses, fun hsame => ?_⟩
  have hhash := hsame nextBlock.hash
  rw [show { nextBlock with hash := nextBlock.hash } = nextBlock from rfl, haccepts,
    hrefuses] at hhash
  cases hhash

/-! ## The reports of a new block -/

/-- A score, lowered for a miner that has reported less than the own score. -/
def tphScore (minscore myscore score : UInt32) (reported : Option UInt32) : Result UInt32 :=
  match reported with
  | none => .ok score
  | some val =>
    if 0 < myscore ∧ val < myscore then
      -- a division by zero
      if 100 * myscore.toInt32 = 0 then crash
      else
        let lowered := score.toInt32 -
          score.toInt32 * (myscore - val).toInt32 * 80 / (100 * myscore.toInt32)
        .ok (if lowered < minscore.toInt32 then minscore else lowered.toUInt32)
    else .ok score

/-- The loop of `TphReport`, for at most `m` blocks and `n` reports; `score` is what a miner
gets. -/
def tphLoop (score : Address → Result UInt32) (me : Address) :
    Nat → Nat → List PowHeader → List Address → Result (List (Address × UInt32))
  | m + 1, n + 1, last :: parents, miners =>
    if last.height ≤ 0 ∨ last.miner = me then .ok []
    else if last.miner ∈ miners then tphLoop score me m (n + 1) parents miners
    else do
      let val ← score last.miner
      let rpt ← tphLoop score me m n parents (last.miner :: miners)
      return (last.miner, val) :: rpt
  | _ + 1, _ + 1, [], _ => crash
  | _, _, _, _ => .ok []

/-- The score of the record that `GetMinerTPS` gives. A miner without one gets a new record, so
that the result is never nil. -/
def getMinerTPS (minerTPH : Map Address UInt32) (miner : Address) : UInt32 :=
  (minerTPH.lookup miner).getD 0

/-- `TphReport`, with each score the miner it is of. A miner met before is passed over, where
`reportNotice` stops. -/
def tphReport (minerTPH : Map Address UInt32) (db : Reports) (rpts : Nat) (last : PowHeader)
    (parents : List PowHeader) (me : Address) : Result (List (Address × UInt32)) :=
  let rptme := (tpsReportFromDB db me last.height.toUInt32).1
  -- the last report of a miner stays in the map
  let score := fun w => tphScore (minScore last.meanTPH) (getMinerTPS minerTPH me)
    (getMinerTPS minerTPH w) ((rptme.reverse.find? (·.reporter = w)).map TPSrv.val)
  tphLoop score me (100 * rpts) rpts (last :: parents) []

/-- What is done with reports, each about the miner it comes with. -/
def recordAll (note : NotificationType) (block : PowHeader) (reports : List (Address × UInt32))
    (db : Reports) : Reports :=
  reports.foldl (fun db r => record note r.1 block.height.toUInt32 (block.miner, r.2) db) db

/-- The reports of a block are recorded, and removed again, for the miners they come with. -/
def Delivered (reports : List (Address × UInt32)) (block : PowHeader) (parents : List PowHeader) :
    Prop :=
  ∀ note db, reportNotice note block parents db = .ok (recordAll note block reports db)

/-- The miners of as many blocks as there are reports, the nearest ones. -/
def reportedRow (reports : List UInt32) (parents : List PowHeader) : List Address :=
  (parents.take reports.length).map (·.miner)

/-- Where the miners in the row are new, each once, the two loops go the same way. -/
theorem reportLoop_iff {score : Address → Result UInt32} {me : Address} (block : PowHeader) :
    ∀ {m n : Nat} {parents : List PowHeader} {miners : List Address}
      {reports : List (Address × UInt32)}, tphLoop score me m n parents miners = .ok reports →
    let rs := reports.map Prod.snd
    let row := reportedRow rs parents
    (∀ r ∈ reports, r.1 ∉ miners) ∧
    (row.Nodup ∧ row.Disjoint miners → ∀ note db,
      reportLoop note block.height.toUInt32 block.miner rs parents miners db =
        .ok (recordAll note block reports db)) ∧
    ∀ db : Reports, (∀ w ∉ miners, (w, block.height.toUInt32) ∉ db) →
      reportLoop .blockConnected block.height.toUInt32 block.miner rs parents miners db =
        .ok (recordAll .blockConnected block reports db) → row.Nodup ∧ row.Disjoint miners
  | 0, _, _, _, _, h => by cases h; simp [reportLoop, recordAll, reportedRow]
  | _ + 1, 0, _, _, _, h => by cases h; simp [reportLoop, recordAll, reportedRow]
  | _ + 1, _ + 1, [], _, _, h => by cases h
  | m + 1, n + 1, last :: parents, miners, reports, h => by
    rw [tphLoop] at h
    split at h
    · cases h
      simp [reportLoop, recordAll, reportedRow]
    split at h
    case isTrue hold =>
      have hfresh := (reportLoop_iff block h).1
      cases reports with
      | nil => simp [reportLoop, recordAll, reportedRow]
      | cons r reports =>
        -- one stops, the other one goes on
        refine ⟨hfresh, fun hrow => ?_, fun db hdb heq => ?_⟩
        · exact absurd hold (hrow.2 (by simp [reportedRow]))
        · simp only [map_cons, reportLoop, if_pos hold] at heq
          refine absurd ?_ (hdb _ (hfresh r mem_cons_self))
          rw [Except.ok.inj heq]
          exact foldlRecOn (motive := fun db : Reports => (r.1, _) ∈ db) reports _
            ((mem_insert _).mpr (.inl rfl)) fun _ hdb _ _ => (mem_insert _).mpr (.inr hdb)
    case isFalse hnew =>
      obtain ⟨val, -, h⟩ := of_bind h
      obtain ⟨rest, hrest, h⟩ := of_bind h
      cases h
      obtain ⟨hfresh, hsame, hrow⟩ := reportLoop_iff block hrest
      have hcons (row : List Address) : (last.miner :: row).Nodup ∧
          (last.miner :: row).Disjoint miners ↔
            row.Nodup ∧ row.Disjoint (last.miner :: miners) := by
        rw [nodup_cons, disjoint_cons_left, disjoint_cons_right]
        tauto
      simp only [map_cons, reportedRow, length_cons, take_succ_cons, reportLoop, if_neg hnew]
      refine ⟨forall_mem_cons.mpr ⟨hnew, fun r hr hm => hfresh r hr (mem_cons_of_mem _ hm)⟩,
        fun hr note db => hsame ((hcons _).mp hr) note _, fun db hdb heq => ?_⟩
      refine (hcons _).mpr (hrow _ (fun w hw => ?_) heq)
      rw [mem_cons, not_or] at hw
      exact fun h => ((mem_insert _).mp h).elim (fun h => hw.1 (congrArg Prod.fst h)) (hdb w hw.2)

/-- **Reports reach the miners they are about** where as many blocks, the nearest ones, are of
different miners. -/
theorem delivered_iff (minerTPH : Map Address UInt32) (db : Reports) (rpts : Nat)
    (last : PowHeader) (parents : List PowHeader) (me : Address) (block : PowHeader)
    {reports : List (Address × UInt32)}
    (hreports : tphReport minerTPH db rpts last parents me = .ok reports)
    (hblock : block.tphReports = reports.map Prod.snd) :
    Delivered reports block (last :: parents) ↔
      (reportedRow block.tphReports (last :: parents)).Nodup := by
  obtain ⟨-, hsame, hrow⟩ := reportLoop_iff block hreports
  rw [hblock]
  constructor
  · intro h
    have h := h .blockConnected ∅
    rw [reportNotice, hblock] at h
    exact (hrow ∅ (fun w _ => notMem_empty _) h).1
  · intro h note db
    rw [reportNotice, hblock, hsame ⟨h, disjoint_nil_right _⟩]

/-- Three miners with a known score. -/
def knownScores : Map Address UInt32 := ((AList.singleton 1 125).insert 2 125).insert 3 125

/-- Blocks of the miners 2, 1 and 3 on genesis. -/
def repeatedMiner : List PowHeader :=
  [meanBlock 4 3 3 2, meanBlock 3 2 2 1, meanBlock 2 1 1 3, meanBlock 1 0 0 0]

/-- A block after them, of the miner 9. -/
def reportingBlock (reports : List (Address × UInt32)) : PowHeader :=
  { meanBlock 6 5 5 9 with tphReports := reports.map Prod.snd }

theorem delivered_two : Delivered [(1, 125), (2, 125)] (reportingBlock [(1, 125), (2, 125)])
    (meanBlock 5 4 4 1 :: repeatedMiner) :=
  (delivered_iff knownScores ∅ 2 (meanBlock 5 4 4 1) repeatedMiner 9 _ rfl rfl).mpr (by decide)

/-- The third report is lost. -/
theorem third_not_delivered : ∃ reports : List (Address × UInt32),
    tphReport knownScores ∅ 3 (meanBlock 5 4 4 1) repeatedMiner 9 = .ok reports ∧
    reports = [(1, 125), (2, 125), (3, 125)] ∧
    ¬ Delivered reports (reportingBlock reports) (meanBlock 5 4 4 1 :: repeatedMiner) := by
  refine ⟨_, rfl, rfl, fun h => ?_⟩
  exact absurd (congrArg (fun r => r.toOption.map (·.lookup (3, 5))) (h .blockConnected ∅))
    (by decide)

/-! ## The rules about the reports -/

def MaxTPSReports : Nat := 10

def MinTPSReports : Nat := 3

/-- A report as `NewMinerBlockTemplate` writes it, and what it adds to the sum. -/
def clampTph (v2 v : UInt32) : UInt32 × UInt32 :=
  if v2 * 8 < v then (v2 * 8, v2 * 8)
  else if 8 * v < v2 then
    if (v2 + 7) >>> 3 = 0 then (1, 1) else ((v2 + 7) >>> 3, (v2 + 7) >>> 3)
  -- a `0` is written as `1`, and adds nothing
  else (if v = 0 then 1 else v, v)

/-- The mean after a number of reports with this sum. -/
def nextMean (v2 sum : UInt32) (len : Nat) : UInt32 :=
  let sum := if len = 0 then 1 else sum / len.toUInt32
  let mean := (v2 * 63 + sum) >>> 6
  if mean = 0 then 1 else mean

/-- `TphReports` and `MeanTPH` of a template, from what `TphReport` gives. -/
def templateTph (v2 : UInt32) (reports : List UInt32) : List UInt32 × UInt32 :=
  let l := reports.map (clampTph v2)
  (l.map Prod.fst, nextMean v2 ((l.map Prod.snd).foldl (· + ·) 0) l.length)

/-- The rules of `CheckBlockSanity`. -/
def checkReports (height : Int32) (reports : List UInt32) : Result Unit := do
  failIf (MaxTPSReports < reports.length) (errText "Reported more than max allowed TPS items")
  failIf (reports.length < MinTPSReports ∧ .ofNat MinTPSReports < height)
    (errText "Reported less than min required TPS items")
  failIf (0 ∈ reports) (errText "Reported 0 in TPS value")

/-- The rules of `maybeAcceptBlock`. -/
def checkTph (v2 : UInt32) (reports : List UInt32) (mean : UInt32) : Result Unit := do
  ruleIf (∃ v ∈ reports, (v2 * 8 < v ∨ 8 * v < v2) ∧ 0 < v2) .errInvalidAncestorBlock
    "Out of range TPH score" []
  ruleIf (nextMean v2 (reports.foldl (· + ·) 0) reports.length ≠ mean) .errInvalidAncestorBlock
    "Incorrect mean TPH score" []

/-- A block with these reports and this mean passes the rules after a mean of `v2`. -/
abbrev PassesTph (height : Int32) (v2 : UInt32) (t : List UInt32 × UInt32) : Prop :=
  checkReports height t.1 = .ok () ∧ checkTph v2 t.1 t.2 = .ok ()

/-- The products of the two bounds do not wrap too far for the report. -/
abbrev Clampable (v2 v : UInt32) : Prop :=
  if v2 * 8 < v then v2 ≠ 0 ∧ v2 ≤ 64 * v2
  else 8 * v < v2 → v2.toNat + 7 < 2 ^ 32 ∧ (v2.toNat + 7) / 8 ≤ (v2 * 8).toNat

/-- The average of the reports; `1` without reports. -/
def averageTph (reports : List UInt32) : Nat :=
  if reports = [] then 1 else (reports.map UInt32.toNat).sum / reports.length

/-- No sum wraps. -/
abbrev FitsTph (block prev : PowHeader) : Prop :=
  (block.tphReports.map UInt32.toNat).sum < 2 ^ 32 ∧
    63 * prev.meanTPH.toNat + averageTph block.tphReports < 2 ^ 32

/-- The mean in unbounded integers. -/
abbrev ExactMean (block prev : PowHeader) : Prop :=
  block.meanTPH.toNat = max 1 ((63 * prev.meanTPH.toNat + averageTph block.tphReports) / 64)

theorem passesTph_iff {height : Int32} {v2 : UInt32} {t : List UInt32 × UInt32} :
    PassesTph height v2 t ↔ (t.1.length ≤ 10 ∧ (3 ≤ t.1.length ∨ height ≤ 3)) ∧
      (∀ v ∈ t.1, v ≠ 0 ∧ (v2 = 0 ∨ v ≤ v2 * 8 ∧ v2 ≤ 8 * v)) ∧
      nextMean v2 (t.1.foldl (· + ·) 0) t.1.length = t.2 := by
  simp only [PassesTph, checkReports, checkTph, bind_eq_ok, ruleIf, failIf_eq_ok]
  simp only [MaxTPSReports, MinTPSReports]
  grind

theorem clampTph_iff (v2 v : UInt32) :
    ((clampTph v2 v).1 ≠ 0 ∧
      (v2 = 0 ∨ (clampTph v2 v).1 ≤ v2 * 8 ∧ v2 ≤ 8 * (clampTph v2 v).1)) ↔ Clampable v2 v := by
  unfold clampTph Clampable
  split
  · grind
  split
  case isTrue hle hlow =>
    have hw : ((v2 + 7) >>> 3).toNat = (v2.toNat + 7) % 2 ^ 32 / 8 := by
      simp [UInt32.toNat_shiftRight, Nat.shiftRight_eq_div_pow]
    generalize (v2 + 7) >>> 3 = w at hw
    have h8 : (8 * w).toNat = 8 * w.toNat % 2 ^ 32 := UInt32.toNat_mul 8 w
    have hv : v2 ≠ 0 := by grind
    have hlt := v2.toNat_lt
    rw [imp_iff_right hlow, or_iff_right hv]
    rw [ne_eq, ← UInt32.toNat_inj, UInt32.toNat_zero] at hv
    by_cases hfit : v2.toNat + 7 < 2 ^ 32
    · rw [Nat.mod_eq_of_lt hfit] at hw
      have h0 : w ≠ 0 := by
        rw [ne_eq, ← UInt32.toNat_inj, UInt32.toNat_zero]
        omega
      rw [if_neg h0, and_iff_right h0, UInt32.le_iff_toNat_le, UInt32.le_iff_toNat_le]
      dsimp only
      omega
    · have h0 : w = 0 := by
        rw [← UInt32.toNat_inj, UInt32.toNat_zero]
        omega
      simp only [if_pos h0, UInt32.le_iff_toNat_le]
      have h1 : UInt32.toNat (8 * 1) = 8 := rfl
      omega
  · grind

theorem length_tphLoop {score : Address → Result UInt32} {me : Address} :
    ∀ {m n : Nat} {parents : List PowHeader} {miners : List Address}
      {reports : List (Address × UInt32)}, tphLoop score me m n parents miners = .ok reports →
    reports.length ≤ n
  | 0, _, _, _, _, h => by cases h; exact Nat.zero_le _
  | _ + 1, 0, _, _, _, h => by cases h; exact le_rfl
  | _ + 1, _ + 1, [], _, _, h => by cases h
  | m + 1, n + 1, last :: parents, miners, reports, h => by
    rw [tphLoop] at h
    split at h
    · cases h
      exact Nat.zero_le _
    split at h
    · exact length_tphLoop h
    · obtain ⟨val, -, h⟩ := of_bind h
      obtain ⟨rest, hrest, h⟩ := of_bind h
      cases h
      exact Nat.succ_le_succ (length_tphLoop hrest)

theorem toNat_foldl_add (l : List UInt32) (a : UInt32) :
    (l.foldl (· + ·) a).toNat = (a.toNat + (l.map UInt32.toNat).sum) % 2 ^ 32 := by
  induction l generalizing a with
  | nil => exact (Nat.mod_eq_of_lt a.toNat_lt).symm
  | cons v l ih =>
    rw [foldl_cons, ih, UInt32.toNat_add, Nat.mod_add_mod, map_cons, sum_cons, add_assoc]

theorem toNat_nextMean (v2 s : UInt32) {n : Nat} (hn : n ≤ 10) :
    (nextMean v2 s n).toNat =
      max 1 ((63 * v2.toNat + if n = 0 then 1 else s.toNat / n) % 2 ^ 32 / 64) := by
  have hmax (mean : UInt32) : (if mean = 0 then 1 else mean).toNat = max 1 mean.toNat := by
    have hzero : mean = 0 ↔ mean.toNat = 0 := UInt32.toNat_inj.symm
    split
    case isTrue h => rw [hzero.mp h]; rfl
    case isFalse h => exact (max_eq_right (Nat.pos_of_ne_zero (mt hzero.mpr h))).symm
  have hn' : n % 4294967296 = n := Nat.mod_eq_of_lt (by omega)
  simp only [nextMean, hmax]
  split
  · simp [UInt32.toNat_shiftRight, Nat.shiftRight_eq_div_pow, mul_comm]
  · simp [UInt32.toNat_shiftRight, Nat.shiftRight_eq_div_pow, mul_comm, hn']

/-- The mean of a template is the one that the reports written into it have. -/
theorem nextMean_templateTph {v2 : UInt32} {reports : List UInt32} (h : reports.length ≤ 3)
    (hne : ∀ v ∈ reports, (clampTph v2 v).1 ≠ 0) :
    nextMean v2 ((templateTph v2 reports).1.foldl (· + ·) 0) (templateTph v2 reports).1.length =
      (templateTph v2 reports).2 := by
  by_cases hv : v2 = 0
  · -- only reports of `0` are not clamped to `0`
    have hzero : reports = replicate reports.length 0 := eq_replicate_iff.mpr ⟨rfl, fun v hr => by
      have hclamp := hne v hr
      rw [hv, clampTph] at hclamp
      grind⟩
    rw [hv, hzero]
    generalize reports.length = n at h
    match n, h with
    | 0, _ | 1, _ | 2, _ | 3, _ => decide
  · have hsame : Prod.fst ∘ clampTph v2 = Prod.snd ∘ clampTph v2 := by
      funext v
      simp only [Function.comp, clampTph]
      grind
    simp only [templateTph, length_map, List.map_map, hsame]

/-- A mean that has wrapped is another one. -/
theorem mean_eq_iff {p q a : Nat} {c : Prop} (hfits : c → q = a) (hwraps : ¬c → q + 128 ≤ a) :
    max 1 ((63 * p + a) / 64) = max 1 ((63 * p + q) % 2 ^ 32 / 64) ↔ c ∧ 63 * p + a < 2 ^ 32 := by
  by_cases hfit : c ∧ 63 * p + a < 2 ^ 32
  · rw [hfits hfit.1, Nat.mod_eq_of_lt hfit.2]
    exact iff_of_true rfl hfit
  have hless : (63 * p + q) % 2 ^ 32 + 128 ≤ 63 * p + a := by
    by_cases hc : c
    · have hle := not_lt.mp fun h => hfit ⟨hc, h⟩
      have hmod := Nat.mod_lt (63 * p + q) (Nat.two_pow_pos 32)
      rw [hfits hc] at hmod ⊢
      omega
    · have hmod := Nat.mod_le (63 * p + q) (2 ^ 32)
      have hlow := hwraps hc
      omega
  refine iff_of_false ?_ hfit
  generalize (63 * p + q) % 2 ^ 32 = w at hless
  omega

theorem exactMean_iff {block prev : PowHeader}
    (h : PassesTph block.height prev.meanTPH (block.tphReports, block.meanTPH)) :
    ExactMean block prev ↔ FitsTph block prev := by
  obtain ⟨⟨hlen, -⟩, -, hmean : _ = block.meanTPH⟩ := passesTph_iff.mp h
  rw [ExactMean, FitsTph, ← hmean, toNat_nextMean _ _ hlen, toNat_foldl_add, averageTph, eq_comm,
    UInt32.toNat_zero, zero_add]
  simp only [length_eq_zero_iff]
  refine mean_eq_iff (fun hs => by rw [Nat.mod_eq_of_lt hs]) fun hs => ?_
  have hcons : block.tphReports ≠ [] := fun h => hs (by rw [h]; decide)
  have hpos := length_pos_iff.mpr hcons
  rw [if_neg hcons, if_neg hcons]
  generalize (map UInt32.toNat block.tphReports).sum = s at hs
  generalize block.tphReports.length = n at hlen hpos
  calc s % 2 ^ 32 / n + 128 ≤ s % 2 ^ 32 / n + 2 ^ 32 / n := by
        have hquot := Nat.div_le_div_left hlen hpos (a := 2 ^ 32)
        omega
    _ ≤ (s % 2 ^ 32 + 2 ^ 32) / n := Nat.div_add_div_le_add_div
    _ ≤ s / n := Nat.div_le_div_right (by omega)

/-- **Templates pass the rules** where the bounds do not wrap too far and there are reports enough;
**the means of an accepted chain are exact** where no sum wraps. -/
theorem templateTph_passes_iff (minerTPH : Map Address UInt32) (db : Reports)
    (last : PowHeader) (parents : List PowHeader) (me : Address) (chain : List PowHeader)
    {reports : List (Address × UInt32)}
    (hreports : tphReport minerTPH db MinTPSReports last parents me = .ok reports)
    (hchain : chain.IsChain fun block prev =>
      PassesTph block.height prev.meanTPH (block.tphReports, block.meanTPH)) :
    (PassesTph (last.height + 1) last.meanTPH (templateTph last.meanTPH (reports.map Prod.snd)) ↔
      (reports.length = MinTPSReports ∨ last.height + 1 ≤ 3) ∧
        ∀ r ∈ reports, Clampable last.meanTPH r.2) ∧
    (chain.IsChain ExactMean ↔ chain.IsChain FitsTph) := by
  have hlen : reports.length ≤ 3 := length_tphLoop hreports
  constructor
  · rw [passesTph_iff, and_iff_left_of_imp fun hrange => nextMean_templateTph
      (by rwa [length_map]) fun v hv => (hrange _ (mem_map_of_mem (mem_map_of_mem hv))).1]
    simp only [templateTph, length_map, List.forall_mem_map, clampTph_iff, MinTPSReports]
    rw [and_iff_right (show reports.length ≤ 10 by omega), hlen.ge_iff_eq]
  · rw [isChain_iff_getElem, isChain_iff_getElem]
    exact forall₂_congr fun i hi => exactMean_iff (hchain.getElem i hi)

theorem templateTph_passes_mean :
    PassesTph 5 1000 (templateTph 1000 [125, 125, 125]) ∧
      [meanBlock 5 4 4 1, meanBlock 4 3 3 2].IsChain ExactMean := by
  obtain ⟨htemplate, hexact⟩ := templateTph_passes_iff knownScores ∅ (meanBlock 5 4 4 1)
    repeatedMiner 9 [meanBlock 5 4 4 1, meanBlock 4 3 3 2] rfl (by decide)
  exact ⟨htemplate.mpr ⟨.inl rfl, forall_iff_forall_mem.mp (by decide)⟩, hexact.mpr (by decide)⟩

/-- After a mean of `0` all reports are clamped to `0`; a mean of `2 ^ 27` comes down to `1`. -/
theorem template_refused_and_mean_wraps :
    (∃ last : PowHeader, ∃ reports,
      tphReport knownScores ∅ MinTPSReports last repeatedMiner 9 = .ok reports ∧
      reports = [(1, 125), (2, 125), (3, 125)] ∧
      ¬PassesTph 5 last.meanTPH (templateTph last.meanTPH (reports.map Prod.snd))) ∧
    ∃ block prev : PowHeader,
      PassesTph block.height prev.meanTPH (block.tphReports, block.meanTPH) ∧
      ¬ExactMean block prev :=
  ⟨⟨{ meanBlock 5 4 4 1 with meanTPH := 0 }, _, rfl, rfl, by decide⟩,
    { meanBlock 5 4 4 1 with meanTPH := 1, tphReports := replicate 3 (2 ^ 27) },
    { meanBlock 4 3 3 2 with meanTPH := 2 ^ 27 }, by decide, by decide⟩

end Zent.Minerchain
