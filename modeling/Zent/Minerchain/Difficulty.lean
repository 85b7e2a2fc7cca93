import Zent.Minerchain.TphReports
import Zent.Minerchain.Compact

/-!
# The next difficulty of the miner chain

`calcNextRequiredDifficulty` of `omega/minerchain/difficulty.go`: the bits and the collateral that
the block after a node has to have. At the end of a period it adds up the times between the blocks
of the period before, corrected for the waiting list, and looks for the least collateral. In between
it prefetches collaterals into a cache.
-/

namespace Zent.Minerchain

open Go List Int32 Nat

/-- A header with its time, in seconds as on the wire. -/
structure TimedHeader extends PowHeader where
  timestamp : UInt32
  deriving DecidableEq

/-- What the computation asks the rest of the node. -/
structure RetargetEnv where
  blocksPerRetarget : Int32
  blocks_pos : 0 < blocksPerRetarget.toInt
  /-- the size of the cache -/
  blocks_le : blocksPerRetarget.toInt ≤ 20160
  minRetargetTimespan : Int64
  maxRetargetTimespan : Int64
  span_le : minRetargetTimespan.toInt ≤ maxRetargetTimespan.toInt
  span_nonneg : 0 ≤ minRetargetTimespan.toInt
  targetTimespan : Int64
  target_pos : 0 < targetTimespan.toInt
  powLimit : Int
  powLimit_lt : powLimit < 2 ^ 256
  powLimitBits : UInt32
  /-- `NodeByHash` of the transaction chain -/
  nodeByHash : Hash → Option Node
  /-- the tip of the transaction chain -/
  tip : Node
  genesisNonce : Int32
  /-- the value of an output of an indexed transaction -/
  txOut : OutPoint → Option Int64

/-- The collaterals prefetched, and the height they are for. -/
structure Cache where
  collaterals : List Int64
  nextAdjustHeight : Int32

/-- What is required of the next block; bits and collateral come with an error, too. -/
structure Required where
  bits : UInt32
  coll : UInt32
  err : Option ChainError

section

variable (env : RetargetEnv)

/-- `RelativeAncestor`: the node with its ancestors, none if there is no such node. -/
def ancestorAt (height : Int32) : List TimedHeader → List TimedHeader
  | [] => []
  | x :: p => if x.height = height then x :: p else ancestorAt height p

def relativeAncestor (nodes : List TimedHeader) (distance : Int32) : List TimedHeader :=
  match nodes with
  | [] => []
  | x :: _ =>
    let height := x.height - distance
    if height < 0 ∨ height > x.height then [] else ancestorAt height nodes

/-- The coins of a collateral, from the raw transaction. -/
def coinsOf (o : OutPoint) : Result Int64 :=
  match env.txOut o with
  | none => crash
  | some v => .ok (v / unitsPerCoin)

/-- The prefetching loop: `i` collaterals more, down from a node. -/
def prefetch (last next : Int32) : Int → List TimedHeader → List Int64 → Result (List Int64)
  | i, nodes, collaterals =>
    if i < 0 then .ok collaterals
    else
      match nodes with
      | [] => crash
      | pb :: rest =>
        let j := env.blocksPerRetarget - (next - pb.height)
        if j < 0 then .ok collaterals
        else do
          let c ← index collaterals j.toInt.toNat
          if c = 0 ∧ pb.height < last - 7 then
            match pb.utxos with
            | none => prefetch last next (i - 1) rest collaterals
            | some o => do
              let v ← coinsOf env o
              prefetch last next (i - 1) rest (collaterals.set j.toInt.toNat v)
          else prefetch last next i rest collaterals

/-- How many miner blocks wait at a block of the transaction chain. -/
def waitingOf (bb : Node) : Int32 :=
  (waitingHeight env.genesisNonce env.tip (Branch.height bb + 2) 0 (some bb)).getD 0

/-- `dt << m`, which multiplies and wraps. -/
def shiftLeft (dt : Int64) (m : Nat) : Int64 := Int64.ofInt (dt.toInt * 2 ^ m)

/-- `dt >> m`, which divides and rounds down. -/
def shiftRight (dt : Int64) (m : Nat) : Int64 := Int64.ofInt (dt.toInt / 2 ^ m)

/-- The time between two blocks, corrected for a waiting list of length `d`. -/
def scaleTime (d : Int) (dt : Int64) : Int64 :=
  let candidates := DESIRABLE_MINER_CANDIDATES.toInt
  let cap := SCALEFACTORCAP.toInt
  if d - candidates > cap then shiftRight dt cap.toNat
  else if d < candidates then
    shiftLeft dt (if candidates - d > cap then cap else candidates - d).toNat
  else shiftRight dt (d - candidates).toNat

/-- What the loop over the period carries. -/
structure Span where
  normalizedTimespan : Int64
  bcoll : UInt32
  hasnz : Bool

/-- `if uint32(v) < bcoll { bcoll = uint32(v) }` -/
def Span.least (s : Span) (v : Int64) : Span :=
  if v.toUInt64.toUInt32 < s.bcoll then { s with bcoll := v.toUInt64.toUInt32 } else s

/-- The collateral of a block of the period, from the cache if it is there. -/
def noteCollateral (collaterals : List Int64) (pb : TimedHeader) (s : Span) : Result Span := do
  let j := pb.height % env.blocksPerRetarget
  if j < 0 then crash
  else
    let c ← index collaterals j.toInt.toNat
    if c ≠ 0 then .ok { s.least c with hasnz := true }
    else
      match pb.utxos with
      | none => .ok s
      | some o => do
        let v ← coinsOf env o
        .ok (s.least v)

/-- The end of the loop over the period, or an error. -/
inductive Scan where
  | done (s : Span)
  | stopped (err : ChainError)

/-- The loop over the period, down from a node. The time is exact as a `float64`. -/
def scan (collaterals : List Int64) : Nat → List TimedHeader → Span → Result Scan
  | 0, _, s => .ok (.done s)
  | _ + 1, [], _ => crash
  | i + 1, pb :: rest, s => do
    let s ← noteCollateral env collaterals pb s
    match env.nodeByHash pb.bestBlock with
    | none => .ok (.stopped (.errorf ⟨"unexpected BestBlock for %s", [.hash pb.hash]⟩))
    | some bb =>
      match rest with
      | [] => crash
      | nb :: ancestors =>
        let d := (pb.height - waitingOf env bb).toInt
        let dt := Int64.ofInt (pb.timestamp.toNat - nb.timestamp.toNat)
        scan collaterals i (nb :: ancestors)
          { s with normalizedTimespan := s.normalizedTimespan + scaleTime d dt }

/-- The target for a time span that has been limited. -/
def newTarget (bits : UInt32) (timespan : Int) : Int :=
  let adjusted := if timespan < env.minRetargetTimespan.toInt then env.minRetargetTimespan.toInt
    else if timespan > env.maxRetargetTimespan.toInt then env.maxRetargetTimespan.toInt
    else timespan
  compactToBig bits * adjusted / env.targetTimespan.toInt

/-- The bits for a target, below the limit of all targets. -/
def limitBits (target : Int) : UInt32 :=
  if target ≤ env.powLimit then bigToCompact target else env.powLimitBits

/-- The height at which the next period ends. -/
def nextAdjust (last : Int32) : Int32 :=
  last + 1 - (last + 1) % env.blocksPerRetarget + env.blocksPerRetarget

/-- The cache for a height: it starts anew when the period is another one. -/
def refresh (last : Int32) (cache : Cache) : Cache :=
  if cache.nextAdjustHeight < 0 ∨ cache.nextAdjustHeight ≠ nextAdjust env last then
    ⟨replicate env.blocksPerRetarget.toInt.toNat 0 ++
      cache.collaterals.drop env.blocksPerRetarget.toInt.toNat, nextAdjust env last⟩
  else cache

/-- `calcNextRequiredDifficulty` after a node, given with its ancestors. -/
def calcNextRequiredDifficulty (cache : Cache) (nodes : List TimedHeader) :
    Result (Required × Cache) :=
  match nodes with
  | [] => .ok (⟨env.powLimitBits, 0, none⟩, cache)
  | last :: _ =>
    if last.height < env.blocksPerRetarget + 10 then .ok (⟨env.powLimitBits, 0, none⟩, cache)
    else if (last.height + 1) % env.blocksPerRetarget ≠ 0 then
      let cache := refresh env last.height cache
      match relativeAncestor nodes (env.blocksPerRetarget - 1) with
      | [] => .ok (⟨last.bits, last.collateral, none⟩, cache)
      | pb :: rest => do
        let collaterals ← prefetch env last.height cache.nextAdjustHeight 5 (pb :: rest)
          cache.collaterals
        .ok (⟨last.bits, last.collateral, none⟩, { cache with collaterals })
    else
      match relativeAncestor nodes (env.blocksPerRetarget - 1) with
      | [] =>
        .ok (⟨0, 0, some (assertText "unable to obtain previous retarget block")⟩, cache)
      | pb :: rest => do
        match ← scan env cache.collaterals (env.blocksPerRetarget - 1).toInt.toNat (pb :: rest)
          ⟨0, 0x7FFFFFFF, false⟩ with
        | .stopped err => .ok (⟨last.bits, last.collateral, some err⟩, cache)
        | .done s =>
          let coll := if s.hasnz then s.bcoll else last.collateral
          .ok (⟨limitBits env (newTarget env last.bits s.normalizedTimespan.toInt),
            (coll * 7) >>> 3, none⟩, cache)

/-! ## The cache stays empty -/

/-- The cache after a number of calls, for nodes and states of the transaction chain of any kind. -/
inductive CacheRun (bpr : Int32) : Cache → Prop where
  | start {h : Int32} : CacheRun bpr ⟨replicate 20160 0, h⟩
  | call {env : RetargetEnv} {cache cache' : Cache} {nodes : List TimedHeader} {r : Required} :
    CacheRun bpr cache → env.blocksPerRetarget = bpr →
    calcNextRequiredDifficulty env cache nodes = .ok (r, cache') → CacheRun bpr cache'

variable {env} {pb : TimedHeader} {rest : List TimedHeader}

theorem ancestorAt_height {height : Int32} :
    ∀ {nodes : List TimedHeader}, ancestorAt height nodes = pb :: rest → pb.height = height
  | x :: p, h => by
    rw [ancestorAt] at h
    split at h
    case isTrue heq =>
      rw [← (cons.inj h).1]
      exact heq
    · exact ancestorAt_height h

theorem relativeAncestor_height {distance : Int32} {last : TimedHeader} {below : List TimedHeader}
    (h : relativeAncestor (last :: below) distance = pb :: rest) :
    pb.height = last.height - distance := by
  rw [relativeAncestor] at h
  split at h
  · cases h
  · exact ancestorAt_height h

theorem refresh_next (last : Int32) (cache : Cache) :
    (refresh env last cache).nextAdjustHeight = nextAdjust env last := by
  rw [refresh]
  split
  · rfl
  case isFalse h => exact Decidable.not_not.mp (not_or.mp h).2

/-- The first block that would be fetched is below the period: its index is negative. -/
theorem prefetch_index_neg (last height : Int32) (h : height = last - (env.blocksPerRetarget - 1)) :
    env.blocksPerRetarget - (nextAdjust env last - height) < 0 := by
  have hindex : env.blocksPerRetarget - (nextAdjust env last - height) =
      (last + 1) % env.blocksPerRetarget - env.blocksPerRetarget := by
    rw [h, nextAdjust]
    grind
  have hpos := env.blocks_pos
  have hle := env.blocks_le
  have hlow := Int.lt_tmod_of_pos (last + 1).toInt hpos
  have hhigh := Int.tmod_lt_of_pos (last + 1).toInt hpos
  rw [hindex, lt_iff_toInt_lt, toInt_sub, toInt_mod, Int.bmod_eq_of_le (by omega) (by omega)]
  show _ < (0 : Int)
  omega

theorem prefetch_first {last : Int32} {collaterals : List Int64}
    (h : pb.height = last - (env.blocksPerRetarget - 1)) :
    prefetch env last (nextAdjust env last) 5 (pb :: rest) collaterals = .ok collaterals := by
  rw [prefetch]
  simp only [prefetch_index_neg last pb.height h, if_true]
  rfl

def emptyCollaterals : List Int64 := replicate 20160 0

variable {cache : Cache}

theorem refresh_empty {last : Int32} (h : cache.collaterals = emptyCollaterals) :
    (refresh env last cache).collaterals = emptyCollaterals := by
  have hle : env.blocksPerRetarget.toInt.toNat ≤ 20160 := by
    have := env.blocks_le
    omega
  rw [refresh]
  split
  · rw [h, emptyCollaterals, drop_replicate, replicate_append_replicate, Nat.add_sub_cancel' hle]
  · exact h

theorem calc_empty {cache' : Cache} {nodes : List TimedHeader} {r : Required}
    (hcalc : calcNextRequiredDifficulty env cache nodes = .ok (r, cache'))
    (h : cache.collaterals = emptyCollaterals) : cache'.collaterals = emptyCollaterals := by
  cases nodes with
  | nil =>
    cases hcalc
    exact h
  | cons last below =>
    rw [calcNextRequiredDifficulty] at hcalc
    split at hcalc
    · cases hcalc
      exact h
    split at hcalc
    · dsimp only at hcalc
      split at hcalc
      · cases hcalc
        exact refresh_empty h
      rename_i pb rest hfirst
      rw [refresh_next, prefetch_first (relativeAncestor_height hfirst), ok_bind] at hcalc
      cases hcalc
      exact refresh_empty h
    · split at hcalc
      · cases hcalc
        exact h
      obtain ⟨result, -, hcalc⟩ := of_bind hcalc
      cases result with
      | done s =>
        cases hcalc
        exact h
      | stopped err =>
        cases hcalc
        exact h

/-- **The cache stays empty.** Whatever calls were made, no collateral has been fetched: the index
of the first block that would be is negative. -/
theorem CacheRun.empty {bpr : Int32} (h : CacheRun bpr cache) :
    cache.collaterals = emptyCollaterals := by
  induction h with
  | start => rfl
  | call _ _ hcalc ih => exact calc_empty hcalc ih

/-! ## The heights of a chain -/

theorem Climbs.length_eq : ∀ {p : List PowHeader} {x : PowHeader}, Climbs (x :: p) →
    x.height.toInt = p.length
  | _, _, .genesis hg => by
    rw [hg]
    rfl
  | _, _, .block hp hx => by
    rw [hx, hp.length_eq]
    rfl

theorem Climbs.exists_zero : ∀ {p : List PowHeader}, Climbs p → ∃ g ∈ p, g.height = 0
  | _, .genesis hg => ⟨_, mem_cons_self, hg⟩
  | _, .block hp _ => by
    obtain ⟨g, hg, hzero⟩ := hp.exists_zero
    exact ⟨g, mem_cons_of_mem _ hg, hzero⟩

/-- A miner block with its ancestors, as a node has accepted them. -/
structure MinerLine (env : RetargetEnv) where
  last : TimedHeader
  below : List TimedHeader
  climbs : Climbs ((last :: below).map TimedHeader.toPowHeader)
  /-- the next block has a height as well -/
  child : last.height.toInt + 1 < 2 ^ 31
  bits_pos : 0 < compactToBig last.bits
  known : ∀ x ∈ last :: below, ∃ bb, env.nodeByHash x.bestBlock = some bb
  indexed : ∀ x ∈ last :: below, ∀ o, x.utxos = some o → ∃ v, env.txOut o = some v

theorem ancestorAt_eq_drop : ∀ {p : List TimedHeader} {x : TimedHeader} {height : Int32},
    Climbs ((x :: p).map TimedHeader.toPowHeader) → 0 ≤ height.toInt →
    height.toInt ≤ x.height.toInt →
    ancestorAt height (x :: p) = (x :: p).drop (x.height.toInt - height.toInt).toNat
  | p, x, height, hclimbs, hlow, hhigh => by
    rw [ancestorAt]
    split
    case isTrue heq =>
      rw [heq, Int.sub_self]
      rfl
    rename_i hne
    have hne : x.height.toInt ≠ height.toInt := fun h => hne (toInt_inj.mp h)
    cases p with
    | nil =>
      cases hclimbs with
      | genesis hg =>
        have hzero : x.height.toInt = 0 := congrArg toInt hg
        omega
    | cons n p =>
      have htail := Climbs.tail hclimbs
      have hstep : x.height.toInt = n.height.toInt + 1 := by
        cases hclimbs with
        | block _ hx => exact hx
      rw [ancestorAt_eq_drop htail hlow (by omega)]
      have hdrop : (x.height.toInt - height.toInt).toNat =
          (n.height.toInt - height.toInt).toNat + 1 := by omega
      rw [hdrop, drop_succ_cons]

theorem relativeAncestor_eq_drop {x : TimedHeader} {p : List TimedHeader} {distance : Int32}
    (hclimbs : Climbs ((x :: p).map TimedHeader.toPowHeader)) (hlow : 0 ≤ distance.toInt)
    (hhigh : distance.toInt ≤ x.height.toInt) :
    relativeAncestor (x :: p) distance = (x :: p).drop distance.toInt.toNat := by
  have hheight : (x.height - distance).toInt = x.height.toInt - distance.toInt := by
    have := x.height.toInt_lt
    rw [toInt_sub, Int.bmod_eq_of_le (by omega) (by omega)]
  rw [relativeAncestor, if_neg, ancestorAt_eq_drop hclimbs (by omega) (by omega), hheight,
    Int.sub_sub_self]
  rw [lt_iff_toInt_lt, gt_iff_lt, lt_iff_toInt_lt, hheight]
  show ¬ (_ < (0 : Int) ∨ _)
  omega

/-! ## The loop over the period -/

/-- The time that counts for a gap between two blocks, without bounds. -/
def scaledTime (d dt : Int) : Int :=
  if d - 100 > 48 then dt / 2 ^ 48
  else if d < 100 then dt * 2 ^ (if 100 - d > 48 then 48 else 100 - d).toNat
  else dt / 2 ^ (d - 100).toNat

theorem scaleTime_eq (d dt : Int) (hlow : -2 ^ 63 ≤ dt) (hhigh : dt < 2 ^ 63) :
    scaleTime d (Int64.ofInt dt) = Int64.ofInt (scaledTime d dt) := by
  have hdt : (Int64.ofInt dt).toInt = dt := Int64.toInt_ofInt_of_le hlow hhigh
  have hcand : DESIRABLE_MINER_CANDIDATES.toInt = 100 := rfl
  have hcap : SCALEFACTORCAP.toInt = 48 := rfl
  simp only [scaleTime, scaledTime, shiftLeft, shiftRight, hdt, hcand, hcap, apply_ite Int64.ofInt]
  rfl

variable (env)

/-- The length of the waiting list at the blocks of a window and the times between them. -/
def gaps : Nat → List TimedHeader → List (Int × Int)
  | 0, _ => []
  | i + 1, pb :: nb :: rest =>
    ((pb.height - ((env.nodeByHash pb.bestBlock).map (waitingOf env)).getD 0).toInt,
      (pb.timestamp.toNat : Int) - nb.timestamp.toNat) :: gaps i (nb :: rest)
  | _ + 1, _ => []

/-- The times of a window that count. -/
def scaled (l : List (Int × Int)) : List Int := l.map fun g => scaledTime g.1 g.2

variable {env}

/-- From an empty cache nothing is taken. -/
theorem noteCollateral_empty {s : Span} (hpb : 0 ≤ pb.height.toInt)
    (hindexed : ∀ o, pb.utxos = some o → ∃ v, env.txOut o = some v) :
    ∃ b, noteCollateral env emptyCollaterals pb s =
      .ok ⟨s.normalizedTimespan, b, s.hasnz⟩ := by
  have hpos := env.blocks_pos
  have hle := env.blocks_le
  have hmod := Int.tmod_lt_of_pos pb.height.toInt hpos
  have hnonneg := Int.tmod_nonneg env.blocksPerRetarget.toInt hpb
  have hj : ¬ pb.height % env.blocksPerRetarget < 0 := by
    rw [lt_iff_toInt_lt, toInt_mod]
    exact not_lt.mpr hnonneg
  have hcell : index (ε := ChainError) emptyCollaterals
      (pb.height % env.blocksPerRetarget).toInt.toNat = .ok 0 := by
    rw [index_eq_ok, emptyCollaterals, getElem?_replicate, if_pos]
    rw [toInt_mod]
    omega
  simp only [noteCollateral, if_neg hj, hcell, ok_bind, ne_eq, not_true, if_false]
  cases hutxos : pb.utxos with
  | none => exact ⟨s.bcoll, rfl⟩
  | some o =>
    obtain ⟨v, hv⟩ := hindexed o hutxos
    simp only [coinsOf, hv, ok_bind, Span.least]
    split
    · exact ⟨_, rfl⟩
    · exact ⟨s.bcoll, rfl⟩

/-- **What the loop over the period adds up**: the scaled times, modulo `2 ^ 64`. -/
theorem scan_done : ∀ {i : Nat} {nodes : List TimedHeader} {s : Span}, i < nodes.length →
    (∀ x ∈ nodes, 0 ≤ x.height.toInt) →
    (∀ x ∈ nodes, ∃ bb, env.nodeByHash x.bestBlock = some bb) →
    (∀ x ∈ nodes, ∀ o, x.utxos = some o → ∃ v, env.txOut o = some v) →
    ∃ b, scan env emptyCollaterals i nodes s = .ok (.done
      ⟨s.normalizedTimespan + Int64.ofInt (scaled (gaps env i nodes)).sum, b, s.hasnz⟩)
  | 0, nodes, s, _, _, _, _ => ⟨s.bcoll, by rw [scan, gaps, scaled]; simp⟩
  | i + 1, pb :: nb :: rest, s, hlen, hheight, hknown, hindexed => by
    obtain ⟨b, hnote⟩ := noteCollateral_empty (s := s) (hheight pb mem_cons_self)
      (hindexed pb mem_cons_self)
    obtain ⟨bb, hbb⟩ := hknown pb mem_cons_self
    obtain ⟨b', hrest⟩ := scan_done
      (s := ⟨s.normalizedTimespan + scaleTime (pb.height - waitingOf env bb).toInt
        (Int64.ofInt (pb.timestamp.toNat - nb.timestamp.toNat)), b, s.hasnz⟩)
      (lt_of_succ_lt_succ hlen) (fun x hx => hheight x (mem_cons_of_mem _ hx))
      (fun x hx => hknown x (mem_cons_of_mem _ hx))
      (fun x hx => hindexed x (mem_cons_of_mem _ hx))
    refine ⟨b', ?_⟩
    have hpb := pb.timestamp.toNat_lt
    have hnb := nb.timestamp.toNat_lt
    simp only [scan, hnote, ok_bind, hbb, hrest]
    rw [gaps, hbb, scaleTime_eq _ _ (by omega) (by omega)]
    simp only [scaled, map_cons, sum_cons, Option.map_some, Option.getD_some,
      Int64.ofInt_add, Int64.add_assoc]

/-! ## At the end of a period -/

namespace MinerLine

variable (line : MinerLine env)

def nodes : List TimedHeader := line.last :: line.below

/-- A new target is computed for the next block. -/
def AtRetarget : Prop :=
  env.blocksPerRetarget.toInt + 10 ≤ line.last.height.toInt ∧
    env.blocksPerRetarget.toInt ∣ line.last.height.toInt + 1

/-- How many blocks are examined. -/
def count (_ : MinerLine env) : Nat := (env.blocksPerRetarget.toInt - 1).toNat

/-- The blocks examined, with all before them. -/
def window : List TimedHeader := line.nodes.drop line.count

/-- The times between the blocks examined that count. -/
def times : List Int := scaled (gaps env line.count line.window)

theorem height_eq : line.last.height.toInt = line.below.length := by
  rw [← length_map (f := TimedHeader.toPowHeader)]
  exact line.climbs.length_eq

theorem height_nonneg {x : TimedHeader} (h : x ∈ line.nodes) : 0 ≤ x.height.toInt := by
  rcases mem_cons.mp h with rfl | h
  · exact line.climbs.height_nonneg
  · exact (line.climbs.lt_of_mem x.toPowHeader (mem_map_of_mem h)).1

theorem child_height : (line.last.height + 1).toInt = line.last.height.toInt + 1 := by
  have hlow := line.climbs.height_nonneg
  have hhigh := line.child
  have hone : (1 : Int32).toInt = 1 := rfl
  rw [toInt_add, hone, Int.bmod_eq_of_le (by omega) (by omega)]

theorem early_iff : line.last.height < env.blocksPerRetarget + 10 ↔
    line.last.height.toInt < env.blocksPerRetarget.toInt + 10 := by
  have hpos := env.blocks_pos
  have hle := env.blocks_le
  have hten : (10 : Int32).toInt = 10 := rfl
  rw [lt_iff_toInt_lt, toInt_add, hten, Int.bmod_eq_of_le (by omega) (by omega)]

theorem mod_eq_zero_iff : (line.last.height + 1) % env.blocksPerRetarget = 0 ↔
    env.blocksPerRetarget.toInt ∣ line.last.height.toInt + 1 := by
  rw [← toInt_inj, toInt_mod, line.child_height]
  exact (Int.dvd_iff_tmod_eq_zero ..).symm

theorem count_eq : (env.blocksPerRetarget - 1).toInt = line.count := by
  have hpos := env.blocks_pos
  have hle := env.blocks_le
  have hone : (1 : Int32).toInt = 1 := rfl
  rw [toInt_sub, hone, Int.bmod_eq_of_le (by omega) (by omega), count]
  omega

variable {line}

/-- The end of the second period is the first. -/
theorem AtRetarget.two_le (h : line.AtRetarget) :
    2 * env.blocksPerRetarget.toInt ≤ line.last.height.toInt + 1 := by
  obtain ⟨hheight, k, hk⟩ := h
  have hpos := env.blocks_pos
  have hk2 : 2 ≤ k := by
    by_contra hlt
    have : env.blocksPerRetarget.toInt * k ≤ env.blocksPerRetarget.toInt * 1 :=
      Int.mul_le_mul_of_nonneg_left (by omega) (by omega)
    omega
  have := Int.mul_le_mul_of_nonneg_left hk2 (Int.le_of_lt hpos)
  omega

theorem count_lt_window (h : 2 * env.blocksPerRetarget.toInt ≤ line.last.height.toInt + 1) :
    line.count < line.window.length := by
  have hlen := line.height_eq
  rw [window, nodes, length_drop, length_cons, count]
  omega

theorem relativeAncestor_eq (h : 2 * env.blocksPerRetarget.toInt ≤ line.last.height.toInt + 1) :
    relativeAncestor line.nodes (env.blocksPerRetarget - 1) = line.window := by
  have hcount := line.count_eq
  have hpos := env.blocks_pos
  have hle : (line.count : Int) ≤ line.last.height.toInt := by
    rw [count]
    omega
  rw [nodes, relativeAncestor_eq_drop line.climbs (by omega) (by omega), hcount, Int.toNat_natCast]
  rfl

variable (line)

/-- What is required at the end of a period. -/
def required : Required :=
  ⟨limitBits env (newTarget env line.last.bits (Int64.ofInt line.times.sum).toInt),
    (line.last.collateral * 7) >>> 3, none⟩

variable {line}

theorem calc_retarget (h : line.AtRetarget) (hcache : cache.collaterals = emptyCollaterals) :
    calcNextRequiredDifficulty env cache line.nodes = .ok (line.required, cache) := by
  have hsub : ∀ x ∈ line.window, x ∈ line.nodes := fun x hx => mem_of_mem_drop hx
  obtain ⟨b, hscan⟩ := scan_done (s := ⟨0, 0x7FFFFFFF, false⟩) (count_lt_window h.two_le)
    (fun x hx => line.height_nonneg (hsub x hx)) (fun x hx => line.known x (hsub x hx))
    (fun x hx => line.indexed x (hsub x hx))
  have hearly : ¬ line.last.height < env.blocksPerRetarget + 10 :=
    fun hlt => absurd h.1 (not_le.mpr (line.early_iff.mp hlt))
  have hmod := line.mod_eq_zero_iff.mpr h.2
  have hfirst := relativeAncestor_eq h.two_le
  have hlen := count_lt_window h.two_le
  rw [nodes] at hfirst ⊢
  rw [calcNextRequiredDifficulty, if_neg hearly, if_neg (not_not.mpr hmod), hfirst]
  cases hwindow : line.window with
  | nil =>
    rw [hwindow] at hlen
    exact absurd hlen (not_lt_zero _)
  | cons pb rest =>
    rw [hwindow] at hscan
    rw [line.count_eq, Int.toNat_natCast, hcache, required, times, hwindow]
    simp only [hscan, ok_bind, Int64.zero_add]
    rfl

/-! ## The collateral -/

variable (line)

/-- The collaterals that the blocks examined name, in whole coins. -/
def values : List Int :=
  (line.window.take line.count).filterMap fun pb =>
    pb.utxos.bind fun o => (env.txOut o).map fun v => v.toInt / 10 ^ 8

/-- The least of them, or the collateral of the last block. -/
def least : Int := line.values.min?.getD line.last.collateral.toNat

/-- What the code takes for seven eighths of it. -/
def nextCollateral : Int :=
  if line.last.height.toInt < env.blocksPerRetarget.toInt + 10 then 0
  else 7 * line.last.collateral.toNat % 2 ^ 32 / 8

theorem toNat_seven_eighths (c : UInt32) : ((c * 7) >>> 3).toNat = 7 * c.toNat % 2 ^ 32 / 8 := by
  show (c.toNat * 7 % 2 ^ 32) >>> 3 = _
  rw [shiftRight_eq_div_pow, mul_comm]

/-- Whatever was fetched before, the collaterals of the period are not looked at. -/
theorem calc_coll (hrun : CacheRun env.blocksPerRetarget cache)
    (hheight : env.blocksPerRetarget.toInt ∣ line.last.height.toInt + 1) :
    ∃ r, calcNextRequiredDifficulty env cache line.nodes = .ok (r, cache) ∧
      (r.coll.toNat : Int) = line.nextCollateral := by
  by_cases hearly : line.last.height.toInt < env.blocksPerRetarget.toInt + 10
  · refine ⟨⟨env.powLimitBits, 0, none⟩, ?_, ?_⟩
    · rw [nodes, calcNextRequiredDifficulty, if_pos (line.early_iff.mpr hearly)]
    · rw [nextCollateral, if_pos hearly]
      rfl
  · refine ⟨line.required, calc_retarget ⟨not_lt.mp hearly, hheight⟩ hrun.empty, ?_⟩
    rw [nextCollateral, if_neg hearly, required, toNat_seven_eighths]
    norm_cast

end MinerLine

/-- **The collateral of the next period**: it is seven eighths of the least collateral of the
blocks examined just when the collateral of the last block gives the same. -/
theorem collateral_iff (line : MinerLine env) {cache : Cache}
    (hrun : CacheRun env.blocksPerRetarget cache)
    (hheight : env.blocksPerRetarget.toInt ∣ line.last.height.toInt + 1) :
    (∃ r cache', calcNextRequiredDifficulty env cache line.nodes = .ok (r, cache') ∧
      (r.coll.toNat : Int) = 7 * line.least / 8) ↔
    (if line.last.height.toInt < env.blocksPerRetarget.toInt + 10 then 0
      else 7 * (line.last.collateral.toNat : Int) % 2 ^ 32 / 8) = 7 * line.least / 8 := by
  obtain ⟨r, hcalc, hcoll⟩ := line.calc_coll hrun hheight
  refine ⟨?_, fun h => ⟨r, cache, hcalc, hcoll.trans h⟩⟩
  rintro ⟨r', cache', hcalc', hcoll'⟩
  cases hcalc.symm.trans hcalc'
  exact hcoll.symm.trans hcoll'

end

/-! ## A period of the test network -/

/-- The parameters of the test network, with the transaction chain at genesis and all outputs worth
16 coins. -/
def testnet : RetargetEnv where
  blocksPerRetarget := 120
  blocks_pos := by decide
  blocks_le := by decide
  minRetargetTimespan := 1800
  maxRetargetTimespan := 28800
  span_le := by decide
  span_nonneg := by decide
  targetTimespan := 7200
  target_pos := by decide
  powLimit := 2 ^ 250 - 1
  powLimit_lt := by decide
  powLimitBits := 0x1f0fffff
  nodeByHash := fun _ => some []
  tip := []
  genesisNonce := 1
  txOut := fun _ => some 1600000000

section

variable (stamp : Nat → UInt32) (utxos : Nat → Option OutPoint)

def lineHeader (n : Nat) : TimedHeader where
  hash := n
  height := ofNat n
  miner := 1
  collateral := 80
  utxos := utxos n
  violationReport := []
  instructions := []
  prevBlock := n - 1
  bestBlock := 0
  bits := 0x1e0fffff
  meanTPH := 0
  tphReports := []
  timestamp := stamp n

def lineTo : Nat → List TimedHeader
  | 0 => []
  | n + 1 => lineHeader stamp utxos n :: lineTo n

theorem lineTo_climbs : ∀ {n : Nat}, n < 2 ^ 31 →
    Climbs ((lineTo stamp utxos (n + 1)).map TimedHeader.toPowHeader)
  | 0, _ => .genesis rfl
  | n + 1, h => by
    refine .block (lineTo_climbs (lt_of_succ_lt h)) ?_
    show (ofNat (n + 1)).toInt = (ofNat n).toInt + 1
    rw [toInt_ofNat_of_lt h, toInt_ofNat_of_lt (lt_of_succ_lt h)]
    rfl

/-- Two periods of blocks. -/
def testnetLine : MinerLine testnet where
  last := lineHeader stamp utxos 239
  below := lineTo stamp utxos 239
  climbs := lineTo_climbs stamp utxos (n := 239) (by decide)
  child := show (ofNat 239).toInt + 1 < 2 ^ 31 by decide
  bits_pos := show 0 < compactToBig 0x1e0fffff by decide
  known := fun _ _ => ⟨[], rfl⟩
  indexed := fun _ _ _ _ => ⟨_, rfl⟩

end

/-- Where no block names a collateral, seven eighths of the last one are required. -/
theorem collateral_iff_none : ∃ r cache',
    calcNextRequiredDifficulty testnet ⟨emptyCollaterals, -1⟩
      (testnetLine (fun _ => 0) (fun _ => none)).nodes = .ok (r, cache') ∧
    (r.coll.toNat : Int) = 7 * (testnetLine (fun _ => 0) (fun _ => none)).least / 8 :=
  (collateral_iff (testnetLine (fun _ => 0) (fun _ => none)) .start (by decide)).mpr
    (by decide +kernel)

/-- One block of the period names a collateral, of 16 coins. -/
def pledged : MinerLine testnet :=
  testnetLine (fun _ => 0) fun n => if n = 100 then some ⟨1, 0⟩ else none

/-- Seven eighths of 80 coins are required, and not of 16. -/
theorem pledged_not_least : pledged.least = 16 ∧
    ¬ ∃ r cache', calcNextRequiredDifficulty testnet ⟨emptyCollaterals, -1⟩ pledged.nodes =
      .ok (r, cache') ∧ (r.coll.toNat : Int) = 7 * pledged.least / 8 := by
  have hleast : pledged.least = 16 := by decide +kernel
  have hnext : pledged.nextCollateral = 70 := by decide +kernel
  refine ⟨hleast, ?_⟩
  obtain ⟨r, hcalc, hcoll⟩ := pledged.calc_coll (CacheRun.start (h := -1)) (by decide)
  rintro ⟨r', cache', hcalc', hcoll'⟩
  cases hcalc.symm.trans hcalc'
  omega

end Zent.Minerchain
