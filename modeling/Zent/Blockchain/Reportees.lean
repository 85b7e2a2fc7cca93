import Zent.Blockchain.Forfeiture

/-!
# When a violator is processed

With `D = ViolationReportDeadline`, the miner block at height `h` is due in the block after the one
that brings the rotation to `h + D`. `CompTxs` takes the heights from the last rotation block and
the POW blocks since.
-/

namespace Zent

open List Int32 Node

/-- The heights of the miner blocks processed in the block after a node. -/
def reportees (g deadline : Int32) (prevNode : Node) : List Int32 :=
  ((reported g deadline prevNode).map Reported.heights).getD []

section

variable {g : Int32}

/-- The walk finds the last rotation block and the POW blocks since. -/
theorem walkToRotation_eq (hg : 0 < g) : ∀ {n : Node} (m : Nat), AcceptedChain g n →
    walkToRotation g n m =
      (lastRotationBlock n).map fun q => (nonceFrom g q, m + 2 * powsSince n)
  | [], m, _ => by
    have hlow : g > -MINER_RORATE_FREQ := Int32.lt_trans (by decide) hg
    rw [walkToRotation, if_pos hlow]
    rfl
  | x :: p, m, h => by
    have ih := fun m => walkToRotation_eq hg m h.tail
    rw [walkToRotation]
    rcases kind_cases x with hx | hx | hx
    · have hnr := isRotation_of_isPow hx
      rw [if_pos (nonce_gt_of_not hnr), if_pos (of_decide_eq_true hx), ih,
        lastRotationBlock_of_not p hnr, powsSince_pow p hx]
      apply congrArg (fun f => Option.map f (lastRotationBlock p))
      funext q
      rw [Prod.mk.injEq]
      refine ⟨rfl, ?_⟩
      show m + 2 + 2 * powsSince p = _
      omega
    · have hlow : ¬x.nonce > -MINER_RORATE_FREQ := Int32.not_lt.mpr (of_decide_eq_true hx)
      rw [if_neg hlow, lastRotationBlock_rotation p hx, powsSince_rotation p hx]
      rfl
    · obtain ⟨hnp, hnr⟩ := kinds_of_isSeries hx
      rw [if_pos (nonce_gt_of_not hnr), if_neg (of_decide_eq_false hnp), ih,
        lastRotationBlock_of_not p hnr, powsSince_series p hx]

variable {deadline : Int32} {x : NodeData} {p : Node} {k : Int}

/-- A number in range is not changed by the conversion. -/
theorem toInt_ofInt_of_lt {a : Int} (hlow : -2 ^ 31 ≤ a) (hhigh : a < 2 ^ 31) :
    (ofInt a).toInt = a := toInt_ofInt_of_le hlow hhigh

theorem ofInt_sub_deadline (a : Int) : ofInt a - deadline = ofInt (a - deadline.toInt) := by
  conv_lhs => rw [← ofInt_toInt deadline]
  rw [← ofInt_sub]

/-- After a rotation block the miner block `D` below is due. -/
theorem mem_reportees_rotation (hd : 0 ≤ deadline.toInt) (h : AcceptedChain g (x :: p))
    (hx : x.isRotation = true) (height : Int32) :
    height ∈ reportees g deadline (x :: p) ↔
      deadline.toInt < rot (x :: p) ∧ height.toInt = rot (x :: p) - deadline.toInt := by
  have hlt := h.rot_lt
  have hone := h.rot_rotation hx
  have hnonce : nonceFrom g (x :: p) < -MINER_RORATE_FREQ := by
    rw [nonceFrom, lt_iff_toInt_lt, toInt_freq, h.toInt_nonce hx]
    omega
  have hpmh : -(nonceFrom g (x :: p) + MINER_RORATE_FREQ) = ofInt (rot (x :: p)) :=
    h.neg_nonce hx
  have hle : ofInt (rot (x :: p)) ≤ deadline ↔ (rot (x :: p) : Int) ≤ deadline.toInt := by
    rw [le_iff_toInt_le, toInt_ofInt_of_lt (by omega) (by omega)]
  rw [reportees, reported]
  simp only [if_pos hnonce, hpmh, hle]
  split
  case isTrue hdue =>
    simp only [Option.map_none, Option.getD_none, not_mem_nil, false_iff, not_and]
    omega
  simp only [Option.map_some, Option.getD_some, mem_singleton]
  rw [ofInt_sub_deadline, ← toInt_inj, toInt_ofInt_of_lt (by omega) (by omega)]
  omega

/-- The heights that a loop of `m` steps runs through. -/
theorem mem_heights {base : Int} {m : Nat} (hlow : 0 ≤ base) (hhigh : base + m ≤ 2 ^ 31)
    (height : Int32) :
    height ∈ (range m).map (fun j => ofInt base + ofNat j) ↔
      base ≤ height.toInt ∧ height.toInt < base + m := by
  have hadd : ∀ j, j < m → (ofInt base + ofNat j).toInt = base + j := by
    intro j hj
    rw [← ofInt_eq_ofNat, ← ofInt_add, toInt_ofInt_of_lt (by omega) (by omega)]
  rw [mem_map]
  constructor
  · rintro ⟨j, hj, rfl⟩
    have hj := mem_range.mp hj
    rw [hadd j hj]
    omega
  · rintro ⟨hl, hh⟩
    refine ⟨(height.toInt - base).toNat, mem_range.mpr (by omega), ?_⟩
    rw [← toInt_inj, hadd _ (by omega)]
    omega

/-- `if rbase < 0 { rbase = 0 }` -/
theorem ofInt_max_zero (hlow : -2 ^ 31 ≤ k) (hhigh : k < 2 ^ 31) :
    (if ofInt k < 0 then 0 else ofInt k) = ofInt (max k 0) := by
  have hneg : ofInt k < 0 ↔ k < 0 := by
    rw [lt_iff_toInt_lt, toInt_zero, toInt_ofInt_of_lt hlow hhigh]
  split
  case isTrue h =>
    rw [max_eq_right (Int.le_of_lt (hneg.mp h))]
    rfl
  case isFalse h => rw [max_eq_left (Int.not_lt.mp (hneg.not.mp h))]

/-- The first height processed after a POW block. -/
def firstReportee (deadline : Int32) (n : Node) : Int := max (baseRotation n - deadline.toInt) 0

/-- After a POW block the heights from `D` below the last rotation block on are processed, two for
every POW block since: all of them again after every POW block, and one below what is due. -/
theorem mem_reportees_pow (hg : 0 < g) (hd : 0 ≤ deadline.toInt) (h : AcceptedChain g (x :: p))
    (hx : x.isPow = true) (height : Int32) :
    height ∈ reportees g deadline (x :: p) ↔ (lastRotationBlock (x :: p)).isSome = true ∧
      firstReportee deadline (x :: p) ≤ height.toInt ∧
      height.toInt < firstReportee deadline (x :: p) + 2 * powsSince (x :: p) := by
  have hlt := h.rot_lt
  have hrot := h.rot_eq
  have hbound := deadline.toInt_lt
  have hpos : nonceFrom g (x :: p) > 0 := of_decide_eq_true hx
  have hnot : ¬nonceFrom g (x :: p) < -MINER_RORATE_FREQ :=
    fun hlow => absurd (Int32.lt_trans hpos hlow) (by decide)
  rw [reportees, reported]
  simp only [if_neg hnot, if_pos hpos, walkToRotation_eq hg 0 h]
  cases hq : lastRotationBlock (x :: p) with
  | none => simp
  | some q =>
    obtain ⟨hs, y, r, rfl, hy⟩ := lastRotationBlock_spec hq
    have hbase : baseRotation (x :: p) = rot (y :: r) := by rw [baseRotation, hq]; rfl
    have hneg : -(nonceFrom g (y :: r) + MINER_RORATE_FREQ) = ofInt (rot (y :: r)) :=
      (h.suffix hs).neg_nonce hy
    simp only [Option.map_some, Option.getD_some, Option.isSome_some, true_and, hneg, Nat.zero_add]
    generalize hm : 2 * powsSince (x :: p) = m
    have hrbase : ofInt (rot (y :: r)) + ofNat m - deadline - ofNat m =
        ofInt (rot (y :: r) - deadline.toInt) := by
      rw [← ofInt_eq_ofNat, ← ofInt_add, ofInt_sub_deadline, ← ofInt_sub]
      congr 1
      omega
    have hclip : (if ofInt (rot (y :: r) - deadline.toInt) < 0 then 0
        else ofInt (rot (y :: r) - deadline.toInt)) =
        ofInt (firstReportee deadline (x :: p)) := by
      rw [firstReportee, hbase]
      exact ofInt_max_zero (by omega) (by omega)
    have hfirst : 0 ≤ firstReportee deadline (x :: p) := le_max_right _ _
    have hlast : firstReportee deadline (x :: p) + m ≤ 2 ^ 31 := by
      rw [firstReportee, hbase]
      omega
    rw [hrbase, hclip, mem_heights hfirst hlast, ← hm]
    rfl

theorem reportees_nil (hg : 0 < g) : reportees g deadline [] = [] := by
  have hnot : ¬nonceFrom g [] < -MINER_RORATE_FREQ :=
    fun hlow => absurd (Int32.lt_trans hg hlow) (by decide)
  have hpos : nonceFrom g [] > 0 := hg
  rw [reportees, reported]
  simp only [if_neg hnot, if_pos hpos, walkToRotation_eq hg 0 .genesis]
  rfl

theorem reportees_series (hx : x.isSeries = true) : reportees g deadline (x :: p) = [] := by
  obtain ⟨hnp, hnr⟩ := kinds_of_isSeries hx
  have hnot : ¬nonceFrom g (x :: p) < -MINER_RORATE_FREQ :=
    fun hlow => of_decide_eq_false hnr (Int32.le_of_lt hlow)
  have hpos : ¬nonceFrom g (x :: p) > 0 := of_decide_eq_false hnp
  rw [reportees, reported]
  simp only [if_neg hnot, if_neg hpos]
  rfl

/-! ## The block at which a rotation is reached -/

/-- The rotation reaches `k` at this block, and not before. -/
def FirstReaches (p : Node) (k : Int) : Prop :=
  k ≤ rot p ∧ ∀ q, q <:+ p → q ≠ p → (rot q : Int) < k

variable {n : Node}

theorem AcceptedChain.rot_mono {q : Node} (h : AcceptedChain g n) (hq : q <:+ n) :
    rot q ≤ rot n := by
  induction h with
  | genesis => rw [suffix_nil.mp hq]
  | block hp hx hr ih =>
    rcases suffix_cons_iff.mp hq with rfl | hq
    · exact Nat.le_refl _
    · rw [(AcceptedChain.block hp hx hr).rot_cons]
      exact Nat.le_add_right_of_le (ih hq)

theorem firstReaches_cons (h : AcceptedChain g (x :: p)) :
    FirstReaches (x :: p) k ↔ (rot p : Int) < k ∧ k ≤ rot (x :: p) := by
  constructor
  · rintro ⟨hle, hlt⟩
    exact ⟨hlt p (suffix_cons x p) (cons_ne_self x p).symm, hle⟩
  · rintro ⟨hlt, hle⟩
    refine ⟨hle, fun q hq hne => ?_⟩
    have hmono := h.tail.rot_mono ((suffix_cons_iff.mp hq).resolve_left hne)
    omega

theorem exists_firstReaches (h : AcceptedChain g n) (hpos : 0 < k) (hk : k ≤ rot n) :
    ∃ p, p <:+ n ∧ FirstReaches p k := by
  induction h with
  | genesis => exact absurd hk (Int.not_le.mpr hpos)
  | block hp hx hr ih =>
    rename_i x p
    by_cases hle : k ≤ rot p
    · obtain ⟨q, hq, hfirst⟩ := ih hle
      exact ⟨q, hq.trans (suffix_cons x p), hfirst⟩
    · have hfirst := (firstReaches_cons (.block hp hx hr)).mpr ⟨Int.not_le.mp hle, hk⟩
      exact ⟨x :: p, suffix_refl _, hfirst⟩

theorem FirstReaches.unique {q : Node} (hp : FirstReaches p k) (hq : FirstReaches q k)
    (hpn : p <:+ n) (hqn : q <:+ n) : p = q := by
  by_contra hne
  rcases suffix_or_suffix_of_suffix hpn hqn with hs | hs
  · exact Int.not_le.mpr (hq.2 p hs hne) hp.1
  · exact Int.not_le.mpr (hp.2 q hs (Ne.symm hne)) hq.1

/-! ## Every violator once -/

/-- Every miner block that is due is processed once on the chain, in the block after the one at
which the rotation first reaches `D` above its height. -/
def ProcessedOnce (g deadline : Int32) (tip : Node) : Prop :=
  ∀ height : Int32, 0 < height → height.toInt + deadline.toInt ≤ rot tip →
    ∃ p, p <:+ tip ∧ FirstReaches p (height.toInt + deadline.toInt) ∧
      ∀ q, q <:+ tip → (height ∈ reportees g deadline q ↔ q = p)

/-- A POW block whose reportees are right: none is due and none found, or the only POW block since
the last rotation block brings the rotation to `D + 1`. -/
def PowInStep (deadline : Int32) (n : Node) : Prop :=
  (lastRotationBlock n = none ∧ (rot n : Int) ≤ deadline.toInt) ∨
  ((lastRotationBlock n).isSome = true ∧ powsSince n = 1 ∧ (rot n : Int) = deadline.toInt + 1)

theorem processedOnce_iff_mem {tip : Node} (hd : 0 ≤ deadline.toInt) (h : AcceptedChain g tip) :
    ProcessedOnce g deadline tip ↔ ∀ height : Int32, 0 < height →
      height.toInt + deadline.toInt ≤ rot tip → ∀ q, q <:+ tip →
        (height ∈ reportees g deadline q ↔ FirstReaches q (height.toInt + deadline.toInt)) := by
  constructor
  · intro honce height hpos hdue q hq
    obtain ⟨p, hp, hfirst, hmem⟩ := honce height hpos hdue
    rw [hmem q hq]
    exact ⟨fun heq => heq ▸ hfirst, fun hq' => hq'.unique hfirst hq hp⟩
  · intro hmem height hpos hdue
    have hk : 0 < height.toInt + deadline.toInt := by
      rw [lt_iff_toInt_lt, toInt_zero] at hpos
      omega
    obtain ⟨p, hp, hfirst⟩ := exists_firstReaches h hk hdue
    refine ⟨p, hp, hfirst, fun q hq => ?_⟩
    rw [hmem height hpos hdue q hq]
    exact ⟨fun hq' => hq'.unique hfirst hq hp, fun heq => heq ▸ hfirst⟩

/-- The last POW block since a rotation block. -/
theorem exists_pow_of_powsSince : ∀ {n : Node}, powsSince n ≠ 0 →
    ∃ x p, x :: p <:+ n ∧ x.isPow = true ∧ lastRotationBlock (x :: p) = lastRotationBlock n ∧
      powsSince (x :: p) = powsSince n
  | x :: p, hne => by
    rcases kind_cases x with hx | hx | hx
    · exact ⟨x, p, suffix_refl _, hx, rfl, rfl⟩
    · exact absurd (powsSince_rotation p hx) hne
    have hpows := powsSince_series p hx
    have hlast := lastRotationBlock_of_not p (kinds_of_isSeries hx).2
    rw [hpows] at hne
    obtain ⟨y, q, hs, hy, hlast', hpows'⟩ := exists_pow_of_powsSince hne
    exact ⟨y, q, hs.trans (suffix_cons x p), hy, hlast'.trans hlast.symm, hpows'.trans hpows.symm⟩

end

section

variable {g deadline : Int32} {tip : Node}

/-- A chain that processes every violator once, as its nodes see it. -/
def Exact (g deadline : Int32) (tip : Node) : Prop :=
  ∀ height : Int, 0 < height → height + deadline.toInt ≤ rot tip → ∀ q, q <:+ tip →
    (ofInt height ∈ reportees g deadline q ↔ FirstReaches q (height + deadline.toInt))

theorem processedOnce_iff_exact (hd : 0 ≤ deadline.toInt) (h : AcceptedChain g tip) :
    ProcessedOnce g deadline tip ↔ Exact g deadline tip := by
  have hlt := h.rot_lt
  rw [processedOnce_iff_mem hd h]
  constructor
  · intro hmem height hpos hdue q hq
    have hto : (ofInt height).toInt = height := toInt_ofInt_of_lt (by omega) (by omega)
    have hpos' : 0 < ofInt height := by
      rw [lt_iff_toInt_lt, hto, toInt_zero]
      exact hpos
    have hq' := hmem (ofInt height) hpos' (by rwa [hto]) q hq
    rwa [hto] at hq'
  · intro hmem height hpos hdue q hq
    rw [lt_iff_toInt_lt, toInt_zero] at hpos
    have hq' := hmem height.toInt hpos hdue q hq
    rwa [ofInt_toInt] at hq'

variable {x : NodeData} {p : Node}

section

variable (he : Exact g deadline tip) (hg : 0 < g) (hd : 0 ≤ deadline.toInt)
  (h : AcceptedChain g tip)

include he hg hd h

section

variable (hn : x :: p <:+ tip) (hx : x.isPow = true)
  (hq : (lastRotationBlock (x :: p)).isSome = true)

include hn hx hq

/-- What an exact chain says about a POW block above a rotation block. -/
theorem Exact.pow (height : Int) (hpos : 0 < height) (hdue : height + deadline.toInt ≤ rot tip) :
    (firstReportee deadline (x :: p) ≤ height ∧
      height < firstReportee deadline (x :: p) + 2 * powsSince (x :: p)) ↔
    ((rot (x :: p) : Int) - 2 < height + deadline.toInt ∧
      height + deadline.toInt ≤ rot (x :: p)) := by
  have hlt := h.rot_lt
  have hn' := h.suffix hn
  have hrot := hn'.rot_pow hx
  have hto : (ofInt height).toInt = height := toInt_ofInt_of_lt (by omega) (by omega)
  have hiff := he height hpos hdue _ hn
  rw [mem_reportees_pow hg hd hn' hx, hto, firstReaches_cons hn'] at hiff
  simp only [hq, true_and] at hiff
  omega

/-- On an exact chain the rotation at a POW block above a rotation block is past the deadline. -/
theorem Exact.deadline_lt (hlate : deadline.toInt < rot tip) : deadline.toInt < rot (x :: p) := by
  by_contra hle
  have hrot := (h.suffix hn).rot_eq
  have hpows := powsSince_pow p hx
  -- height 1 would be processed here, long before it is due
  have hone := he.pow hg hd h hn hx hq 1 Int.one_pos (by omega)
  rw [firstReportee, max_eq_right (by omega)] at hone
  omega

/-- On an exact chain there is one POW block since a rotation block. -/
theorem Exact.powsSince_eq_one (hlate : deadline.toInt < rot tip)
    (hle : (rot (x :: p) : Int) ≤ deadline.toInt + 2) : powsSince (x :: p) = 1 := by
  have hpows := powsSince_pow p hx
  by_contra hne
  -- the POW block before would be too early
  obtain ⟨y, q, hs, hy, hlast, -⟩ := exists_pow_of_powsSince (n := p) (by omega)
  have hp : p <:+ tip := (suffix_cons x p).trans hn
  rw [lastRotationBlock_of_not p (isRotation_of_isPow hx), ← hlast] at hq
  have hlt := he.deadline_lt hg hd h (hs.trans hp) hy hq hlate
  have hmono := (h.suffix hp).rot_mono hs
  have hrot := (h.suffix hn).rot_pow hx
  omega

end

theorem Exact.powInStep (hlate : deadline.toInt < rot tip) (hn : x :: p <:+ tip)
    (hx : x.isPow = true) : PowInStep deadline (x :: p) := by
  have hn' := h.suffix hn
  have hmono := h.rot_mono hn
  have hpow := hn'.rot_pow hx
  cases hq : lastRotationBlock (x :: p) with
  | none =>
    refine .inl ⟨hq, Int.not_lt.mp fun hlt => ?_⟩
    have hiff := he (rot (x :: p) - deadline.toInt) (by omega) (by omega) _ hn
    rw [mem_reportees_pow hg hd hn' hx, firstReaches_cons hn', hq] at hiff
    have hmem := hiff.mpr (by omega)
    exact absurd hmem.1 Bool.false_ne_true
  | some q =>
    have hsome : (lastRotationBlock (x :: p)).isSome = true := by rw [hq]; rfl
    have hlt := he.deadline_lt hg hd h hn hx hsome hlate
    have hrot := hn'.rot_eq
    have hlast := he.pow hg hd h hn hx hsome (rot (x :: p) - deadline.toInt) (by omega) (by omega)
    have hone := he.pow hg hd h hn hx hsome 1 Int.one_pos (by omega)
    rw [firstReportee] at hlast hone
    -- the last height due is missed unless the range starts at 0, and then height 1 is in it
    have hsince := he.powsSince_eq_one hg hd h hn hx hsome hlate (by omega)
    refine .inr ⟨hsome, hsince, ?_⟩
    omega

end

/-- **Every violator is processed exactly once, when it is due,** exactly if none is due yet or
every POW block keeps in step. A second POW block in a row processes the same again. -/
theorem processedOnce_iff (hg : 0 < g) (hd : 0 ≤ deadline.toInt) (h : AcceptedChain g tip) :
    ProcessedOnce g deadline tip ↔ (rot tip : Int) ≤ deadline.toInt ∨
      ∀ x p, x :: p <:+ tip → x.isPow = true → PowInStep deadline (x :: p) := by
  rw [processedOnce_iff_exact hd h]
  constructor
  · intro he
    rcases lt_or_ge deadline.toInt (rot tip : Int) with hlate | hearly
    · exact .inr fun x p hn hx => he.powInStep hg hd h hlate hn hx
    · exact .inl hearly
  · intro hstep height hpos hdue q hq
    have hstep := hstep.resolve_left (by omega)
    have hlt := h.rot_lt
    have hto : (ofInt height).toInt = height := toInt_ofInt_of_lt (by omega) (by omega)
    cases q with
    | nil =>
      rw [reportees_nil hg]
      refine ⟨fun hmem => absurd hmem not_mem_nil, fun hfirst => ?_⟩
      exact absurd hfirst.1 (Int.not_le.mpr (by change 0 < _; omega))
    | cons x p =>
      have hn := h.suffix hq
      rw [firstReaches_cons hn]
      rcases kind_cases x with hx | hx | hx
      · have hrot := hn.rot_pow hx
        have heq := hn.rot_eq
        rw [mem_reportees_pow hg hd hn hx, hto, firstReportee]
        rcases hstep x p hq hx with ⟨hnone, hle⟩ | ⟨hsome, hone, hle⟩
        · rw [hnone]
          refine ⟨fun hmem => absurd hmem.1 Bool.false_ne_true, fun hfirst => ?_⟩
          omega
        · simp only [hsome, true_and]
          omega
      · have hrot := hn.rot_rotation hx
        rw [mem_reportees_rotation hd hn hx, hto]
        omega
      · have hrot := hn.rot_series hx
        rw [reportees_series hx]
        refine ⟨fun hmem => absurd hmem not_mem_nil, fun hfirst => ?_⟩
        omega

end

/-! ## POW blocks only -/

/-- Six POW blocks: the rotation is 12. -/
def sixPows : Node := replicate 6 (powBlock 1)

theorem accepted_sixPows : AcceptedChain 1 sixPows := by
  have hpow : ∀ p, Follows 1 p (powBlock 1) := fun p => .inl (by decide)
  refine .block (.block (.block (.block (.block (.block .genesis (hpow _) ?_) (hpow _) ?_)
    (hpow _) ?_) (hpow _) ?_) (hpow _) ?_) (hpow _) ?_ <;> decide

/-- With a deadline of 10 the miner blocks at heights 1 and 2 are due after the sixth block; they
are processed nowhere. -/
theorem sixPows_unprocessed :
    AcceptedChain 1 sixPows ∧ rot sixPows = 12 ∧ ∀ q ∈ sixPows.tails, reportees 1 10 q = [] :=
  ⟨accepted_sixPows, by decide, by decide⟩

theorem not_processedOnce_sixPows : ¬ProcessedOnce 1 10 sixPows := by
  rw [processedOnce_iff (by decide) (by decide) accepted_sixPows]
  rintro (hearly | hstep)
  · exact absurd hearly (by decide)
  · have hstep :=
      hstep (powBlock 1) (replicate 5 (powBlock 1)) (suffix_refl _) (by decide)
    rcases hstep with ⟨-, hle⟩ | ⟨hsome, -⟩
    · exact absurd hle (by decide)
    · exact absurd hsome (by decide)

end Zent
