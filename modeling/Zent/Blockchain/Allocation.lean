import Zent.Blockchain.Forfeiture

/-!
# The allocation of a balance

The loop of `CompTxs` that divides a balance among claims it does not cover. In every round each
claim gets a unit, the balance divided by the number of open claims (or by the average number of
transactions, if that is smaller), and a claim whose rest is within the unit is closed.

The score of a claim is the largest number, because the usage of all payees is recorded before the
loop, so the admission test lets every claim through.

What comes after a first round that leaves a balance is not what was meant: a closed claim is
visited again, which adds its fee to the balance and takes one more off the number of open claims.
-/

namespace Zent

open Go List Int64 AList Int

/-! ## Machine integers -/

theorem toInt_sub_of_le {a b : Int64} (hb : 0 ≤ b.toInt) (hle : b.toInt ≤ a.toInt) :
    (a - b).toInt = a.toInt - b.toInt := by
  have ha := a.toInt_lt
  rw [toInt_sub, bmod_def]
  omega

theorem toInt_div_of_pos {a b : Int64} (ha : 0 ≤ a.toInt) (hb : 0 < b.toInt) :
    (a / b).toInt = a.toInt / b.toInt := by
  have hlt := a.toInt_lt
  have hle : a.toInt / b.toInt ≤ a.toInt := ediv_le_self _ ha
  have hnonneg : 0 ≤ a.toInt / b.toInt := ediv_nonneg ha (le_of_lt hb)
  rw [toInt_div, tdiv_eq_ediv_of_nonneg ha, bmod_def]
  omega

theorem toNat_ofInt_of_lt {a : Int} (h : 0 ≤ a) (hlt : a < 2 ^ 63) :
    ((UInt64.ofInt a).toNat : Int) = a := by
  rw [UInt64.ofInt, UInt64.toNat_ofNat']
  omega

theorem toInt_toInt64_of_lt {a : UInt64} (h : a.toNat < 2 ^ 63) : a.toInt64.toInt = a.toNat := by
  conv_lhs => rw [← UInt64.ofNat_toNat (x := a)]
  rw [UInt64.toInt64_ofNat', ← ofInt_eq_ofNat, toInt_ofInt_of_le] <;> omega

/-! ## Scores -/

/-- The usage of all payees of the claims is recorded. -/
def Recorded (usescores : Map Bytes UInt32) (claims : List TxFee) : Prop :=
  ∀ tx ∈ claims, ∀ adr ∈ tx.payees, adr ∈ usescores

variable {usescores : Map Bytes UInt32}

/-- The score only looks at payees that are not recorded. -/
theorem score_recorded {tx : TxFee} (h : ∀ adr ∈ tx.payees, adr ∈ usescores) :
    score usescores tx = 0xFFFFFFFF := by
  rw [score]
  generalize tx.payees = payees at h
  induction payees with
  | nil => rfl
  | cons adr rest ih =>
    rw [foldl_cons, if_pos (h adr mem_cons_self)]
    exact ih fun a ha => h a (mem_cons_of_mem adr ha)

theorem mem_recordUsage (env : ForfeitEnv) (usescores : Map Bytes UInt32) (tx : TxFee) :
    (∀ adr ∈ usescores, adr ∈ recordUsage env usescores tx) ∧
      ∀ adr ∈ tx.payees, adr ∈ recordUsage env usescores tx := by
  rw [recordUsage]
  generalize tx.payees = payees
  induction payees generalizing usescores with
  | nil => exact ⟨fun adr h => h, fun adr h => absurd h not_mem_nil⟩
  | cons a rest ih =>
    rw [foldl_cons]
    split
    case isTrue ha =>
      obtain ⟨hkeep, hrest⟩ := ih usescores
      refine ⟨hkeep, fun adr hadr => ?_⟩
      rcases mem_cons.mp hadr with rfl | hadr
      · exact hkeep _ ha
      · exact hrest _ hadr
    obtain ⟨hkeep, hrest⟩ := ih (usescores.insert a (env.addrUsage a))
    refine ⟨fun adr h => hkeep adr ((mem_insert _).mpr (.inr h)), fun adr hadr => ?_⟩
    rcases mem_cons.mp hadr with rfl | hadr
    · exact hkeep _ ((mem_insert _).mpr (.inl rfl))
    · exact hrest _ hadr

/-- Before the loop the usage of all payees has been recorded. -/
theorem recorded_foldl (env : ForfeitEnv) (claims : List TxFee) (usescores : Map Bytes UInt32) :
    (∀ adr ∈ usescores, adr ∈ claims.foldl (recordUsage env) usescores) ∧
      Recorded (claims.foldl (recordUsage env) usescores) claims := by
  induction claims generalizing usescores with
  | nil => exact ⟨fun adr h => h, fun tx h => absurd h not_mem_nil⟩
  | cons tx rest ih =>
    obtain ⟨hkeep, hrest⟩ := ih (recordUsage env usescores tx)
    obtain ⟨hold, hnew⟩ := mem_recordUsage env usescores tx
    refine ⟨fun adr h => hkeep adr (hold adr h), fun t ht adr hadr => ?_⟩
    rcases mem_cons.mp ht with rfl | ht
    · exact hkeep adr (hnew adr hadr)
    · exact hrest t ht adr hadr

theorem mem_wearUsage {adr : Bytes} (tx : TxFee) (h : adr ∈ usescores) :
    adr ∈ wearUsage usescores tx := by
  rw [wearUsage]
  generalize tx.payees = payees
  induction payees generalizing usescores with
  | nil => exact h
  | cons a rest ih =>
    rw [foldl_cons]
    apply ih
    split
    · exact (mem_insert _).mpr (.inr h)
    · exact h

/-! ## One claim -/

section

variable {level : UInt32} {allocunit : Int64} {s : Alloc} {tx : TxFee}

theorem not_skipped (hrec : ∀ adr ∈ tx.payees, adr ∈ s.usescores) (hopen : tx.fee ≠ tx.sure) :
    ¬(tx.fee = tx.sure ∨ level > score s.usescores tx) := by
  rintro (heq | hlevel)
  · exact hopen heq
  · rw [score_recorded hrec] at hlevel
    exact absurd (UInt32.le_iff_toNat_le.mpr (Nat.le_of_lt_succ level.toNat_lt))
      (UInt32.not_le.mpr hlevel)

/-- What a claim that has got nothing yet is paid. -/
def firstShare (allocunit bal : Int) (tx : TxFee) : Int := min tx.fee.toInt (min allocunit bal)

/-- What a visit leaves of a claim: what is paid is taken off what is due. -/
structure Paid (before after : TxFee) : Prop where
  tx : after.tx = before.tx
  payees : after.payees = before.payees
  nonneg : 0 ≤ after.sure.toInt
  fee_nonneg : 0 ≤ after.fee.toInt
  due : after.fee.toInt + after.sure.toInt = before.fee.toInt

/-- A claim that has got nothing yet takes the smaller of its fee and the unit, as far as the
balance goes. -/
theorem visit_fresh (hrec : ∀ adr ∈ tx.payees, adr ∈ s.usescores) (hsure : tx.sure = 0)
    (hfee : 0 < tx.fee.toInt) (hunit : 0 ≤ allocunit.toInt) (hbal : 0 ≤ s.bal.toInt) :
    Paid tx (visit level allocunit s tx).2 ∧
    (visit level allocunit s tx).2.sure.toInt = firstShare allocunit.toInt s.bal.toInt tx ∧
    (visit level allocunit s tx).1.bal.toInt =
      s.bal.toInt - firstShare allocunit.toInt s.bal.toInt tx ∧
    (visit level allocunit s tx).1.usescores = wearUsage s.usescores tx ∧
    (allocunit.toInt < tx.fee.toInt → (visit level allocunit s tx).1.count = s.count ∧
      0 < (visit level allocunit s tx).2.fee.toInt) := by
  have hopen : tx.fee ≠ tx.sure := by
    rw [hsure]
    intro heq
    rw [heq] at hfee
    exact absurd hfee (by decide)
  have hallocable : (if allocunit > s.bal then s.bal else allocunit).toInt =
      min allocunit.toInt s.bal.toInt := by
    split
    case isTrue hgt => exact (min_eq_right (le_iff_toInt_le.mp (Int64.le_of_lt hgt))).symm
    case isFalse hle => exact (min_eq_left (le_iff_toInt_le.mp (Int64.not_lt.mp hle))).symm
  rw [visit, if_neg (not_skipped hrec hopen)]
  dsimp only
  generalize (if allocunit > s.bal then s.bal else allocunit) = allocable at hallocable ⊢
  rw [firstShare, ← hallocable, hsure]
  split
  case isTrue hgt =>
    have hgt := lt_iff_toInt_lt.mp hgt
    have hleft : (tx.fee - allocable).toInt = tx.fee.toInt - allocable.toInt :=
      toInt_sub_of_le (by omega) (by omega)
    rw [min_eq_right (le_of_lt hgt), Int64.zero_add]
    refine ⟨⟨rfl, rfl, ?_, ?_, ?_⟩, rfl, toInt_sub_of_le (by omega) (by omega), rfl,
      fun _ => ⟨rfl, ?_⟩⟩
    all_goals
      dsimp only
      omega
  case isFalse hle =>
    have hle := le_iff_toInt_le.mp (Int64.not_lt.mp hle)
    rw [min_eq_left hle, Int64.sub_zero, Int64.zero_add]
    refine ⟨⟨rfl, rfl, le_of_lt hfee, le_refl 0, zero_add _⟩, rfl,
      toInt_sub_of_le (by omega) (by omega), rfl, fun hlt => ?_⟩
    omega

end

/-! ## The first round -/

section

variable {level : UInt32} {allocunit : Int64}

/-- A claim as it comes: nothing is paid yet. -/
def Fresh (tx : TxFee) : Prop := tx.sure = 0 ∧ 0 < tx.fee.toInt

/-- What the claims take in a round that the balance is large enough for. -/
def firstRound (allocunit : Int) (claims : List TxFee) : Int :=
  (claims.map fun tx => min tx.fee.toInt allocunit).sum

theorem allocRound_cons (s : Alloc) (tx : TxFee) (rest : List TxFee) :
    allocRound level allocunit s (tx :: rest) =
      ((allocRound level allocunit (visit level allocunit s tx).1 rest).1,
        (visit level allocunit s tx).2 ::
          (allocRound level allocunit (visit level allocunit s tx).1 rest).2) := rfl

theorem firstRound_nonneg {claims : List TxFee} (hunit : 0 ≤ allocunit.toInt)
    (hfresh : ∀ tx ∈ claims, Fresh tx) : 0 ≤ firstRound allocunit.toInt claims := by
  apply sum_nonneg
  intro x hx
  obtain ⟨tx, htx, rfl⟩ := mem_map.mp hx
  exact le_min (le_of_lt (hfresh tx htx).2) hunit

/-- **The first round.** Every claim takes the smaller of its fee and the unit until the balance is
used up; where the unit is below every fee no claim is closed. -/
theorem fresh_round (hunit : 0 ≤ allocunit.toInt) : ∀ {claims : List TxFee} {s : Alloc},
    Recorded s.usescores claims → (∀ tx ∈ claims, Fresh tx) → 0 ≤ s.bal.toInt →
    List.Forall₂ Paid claims (allocRound level allocunit s claims).2 ∧
    ((allocRound level allocunit s claims).2.map fun tx => tx.sure.toInt).sum +
      (allocRound level allocunit s claims).1.bal.toInt = s.bal.toInt ∧
    (allocRound level allocunit s claims).1.bal.toInt =
      max 0 (s.bal.toInt - firstRound allocunit.toInt claims) ∧
    ((∀ tx ∈ claims, allocunit.toInt < tx.fee.toInt) →
      (allocRound level allocunit s claims).1.count = s.count ∧
      ∀ tx ∈ (allocRound level allocunit s claims).2, 0 < tx.fee.toInt)
  | [], s, _, _, hbal => by
    refine ⟨.nil, zero_add _, ?_, fun _ => ⟨rfl, fun tx h => absurd h not_mem_nil⟩⟩
    show s.bal.toInt = max 0 (s.bal.toInt - 0)
    omega
  | tx :: rest, s, hrec, hfresh, hbal => by
    obtain ⟨hsure, hfee⟩ := hfresh tx mem_cons_self
    obtain ⟨hpaid, hshare, hleft, hscores, hcount⟩ : Paid tx (visit level allocunit s tx).2 ∧ _ :=
      visit_fresh (hrec tx mem_cons_self) hsure hfee hunit hbal
    rw [allocRound_cons]
    dsimp only
    generalize visit level allocunit s tx = v at hpaid hshare hleft hscores hcount ⊢
    have hrec' : Recorded v.1.usescores rest := by
      intro t ht adr hadr
      rw [hscores]
      exact mem_wearUsage tx (hrec t (mem_cons_of_mem tx ht) adr hadr)
    have hfresh' : ∀ t ∈ rest, Fresh t := fun t ht => hfresh t (mem_cons_of_mem tx ht)
    have hrest := firstRound_nonneg hunit hfresh'
    have hsum : firstRound allocunit.toInt (tx :: rest) =
        min tx.fee.toInt allocunit.toInt + firstRound allocunit.toInt rest := sum_cons
    rw [firstShare] at hshare hleft
    obtain ⟨hpaids, htotal, hend, hkeep⟩ := fresh_round (s := v.1) hunit hrec' hfresh' (by omega)
    refine ⟨.cons hpaid hpaids, ?_, ?_, fun hlarge => ?_⟩
    · rw [map_cons, sum_cons]
      omega
    · omega
    · obtain ⟨hsame, hfees⟩ := hkeep fun t ht => hlarge t (mem_cons_of_mem tx ht)
      obtain ⟨hsame', hfee'⟩ := hcount (hlarge tx mem_cons_self)
      exact ⟨hsame.trans hsame', forall_mem_cons.mpr ⟨hfee', hfees⟩⟩

end

/-! ## The loop -/

section

variable {orders : Nat → Shuffle TxFee} {avgtx : Int} {s : Alloc} {claims : List TxFee}

/-- The claims are settled: in some order each has got between nothing and its fee, together no
more than the balance. -/
structure PaidOut (bal : Int64) (claims settled : List TxFee) : Prop where
  paid : ∃ l, l.Perm claims ∧ List.Forall₂ Paid l settled
  total : (settled.map fun tx => tx.sure.toInt).sum ≤ bal.toInt

/-- The loop ends and settles the claims. -/
def Settles (orders : Nat → Shuffle TxFee) (avgtx : Int) (s : Alloc) (claims : List TxFee) : Prop :=
  ∃ fuel r, allocate orders avgtx fuel 0 s claims = some r ∧ PaidOut s.bal claims r.2

/-- The state in which the loop is entered: the claims are counted, nothing is paid, the usage of
the payees is recorded, and the average is at least 10. -/
structure Entered (avgtx : Int) (s : Alloc) (claims : List TxFee) : Prop where
  bal : 0 < s.bal.toInt
  nonempty : claims ≠ []
  count : s.count.toNat = claims.length
  fresh : ∀ tx ∈ claims, Fresh tx
  recorded : Recorded s.usescores claims
  average : 10 ≤ avgtx
  average_lt : avgtx < 2 ^ 63

/-- The divisor of the balance in the first round. -/
def divisor (avgtx : Int) (claims : List TxFee) : Int := min claims.length avgtx

section

variable (h : Entered avgtx s claims)

include h

theorem Entered.goesOn : s.bal > 0 ∧ s.count > 0 := by
  have hlen := length_pos_of_ne_nil h.nonempty
  refine ⟨lt_iff_toInt_lt.mpr h.bal, UInt64.lt_iff_toNat_lt.mpr ?_⟩
  rw [h.count]
  exact hlen

theorem Entered.divisor_pos : 0 < divisor avgtx claims := by
  have hlen := length_pos_of_ne_nil h.nonempty
  have havg := h.average
  rw [divisor]
  omega

/-- The unit, as long as the number of open claims is right. -/
theorem Entered.allocUnit {t : Alloc} (hbal : 0 ≤ t.bal.toInt) (hcount : t.count = s.count) :
    (Zent.allocUnit avgtx t).toInt = t.bal.toInt / divisor avgtx claims := by
  have hlen := length_pos_of_ne_nil h.nonempty
  have havg := h.average
  have hlt := h.average_lt
  have hgt : s.count > UInt64.ofInt avgtx ↔ avgtx < claims.length := by
    have hcast := toNat_ofInt_of_lt (by omega : 0 ≤ avgtx) hlt
    rw [gt_iff_lt, UInt64.lt_iff_toNat_lt, h.count]
    omega
  rw [Zent.allocUnit, divisor, hcount]
  split
  case isTrue hmany =>
    have hto : (Int64.ofInt avgtx).toInt = avgtx := toInt_ofInt_of_le (by omega) hlt
    rw [min_eq_right (le_of_lt (hgt.mp hmany)), toInt_div_of_pos hbal (by omega), hto]
  rename_i hfew
  have hle := not_lt.mp (hgt.not.mp hfew)
  have hto : s.count.toInt64.toInt = claims.length := by
    rw [toInt_toInt64_of_lt (by rw [h.count]; omega), h.count]
  rw [min_eq_left hle, toInt_div_of_pos hbal (by omega), hto]

end

theorem firstRound_perm {l l' : List TxFee} (h : l.Perm l') (allocunit : Int) :
    firstRound allocunit l = firstRound allocunit l' := (h.map _).sum_eq

theorem Recorded.perm {l l' : List TxFee} (h : l'.Perm l)
    (hrec : Recorded usescores l) : Recorded usescores l' :=
  fun tx htx => hrec tx (h.mem_iff.mp htx)

/-- The state after the first round. -/
def afterFirst (orders : Nat → Shuffle TxFee) (avgtx : Int) (s : Alloc) (claims : List TxFee) :
    Alloc × List TxFee :=
  allocRound (admitted s.usescores claims) (Zent.allocUnit avgtx s) s ((orders 0).run claims)

section

variable (h : Entered avgtx s claims)

include h

theorem Entered.allocate_succ (fuel : Nat) :
    allocate orders avgtx (fuel + 1) 0 s claims =
      allocate orders avgtx fuel 1 (afterFirst orders avgtx s claims).1
        (afterFirst orders avgtx s claims).2 := by
  rw [allocate, if_pos h.goesOn]
  rfl

theorem Entered.first (orders : Nat → Shuffle TxFee) :
    List.Forall₂ Paid ((orders 0).run claims) (afterFirst orders avgtx s claims).2 ∧
    ((afterFirst orders avgtx s claims).2.map fun tx => tx.sure.toInt).sum +
      (afterFirst orders avgtx s claims).1.bal.toInt = s.bal.toInt ∧
    (afterFirst orders avgtx s claims).1.bal.toInt =
      max 0 (s.bal.toInt - firstRound (s.bal.toInt / divisor avgtx claims) claims) ∧
    ((∀ tx ∈ claims, s.bal.toInt / divisor avgtx claims < tx.fee.toInt) →
      (afterFirst orders avgtx s claims).1.count = s.count ∧
      ∀ tx ∈ (afterFirst orders avgtx s claims).2, 0 < tx.fee.toInt) := by
  have hperm := (orders 0).perm claims
  have hunit := h.allocUnit h.bal.le rfl
  have hnonneg : 0 ≤ (Zent.allocUnit avgtx s).toInt := by
    rw [hunit]
    exact ediv_nonneg h.bal.le h.divisor_pos.le
  obtain ⟨hpaid, htotal, hend, hcount⟩ := fresh_round hnonneg (h.recorded.perm hperm)
    (fun tx htx => h.fresh tx (hperm.mem_iff.mp htx)) h.bal.le
  rw [hunit, firstRound_perm hperm] at hend
  refine ⟨hpaid, htotal, hend, fun hlarge => hcount fun tx htx => ?_⟩
  rw [hunit]
  exact hlarge tx (hperm.mem_iff.mp htx)

/-- If the first round uses up the balance, the loop ends and settles the claims. -/
theorem Entered.settles (orders : Nat → Shuffle TxFee)
    (hused : s.bal.toInt ≤ firstRound (s.bal.toInt / divisor avgtx claims) claims) :
    Settles orders avgtx s claims := by
  obtain ⟨hpaid, htotal, hend, -⟩ := h.first orders
  rw [max_eq_left (by omega)] at hend
  refine ⟨2, afterFirst orders avgtx s claims, ?_, ⟨_, (orders 0).perm claims, hpaid⟩, ?_⟩
  · have hdone : ¬((afterFirst orders avgtx s claims).1.bal > 0 ∧
        (afterFirst orders avgtx s claims).1.count > 0) := by
      rintro ⟨hbal, -⟩
      have hbal := lt_iff_toInt_lt.mp hbal
      rw [hend] at hbal
      exact absurd hbal (lt_irrefl 0)
    rw [h.allocate_succ, allocate, if_neg hdone]
  · omega

end

/-! ## A loop that does not end -/

/-- A unit of zero changes no open claim. -/
theorem visit_idle (level : UInt32) {tx : TxFee} (hbal : 0 < s.bal.toInt)
    (hfee : 0 < tx.fee.toInt) :
    (visit level 0 s tx).2 = tx ∧ (visit level 0 s tx).1.bal = s.bal ∧
      (visit level 0 s tx).1.count = s.count := by
  have hgt : tx.fee > 0 := lt_iff_toInt_lt.mpr hfee
  rw [visit]
  split
  · exact ⟨rfl, rfl, rfl⟩
  have hnot : ¬(0 : Int64) > s.bal := Int64.not_lt.mpr (le_iff_toInt_le.mpr hbal.le)
  rw [if_neg hnot, if_pos hgt, Int64.sub_zero, Int64.sub_zero, Int64.add_zero]
  exact ⟨rfl, rfl, rfl⟩

theorem allocRound_idle (level : UInt32) : ∀ {claims : List TxFee} {s : Alloc},
    0 < s.bal.toInt → (∀ tx ∈ claims, 0 < tx.fee.toInt) →
    (allocRound level 0 s claims).2 = claims ∧ (allocRound level 0 s claims).1.bal = s.bal ∧
      (allocRound level 0 s claims).1.count = s.count
  | [], s, _, _ => ⟨rfl, rfl, rfl⟩
  | tx :: rest, s, hbal, hfee => by
    obtain ⟨htx, hb, hc⟩ := visit_idle level hbal (hfee tx mem_cons_self)
    obtain ⟨hrest, hb', hc'⟩ := allocRound_idle level (s := (visit level 0 s tx).1) (hb ▸ hbal)
      fun t ht => hfee t (mem_cons_of_mem tx ht)
    rw [allocRound_cons, htx, hrest]
    exact ⟨rfl, hb'.trans hb, hc'.trans hc⟩

/-- **A unit of zero and open claims only: the loop does not end**, whatever the orders. -/
theorem allocate_stuck : ∀ (fuel k : Nat) {s : Alloc} {claims : List TxFee}, 0 < s.bal.toInt →
    s.count > 0 → allocUnit avgtx s = 0 → (∀ tx ∈ claims, 0 < tx.fee.toInt) →
    allocate orders avgtx fuel k s claims = none
  | 0, _, _, _, _, _, _, _ => rfl
  | fuel + 1, k, s, claims, hbal, hcount, hunit, hfee => by
    have hfee' : ∀ tx ∈ (orders k).run claims, 0 < tx.fee.toInt :=
      fun tx htx => hfee tx ((orders k).mem_run.mp htx)
    obtain ⟨hsame, hb, hc⟩ := allocRound_idle (admitted s.usescores claims) hbal hfee'
    have hunit' : allocUnit avgtx (allocRound (admitted s.usescores claims) 0 s
        ((orders k).run claims)).1 = 0 := by
      rw [allocUnit, hb, hc]
      exact hunit
    rw [allocate, if_pos ⟨lt_iff_toInt_lt.mpr hbal, hcount⟩, hunit]
    dsimp only
    rw [hsame]
    exact allocate_stuck fuel (k + 1) (hb ▸ hbal) (hc ▸ hcount) hunit' hfee'

/-- What is left after a first round without closing is less than the divisor. -/
theorem Entered.rest_lt (h : Entered avgtx s claims)
    (hlarge : ∀ tx ∈ claims, s.bal.toInt / divisor avgtx claims < tx.fee.toInt) :
    s.bal.toInt - firstRound (s.bal.toInt / divisor avgtx claims) claims <
      divisor avgtx claims := by
  have hpos := h.divisor_pos
  have hall : claims.map (fun tx => min tx.fee.toInt (s.bal.toInt / divisor avgtx claims)) =
      claims.map fun _ => s.bal.toInt / divisor avgtx claims :=
    map_congr_left fun tx htx => min_eq_right (hlarge tx htx).le
  have hdiv := mul_ediv_add_emod s.bal.toInt (divisor avgtx claims)
  have hmod := emod_lt_of_pos s.bal.toInt hpos
  have hle : divisor avgtx claims * (s.bal.toInt / divisor avgtx claims) ≤
      claims.length * (s.bal.toInt / divisor avgtx claims) :=
    Int.mul_le_mul_of_nonneg_right (min_le_left _ _) (Int.ediv_nonneg h.bal.le hpos.le)
  rw [firstRound, hall, map_const', sum_replicate, nsmul_eq_mul]
  omega

/-- A first round that closes no claim and leaves a balance leaves less than one for each claim:
the next unit is zero. -/
theorem Entered.allocate_none (h : Entered avgtx s claims)
    (hlarge : ∀ tx ∈ claims, s.bal.toInt / divisor avgtx claims < tx.fee.toInt)
    (hleft : firstRound (s.bal.toInt / divisor avgtx claims) claims < s.bal.toInt)
    (orders : Nat → Shuffle TxFee) (fuel : Nat) : allocate orders avgtx fuel 0 s claims = none := by
  obtain ⟨-, -, hend, hcount⟩ := h.first orders
  obtain ⟨hsame, hfees⟩ := hcount hlarge
  have hrest := h.rest_lt hlarge
  have hbal : 0 < (afterFirst orders avgtx s claims).1.bal.toInt := by omega
  have hunit : Zent.allocUnit avgtx (afterFirst orders avgtx s claims).1 = 0 := by
    rw [← toInt_inj, h.allocUnit hbal.le hsame, toInt_zero]
    exact ediv_eq_zero_of_lt hbal.le (by omega)
  cases fuel with
  | zero => rfl
  | succ fuel =>
    rw [h.allocate_succ]
    exact allocate_stuck fuel 1 hbal (hsame ▸ h.goesOn.2) hunit hfees

/-- **The claims are settled if the first round uses up the balance**: the loop ends, each claim
has got between nothing and its fee, and together they have got no more than the balance. Where
every fee is above the first unit they are settled in no other case. -/
theorem allocation_settles (orders : Nat → Shuffle TxFee) (h : Entered avgtx s claims) :
    (s.bal.toInt ≤ firstRound (s.bal.toInt / divisor avgtx claims) claims →
      Settles orders avgtx s claims) ∧
    ((∀ tx ∈ claims, s.bal.toInt / divisor avgtx claims < tx.fee.toInt) →
      Settles orders avgtx s claims →
      s.bal.toInt ≤ firstRound (s.bal.toInt / divisor avgtx claims) claims) := by
  refine ⟨h.settles orders, fun hlarge hsettles => ?_⟩
  by_contra hleft
  obtain ⟨fuel, r, hrun, -⟩ := hsettles
  rw [h.allocate_none hlarge (not_le.mp hleft)] at hrun
  cases hrun

end

/-! ## The loop without scores -/

/-- One claim in a round, as `visit` without the admission test. -/
def share (allocunit bal : Int64) (count : UInt64) (tx : TxFee) : Int64 × UInt64 × TxFee :=
  if tx.fee = tx.sure then (bal, count, tx)
  else
    let allocable := if allocunit > bal then bal else allocunit
    if tx.fee > allocable then
      (bal - allocable, count, ⟨tx.tx, tx.fee - allocable, tx.sure + allocable, tx.payees⟩)
    else (bal - (tx.fee - tx.sure), count - 1, ⟨tx.tx, 0, tx.sure + tx.fee, tx.payees⟩)

/-- A round, as `allocRound`. -/
def shareRound (allocunit : Int64) : Int64 → UInt64 → List TxFee → Int64 × UInt64 × List TxFee
  | bal, count, [] => (bal, count, [])
  | bal, count, tx :: rest =>
    let r := share allocunit bal count tx
    let r' := shareRound allocunit r.1 r.2.1 rest
    (r'.1, r'.2.1, r.2.2 :: r'.2.2)

/-- The loop, as `allocate`. -/
def divide (orders : Nat → Shuffle TxFee) (avgtx : Int) :
    Nat → Nat → Int64 → UInt64 → List TxFee → Option (List TxFee)
  | 0, _, _, _, _ => none
  | fuel + 1, k, bal, count, claims =>
    if bal > 0 ∧ count > 0 then
      let r := shareRound (allocUnit avgtx ⟨bal, count, ∅⟩) bal count ((orders k).run claims)
      divide orders avgtx fuel (k + 1) r.1 r.2.1 r.2.2
    else some claims

section

variable {allocunit : Int64}

theorem share_payees (bal : Int64) (count : UInt64) (tx : TxFee) :
    (share allocunit bal count tx).2.2.tx = tx.tx ∧
      (share allocunit bal count tx).2.2.payees = tx.payees := by
  rw [share]
  by_cases hopen : tx.fee = tx.sure
  · rw [if_pos hopen]
    exact ⟨rfl, rfl⟩
  rw [if_neg hopen]
  generalize (if allocunit > bal then bal else allocunit) = allocable
  by_cases hgt : tx.fee > allocable
  · rw [if_pos hgt]
    exact ⟨rfl, rfl⟩
  · rw [if_neg hgt]
    exact ⟨rfl, rfl⟩

/-- With the payees recorded the admission test lets every claim through. -/
theorem visit_recorded (level : UInt32) (allocunit : Int64) {s : Alloc} {tx : TxFee}
    (hrec : ∀ adr ∈ tx.payees, adr ∈ s.usescores) :
    share allocunit s.bal s.count tx = ((visit level allocunit s tx).1.bal,
      (visit level allocunit s tx).1.count, (visit level allocunit s tx).2) ∧
    ∀ adr ∈ s.usescores, adr ∈ (visit level allocunit s tx).1.usescores := by
  rw [visit, share]
  by_cases hopen : tx.fee = tx.sure
  · rw [if_pos hopen, if_pos (.inl hopen)]
    exact ⟨rfl, fun adr h => h⟩
  rw [if_neg hopen, if_neg (not_skipped hrec hopen)]
  generalize (if allocunit > s.bal then s.bal else allocunit) = allocable
  by_cases hgt : tx.fee > allocable
  · rw [if_pos hgt, if_pos hgt]
    exact ⟨rfl, fun adr h => mem_wearUsage tx h⟩
  · rw [if_neg hgt, if_neg hgt]
    exact ⟨rfl, fun adr h => mem_wearUsage tx h⟩

theorem allocRound_recorded (level : UInt32) (allocunit : Int64) : ∀ {claims : List TxFee}
    {s : Alloc}, Recorded s.usescores claims →
    shareRound allocunit s.bal s.count claims = ((allocRound level allocunit s claims).1.bal,
      (allocRound level allocunit s claims).1.count, (allocRound level allocunit s claims).2) ∧
    ∀ adr ∈ s.usescores, adr ∈ (allocRound level allocunit s claims).1.usescores
  | [], s, _ => ⟨rfl, fun adr h => h⟩
  | tx :: rest, s, hrec => by
    obtain ⟨hshare, hkeep⟩ := visit_recorded level allocunit (hrec tx mem_cons_self)
    have hrec' : Recorded (visit level allocunit s tx).1.usescores rest :=
      fun t ht adr hadr => hkeep adr (hrec t (mem_cons_of_mem tx ht) adr hadr)
    obtain ⟨hround, hkeep'⟩ := allocRound_recorded level allocunit hrec'
    rw [allocRound_cons, shareRound]
    rw [hshare, hround]
    exact ⟨rfl, fun adr h => hkeep' adr (hkeep adr h)⟩

theorem mem_shareRound {adr : Bytes} : ∀ {claims : List TxFee} {bal : Int64} {count : UInt64}
    {tx : TxFee}, tx ∈ (shareRound allocunit bal count claims).2.2 → adr ∈ tx.payees →
    ∃ t ∈ claims, adr ∈ t.payees
  | t :: rest, bal, count, tx, htx, hadr => by
    rcases mem_cons.mp htx with rfl | htx
    · exact ⟨t, mem_cons_self, (share_payees bal count t).2 ▸ hadr⟩
    · obtain ⟨u, hu, hadr⟩ := mem_shareRound htx hadr
      exact ⟨u, mem_cons_of_mem t hu, hadr⟩

/-- **The usage of the addresses has no influence**: the loop is `divide`. -/
theorem allocate_recorded {orders : Nat → Shuffle TxFee} {avgtx : Int} :
    ∀ (fuel k : Nat) {s : Alloc} {claims : List TxFee}, Recorded s.usescores claims →
    (allocate orders avgtx fuel k s claims).map Prod.snd =
      divide orders avgtx fuel k s.bal s.count claims
  | 0, _, _, _, _ => rfl
  | fuel + 1, k, s, claims, hrec => by
    have hrec' : Recorded s.usescores ((orders k).run claims) := hrec.perm ((orders k).perm claims)
    have hunit : allocUnit avgtx ⟨s.bal, s.count, ∅⟩ = allocUnit avgtx s := rfl
    rw [allocate, divide, hunit]
    by_cases hgo : s.bal > 0 ∧ s.count > 0
    · rw [if_pos hgo, if_pos hgo]
      obtain ⟨hround, hkeep⟩ :=
        allocRound_recorded (admitted s.usescores claims) (allocUnit avgtx s) hrec'
      rw [hround]
      apply allocate_recorded fuel (k + 1)
      intro tx htx adr hadr
      have hmem :
          tx ∈ (shareRound (allocUnit avgtx s) s.bal s.count ((orders k).run claims)).2.2 := by
        rw [hround]
        exact htx
      obtain ⟨t, ht, hadr⟩ := mem_shareRound hmem hadr
      exact hkeep adr (hrec' t ht adr hadr)
    · rw [if_neg hgo, if_neg hgo]
      rfl

variable {orders orders' : Nat → Shuffle TxFee} {avgtx : Int}

theorem divide_mono {r : List TxFee} : ∀ {fuel fuel' k : Nat} {bal : Int64} {count : UInt64}
    {claims : List TxFee}, fuel ≤ fuel' → divide orders avgtx fuel k bal count claims = some r →
    divide orders avgtx fuel' k bal count claims = some r
  | fuel + 1, fuel' + 1, k, bal, count, claims, hle, h => by
    rw [divide] at h ⊢
    split at h
    case isTrue hgo =>
      rw [if_pos hgo]
      exact divide_mono (Nat.le_of_succ_le_succ hle) h
    case isFalse hgo =>
      rw [if_neg hgo]
      exact h

theorem map_tx_shareRound (allocunit : Int64) : ∀ (claims : List TxFee) (bal : Int64)
    (count : UInt64),
    (shareRound allocunit bal count claims).2.2.map TxFee.tx = claims.map TxFee.tx
  | [], _, _ => rfl
  | tx :: rest, bal, count => by
    rw [shareRound, map_cons, map_cons, (share_payees bal count tx).1,
      map_tx_shareRound allocunit rest]

/-- The claims that the loop leaves are for the same transactions. -/
theorem divide_perm {r : List TxFee} : ∀ {fuel k : Nat} {bal : Int64} {count : UInt64}
    {claims : List TxFee}, divide orders avgtx fuel k bal count claims = some r →
    (r.map TxFee.tx).Perm (claims.map TxFee.tx)
  | fuel + 1, k, bal, count, claims, h => by
    rw [divide] at h
    split at h
    · have hround := divide_perm h
      rw [map_tx_shareRound] at hround
      exact hround.trans (((orders k).perm claims).map TxFee.tx)
    · rw [Option.some_inj.mp h]

/-- With one claim the orders of the rounds have no influence. -/
theorem divide_of_length_le_one : ∀ (fuel k k' : Nat) (bal : Int64) (count : UInt64)
    {claims : List TxFee}, claims.length ≤ 1 →
    divide orders avgtx fuel k bal count claims = divide orders' avgtx fuel k' bal count claims
  | 0, _, _, _, _, _, _ => rfl
  | fuel + 1, k, k', bal, count, claims, hle => by
    have hlen := congrArg length
      (map_tx_shareRound (allocUnit avgtx ⟨bal, count, ∅⟩) claims bal count)
    rw [length_map, length_map] at hlen
    rw [divide, divide, (orders k).run_eq_of_length_le_one hle,
      (orders' k').run_eq_of_length_le_one hle]
    rw [divide_of_length_le_one fuel (k + 1) (k' + 1) _ _ (hlen ▸ hle)]

/-- A loop over one claim that ends has one result. -/
theorem divide_unique {r r' : List TxFee} {fuel fuel' : Nat} {bal : Int64} {count : UInt64}
    {claims : List TxFee} (hle : claims.length ≤ 1)
    (h : divide orders avgtx fuel 0 bal count claims = some r)
    (h' : divide orders' avgtx fuel' 0 bal count claims = some r') : r = r' := by
  rw [divide_of_length_le_one fuel' 0 0 bal count hle] at h'
  have hmax := divide_mono (le_max_left fuel fuel') h
  rw [divide_mono (le_max_right fuel fuel') h'] at hmax
  exact (Option.some_inj.mp hmax).symm

end

/-! ## Two claims -/

/-- Two claims of one payee, each for a fee of one hao. -/
def twoClaims : List TxFee :=
  [⟨forfeitTx [] [], 10000, 0, [[0]]⟩, ⟨forfeitTx [] [payOut 0 []], 10000, 0, [[0]]⟩]

/-- The loop is entered with a balance for the two claims. -/
def twoClaimsAlloc (bal : Int64) : Alloc := ⟨bal, 2, singleton [0] 7⟩

theorem entered_twoClaims {bal : Int64} (hbal : 0 < bal.toInt) :
    Entered 10 (twoClaimsAlloc bal) twoClaims where
  bal := hbal
  nonempty := by decide
  count := rfl
  fresh := by
    intro tx htx
    rcases mem_pair.mp htx with rfl | rfl
    · exact ⟨rfl, by decide⟩
    · exact ⟨rfl, by decide⟩
  recorded := by
    intro tx htx adr hadr
    rcases mem_pair.mp htx with rfl | rfl <;>
    · rw [mem_singleton.mp hadr]
      exact mem_singleton_self _
  average := le_refl 10
  average_lt := by decide

/-- A balance of 3 for two claims of 10000: after a unit of 1 for each the rest of 1 makes a unit of
zero, and the loop goes on for ever. -/
theorem twoClaims_never_end :
    (claimSum twoClaims).toInt = 20000 ∧ Entered 10 (twoClaimsAlloc 3) twoClaims ∧
      ∀ orders fuel, allocate orders 10 fuel 0 (twoClaimsAlloc 3) twoClaims = none := by
  have hentered : Entered 10 (twoClaimsAlloc 3) twoClaims := entered_twoClaims (by decide)
  refine ⟨by decide, hentered, fun orders fuel => hentered.allocate_none ?_ (by decide) orders fuel⟩
  intro tx htx
  rcases mem_pair.mp htx with rfl | rfl <;> decide

/-- A balance of 4 is divided. -/
theorem twoClaims_settle : Settles (fun _ => .stored) 10 (twoClaimsAlloc 4) twoClaims :=
  (allocation_settles _ (entered_twoClaims (by decide))).1 (by decide)

end Zent
