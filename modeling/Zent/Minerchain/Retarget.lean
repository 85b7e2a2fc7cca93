import Zent.Minerchain.Difficulty

/-!
# Slower blocks and the difficulty

At the end of a period the target follows the time that the blocks of the period took. The times
are scaled with the waiting list and added up as `int64`, and the target is rounded to its compact
form and limited.
-/

namespace Zent.Minerchain

open Go MinerLine List Int64 Prod Int

/-! ## Sums that fit -/

/-- Times that can be added to a sum, one by one. -/
def Fits : Int → List Int → Prop
  | _, [] => True
  | s, t :: l => InInt64 t ∧ InInt64 (s + t) ∧ Fits (s + t) l

theorem Fits.sum : ∀ {l : List Int} {s : Int}, InInt64 s → Fits s l → InInt64 (s + l.sum)
  | [], s, hs, _ => by rwa [sum_nil, add_zero]
  | t :: l, s, _, h => by
    rw [sum_cons, ← add_assoc]
    exact Fits.sum h.2.1 h.2.2

instance : (s : Int) → (l : List Int) → Decidable (Fits s l)
  | _, [] => .isTrue trivial
  | s, t :: l =>
    have := instDecidableFits (s + t) l
    inferInstanceAs (Decidable (_ ∧ _ ∧ _))

/-- The loop over the period: every shift and every addition is exact. -/
def NeverWraps : Int64 → List (Int × Int) → Prop
  | _, [] => True
  | s, (d, dt) :: l =>
    (scaleTime d (ofInt dt)).toInt = scaledTime d dt ∧
      (s + scaleTime d (ofInt dt)).toInt = s.toInt + scaledTime d dt ∧
      NeverWraps (s + scaleTime d (ofInt dt)) l

/-- No sum of the loop wraps exactly where the exact times fit. -/
theorem neverWraps_iff : ∀ {l : List (Int × Int)} {s : Int}, InInt64 s →
    (∀ g ∈ l, InInt64 g.2) → (NeverWraps (ofInt s) l ↔ Fits s (scaled l))
  | [], _, _, _ => Iff.rfl
  | (d, dt) :: l, s, hs, hl => by
    have hdt := hl (d, dt) mem_cons_self
    have hscaled : scaled ((d, dt) :: l) = scaledTime d dt :: scaled l := rfl
    rw [NeverWraps, hscaled, Fits, scaleTime_eq d dt hdt.1 hdt.2, ← ofInt_add,
      toInt_ofInt_iff, toInt_ofInt_iff.mpr hs, toInt_ofInt_iff]
    refine and_congr_right fun _ => and_congr_right fun hsum => ?_
    exact neverWraps_iff hsum fun g hg => hl g (mem_cons_of_mem _ hg)

variable {env : RetargetEnv}

/-- Times between blocks fit, since the times of blocks have 32 bits. -/
theorem gaps_inInt64 : ∀ {i : Nat} {nodes : List TimedHeader},
    ∀ g ∈ gaps env i nodes, InInt64 g.2
  | i + 1, pb :: nb :: rest, g, hg => by
    rcases mem_cons.mp hg with rfl | hg
    · have hpb := pb.timestamp.toNat_lt
      have hnb := nb.timestamp.toNat_lt
      constructor <;> dsimp only <;> omega
    · exact gaps_inInt64 g hg

/-! ## Slower blocks -/

theorem scaledTime_mono (d : Int) {dt dt' : Int} (h : dt ≤ dt') :
    scaledTime d dt ≤ scaledTime d dt' := by
  rw [scaledTime, scaledTime]
  split
  · exact Int.ediv_le_ediv (by decide) h
  · split
    · exact Int.mul_le_mul_of_nonneg_right h (by positivity)
    · exact Int.ediv_le_ediv (by positivity) h

/-- Two headers that differ in their times, and so in the hashes. -/
def SameButTime (x y : TimedHeader) : Prop :=
  y = { x with timestamp := y.timestamp, hash := y.hash, prevBlock := y.prevBlock }

/-- The gaps of a period with slower blocks. -/
def Longer (g g' : Int × Int) : Prop := 0 ≤ g'.2 ∧ g.2 ≤ g'.2

instance (g g' : Int × Int) : Decidable (Longer g g') := inferInstanceAs (Decidable (_ ∧ _))

/-- Two chains that differ in their times only, with slower blocks in the period examined. -/
structure Slower (fast slow : MinerLine env) : Prop where
  same : List.Forall₂ SameButTime fast.nodes slow.nodes
  longer : List.Forall₂ Longer (gaps env fast.count fast.window) (gaps env slow.count slow.window)

theorem gaps_waiting : ∀ {i : Nat} {l l' : List TimedHeader}, List.Forall₂ SameButTime l l' →
    (gaps env i l).map fst = (gaps env i l').map fst
  | 0, _, _, _ => by rw [gaps, gaps]
  | i + 1, _, _, .nil => rfl
  | i + 1, _, _, .cons hx .nil => rfl
  | i + 1, _, _, .cons hx (.cons hn hp) => by
    have ih := gaps_waiting (i := i) (.cons hn hp)
    rw [gaps, gaps, map_cons, map_cons, ih]
    rw [hx]

theorem scaled_sum_mono : ∀ {l l' : List (Int × Int)}, l.map fst = l'.map fst →
    List.Forall₂ Longer l l' → (scaled l).sum ≤ (scaled l').sum
  | _, _, _, .nil => le_refl _
  | (d, dt) :: l, (d', dt') :: l', hsame, .cons hg hl => by
    obtain ⟨hd, hrest⟩ := cons.inj hsame
    obtain rfl : d = d' := hd
    exact add_le_add (scaledTime_mono d hg.2) (scaled_sum_mono hrest hl)

theorem newTarget_mono {bits : UInt32} (hbits : 0 < compactToBig bits) {s s' : Int} (h : s ≤ s') :
    newTarget env bits s ≤ newTarget env bits s' := by
  have hspan := env.span_le
  refine Int.ediv_le_ediv env.target_pos (Int.mul_le_mul_of_nonneg_left ?_ (Int.le_of_lt hbits))
  split <;> split <;> (try split) <;> omega

theorem newTarget_nonneg {bits : UInt32} (hbits : 0 < compactToBig bits) (s : Int) :
    0 ≤ newTarget env bits s := by
  have hspan := env.span_le
  have hmin := env.span_nonneg
  refine ediv_nonneg (mul_nonneg (le_of_lt hbits) ?_) (le_of_lt env.target_pos)
  split <;> (try split) <;> omega

/-- The target for the times of a period, without bounds on their sum. -/
def MinerLine.target (line : MinerLine env) : Int := newTarget env line.last.bits line.times.sum

namespace Slower

variable {fast slow : MinerLine env}

section

variable (h : Slower fast slow)

include h

theorem last_same : SameButTime fast.last slow.last := by
  cases h.same with
  | cons hlast _ => exact hlast

theorem bits_eq : slow.last.bits = fast.last.bits := by
  have hlast := h.last_same
  rw [hlast]

theorem height_eq : slow.last.height = fast.last.height := by
  have hlast := h.last_same
  rw [hlast]

/-- Without bounds, slower blocks never lower the target. -/
theorem target_le : fast.target ≤ slow.target := by
  rw [target, target, h.bits_eq]
  refine newTarget_mono fast.bits_pos (scaled_sum_mono ?_ h.longer)
  exact gaps_waiting (forall₂_drop _ h.same)

theorem atRetarget_iff : slow.AtRetarget ↔ fast.AtRetarget := by
  rw [MinerLine.AtRetarget, MinerLine.AtRetarget, h.height_eq]

end

end Slower

/-! ## The difficulty -/

/-- Before the end of a period the bits do not depend on the times. -/
def MinerLine.oldBits (line : MinerLine env) : UInt32 :=
  if line.last.height.toInt < env.blocksPerRetarget.toInt + 10 then env.powLimitBits
  else line.last.bits

variable {line : MinerLine env}

theorem MinerLine.calc_between (h : ¬ line.AtRetarget) (cache : Cache) :
    ∃ r cache', calcNextRequiredDifficulty env cache line.nodes = .ok (r, cache') ∧
      r.bits = line.oldBits := by
  rw [nodes, calcNextRequiredDifficulty, oldBits]
  by_cases hearly : line.last.height.toInt < env.blocksPerRetarget.toInt + 10
  · rw [if_pos (line.early_iff.mpr hearly), if_pos hearly]
    exact ⟨_, _, rfl, rfl⟩
  have hmod : (line.last.height + 1) % env.blocksPerRetarget ≠ 0 :=
    fun hmod => h ⟨not_lt.mp hearly, line.mod_eq_zero_iff.mp hmod⟩
  rw [if_neg (mt line.early_iff.mp hearly), if_neg hearly, if_pos hmod]
  dsimp only
  split
  · exact ⟨_, _, rfl, rfl⟩
  case h_2 pb rest hfirst =>
    rw [refresh_next, prefetch_first (relativeAncestor_height hfirst), ok_bind]
    exact ⟨_, _, rfl, rfl⟩

/-- The difficulty after the slower blocks is not the higher one. -/
def NeverRaises (cache : Cache) (fast slow : MinerLine env) : Prop :=
  ∃ r r' k k', calcNextRequiredDifficulty env cache fast.nodes = .ok (r, k) ∧
    calcNextRequiredDifficulty env cache slow.nodes = .ok (r', k') ∧
    compactToBig r.bits ≤ compactToBig r'.bits

theorem neverRaises_iff {fast slow : MinerLine env} {cache : Cache} (hfast : fast.AtRetarget)
    (hslow : slow.AtRetarget) (hcache : cache.collaterals = emptyCollaterals) :
    NeverRaises cache fast slow ↔
      compactToBig fast.required.bits ≤ compactToBig slow.required.bits := by
  have hcalc := calc_retarget hfast hcache
  have hcalc' := calc_retarget hslow hcache
  refine ⟨?_, fun hle => ⟨_, _, _, _, hcalc, hcalc', hle⟩⟩
  rintro ⟨r, r', k, k', hr, hr', hle⟩
  cases hcalc.symm.trans hr
  cases hcalc'.symm.trans hr'
  exact hle

/-- The time spans of a period, shifted and added up, are what they are meant to be. -/
def MinerLine.Exact (line : MinerLine env) : Prop :=
  line.AtRetarget → NeverWraps 0 (gaps env line.count line.window)

theorem MinerLine.exact_iff : line.Exact ↔ (line.AtRetarget → Fits 0 line.times) :=
  imp_congr_right fun _ => neverWraps_iff (s := 0) (by decide) gaps_inInt64

/-- The bits for times that fit. -/
theorem MinerLine.required_bits (h : Fits 0 line.times) :
    line.required.bits = limitBits env line.target := by
  have hsum : InInt64 line.times.sum := by
    rw [← zero_add line.times.sum]
    exact h.sum (by decide)
  rw [required, target, toInt_ofInt_iff.mpr hsum]

/-- The limit is passed, and its compact form is below the target before. -/
def PassesLimit (env : RetargetEnv) (n n' : Int) : Prop :=
  n ≤ env.powLimit ∧ env.powLimit < n' ∧
    compactToBig env.powLimitBits < compactToBig (bigToCompact n)

instance (n n' : Int) : Decidable (PassesLimit env n n') := inferInstanceAs (Decidable (_ ∧ _ ∧ _))

theorem limitBits_mono_iff {n n' : Int} (hn : 0 ≤ n) (hle : n ≤ n') :
    compactToBig (limitBits env n) ≤ compactToBig (limitBits env n') ↔ ¬ PassesLimit env n n' := by
  rw [limitBits, limitBits, PassesLimit]
  have hlt := env.powLimit_lt
  by_cases hn' : n' ≤ env.powLimit
  · rw [if_pos (hle.trans hn'), if_pos hn']
    exact iff_of_true (compactToBig_mono hn hle (hn'.trans_lt hlt)) fun h => absurd hn' (by omega)
  split
  case isTrue hn => exact ⟨fun h hp => by omega, fun h => by
    by_contra hgt
    exact h ⟨hn, by omega, not_le.mp hgt⟩⟩
  case isFalse hn => exact iff_of_true (le_refl _) fun h => hn h.1

/-- **Slower blocks never raise the difficulty**, just when all spans fit and the limit of the
targets is not passed from above its own compact form. -/
theorem slower_iff {fast slow : MinerLine env} (h : Slower fast slow) {cache : Cache}
    (hrun : CacheRun env.blocksPerRetarget cache) :
    NeverRaises cache fast slow ∧ fast.Exact ∧ slow.Exact ↔
      (fast.AtRetarget → Fits 0 fast.times ∧ Fits 0 slow.times ∧
        ¬ PassesLimit env fast.target slow.target) := by
  rw [exact_iff, exact_iff, h.atRetarget_iff]
  by_cases hat : fast.AtRetarget
  · have hraise : Fits 0 fast.times → Fits 0 slow.times →
        (NeverRaises cache fast slow ↔ ¬ PassesLimit env fast.target slow.target) := by
      intro hfits hfits'
      have hnonneg : 0 ≤ fast.target := newTarget_nonneg fast.bits_pos _
      rw [neverRaises_iff hat (h.atRetarget_iff.mpr hat) hrun.empty, required_bits hfits,
        required_bits hfits', limitBits_mono_iff hnonneg h.target_le]
    simp only [hat, forall_const]
    constructor
    · rintro ⟨hnever, hfits, hfits'⟩
      exact ⟨hfits, hfits', (hraise hfits hfits').mp hnever⟩
    · rintro ⟨hfits, hfits', hlimit⟩
      exact ⟨(hraise hfits hfits').mpr hlimit, hfits, hfits'⟩
  · have hbits : slow.oldBits = fast.oldBits := by
      rw [oldBits, oldBits, h.height_eq, h.bits_eq]
    obtain ⟨r, k, hr, hrb⟩ := calc_between hat cache
    obtain ⟨r', k', hr', hrb'⟩ := calc_between (mt h.atRetarget_iff.mp hat) cache
    refine iff_of_true ⟨⟨r, r', k, k', hr, hr', ?_⟩, ?_, ?_⟩ fun hc => absurd hc hat
    · rw [hrb, hrb', hbits]
    · exact fun hc => absurd hc hat
    · exact fun hc => absurd hc hat

/-! ## On the test network -/

section

variable {stamp stamp' : Nat → UInt32} {utxos : Nat → Option OutPoint}

theorem lineTo_same : ∀ n, List.Forall₂ SameButTime (lineTo stamp utxos n) (lineTo stamp' utxos n)
  | 0 => .nil
  | n + 1 => .cons rfl (lineTo_same n)

theorem testnetLine_slower
    (h : List.Forall₂ Longer (gaps testnet 119 (testnetLine stamp utxos).window)
      (gaps testnet 119 (testnetLine stamp' utxos).window)) :
    Slower (testnetLine stamp utxos) (testnetLine stamp' utxos) :=
  ⟨lineTo_same 240, h⟩

theorem testnetLine_atRetarget : (testnetLine stamp utxos).AtRetarget :=
  ⟨show (120 : Int32).toInt + 10 ≤ (Int32.ofNat 239).toInt by decide,
    show (120 : Int32).toInt ∣ (Int32.ofNat 239).toInt + 1 by decide⟩

end

/-- A block a second, with a pause before one of them. -/
def pausing (height : Nat) (pause : UInt32) : MinerLine testnet :=
  testnetLine (fun n => if n < height then UInt32.ofNat n else UInt32.ofNat n + pause)
    fun _ => none

/-- A pause of a hundred seconds where the waiting list is long. -/
theorem slower_iff_short_pause :
    Slower (pausing 0 0) (pausing 110 100) ∧
      NeverRaises ⟨emptyCollaterals, -1⟩ (pausing 0 0) (pausing 110 100) := by
  have hslower : Slower (pausing 0 0) (pausing 110 100) := testnetLine_slower (by decide +kernel)
  exact ⟨hslower, ((slower_iff hslower .start).mpr fun _ => by decide +kernel).1⟩

/-- A pause of nine hours where it is short makes the sum of the times negative: the target is
divided by four, and not multiplied. -/
theorem pause_raises :
    Slower (pausing 0 0) (pausing 40 32768) ∧
      ¬ NeverRaises ⟨emptyCollaterals, -1⟩ (pausing 0 0) (pausing 40 32768) := by
  refine ⟨testnetLine_slower (by decide +kernel), ?_⟩
  rw [pausing, pausing, neverRaises_iff testnetLine_atRetarget testnetLine_atRetarget rfl]
  decide +kernel

end Zent.Minerchain
