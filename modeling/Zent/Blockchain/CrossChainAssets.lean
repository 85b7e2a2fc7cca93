import Zent.Blockchain.CrossChain

/-!
# Are cross-chain assets overdrawn?

The XCAssets bucket records, for a token on a chain, how much of it is out there.
A block may send more out and take some back; at no point may more come back than
is out. The asset part of `checkCrossChain` compares each returning amount with
the bucket, but starts from the recorded amount again at every output, so what
earlier outputs of the block took back is forgotten.
-/

namespace Zent

open Go List Option Int64

/-! ## What a block moves -/

/-- The outputs of a block, each with the chain its transaction imports from. -/
def assetOuts (txs : List MsgTx) : List (UInt32 × TxOut) :=
  txs.flatMap (fun tx => tx.txOut.map (fun txo => (importChain tx, txo)))

/-- What a list of outputs moves. It fails where the asset part refuses the amount of an output
before looking at the bucket. -/
def moves (params : Params) : List (UInt32 × TxOut) → Result (List Move)
  | [] => .ok []
  | p :: rest => do
    let m ← assetMove params p.1 p.2
    let ms ← moves params rest
    return m.toList ++ ms

/-- What a block moves. -/
def movesOf (params : Params) (txs : List MsgTx) : Result (List Move) :=
  moves params (assetOuts txs)

/-- The amount the asset part reads under a key. -/
def held (bucket : AssetBucket) (key : Bytes) : Int64 := ((bucket key).getD 0).toInt64

/-- A returning amount is recorded under both keys of the move. -/
def Covered (bucket : AssetBucket) (m : Move) : Prop :=
  m.out = true ∨ (m.amount ≤ held bucket m.assetKey ∧ m.amount ≤ held bucket m.srcKey)

section Check

variable {params : Params} {bucket : AssetBucket}

theorem applyMove_succeeds (bucket : AssetBucket) (key : Bytes) (m : Move)
    (assets : Map Bytes Int64) :
    (∃ assets', applyMove bucket key m assets = .ok assets') ↔
      m.out = true ∨ m.amount ≤ held bucket key := by
  unfold applyMove
  by_cases hout : m.out = true
  · simp [hout]
  by_cases hle : m.amount ≤ held bucket key
  · have hle' : m.amount ≤ ((bucket key).getD 0).toInt64 := hle
    simp [hout, hle, hle']
  · have hle' : ¬ m.amount ≤ ((bucket key).getD 0).toInt64 := hle
    simp [hout, hle, hle', errorf, fail]

/-- One output passes if its amount is valid and, when it returns, recorded. -/
theorem assetStep_succeeds (svp : UInt32) (assets : Map Bytes Int64) (txo : TxOut) :
    (∃ assets', assetStep params bucket svp assets txo = .ok assets') ↔
      ∃ m, assetMove params svp txo = .ok m ∧ ∀ x ∈ m.toList, Covered bucket x := by
  unfold assetStep
  cases hm : assetMove params svp txo with
  | error e => simp [bind, Except.bind]
  | ok m =>
    cases m with
    | none => simp [bind, Except.bind, pure, Except.pure]
    | some m =>
      simp only [bind_eq_ok, Except.ok.injEq, exists_eq_left', toList_some,
        mem_singleton, forall_eq]
      have h1 := applyMove_succeeds bucket m.assetKey m assets
      constructor
      · rintro ⟨a', a, ha, ha'⟩
        have hsrc := (applyMove_succeeds bucket m.srcKey m a).mp ⟨a', ha'⟩
        rcases h1.mp ⟨a, ha⟩ with hout | hasset
        · exact .inl hout
        · rcases hsrc with hout | hsrc
          · exact .inl hout
          · exact .inr ⟨hasset, hsrc⟩
      · intro hcov
        obtain ⟨a, ha⟩ := h1.mpr (hcov.imp_right And.left)
        obtain ⟨a', ha'⟩ := (applyMove_succeeds bucket m.srcKey m a).mpr (hcov.imp_right And.right)
        exact ⟨a', a, ha, ha'⟩

/-- The step of the asset part on an output paired with its transaction's chain. -/
def assetOutStep (params : Params) (bucket : AssetBucket) (assets : Map Bytes Int64)
    (p : UInt32 × TxOut) : Result (Map Bytes Int64) :=
  assetStep params bucket p.1 assets p.2

/-- The two nested loops are one loop over all outputs. -/
theorem foldlM_assetTx : ∀ (txs : List MsgTx) (assets : Map Bytes Int64),
    txs.foldlM (assetTx params bucket) assets =
      (assetOuts txs).foldlM (assetOutStep params bucket) assets := by
  intro txs
  induction txs with
  | nil => intro assets; rfl
  | cons tx rest ih =>
    intro assets
    have hcons : assetOuts (tx :: rest) =
        tx.txOut.map (fun txo => (importChain tx, txo)) ++ assetOuts rest := rfl
    rw [foldlM_cons, hcons, foldlM_append, foldlM_map]
    exact bind_congr fun a => ih a

theorem foldlM_assetStep_succeeds : ∀ (outs : List (UInt32 × TxOut)) (assets : Map Bytes Int64),
    (∃ assets', outs.foldlM (assetOutStep params bucket) assets = .ok assets') ↔
      ∃ ms, moves params outs = .ok ms ∧ ∀ m ∈ ms, Covered bucket m := by
  intro outs
  induction outs with
  | nil => intro assets; simp [moves, pure, Except.pure]
  | cons p rest ih =>
    intro assets
    simp only [foldlM_cons, moves, bind_eq_ok]
    constructor
    · rintro ⟨a', a, ha, ha'⟩
      obtain ⟨m, hm, hcov⟩ := (assetStep_succeeds p.1 assets p.2).mp ⟨a, ha⟩
      obtain ⟨ms, hms, hcovs⟩ := (ih a).mp ⟨a', ha'⟩
      exact ⟨m.toList ++ ms, ⟨m, hm, ms, hms, rfl⟩, forall_mem_append.mpr ⟨hcov, hcovs⟩⟩
    · rintro ⟨_, ⟨m, hm, ms, hms, hall⟩, hcov⟩
      cases hall
      obtain ⟨hcov, hcovs⟩ := forall_mem_append.mp hcov
      obtain ⟨a, ha⟩ := (assetStep_succeeds p.1 assets p.2).mpr ⟨m, hm, hcov⟩
      obtain ⟨a', ha'⟩ := (ih a).mpr ⟨ms, hms, hcovs⟩
      exact ⟨a', a, ha, ha'⟩

/-- **What the asset part tests.** The amounts are valid, and each returning amount, taken on its
own, is recorded. -/
theorem checkAssets_iff (txs : List MsgTx) :
    checkAssets params bucket txs = .ok () ↔
      ∃ ms, movesOf params txs = .ok ms ∧ ∀ m ∈ ms, Covered bucket m := by
  rw [movesOf, ← foldlM_assetStep_succeeds (assetOuts txs) ∅, ← foldlM_assetTx, checkAssets,
    bind_eq_ok]
  simp [pure, Except.pure]

end Check

/-! ## Balances -/

/-- The move is booked under the key. -/
def Move.touches (m : Move) (key : Bytes) : Bool := m.assetKey == key || m.srcKey == key

variable (key : Bytes) (ms : List Move)

/-- What goes out under a key. -/
def outgoing : Int :=
  ((ms.filter (fun m => m.out && m.touches key)).map (fun m => m.amount.toInt)).sum

/-- The amounts that come back under a key. -/
def returns : List Int :=
  (ms.filter (fun m => !m.out && m.touches key)).map (fun m => m.amount.toInt)

/-- What comes back under a key. -/
def returning : Int := (returns key ms).sum

/-- The largest of a list of amounts; 0 if there is none. -/
def largest (l : List Int) : Int := l.foldr max 0

/-- The largest amount that comes back in one move. -/
def largestReturn : Int := largest (returns key ms)

/-- The amount the bucket records under a key. -/
def recorded (bucket : AssetBucket) (key : Bytes) : Int := ((bucket key).getD 0).toNat

/-- **Never overdrawn.** Under every key and at every move, what is recorded plus what went out
before, less what has come back up to and including the move, is non-negative. -/
def NeverOverdrawn (bucket : AssetBucket) (ms : List Move) : Prop :=
  ∀ key before m after, ms = before ++ m :: after →
    0 ≤ recorded bucket key + outgoing key before - returning key (before ++ [m])

theorem le_largest {l : List Int} {x : Int} (h : x ∈ l) : x ≤ largest l := by
  induction l with
  | nil => cases h
  | cons y rest ih =>
    have hcons : largest (y :: rest) = max y (largest rest) := rfl
    rcases mem_cons.mp h with rfl | h
    · omega
    · have hrest := ih h
      omega

theorem largest_nonneg (l : List Int) : 0 ≤ largest l := by
  induction l with
  | nil => exact le_rfl
  | cons y rest ih => exact le_trans ih (le_max_right _ _)

theorem largest_cases (l : List Int) : largest l = 0 ∨ largest l ∈ l := by
  induction l with
  | nil => exact .inl rfl
  | cons y rest ih =>
    have hcons : largest (y :: rest) = max y (largest rest) := rfl
    rcases max_choice y (largest rest) with hy | hrest
    · exact .inr (by rw [hcons, hy]; simp)
    · rw [hcons, hrest]
      exact ih.imp_right (mem_cons_of_mem _)

variable {ms : List Move}

theorem mem_returns {key : Bytes} {x : Int} :
    x ∈ returns key ms ↔
      ∃ m ∈ ms, m.out = false ∧ m.touches key = true ∧ m.amount.toInt = x := by
  simp [returns, and_assoc]

theorem assetAmount_pos {txo : TxOut} {d : Int64} (h : assetAmount txo = .ok d) : 0 < d.toInt := by
  simp only [assetAmount] at h
  split at h
  · obtain ⟨v, _, h⟩ := of_bind h
    obtain ⟨_, hpos, h⟩ := of_bind h
    cases h
    have hneg := failIf_eq_ok.mp hpos
    rw [le_iff_toInt_le, not_le] at hneg
    exact hneg
  · obtain ⟨_, _, h⟩ := of_bind h
    obtain ⟨_, _, h⟩ := of_bind h
    cases h
    decide

theorem assetMove_pos {params : Params} {svp : UInt32} {txo : TxOut} {m : Option Move}
    (h : assetMove params svp txo = .ok m) : ∀ x ∈ m.toList, 0 < x.amount.toInt := by
  intro x hx
  simp only [assetMove] at h
  split at h
  · cases h
    cases hx
  obtain ⟨_, _, h⟩ := of_bind h
  split at h
  · cases h
    cases hx
  obtain ⟨_, _, h⟩ := of_bind h
  obtain ⟨_, _, h⟩ := of_bind h
  obtain ⟨d, hd, h⟩ := of_bind h
  cases h
  rw [toList_some, mem_singleton] at hx
  rw [hx]
  exact assetAmount_pos hd

theorem moves_pos {params : Params} {outs : List (UInt32 × TxOut)}
    (h : moves params outs = .ok ms) : ∀ m ∈ ms, 0 < m.amount.toInt := by
  induction outs generalizing ms with
  | nil =>
    cases h
    simp
  | cons p rest ih =>
    obtain ⟨m, hm, h⟩ := of_bind h
    obtain ⟨ms', hms', h⟩ := of_bind h
    cases h
    exact forall_mem_append.mpr ⟨assetMove_pos hm, ih hms'⟩

/-- A bucket that covers every return records, under each key, at least the largest. -/
theorem largestReturn_le_recorded {bucket : AssetBucket} (hpos : ∀ m ∈ ms, 0 < m.amount.toInt)
    (hcov : ∀ m ∈ ms, Covered bucket m) (key : Bytes) :
    largestReturn key ms ≤ recorded bucket key := by
  rcases largest_cases (returns key ms) with hzero | hmem
  · rw [largestReturn, hzero]
    exact Int.natCast_nonneg _
  obtain ⟨m, hm, hret, htouch, hamount⟩ := mem_returns.mp hmem
  have hle : m.amount ≤ held bucket key := by
    rcases hcov m hm with hout | ⟨hasset, hsrc⟩
    · rw [hret] at hout
      cases hout
    rw [Move.touches, Bool.or_eq_true, beq_iff_eq, beq_iff_eq] at htouch
    rcases htouch with rfl | rfl
    · exact hasset
    · exact hsrc
  rw [le_iff_toInt_le] at hle
  have hnn : 0 ≤ (held bucket key).toInt := le_trans (le_of_lt (hpos m hm)) hle
  rw [held] at hnn hle
  rw [toInt_toInt64_of_nonneg hnn, hamount] at hle
  exact hle

/-- The smallest bucket that covers the returns of a block. -/
def tightBucket (ms : List Move) : AssetBucket :=
  fun key => some (UInt64.ofNat (largestReturn key ms).toNat)

theorem largestReturn_lt (key : Bytes) (ms : List Move) : largestReturn key ms < 2 ^ 63 := by
  rcases largest_cases (returns key ms) with hzero | hmem
  · rw [largestReturn, hzero]
    decide
  · obtain ⟨m, _, _, _, hamount⟩ := mem_returns.mp hmem
    rw [largestReturn, ← hamount]
    exact toInt_lt m.amount

theorem tightBucket_held (ms : List Move) (key : Bytes) :
    (held (tightBucket ms) key).toInt = largestReturn key ms := by
  have hlt := largestReturn_lt key ms
  have hnn : 0 ≤ largestReturn key ms := largest_nonneg _
  rw [held, tightBucket, getD_some, toInt_toInt64_ofNat (by omega)]
  omega

theorem tightBucket_recorded (ms : List Move) (key : Bytes) :
    recorded (tightBucket ms) key = largestReturn key ms := by
  have hheld := tightBucket_held ms key
  have hnn : 0 ≤ largestReturn key ms := largest_nonneg _
  rw [← hheld] at hnn ⊢
  exact (toInt_toInt64_of_nonneg hnn).symm

theorem tightBucket_covers : ∀ m ∈ ms, Covered (tightBucket ms) m := by
  intro m hm
  by_cases hout : m.out = true
  · exact .inl hout
  have hret : m.out = false := by simpa using hout
  refine .inr ⟨?_, ?_⟩
  · rw [le_iff_toInt_le, tightBucket_held]
    exact le_largest (mem_returns.mpr ⟨m, hm, hret, by simp [Move.touches], rfl⟩)
  · rw [le_iff_toInt_le, tightBucket_held]
    exact le_largest (mem_returns.mpr ⟨m, hm, hret, by simp [Move.touches], rfl⟩)

/-- **When the asset part is enough.** For a given block, acceptance implies that no key is
overdrawn, whatever is recorded, exactly when at every move what has come back under a key
exceeds what went out before by no more than the largest single return under that key. -/
theorem neverOverdrawn_iff (params : Params) (txs : List MsgTx) :
    (∀ bucket, checkAssets params bucket txs = .ok () →
        ∃ ms, movesOf params txs = .ok ms ∧ NeverOverdrawn bucket ms) ↔
      ∀ ms, movesOf params txs = .ok ms →
        ∀ key before m after, ms = before ++ m :: after →
          returning key (before ++ [m]) ≤ outgoing key before + largestReturn key ms := by
  constructor
  · intro h ms hms key before m after hsplit
    -- the bucket that records no more than it has to
    obtain ⟨ms', hms', hnever⟩ := h (tightBucket ms)
      ((checkAssets_iff txs).mpr ⟨ms, hms, tightBucket_covers⟩)
    rw [hms] at hms'
    cases hms'
    have hbal := hnever key before m after hsplit
    rw [tightBucket_recorded] at hbal
    omega
  · intro h bucket hok
    obtain ⟨ms, hms, hcov⟩ := (checkAssets_iff txs).mp hok
    refine ⟨ms, hms, fun key before m after hsplit => ?_⟩
    have hcond := h ms hms key before m after hsplit
    have hrec := largestReturn_le_recorded (moves_pos hms) hcov key
    omega

/-! ## A block that takes back twice what is out -/

/-- Five tokens of chain 2 that go back to chain 2. -/
def returnOut : TxOut :=
  ⟨⟨0x20000000000, some (.numToken 5), none⟩, List.replicate 21 0 ++ [OP_PAYCROSSCHAIN, 2, 0, 0]⟩

def doubleReturnTx : MsgTx := plainTx [⟨⟨7, 0⟩, 0xFFFFFFFF, 0⟩] [returnOut, returnOut]

/-- Both returns of five tokens. -/
def doubleReturnMove : Move :=
  let key := putUint32 2 ++ putUint64 0x20000000000
  ⟨key, key, false, 5⟩

/-- **Overdrawn.** Five tokens are out; the block takes back five, twice. -/
theorem doubleReturn_overdrawn :
    checkAssets Params.plain (fun _ => some 5) [doubleReturnTx] = .ok () ∧
      movesOf Params.plain [doubleReturnTx] = .ok [doubleReturnMove, doubleReturnMove] ∧
      ¬ NeverOverdrawn (fun _ => some 5) [doubleReturnMove, doubleReturnMove] := by
  refine ⟨by decide, by decide, fun h => ?_⟩
  have hbal := h doubleReturnMove.assetKey [doubleReturnMove] doubleReturnMove [] rfl
  exact absurd hbal (by decide)

end Zent
