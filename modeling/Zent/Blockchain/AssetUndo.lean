import Zent.Blockchain.CrossChainDb

/-!
# Undoing the bookings of assets

Connecting a block books its outputs under the keys of XCAssets, disconnecting takes them back.
Every key can be looked at by itself: a booking changes the amount there, or leaves it.
-/

namespace Zent

open Go List Option Except Function

/-! ## Amounts under a key -/

theorem held_storeAmount (assets : AssetBucket) (key key' : Bytes) (v : Int64) :
    held (storeAmount assets key v) key' = if key' = key then v else held assets key' := by
  rw [held, storeAmount]
  by_cases hkey : key' = key
  · rw [if_pos hkey, hkey, update_self]
    split
    case isTrue hv =>
      rw [hv]
      rfl
    · exact v.toInt64_toUInt64
  · rw [if_neg hkey, update_of_ne hkey, held]

variable {assets : AssetBucket}

theorem storeAmount_nonzero (h : ∀ key, assets key ≠ some 0) (key : Bytes) (v : Int64) :
    ∀ key', storeAmount assets key v key' ≠ some 0 := by
  intro key'
  rw [storeAmount]
  by_cases hkey : key' = key
  · rw [hkey, update_self]
    split
    · exact (some_ne_none 0).symm
    rename_i hv
    intro heq
    apply hv
    rw [← v.toInt64_toUInt64, some_inj.mp heq]
    rfl
  · rw [update_of_ne hkey]
    exact h key'

/-- Where zero is not stored, the amounts tell the bucket. -/
theorem eq_of_held {assets' : AssetBucket} {key : Bytes} (h : assets key ≠ some 0)
    (h' : assets' key ≠ some 0) :
    assets key = assets' key ↔ held assets key = held assets' key := by
  constructor
  · intro heq
    rw [held, held, heq]
  · intro heq
    rw [held, held] at heq
    have hget : (assets key).getD 0 = (assets' key).getD 0 := by
      have := congrArg Int64.toUInt64 heq
      simpa using this
    cases ha : assets key with
    | none =>
      cases ha' : assets' key with
      | none => rfl
      | some u =>
        rw [ha, ha'] at hget
        rw [ha'] at h'
        exact absurd (congrArg some hget.symm) h'
    | some u =>
      cases ha' : assets' key with
      | none =>
        rw [ha, ha'] at hget
        rw [ha] at h
        exact absurd (congrArg some hget) h
      | some u' =>
        rw [ha, ha'] at hget
        exact congrArg some hget

/-- A move changes the amounts under its keys and no other. -/
theorem held_change (m : Move) (f : Int64 → Int64) (assets : AssetBucket) (key : Bytes) :
    held (m.change f assets) key =
      if m.touches key then f (held assets key) else held assets key := by
  rw [Move.change, held_storeAmount, held_storeAmount]
  by_cases hsrc : key = m.srcKey
  · rw [if_pos hsrc, if_pos (by simp [Move.touches, hsrc]), hsrc]
  rw [if_neg hsrc]
  by_cases hasset : key = m.assetKey
  · rw [if_pos hasset, if_pos (by simp [Move.touches, hasset]), hasset]
  · rw [if_neg hasset, if_neg]
    simp [Move.touches, Ne.symm hasset, Ne.symm hsrc]

theorem change_nonzero (h : ∀ key, assets key ≠ some 0) (m : Move) (f : Int64 → Int64) :
    ∀ key, m.change f assets key ≠ some 0 :=
  storeAmount_nonzero (storeAmount_nonzero h _ _) _ _

/-! ## The two loops -/

/-- Connecting books a move. -/
def putAsset (assets : AssetBucket) (b : Booking) : AssetBucket := b.change b.book assets

/-- Disconnecting takes it back, unless it is a contract call. -/
def restoreAsset (assets : AssetBucket) (b : Booking) : AssetBucket :=
  if b.contractCall then assets else b.change b.unbook assets

theorem putAsset_nonzero {assets : AssetBucket} (h : ∀ key, assets key ≠ some 0) :
    ∀ bs : List Booking, ∀ key, bs.foldl putAsset assets key ≠ some 0
  | [] => h
  | b :: rest => putAsset_nonzero (change_nonzero h b.toMove b.book) rest

theorem restoreAsset_nonzero {assets : AssetBucket} (h : ∀ key, assets key ≠ some 0) :
    ∀ bs : List Booking, ∀ key, bs.foldl restoreAsset assets key ≠ some 0
  | [] => h
  | b :: rest => by
    refine restoreAsset_nonzero ?_ rest
    rw [restoreAsset]
    split
    · exact h
    · exact change_nonzero h b.toMove b.unbook

section Loops

variable {params : Params} {p : UInt32 × TxOut} {b : Option Booking} {bs : List Booking}
  {assets : AssetBucket}

theorem bookings_cons {rest : List (UInt32 × TxOut)} :
    bookings params (p :: rest) = .ok bs ↔
      ∃ b bs', booking params p = .ok b ∧ bookings params rest = .ok bs' ∧
        b.toList ++ bs' = bs := by
  rw [bookings, bind_eq_ok]
  constructor
  · rintro ⟨b, hb, h⟩
    obtain ⟨bs', hbs', h⟩ := of_bind h
    exact ⟨b, bs', hb, hbs', ok.inj h⟩
  · rintro ⟨b, bs', hb, hbs', rfl⟩
    refine ⟨b, hb, ?_⟩
    rw [hbs']
    rfl

theorem putBooking_eq (h : booking params p = .ok b) :
    putBooking params assets p = .ok (b.toList.foldl putAsset assets) := by
  rw [putBooking, h]
  cases b <;> rfl

/-- Connecting books every move of the block. -/
theorem putBooking_run : ∀ {outs : List (UInt32 × TxOut)} {bs : List Booking}
    (assets : AssetBucket), bookings params outs = .ok bs →
      outs.foldlM (putBooking params) assets = .ok (bs.foldl putAsset assets)
  | [], bs, assets, h => by
    cases h
    rfl
  | p :: rest, bs, assets, h => by
    obtain ⟨b, bs', hb, hbs', rfl⟩ := bookings_cons.mp h
    rw [foldlM_cons, putBooking_eq hb, foldl_append]
    exact putBooking_run _ hbs'

theorem bookings_of_check {assets : AssetBucket} : ∀ {outs : List (UInt32 × TxOut)},
    (∀ p ∈ outs, checkBooking params assets p = .ok ()) → ∃ bs, bookings params outs = .ok bs
  | [], _ => ⟨[], rfl⟩
  | p :: rest, h => by
    obtain ⟨b, hb, -⟩ := of_bind (h p mem_cons_self)
    obtain ⟨bs, hbs⟩ := bookings_of_check fun q hq => h q (mem_cons_of_mem p hq)
    exact ⟨b.toList ++ bs, bookings_cons.mpr ⟨b, bs, hb, hbs, rfl⟩⟩

/-- What an output that is no separator says of itself. -/
theorem booking_cases (hsep : p.2.isSeparator = false) (h : booking params p = .ok b) :
    ∃ call, p.2.isContractCall (ε := ChainError) = .ok call ∧
      (staysHere p.1 p.2 = .ok true ∧ b = none ∨
        staysHere p.1 p.2 = .ok false ∧
          ∃ x, b = some x ∧ x.contractCall = call ∧ x.pkScript = p.2.pkScript) := by
  rw [booking, hsep, if_neg Bool.false_ne_true] at h
  obtain ⟨stays, hstays, h⟩ := of_bind h
  cases stays with
  | true =>
    cases h
    -- what stays here has been asked whether it is a contract call
    have hdest : ∃ call, p.2.isContractCall (ε := ChainError) = .ok call := by
      rw [staysHere] at hstays
      split at hstays
      · cases hstays
      obtain ⟨dest, hdest, -⟩ := of_bind hstays
      obtain ⟨b0, hb0, -⟩ := of_bind hdest
      refine ⟨b0 == contractAddr, ?_⟩
      rw [TxOut.isContractCall, hb0]
      rfl
    obtain ⟨call, hcall⟩ := hdest
    exact ⟨call, hcall, .inl ⟨hstays, rfl⟩⟩
  | false =>
    obtain ⟨⟨assetKey, dest, srcKey, tokensrc⟩, -, h⟩ := of_bind h
    obtain ⟨d, -, h⟩ := of_bind h
    obtain ⟨call, hcall, h⟩ := of_bind h
    cases h
    exact ⟨call, hcall, .inr ⟨hstays, _, rfl, rfl, rfl⟩⟩

/-- Every booking that is taken back has a valid script. -/
def Restorable (env : CrossEnv) (bs : List Booking) : Prop :=
  ∀ b ∈ bs, b.contractCall = false → env.validCrossChainScript b.pkScript = .ok true

variable {env : CrossEnv}

theorem restorable_append {bs' : List Booking} :
    Restorable env (bs ++ bs') ↔ Restorable env bs ∧ Restorable env bs' := by
  simp [Restorable, or_imp, forall_and]

theorem restorable_singleton {b : Booking} :
    Restorable env [b] ↔
      (b.contractCall = false → env.validCrossChainScript b.pkScript = .ok true) := by
  simp [Restorable]

/-- What disconnecting does with an output that was booked, or not. -/
theorem restoreBooking_iff {assets' : AssetBucket} (h : booking env.params p = .ok b) :
    env.restoreBooking assets p = .ok assets' ↔
      Restorable env b.toList ∧ b.toList.foldl restoreAsset assets = assets' := by
  have hnil : ∀ x : Result AssetBucket, x = .ok assets → b = none →
      (x = .ok assets' ↔
        Restorable env b.toList ∧ b.toList.foldl restoreAsset assets = assets') := by
    rintro x rfl rfl
    simp [Restorable]
  rw [CrossEnv.restoreBooking]
  cases hsep : p.2.isSeparator with
  | true =>
    rw [booking, hsep, if_pos rfl] at h
    exact hnil _ rfl (ok.inj h).symm
  | false =>
    obtain ⟨call, hcall, ⟨hstays, rfl⟩ | ⟨hstays, x, rfl, rfl, hscript⟩⟩ := booking_cases hsep h
    · refine hnil _ ?_ rfl
      rw [hcall]
      cases call with
      | true => rfl
      | false =>
        rw [hstays]
        rfl
    · rw [hcall, toList_some, restorable_singleton, foldl_cons, foldl_nil, restoreAsset]
      cases hc : x.contractCall with
      | true => simp [bind, Except.bind, pure, Except.pure]
      | false =>
        rw [hstays, ← hscript]
        show (env.validCrossChainScript x.pkScript >>= _) = _ ↔ _
        rw [bind_eq_ok]
        constructor
        · rintro ⟨valid, hvalid, hrun⟩
          obtain ⟨_, hguard, hrun⟩ := of_bind hrun
          have htrue : valid = true := by simpa using failIf_eq_ok.mp hguard
          rw [h] at hrun
          exact ⟨fun _ => htrue ▸ hvalid, ok.inj hrun⟩
        · rintro ⟨hvalid, hrun⟩
          refine ⟨true, hvalid rfl, ?_⟩
          rw [h]
          exact congrArg ok hrun

/-- Disconnecting takes back every move of the block that has been no contract call. -/
theorem restoreBooking_run {env : CrossEnv} {assets' : AssetBucket} :
    ∀ {outs : List (UInt32 × TxOut)} {bs : List Booking} {assets : AssetBucket},
      bookings env.params outs = .ok bs →
        (outs.foldlM env.restoreBooking assets = .ok assets' ↔
          Restorable env bs ∧ bs.foldl restoreAsset assets = assets')
  | [], bs, assets, h => by
    cases h
    simp [Restorable, pure, Except.pure]
  | p :: rest, bs, assets, h => by
    obtain ⟨b, bs', hb, hbs', rfl⟩ := bookings_cons.mp h
    rw [foldlM_cons, bind_eq_ok, restorable_append, foldl_append]
    constructor
    · rintro ⟨mid, hmid, hrest⟩
      obtain ⟨hok, rfl⟩ := (restoreBooking_iff hb).mp hmid
      obtain ⟨hoks, hrun⟩ := (restoreBooking_run hbs').mp hrest
      exact ⟨⟨hok, hoks⟩, hrun⟩
    · rintro ⟨⟨hok, hoks⟩, hrun⟩
      exact ⟨_, (restoreBooking_iff hb).mpr ⟨hok, rfl⟩, (restoreBooking_run hbs').mpr ⟨hoks, hrun⟩⟩

end Loops

/-! ## One key -/

/-- The amount under a key after the moves have been booked. -/
def booked (key : Bytes) (v : Int64) (bs : List Booking) : Int64 :=
  bs.foldl (fun v b => if b.touches key then b.book v else v) v

/-- The amount under a key after the moves have been taken back. -/
def unbooked (key : Bytes) (v : Int64) (bs : List Booking) : Int64 :=
  bs.foldl (fun v b => if b.touches key && !b.contractCall then b.unbook v else v) v

theorem held_putAsset (key : Bytes) : ∀ (bs : List Booking) (assets : AssetBucket),
    held (bs.foldl putAsset assets) key = booked key (held assets key) bs
  | [], _ => rfl
  | b :: rest, assets => by
    rw [foldl_cons, held_putAsset key rest, putAsset, held_change]
    rfl

theorem held_restoreAsset (key : Bytes) : ∀ (bs : List Booking) (assets : AssetBucket),
    held (bs.foldl restoreAsset assets) key = unbooked key (held assets key) bs
  | [], _ => rfl
  | b :: rest, assets => by
    have hstep : held (restoreAsset assets b) key =
        if b.touches key && !b.contractCall then b.unbook (held assets key)
        else held assets key := by
      rw [restoreAsset]
      cases b.contractCall with
      | true => rw [if_pos rfl, Bool.not_true, Bool.and_false, if_neg Bool.false_ne_true]
      | false => rw [if_neg Bool.false_ne_true, Bool.not_false, Bool.and_true, held_change]
    rw [foldl_cons, held_restoreAsset key rest, hstep]
    rfl

/-- **What is left under a key** when the moves have been booked and taken back: what a contract
call booked, and what came back without being covered. -/
def drift (key : Bytes) : Int64 → List Booking → Int64
  | _, [] => 0
  | v, b :: rest =>
    if b.touches key then
      (if b.contractCall then b.book v - v
       else if b.out = false ∧ v < b.amount then b.amount
       else 0) + drift key (b.book v) rest
    else drift key v rest

theorem Move.unbook_add (m : Move) (v c : Int64) : m.unbook (v + c) = m.unbook v + c := by
  rw [Move.unbook, Move.unbook]
  split
  · grind
  · grind

theorem unbooked_add (key : Bytes) : ∀ (bs : List Booking) (v c : Int64),
    unbooked key (v + c) bs = unbooked key v bs + c
  | [], _, _ => rfl
  | b :: rest, v, c => by
    have hstep : (if b.touches key && !b.contractCall then b.unbook (v + c) else v + c) =
        (if b.touches key && !b.contractCall then b.unbook v else v) + c := by
      split
      · exact b.unbook_add v c
      · rfl
    rw [unbooked, foldl_cons, hstep, ← unbooked, unbooked_add key rest]
    rfl

theorem unbook_book (b : Booking) (v : Int64) :
    b.unbook (b.book v) = v + if b.out = false ∧ v < b.amount then b.amount else 0 := by
  rw [Move.unbook, Move.book]
  cases hout : b.out with
  | true =>
    grind
  | false =>
    rw [if_neg Bool.false_ne_true, if_neg Bool.false_ne_true]
    by_cases hle : b.amount ≤ v
    · grind
    · rw [if_neg hle, if_pos ⟨rfl, Int64.not_le.mp hle⟩]

/-- **The amount afterwards** is the amount before and the drift. -/
theorem unbooked_booked (key : Bytes) : ∀ (bs : List Booking) (v : Int64),
    unbooked key (booked key v bs) bs = v + drift key v bs
  | [], v => by
    show v = v + 0
    grind
  | b :: rest, v => by
    rw [drift]
    cases htouch : b.touches key with
    | false =>
      have hbook : booked key v (b :: rest) = booked key v rest := by
        simp [booked, htouch]
      have hunbook : ∀ w, unbooked key w (b :: rest) = unbooked key w rest := by
        intro w
        simp [unbooked, htouch]
      rw [hbook, hunbook, unbooked_booked key rest, if_neg Bool.false_ne_true]
    | true =>
      have hbook : booked key v (b :: rest) = booked key (b.book v) rest := by
        simp [booked, htouch]
      rw [hbook, if_pos rfl]
      cases hcall : b.contractCall with
      | true =>
        have hunbook : ∀ w, unbooked key w (b :: rest) = unbooked key w rest := by
          intro w
          simp [unbooked, hcall]
        rw [hunbook, unbooked_booked key rest, if_pos rfl]
        grind
      | false =>
        have hunbook : ∀ w, unbooked key w (b :: rest) = unbooked key (b.unbook w) rest := by
          intro w
          simp [unbooked, hcall, htouch]
        -- taking back commutes with the rest, so it can be done at once
        have hshift : ∀ w, b.unbook w = w + (b.unbook (b.book v) - b.book v) := by
          intro w
          have hw : w = b.book v + (w - b.book v) := by grind
          rw [hw, b.unbook_add]
          grind
        rw [hunbook, hshift, unbooked_add, unbooked_booked key rest, unbook_book,
          if_neg Bool.false_ne_true]
        grind

/-- **The bucket is restored** exactly if no key drifts. -/
theorem restoreAsset_putAsset_iff (h : ∀ key, assets key ≠ some 0) (bs : List Booking) :
    (∀ key, assets key = bs.foldl restoreAsset (bs.foldl putAsset assets) key) ↔
      ∀ key, drift key (held assets key) bs = 0 := by
  refine forall_congr' fun key => ?_
  rw [eq_of_held (h key) (restoreAsset_nonzero (putAsset_nonzero h bs) bs key),
    held_restoreAsset, held_putAsset, unbooked_booked]
  constructor
  · intro heq
    grind
  · intro hzero
    grind

end Zent
