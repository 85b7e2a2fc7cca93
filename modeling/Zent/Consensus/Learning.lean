import Zent.Consensus.Event

/-!
# What is known, and from which message

The matrix of the knowledge base is written in one place: `gain` adds to it, for a knowledge
message that has passed all checks. The other handlers leave it as it is or clear bits of it.
-/

namespace Zent.Consensus

open Go List Option Syncer

variable {K : Keys} {l l' l'' : Local} {ng : Int64}

/-! ## Bits -/

/-- The bit of `b` is set. -/
def Has (x : Int64) (b : Seat) : Prop := x &&& bit b ≠ 0

instance (x : Int64) (b : Seat) : Decidable (Has x b) :=
  inferInstanceAs (Decidable (x &&& bit b ≠ 0))

/-- The bits of all seats. -/
def allSeats : Int64 := (finRange CommitteeSize).foldl (fun x b => x ||| bit b) 0

theorem or_and_right (x y z : Int64) : (x ||| y) &&& z = (x &&& z) ||| (y &&& z) := by
  apply Int64.toBitVec_inj.mp
  ext i hi
  simp [Bool.and_or_distrib_right]

variable {x y : Int64} {b : Seat}

theorem has_or : Has (x ||| y) b ↔ Has x b ∨ Has y b := by
  rw [Has, Has, Has, or_and_right, ne_eq, Int64.or_eq_zero_iff, not_and_or]

theorem has_bit {a : Seat} : Has (bit a) b ↔ b = a := by
  revert a b
  decide

theorem not_has_zero (b : Seat) : ¬Has 0 b := fun h => h Int64.zero_and

theorem Within.has (h : Within x y) (hb : Has x b) : Has y b := by
  intro hy
  refine hb ?_
  rw [← h, Int64.and_assoc, hy, Int64.and_zero]

theorem Within.or {z : Int64} (h : Within x z) (h' : Within y z) : Within (x ||| y) z := by
  rw [Within, or_and_right, h, h']

theorem bit_within (b : Seat) : Within (bit b) allSeats := by
  revert b
  unfold Within
  decide

/-- In a word with bits of seats only, the bits are those of the seats it has. -/
theorem countBits_of_within (h : Within x allSeats) :
    countBits x = (finRange CommitteeSize).countP fun b => Has x b := by
  have hall : ∀ n : Fin 8, countBits (Int64.ofNat n) =
      (finRange CommitteeSize).countP fun b => Has (Int64.ofNat n) b := by decide
  have hmask : x.toBitVec &&& 7#64 = x.toBitVec := by
    have hmask : (x &&& allSeats).toBitVec = x.toBitVec := by rw [h]
    exact hmask
  have hlt : x.toBitVec.toNat < 8 := by
    rw [← hmask, BitVec.toNat_and, show (7#64).toNat = 2 ^ 3 - 1 from rfl,
      Nat.and_two_pow_sub_one_eq_mod]
    exact Nat.mod_lt _ (by decide)
  have hx : x = Int64.ofNat x.toBitVec.toNat := by
    apply Int64.toBitVec_inj.mp
    simp
  rw [hx]
  exact hall ⟨_, hlt⟩

/-! ## A knowledge message -/

theorem register_knowledges (sy : Syncer) (finder : Address) (m : Hash) :
    (register sy finder m).1.knowledges = sy.knowledges := by
  unfold register
  split <;> rfl

/-- The seat `s` stands at the place `p` of the way. -/
def On (k : List Int32) (p : Nat) (s : Seat) : Prop := k[p]?.bind seatOf = some s

/-- The way comes to `b` at or before a place where it comes to `v`. -/
def Before (k : List Int32) (b v : Seat) : Prop := ∃ p q, p ≤ q ∧ On k p b ∧ On k q v

variable {k : List Int32} {p : Nat} {s : Seat}

theorem On.append (h : On k p s) (k' : List Int32) : On (k ++ k') p s := by
  obtain ⟨i, hi, hs⟩ := bind_eq_some_iff.mp h
  exact bind_eq_some_iff.mpr
    ⟨i, (getElem?_append_left (List.getElem?_eq_some_iff.mp hi).1).trans hi, hs⟩

theorem On.lt (h : On k p s) : p < k.length := by
  obtain ⟨i, hi, -⟩ := bind_eq_some_iff.mp h
  exact (List.getElem?_eq_some_iff.mp hi).1

variable {i : Int32}

theorem on_last (h : seatOf i = some s) : On (k ++ [i]) k.length s := by
  rw [On, getElem?_concat_length]
  exact h

/-- A place of a way with one more seat is an old place or the last one. -/
theorem On.of_concat (h : On (k ++ [i]) p s) : On k p s ∨ (p = k.length ∧ seatOf i = some s) := by
  have hlt := h.lt
  rw [length_append, length_singleton] at hlt
  rcases Nat.lt_succ_iff_lt_or_eq.mp hlt with hp | rfl
  · rw [On, getElem?_append_left hp] at h
    exact .inl h
  · rw [On, getElem?_concat_length] at h
    exact .inr ⟨rfl, h⟩

theorem Before.append {v : Seat} (h : Before k b v) (k' : List Int32) : Before (k ++ k') b v := by
  obtain ⟨p, q, hpq, hp, hq⟩ := h
  exact ⟨p, q, hpq, hp.append k', hq.append k'⟩

/-- The loop of `gain` after it has gone the way `done`. -/
structure Gained (kb : Knowledgebase) (mp : Seat) (done : List Int32)
    (s : Knowledgebase × Int64 × Int64) : Prop where
  /-- the mask has the seats on the way so far -/
  mask : ∀ b, Has s.2.2 b → ∃ p, On done p b
  maskSeats : Within s.2.2 allSeats
  bits : ∀ f v b, Has (s.1.knowledge f v) b →
    Has (kb.knowledge f v) b ∨ (f = mp ∧ Before done b v)
  seats : (∀ f v, Within (kb.knowledge f v) allSeats) →
    ∀ f v, Within (s.1.knowledge f v) allSeats

theorem place_eq_ok (h : place i = .ok s) : seatOf i = some s := by
  unfold place at h
  split at h
  · rename_i s' hs
    cases h
    exact hs
  · cases h

variable {mp : Seat} {kb kb' : Knowledgebase} {msg : MsgKnowledge}

theorem Gained.step {v : Seat} {done : List Int32} {ng' c : Int64}
    (h : Gained kb mp done (kb', ng, c)) (hv : seatOf i = some v) :
    Gained kb mp (done ++ [i]) (kb', ng', c ||| bit v) ∧
    Gained kb mp (done ++ [i]) (kb'.learn mp v (c ||| bit v), ng', c ||| bit v) := by
  have hmask : ∀ b, Has (c ||| bit v) b → ∃ p, On (done ++ [i]) p b := by
    intro b hb
    rcases has_or.mp hb with hb | hb
    · obtain ⟨p, hp⟩ := h.mask b hb
      exact ⟨p, hp.append [i]⟩
    · rw [has_bit.mp hb]
      exact ⟨done.length, on_last hv⟩
  have hseats : Within (c ||| bit v) allSeats := h.maskSeats.or (bit_within v)
  have hold : ∀ f w b, Has (kb'.knowledge f w) b →
      Has (kb.knowledge f w) b ∨ (f = mp ∧ Before (done ++ [i]) b w) := fun f w b hb =>
    (h.bits f w b hb).imp_right fun hb => ⟨hb.1, hb.2.append [i]⟩
  refine ⟨⟨hmask, hseats, hold, h.seats⟩, hmask, hseats, ?_, ?_⟩
  · intro f w b hb
    simp only [Knowledgebase.learn] at hb
    split at hb
    · rename_i hfw
      obtain ⟨rfl, rfl⟩ := hfw
      rcases has_or.mp hb with hb | hb
      · exact hold f w b hb
      -- `w` is the last seat on the way, and the mask has no other than those before it
      obtain ⟨p, hp⟩ := hmask b hb
      have hlt := hp.lt
      rw [length_append, length_singleton] at hlt
      exact .inr ⟨rfl, p, done.length, Nat.lt_succ_iff.mp hlt, hp, on_last hv⟩
    · exact hold f w b hb
  · intro hkb f w
    simp only [Knowledgebase.learn]
    split
    · exact (h.seats hkb f w).or hseats
    · exact h.seats hkb f w

theorem gain_spec {c : Int64} (h : kb.gain mp k = .ok (kb', ng, c)) :
    Gained kb mp k (kb', ng, c) := by
  simp only [Knowledgebase.gain, bind_eq_ok] at h
  obtain ⟨⟨kb₁, ng₁, c₁⟩, hloop, ng₂, -, h⟩ := h
  cases h
  have hgained : Gained kb mp k (kb₁, ng₁, c₁) := by
    refine foldlM_induction (P := Gained kb mp) ?_ (fun done i s s' hs hstep => ?_) hloop
    · exact ⟨fun b hb => absurd hb (not_has_zero b), within_zero _, fun _ _ _ hb => .inl hb,
        fun hkb => hkb⟩
    · obtain ⟨v, hv, hstep⟩ := of_bind hstep
      have hv := place_eq_ok hv
      cases hstep
      split
      · exact (hs.step hv).2
      · exact (hs.step hv).1
  exact ⟨hgained.mask, hgained.maskSeats, hgained.bits, hgained.seats⟩

/-- A knowledge message that passes all checks. -/
structure Takes (sy : Syncer) (k : MsgKnowledge) : Prop where
  undecided : sy.sigGiven = none
  admitted : admits sy k.finder = true
  verified : checkSigners k.k k.signers = .ok true
  registered : ∀ t, sy.forest.lookup k.finder = some t → t.hash = k.m
  sender : k.sender ∈ sy.members

/-- After a knowledge message, what is newly known of the block of its finder stands on its way,
which ends with the node itself. -/
structure Learns (k : MsgKnowledge) (l l' : Local) : Prop where
  takes : Takes l.sy k
  bits : ∀ f v b, Has (l'.known f v) b → Has (l.known f v) b ∨
    (f = l.sy.member k.finder ∧ Before (k.k ++ [l.sy.myself.no]) b v)
  seats : (∀ f v, Within (l.known f v) allSeats) → ∀ f v, Within (l'.known f v) allSeats

theorem passOn_sy {lmg : MsgKnowledge} {tosend : Bool} {i : Seat}
    (h : passOn msg lmg tosend mp ng l i = .ok l') : l'.sy = l.sy := by
  unfold passOn at h
  split at h
  · cases h
    rfl
  · obtain ⟨imp, -, h⟩ := of_bind h
    cases h
    split <;> rfl

theorem introduce_sy (h : introduce K mp l = .ok l') : l'.sy = l.sy := by
  unfold introduce at h
  split at h
  · obtain ⟨k, -, h⟩ := of_bind h
    cases h
    rfl
  · cases h
    rfl

/-- `ProcKnowledge` ignores a message of a stranger, and otherwise gains by the way of the message,
with the own seat at its end if that is missing. -/
theorem procKnowledge_known (h : procKnowledge K l msg = .ok l') :
    l'.known = l.known ∨ (msg.sender ∈ l.sy.members ∧ ∃ k kb ng c,
      (k = msg.k ∨ k = msg.k ++ [l.sy.myself.no]) ∧
      l.sy.knowledges.gain (l.sy.member msg.finder) k = .ok (kb, ng, c) ∧
      l'.known = kb.knowledge) := by
  unfold procKnowledge at h
  split at h
  · rename_i mp s hfinder hsender
    simp only [bind_eq_ok] at h
    obtain ⟨⟨kb, ng, c⟩, hgain, u, hpass, h⟩ := h
    have hpass : u.sy = { l.sy with knowledges := kb } :=
      foldlM_induction (P := fun _ v => v.sy = { l.sy with knowledges := kb }) rfl
        (fun _ _ _ _ hv hstep => (passOn_sy hstep).trans hv) hpass
    have hknown : l'.known = kb.knowledge := by
      rw [Local.known, introduce_sy h, hpass]
    have hmp : l.sy.member msg.finder = mp := by rw [member, hfinder]; rfl
    refine .inr ⟨mem_of_lookup hsender, _, kb, ng, c, ?_, hmp ▸ hgain, hknown⟩
    split
    · rename_i htosend
      rw [Bool.and_eq_true] at htosend
      exact .inr (by simp only [addK, if_pos htosend.2])
    · exact .inl rfl
  · cases h
    exact .inl rfl

/-- The registration of a message that is valid changes no hash. -/
theorem register_valid {sy sy' : Syncer} {finder : Address} {m : Hash}
    (h : register sy finder m = (sy', true)) :
    ∀ t, sy.forest.lookup finder = some t → t.hash = m := by
  intro t ht
  simp only [register, ht] at h
  exact of_decide_eq_true (Prod.mk.inj h).2

theorem candidacy_known {b : Bool} (h : candidacy K l = .ok (l', b)) : l'.known = l.known := by
  unfold candidacy at h
  split at h
  · cases h
    rfl
  split at h
  · cases h
    rfl
  · obtain ⟨m, -, h⟩ := of_bind h
    cases h
    simp [Local.known]

theorem keepKnow_knowledges (sy : Syncer) (k : MsgKnowledge) :
    (keepKnow sy k).knowledges = sy.knowledges := by
  unfold keepKnow
  split
  · rfl
  · split <;> rfl

/-- A knowledge message that is not taken leaves what is known alone. -/
theorem onKnowledge_learns {k : MsgKnowledge} (h : onKnowledge K l k = .ok l') :
    l'.known = l.known ∨ Learns k l l' := by
  unfold onKnowledge at h
  split at h
  · cases h
    exact .inl rfl
  rename_i hc
  simp only [not_or, not_not] at hc
  obtain ⟨verified, hverified, h⟩ := of_bind h
  cases verified with
  | false =>
    cases h
    exact .inl rfl
  | true =>
    rcases hr : register l.sy k.finder k.m with ⟨sy, valid⟩
    have hreg : sy.knowledges = l.sy.knowledges := by
      rw [← register_knowledges l.sy k.finder k.m, hr]
    simp only [hr] at h
    cases valid with
    | false =>
      cases h
      exact .inl (by rw [Local.known, hreg]; rfl)
    | true =>
      simp only [not_true_eq_false, if_false, bind_eq_ok] at h
      obtain ⟨m, hm, u, hproc, ⟨v, b⟩, hcand, h⟩ := h
      cases h
      rw [if_neg (not_not.mpr (treeHash_register hr hm))] at hproc
      have hframe := (register_mild hr).frame.trans (keepKnow_mild { l with sy } k).frame
      have hkeep : (keepKnow sy k).knowledges = l.sy.knowledges :=
        (keepKnow_knowledges sy k).trans hreg
      have hcand := candidacy_known hcand
      rcases procKnowledge_known hproc with heq | ⟨hsender, way, kb, ng, c, hway, hgain, heq⟩
      · exact .inl (by rw [hcand, heq, Local.known, hkeep]; rfl)
      have hknown : v.known = kb.knowledge := hcand.trans heq
      have hmember : (keepKnow sy k).member k.finder = l.sy.member k.finder := by
        rw [member, member, hframe.members]
      rw [hkeep, hmember] at hgain
      have hgained := gain_spec hgain
      refine .inr ⟨⟨hc.1, hc.2, hverified, register_valid hr, hframe.members ▸ hsender⟩, ?_, ?_⟩
      · intro f w b hb
        rw [hknown] at hb
        refine (hgained.bits f w b hb).imp_right fun hnew => ⟨hnew.1, ?_⟩
        rw [hframe.myself] at hway
        rcases hway with rfl | rfl
        · exact hnew.2.append _
        · exact hnew.2
      · rw [hknown]
        exact hgained.seats

/-- **Where knowledge comes from.** Nothing more is known after a handler has run, or it was that of
a knowledge message and what is new stands on its way. -/
theorem Runs.learns {e : NodeEvent} (h : Runs K l e l') :
    Fades l l' ∨ ∃ i k, e = .command i (.msg (.knowledge k)) ∧ Learns k l l' := by
  have hspans : Spans Fades :=
    { refl := fun _ => .of_eq rfl
      trans := .trans
      mild := Mild.fades
      sign := fun _ _ => .of_eq rfl
      given := fun _ hknown => .of_eq hknown
      refused := fun _ hknown => .of_eq hknown
      taken := fun _ hknown => .of_eq hknown
      count := fun _ _ _ _ => .of_eq rfl
      plant := fun _ _ _ => .of_eq rfl
      dress := fun _ _ => .of_eq rfl }
  rcases hspans.runs h with hfades | ⟨i, k, rfl, hk⟩
  · exact .inl hfades
  · exact (onKnowledge_learns hk).imp .of_eq fun hl => ⟨i, k, rfl, hl⟩

end Zent.Consensus
