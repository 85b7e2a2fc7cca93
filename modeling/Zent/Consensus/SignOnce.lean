import Zent.Consensus.Event

/-!
# One signature per height

A node must not sign two blocks of one height. The machines of a node share the height last
signed, and a machine gives its signature away only if its own height is above it. Yet `consensus`
makes its signature and casts it first and looks at the height after that, so a machine whose
height was signed before signs another block.
-/

namespace Zent.Consensus

open List Option Event

variable {K : Keys} {l l' l'' : Local} {b : Bool}

/-- Of each height, a key has signed one hash. -/
def SignsOnce (log : List Event) : Prop :=
  ∀ a h m m', sign a h m ∈ log → sign a h m' ∈ log → m = m'

/-- A step is careful if an announcement that makes `consensus` sign comes to a machine above the
height last signed, and its sender holds the seat that was agreed to. -/
def Careful (K : Keys) (n : Node) (e : NodeEvent) : Prop :=
  ∀ i k sy m, e = .command i (.msg (.consensus k)) → n.syncers[i]? = some sy →
    sy.sigGiven = none → Announced K (n.view sy) k m →
    n.last < sy.height ∧ sy.name (sy.member k.sender) = k.sender

/-! ## What a machine does -/

/-- The hash of the block agreed to. -/
def Chosen (sy : Syncer) (m : Hash) : Prop :=
  ∃ s t, sy.agreed = some s ∧ sy.forest.lookup (sy.name s) = some t ∧ t.hash = m

variable {m : Hash}

theorem Chosen.unique {sy : Syncer} {m' : Hash} (h : Chosen sy m) (h' : Chosen sy m') : m = m' := by
  obtain ⟨s, t, hs, ht, rfl⟩ := h
  obtain ⟨s', t', hs', ht', rfl⟩ := h'
  cases hs.symm.trans hs'
  cases ht.symm.trans ht'
  rfl

/-- All that is newly signed is the block agreed to. -/
def SignsChosen (l l' : Local) : Prop :=
  ∀ a h m, sign a h m ∈ l'.log → sign a h m ∈ l.log ∨
    (l'.sy.sigGiven ≠ none ∧ h = l'.sy.height ∧ Chosen l'.sy m)

/-- A step that gives no signature away. -/
structure Still (l l' : Local) : Prop where
  height : l'.sy.height = l.sy.height
  last : l'.last = l.last
  sigGiven : l'.sy.sigGiven = l.sy.sigGiven
  agreed : l.sy.sigGiven ≠ none → l'.sy.agreed = l.sy.agreed
  chosen : l.sy.sigGiven ≠ none → ∀ m, Chosen l.sy m → Chosen l'.sy m
  signs : SignsChosen l l'

/-- A step that gives the signature away. -/
structure Grant (l l' : Local) : Prop where
  height : l'.sy.height = l.sy.height
  undecided : l.sy.sigGiven = none
  low : l.last < l.sy.height
  last : l'.last = l.sy.height
  given : ∃ s, l'.sy.sigGiven = some s ∧ l'.sy.agreed = some s
  signs : SignsChosen l l'

theorem Still.refl (l : Local) : Still l l :=
  ⟨rfl, rfl, rfl, fun _ => rfl, fun _ _ h => h, fun _ _ _ h => .inl h⟩

theorem SignsChosen.still (h : SignsChosen l l') (h' : Still l' l'') : SignsChosen l l'' := by
  intro a height m hsign
  rcases h'.signs a height m hsign with hold | hnew
  · rcases h a height m hold with hold | ⟨hg, hheight, hm⟩
    · exact .inl hold
    · exact .inr ⟨h'.sigGiven ▸ hg, hheight.trans h'.height.symm, h'.chosen hg m hm⟩
  · exact .inr hnew

theorem Still.trans (h : Still l l') (h' : Still l' l'') : Still l l'' where
  height := h'.height.trans h.height
  last := h'.last.trans h.last
  sigGiven := h'.sigGiven.trans h.sigGiven
  agreed := fun hg => (h'.agreed (h.sigGiven ▸ hg)).trans (h.agreed hg)
  chosen := fun hg m hm => h'.chosen (h.sigGiven ▸ hg) m (h.chosen hg m hm)
  signs := h.signs.still h'

/-- Before the signature is given, a quiet or other still step signs nothing. -/
theorem Still.grant (h : Still l l') (h' : Grant l' l'') : Grant l l'' where
  height := h'.height.trans h.height
  undecided := h.sigGiven ▸ h'.undecided
  low := by rw [← h.last, ← h.height]; exact h'.low
  last := h'.last.trans h.height
  given := h'.given
  signs := by
    intro a height m hsign
    rcases h'.signs a height m hsign with hold | hnew
    · rcases h.signs a height m hold with hold | ⟨hg, -⟩
      · exact .inl hold
      · exact absurd h'.undecided hg
    · exact .inr hnew

theorem Grant.still (h : Grant l l') (h' : Still l' l'') : Grant l l'' where
  height := h'.height.trans h.height
  undecided := h.undecided
  low := h.low
  last := h'.last.trans h.last
  given := by
    obtain ⟨s, hg, ha⟩ := h.given
    exact ⟨s, h'.sigGiven.trans hg, (h'.agreed (by simp [hg])).trans ha⟩
  signs := h.signs.still h'

theorem Quiet.still (h : Quiet l l') : Still l l' where
  height := h.frame.height
  last := h.last
  sigGiven := h.sigGiven
  agreed := h.agreed
  chosen := by
    rintro hg m ⟨s, t, hs, ht, rfl⟩
    obtain ⟨t', ht', hsame⟩ := h.kept hg _ t ht
    exact ⟨s, t', (h.agreed hg).trans hs, by rw [h.frame.name]; exact ht', hsame.hash⟩
  signs := by
    intro a height m hsign
    obtain ⟨sent, hlog, hsent⟩ := h.log
    rw [hlog, mem_append] at hsign
    rcases hsign with hnew | hold
    · cases hsent _ hnew
    · exact .inl hold

theorem Shift.still (h : Shift l l') : Still l l' where
  height := h.height
  last := h.last
  sigGiven := h.sigGiven
  agreed := fun _ => h.agreed
  chosen := by
    rintro hg m ⟨s, t, hs, ht, hm⟩
    refine ⟨s, t, h.agreed.trans hs, ?_, hm⟩
    rw [h.forest, Syncer.name, h.names hg]
    exact ht
  signs := fun _ _ _ hsign => .inl (h.log ▸ hsign)

/-- Trees keep their hash when a tick dresses them. -/
theorem dressAll_still (pick : Hash → Address) (l : Local) :
    Still l { l with sy := dressAll pick l.sy } where
  height := rfl
  last := rfl
  sigGiven := rfl
  agreed := fun _ => rfl
  chosen := by
    rintro - m ⟨s, t, hs, ht, rfl⟩
    refine ⟨s, dress pick l.sy t, hs, ?_, ?_⟩
    · rw [lookup_dressAll]
      exact congrArg (Option.map (dress pick l.sy)) ht
    · rcases dress_spec pick l.sy t with heq | ⟨-, hhash, -⟩
      · rw [heq]
      · exact hhash
  signs := fun _ _ _ hsign => .inl hsign

/-- Signing the block agreed to again, once the signature is given. -/
theorem sign_still (hg : l.sy.sigGiven ≠ none) (hm : Chosen l.sy m) : Still l (l.sign m) where
  height := rfl
  last := rfl
  sigGiven := rfl
  agreed := fun _ => rfl
  chosen := fun _ _ h => h
  signs := by
    intro a height m' hsign
    rcases mem_cons.mp hsign with heq | hold
    · cases heq
      exact .inr ⟨hg, rfl, hm⟩
    · exact .inl hold

/-- The signature goes to the block agreed to, with the hash `m`. The machine may have cast it
before (`l'`), but has signed nothing else. -/
theorem Given.grant {owner : Address} {own : Bytes} (h : Given owner own l' l'')
    (hsy : l'.sy = l.sy) (hsigns : ∀ a height m', sign a height m' ∈ l'.log →
      sign a height m' ∈ l.log ∨ (height = l.sy.height ∧ m' = m)) (hg : l.sy.sigGiven = none)
    (hlow : l.last < l.sy.height) (hm : Chosen l.sy m) : Grant l l'' := by
  obtain ⟨s, t, hs, ht, rfl⟩ := hm
  have hagreed : l''.sy.agreed = some s := by rw [h.agreed, hsy, hs]
  have hgiven : l''.sy.sigGiven = some s := by rw [h.sigGiven, hsy, hs]
  have hheight : l''.sy.height = l.sy.height := by rw [h.frame.height, hsy]
  refine ⟨hheight, hg, hlow, by rw [h.last, hsy], ⟨s, hgiven, hagreed⟩, ?_⟩
  intro a height m' hsign
  rw [h.log] at hsign
  rcases hsigns a height m' hsign with hold | ⟨rfl, rfl⟩
  · exact .inl hold
  · refine .inr ⟨by simp [hgiven], hheight.symm, s, t, hagreed, ?_, rfl⟩
    rw [h.forest, h.frame.name, hsy]
    exact ht

/-- The own block is agreed to when `ckconsensus` signs it. -/
theorem ckconsensus_effect {dest : Dest} (h : ckconsensus K dest l = .ok (l', b))
    (hname : l.sy.name l.sy.myself = l.sy.me) : Still l l' ∨ Grant l l' := by
  rcases ckconsensus_spec h with
    ⟨rfl, -⟩ | ⟨m, u, own, -, hg, hagreed, -, -, -, hm, hlow, hgiven, -, rfl⟩
  · exact .inl (.refl _)
  obtain ⟨t, ht, hhash⟩ := treeHash_eq_ok hm
  have hchosen : Chosen l.sy m := ⟨_, t, hagreed, by rw [hname]; exact ht, hhash⟩
  have hgrant : Grant l u :=
    hgiven.grant rfl (fun _ _ _ hsign => .inl hsign) hg hlow hchosen
  have hchosen' : Chosen u.sy m := by
    refine ⟨_, t, hgiven.agreed.trans hagreed, ?_, hhash⟩
    rw [hgiven.forest, hgiven.frame.name, hname]
    exact ht
  have hgave : u.sy.sigGiven ≠ none := by simp [hgiven.sigGiven, hagreed]
  exact .inr (hgrant.still ((sign_still hgave hchosen').trans (Mild.send _ _ _).still))

theorem countSender_still (msg : MsgConsensus) (l : Local) : Still l (countSender msg l).1 := by
  rcases countSender_spec msg l with heq | ⟨r, -, -, heq⟩
  · rw [heq]
    exact .refl l
  · rw [heq]
    exact { Still.refl l with }

/-- A careful announcement gives the signature to the block that is signed. -/
theorem consensus_effect {msg : MsgConsensus} (h : consensus K l msg = .ok (l', b))
    (hg : l.sy.sigGiven = none) (hcare : ∀ m, Announced K l msg m →
      l.last < l.sy.height ∧ l.sy.name (l.sy.member msg.sender) = msg.sender) :
    Still l l' ∨ Grant l l' := by
  rcases consensus_spec h hg with rfl | ⟨m, hann, hout⟩
  · exact .inl (.refl _)
  obtain ⟨hlow, hname⟩ := hcare m hann
  rcases hout with ⟨hhigh, -⟩ | ⟨-, u, hgiven, -, rfl⟩
  · exact absurd hlow hhigh
  obtain ⟨t, ht, hhash⟩ := treeHash_eq_ok hann.tree
  have hchosen : Chosen l.sy m := ⟨_, t, hann.agreed, by rw [hname]; exact ht, hhash⟩
  have hgrant : Grant l u := by
    refine hgiven.grant rfl ?_ hg hlow hchosen
    intro a height m' hsign
    -- the log has the message cast, the signature, and what was there before
    rcases mem_cons.mp hsign with heq | hsign
    · cases heq
    rcases mem_cons.mp hsign with heq | hold
    · cases heq
      exact .inr ⟨rfl, rfl⟩
    · exact .inl hold
  exact .inr (hgrant.still (countSender_still msg u))

/-- A signature of another member signs nothing; the first one counted decides the machine. -/
theorem signature_effect {msg : MsgSignature} (h : signature K l msg = .ok (l', b))
    (hlast : l.sy.sigGiven ≠ none → ¬l.last < l.sy.height) : Still l l' ∨ Grant l l' := by
  rcases signature_spec h with rfl | ⟨a, f, hoff, -, href | htak⟩
  · exact .inl (.refl _)
  · refine .inl ⟨href.frame.height, href.last, href.sigGiven, fun _ => href.agreed, ?_,
      fun _ _ _ hsign => .inl (href.log ▸ hsign)⟩
    rintro - m ⟨s, t, hs, ht, hm⟩
    exact ⟨s, t, href.agreed.trans hs, by rw [href.forest, href.frame.name]; exact ht, hm⟩
  have hsigns : SignsChosen l l' := fun _ _ _ hsign => .inl (htak.log ▸ hsign)
  rcases htak.last with ⟨hlow, hlast'⟩ | ⟨-, hsame, hlast'⟩
  · have hg : l.sy.sigGiven = none := by
      by_contra hne
      exact hlast hne hlow
    exact .inr ⟨htak.frame.height, hg, hlow, hlast',
      ⟨a, htak.sigGiven, htak.agreed.trans hoff.agreed⟩, hsigns⟩
  · refine .inl ⟨htak.frame.height, hlast', htak.sigGiven.trans hsame.symm,
      fun _ => htak.agreed, ?_, hsigns⟩
    rintro - m ⟨s, t, hs, ht, hm⟩
    exact ⟨s, t, htak.agreed.trans hs, by rw [htak.forest, htak.frame.name]; exact ht, hm⟩

/-- **One handler.** In a machine with a seat, whose signature if given is at most at the height
last signed, a careful handler gives no signature away or gives it to the block it signs. -/
theorem Runs.effect {e : NodeEvent} (h : Runs K l e l') (hs : Seated l.sy) (hb : l.sy.phase ≠ .idle)
    (hgiven : ∀ s, l.sy.sigGiven = some s → l.sy.agreed = some s ∧ ¬l.last < l.sy.height)
    (hcare : ∀ i k m, e = .command i (.msg (.consensus k)) → l.sy.sigGiven = none →
      Announced K l k m →
      l.last < l.sy.height ∧ l.sy.name (l.sy.member k.sender) = k.sender) :
    Still l l' ∨ Grant l l' := by
  have hlast : l.sy.sigGiven ≠ none → ¬l.last < l.sy.height := by
    intro hg
    obtain ⟨s, hg⟩ := ne_none_iff_exists'.mp hg
    exact (hgiven s hg).2
  cases h with
  | command h =>
    rcases process_spec h with hq | ⟨t, -, ht⟩ | ⟨u, dest, c, hq, hck⟩ | ⟨k, -, hk⟩ |
      ⟨k, rfl, hg, -, hc⟩ | ⟨k, -, hsig⟩
    · exact .inl hq.still
    · rcases newTree_spec ht with hq | ⟨hg, tree, -, rfl⟩
      · exact .inl hq.still
      · exact .inl ⟨rfl, rfl, rfl, fun h => absurd hg h, fun h => absurd hg h,
          fun _ _ _ hsign => .inl hsign⟩
    · have hname : u.sy.name u.sy.myself = u.sy.me := by
        rw [hq.frame.name, hq.frame.myself, hq.frame.me, hs.name hb]
      exact (ckconsensus_effect hck hname).imp hq.still.trans hq.still.grant
    · exact .inl (onKnowledge_quiet hk).still
    · exact consensus_effect hc hg fun m hann => hcare _ k m rfl hg hann
    · exact signature_effect hsig hlast
  | tick h =>
    rcases repeater_spec h with hq | ⟨d, rfl, hq | hck | ⟨hg, m, hm, hq⟩⟩
    · exact .inl hq.still
    · exact .inl ((dressAll_still _ l).trans hq.still)
    · have hstill := dressAll_still ‹Tick›.pick l
      exact (ckconsensus_effect hck (hs.name hb)).imp hstill.trans hstill.grant
    obtain ⟨s, hg'⟩ := ne_none_iff_exists'.mp hg
    obtain ⟨t, ht, hhash⟩ := treeHash_eq_ok hm
    have hagreed := (hgiven s hg').1
    have hchosen : Chosen (dressAll ‹Tick›.pick l.sy) m := by
      refine ⟨s, t, hagreed, ?_, hhash⟩
      rw [← ht]
      show _ = (dressAll _ l.sy).forest.lookup ((dressAll _ l.sy).nameAt (seatNo l.sy.agreed))
      rw [hagreed, nameAt_seatNo]
    exact .inl (((dressAll_still _ l).trans (sign_still hg hchosen)).trans hq.still)
  | drain h => exact signature_effect h hlast
  | recheck h =>
    rcases reckconsensus_spec h with rfl | ⟨m, hagreed, hg, hm, hq⟩
    · exact .inl (.refl _)
    · obtain ⟨t, ht, hhash⟩ := treeHash_eq_ok hm
      have hchosen : Chosen l.sy m := ⟨_, t, hagreed, by rw [hs.name hb]; exact ht, hhash⟩
      exact .inl ((sign_still (by simp [hg]) hchosen).trans hq.still)

/-! ## The node -/

/-- What holds of a node in a careful run. -/
structure OneChoice (n : Node) : Prop where
  seated : ∀ sy ∈ n.syncers, Seated sy
  given : ∀ sy ∈ n.syncers, ∀ s, sy.sigGiven = some s →
    sy.agreed = some s ∧ ¬n.last < sy.height
  /-- of the machines of one height, one has given its signature -/
  apart : ∀ (i j : Nat) (a b : Syncer), n.syncers[i]? = some a → n.syncers[j]? = some b →
    a.sigGiven ≠ none → b.sigGiven ≠ none → a.height = b.height → i = j
  signs : ∀ a h m, sign a h m ∈ n.log →
    ∃ sy ∈ n.syncers, sy.sigGiven ≠ none ∧ sy.height = h ∧ Chosen sy m

variable {n : Node}

/-- What was signed for a height is the choice of the one machine that gave its signature. -/
theorem OneChoice.signsOnce (h : OneChoice n) : SignsOnce n.log := by
  intro a height m m' hm hm'
  obtain ⟨sy, hsy, hg, hheight, hchosen⟩ := h.signs a height m hm
  obtain ⟨sy', hsy', hg', hheight', hchosen'⟩ := h.signs a height m' hm'
  obtain ⟨i, hi⟩ := mem_iff_getElem?.mp hsy
  obtain ⟨j, hj⟩ := mem_iff_getElem?.mp hsy'
  cases h.apart i j sy sy' hi hj hg hg' (hheight.trans hheight'.symm)
  cases hi.symm.trans hj
  exact hchosen.unique hchosen'

theorem OneChoice.start : OneChoice Node.start :=
  ⟨by simp [Node.start], by simp [Node.start], by simp [Node.start], by simp [Node.start]⟩

theorem OneChoice.create (h : OneChoice n) (height : Int32) :
    OneChoice { n with syncers := n.syncers ++ [createSyncer height] } := by
  have hold : ∀ {i : Nat} {a : Syncer}, (n.syncers ++ [createSyncer height])[i]? = some a →
      a.sigGiven ≠ none → n.syncers[i]? = some a := by
    intro i a hi hg
    by_cases hlt : i < n.syncers.length
    · rwa [getElem?_append_left hlt] at hi
    · rw [getElem?_append_right (Nat.le_of_not_lt hlt)] at hi
      rw [mem_singleton.mp (mem_of_getElem? hi)] at hg
      exact absurd rfl hg
  refine ⟨?_, ?_, ?_, ?_⟩
  · exact forall_mem_append.mpr ⟨h.seated, forall_mem_singleton.mpr (.create height)⟩
  · exact forall_mem_append.mpr ⟨h.given, forall_mem_singleton.mpr nofun⟩
  · intro i j a b hi hj hga hgb
    exact h.apart i j a b (hold hi hga) (hold hj hgb) hga hgb
  · intro a hh m hsign
    obtain ⟨sy, hsy, hrest⟩ := h.signs a hh m hsign
    exact ⟨sy, mem_append_left _ hsy, hrest⟩

section Update

variable {n : Node} {i : Nat} {sy : Syncer}

/-- What was signed before is still chosen by some machine, after a still step or a grant of the
machine `i`; and so is what it has signed itself. -/
theorem OneChoice.signs_set (h : OneChoice n) (hi : n.syncers[i]? = some sy)
    (hsigns : SignsChosen (n.view sy) l)
    (hkept : sy.sigGiven ≠ none → l.sy.sigGiven ≠ none ∧ l.sy.height = sy.height ∧
      ∀ m, Chosen sy m → Chosen l.sy m) :
    ∀ a hh m, sign a hh m ∈ l.log →
      ∃ sy' ∈ n.syncers.set i l.sy, sy'.sigGiven ≠ none ∧ sy'.height = hh ∧ Chosen sy' m := by
  intro a hh m hsign
  have hlt : i < n.syncers.length := (List.getElem?_eq_some_iff.mp hi).1
  have hself : l.sy ∈ n.syncers.set i l.sy := mem_set hlt _
  rcases hsigns a hh m hsign with hold | ⟨hg, rfl, hm⟩
  · obtain ⟨sy', hsy', hg', hheight', hm'⟩ := h.signs a hh m hold
    obtain ⟨j, hj⟩ := mem_iff_getElem?.mp hsy'
    by_cases hij : i = j
    · subst hij
      cases hi.symm.trans hj
      obtain ⟨hg, hheight, hchosen⟩ := hkept hg'
      exact ⟨l.sy, hself, hg, hheight.trans hheight', hchosen m hm'⟩
    · refine ⟨sy', mem_iff_getElem?.mpr ⟨j, ?_⟩, hg', hheight', hm'⟩
      rw [getElem?_set_ne hij]
      exact hj
  · exact ⟨l.sy, hself, hg, rfl, hm⟩

theorem OneChoice.seated_set (h : OneChoice n) {sy' : Syncer} (hs : Seated sy') :
    ∀ a ∈ n.syncers.set i sy', Seated a := by
  intro a ha
  rcases mem_or_eq_of_mem_set ha with ha | rfl
  · exact h.seated a ha
  · exact hs

theorem OneChoice.still (h : OneChoice n) (hi : n.syncers[i]? = some sy)
    (hstill : Still (n.view sy) l) (hs : Seated l.sy) :
    OneChoice ⟨l.last, n.syncers.set i l.sy, l.log⟩ where
  seated := h.seated_set hs
  given := by
    intro a ha s hg
    rcases mem_or_eq_of_mem_set ha with ha | rfl
    · rw [hstill.last]
      exact h.given a ha s hg
    have hg' : sy.sigGiven = some s := hstill.sigGiven.symm.trans hg
    obtain ⟨hagreed, hlast⟩ := h.given sy (mem_of_getElem? hi) s hg'
    rw [hstill.last, hstill.height]
    exact ⟨(hstill.agreed (by simp [Node.view, hg'])).trans hagreed, hlast⟩
  apart := by
    -- the machine `i` has the height and the signature it had
    have hback : ∀ {j : Nat} {a : Syncer}, (n.syncers.set i l.sy)[j]? = some a →
        ∃ a', n.syncers[j]? = some a' ∧ a'.sigGiven = a.sigGiven ∧ a'.height = a.height := by
      intro j a hj
      rcases Node.getElem?_set_cases hj with ⟨rfl, rfl⟩ | ⟨-, hj⟩
      · exact ⟨sy, hi, hstill.sigGiven.symm, hstill.height.symm⟩
      · exact ⟨a, hj, rfl, rfl⟩
    intro j k a b hj hk hga hgb hheight
    obtain ⟨a', hj', hga', hha⟩ := hback hj
    obtain ⟨b', hk', hgb', hhb⟩ := hback hk
    exact h.apart j k a' b' hj' hk' (hga' ▸ hga) (hgb' ▸ hgb) (by rw [hha, hhb, hheight])
  signs := h.signs_set hi hstill.signs fun hg =>
    ⟨by rw [hstill.sigGiven]; exact hg, hstill.height, hstill.chosen hg⟩

theorem OneChoice.grant (h : OneChoice n) (hi : n.syncers[i]? = some sy)
    (hgrant : Grant (n.view sy) l) (hs : Seated l.sy) :
    OneChoice ⟨l.last, n.syncers.set i l.sy, l.log⟩ := by
  have hlow : n.last < sy.height := hgrant.low
  -- no machine that gave its signature is as high as the one that does now
  have hbelow : ∀ {j : Nat} {a : Syncer}, n.syncers[j]? = some a → a.sigGiven ≠ none →
      a.height ≠ l.sy.height := by
    intro j a hj hg heq
    obtain ⟨s, hg⟩ := ne_none_iff_exists'.mp hg
    refine (h.given a (mem_of_getElem? hj) s hg).2 ?_
    rw [heq, hgrant.height]
    exact hlow
  refine ⟨h.seated_set hs, ?_, ?_, h.signs_set hi hgrant.signs fun hg => absurd hgrant.undecided hg⟩
  · intro a ha s hg
    rw [hgrant.last]
    rcases mem_or_eq_of_mem_set ha with ha | rfl
    · obtain ⟨hagreed, hlast⟩ := h.given a ha s hg
      exact ⟨hagreed, fun hlt => hlast (Int32.lt_trans hlow hlt)⟩
    obtain ⟨s', hg', hagreed⟩ := hgrant.given
    cases hg.symm.trans hg'
    rw [hgrant.height]
    exact ⟨hagreed, fun hlt => Int32.lt_irrefl hlt⟩
  · intro j k a b hj hk hga hgb hheight
    rcases Node.getElem?_set_cases hj with ⟨rfl, rfl⟩ | ⟨-, hj⟩
    · rcases Node.getElem?_set_cases hk with ⟨rfl, -⟩ | ⟨-, hk⟩
      · rfl
      · exact absurd hheight.symm (hbelow hk hgb)
    · rcases Node.getElem?_set_cases hk with ⟨rfl, rfl⟩ | ⟨-, hk⟩
      · exact absurd hheight (hbelow hj hga)
      · exact h.apart j k a b hj hk hga hgb hheight

end Update

/-- The end of `run` publishes and signs nothing. -/
theorem finish_still (l : Local) : Still l (finish l) := by
  unfold finish
  split
  · exact { Still.refl l with }
  refine ⟨rfl, rfl, rfl, fun _ => rfl, fun _ _ h => h, fun _ _ _ h => .inl ?_⟩
  rcases mem_cons.mp h with heq | hold
  · cases heq
  · exact hold

theorem OneChoice.step {n' : Node} {e : NodeEvent} (h : OneChoice n) (hcare : Careful K n e)
    (hstep : n.step K e = .ok n') : OneChoice n' := by
  rcases Node.step_eq_ok K hstep with rfl | ⟨height, rfl⟩ | ⟨i, sy, l, htarget, hi, hact, rfl⟩
  · exact h
  · exact h.create height
  have hsy := mem_of_getElem? hi
  rcases act_spec hact (h.seated sy hsy) with ⟨hshift, hs⟩ | ⟨hdrain, rfl⟩ |
    ⟨u, hb, hruns, hshift, hs⟩
  · exact h.still hi hshift.still hs
  · have hb : (n.view sy).sy.phase ≠ .idle := by simp [hdrain]
    exact h.still hi (finish_still _) (finish_seated (h.seated sy hsy) hb)
  have heffect := hruns.effect (h.seated sy hsy) hb (h.given sy hsy) fun j k m he hg hann => by
    subst he
    cases htarget
    exact hcare i k sy m rfl hi hg hann
  rcases heffect with hstill | hgrant
  · exact h.still hi (hstill.trans hshift.still) hs
  · exact h.grant hi (hgrant.still hshift.still) hs

/-- **One signature per height.** In a run whose steps are all careful, a key of the node signs
one block hash for each height, whatever messages come in and whatever machines are made. -/
theorem signsOnce_of_careful (K : Keys) (es : List NodeEvent) (n : Node)
    (hcare : ∀ done e rest u, es = done ++ e :: rest → Node.run K done = .ok u → Careful K u e)
    (hrun : Node.run K es = .ok n) : SignsOnce n.log := by
  have hinv : OneChoice n :=
    Go.foldlM_induction_run (P := fun _ u => OneChoice u) OneChoice.start
      (fun done e rest u u' hes hdone hu hstep => hu.step (hcare done e rest u hes hdone) hstep)
      hrun
  exact hinv.signsOnce

theorem sampleVote_signs_once :
    ∃ n, Node.run Keys.sample (sampleVote 0 false 11 ++ [sampleConsensus 0 1 11]) = .ok n ∧
      sign 3 5 11 ∈ n.log ∧ SignsOnce n.log := by
  refine Go.exists_end (Q := fun n => sign 3 5 11 ∈ n.log) (by decide +kernel)
    fun n hrun hsign => ⟨hsign, signsOnce_of_careful Keys.sample _ n ?_ hrun⟩
  -- the only announcement is the last event, and the machine is above the height last signed
  rintro done e rest u hes hdone i k sy m rfl hi - -
  have hready : Go.Ends (Node.run Keys.sample (sampleVote 0 false 11)) fun u =>
      ∀ sy ∈ u.syncers, u.last = 0 ∧ sy.height = 5 ∧ sy.name (sy.member 1) = 1 := by
    decide +kernel
  obtain ⟨j, rfl, hget⟩ := Go.exists_take hes
  match j with
  | 0 | 1 | 2 | 3 | 4 => cases hget
  | 5 =>
    cases hget
    obtain ⟨hlow, hheight, hname⟩ := Node.look hready hdone hi
    rw [hlow, hheight]
    exact ⟨by decide, hname⟩
  | j + 6 => cases hget

/-- A machine of height 5 signs the block `11` and publishes it. After the chain is back at height
4 a machine of height 5 is made again, and signs the block `22`: the signature is cast before the
height last signed is looked at. -/
theorem reformed_signs_twice :
    ∃ n, Node.run Keys.sample (sampleVote 0 false 11 ++ [sampleConsensus 0 1 11, .finish 0] ++
        sampleVote 1 true 22 ++ [sampleConsensus 1 2 22]) = .ok n ∧
      sign 3 5 11 ∈ n.log ∧ sign 3 5 22 ∈ n.log ∧ ¬SignsOnce n.log := by
  refine Go.exists_end (Q := fun n => sign 3 5 11 ∈ n.log ∧ sign 3 5 22 ∈ n.log)
    (by decide +kernel) fun n _ h => ⟨h.1, h.2, fun honce => ?_⟩
  exact absurd (honce 3 5 11 22 h.1 h.2) (by decide)

end Zent.Consensus
