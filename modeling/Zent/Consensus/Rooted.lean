import Zent.Consensus.Event

/-!
# Machines whose seats have trees

The handlers read trees of the forest without asking whether they are there: that of the member
agreed to, that of a candidate, the own one. `Rooted` says what makes these reads safe, and here
the handlers of the vote are shown to end normally and to keep it.

* `Syncer.HasTree` — the member on a seat has a tree, and no other seat.
* `Rooted` — the one agreed to has a tree, and so has everyone whose block is known of; every body
  of a tree is in the heap.
* `Rooted.vote`, `Rooted.erase`, `Rooted.insert` — the three ways a handler changes what `Rooted`
  is about.
* `Open` — a rooted machine that has not given its signature; `candidacy_ends` to `rejection_ends`
  say that the vote goes from open machines to open machines.
-/

namespace Zent.Consensus

open Go Option Function AList Syncer

variable {K : Keys} {l : Local} {sy : Syncer} {s : Seat} {kb : Knowledgebase} {msg : MsgCandidate}

/-- `Names[Members[a]]` is `a` for every member `a`. The source reports the others in its debug
output ("Unmatched Members & Names"). -/
def Syncer.Matched (sy : Syncer) : Prop := ∀ e ∈ sy.members.entries, sy.name e.2 = e.1

instance (sy : Syncer) : Decidable sy.Matched :=
  List.decidableBAll _ sy.members.entries

variable {a : Address}

theorem Syncer.Matched.name_eq (h : sy.Matched) (hs : sy.members.lookup a = some s) :
    sy.name s = a :=
  h ⟨a, s⟩ (mem_lookup_iff.mp hs)

theorem member_eq (hs : sy.members.lookup a = some s) : sy.member a = s := by
  rw [member, hs]
  rfl

theorem Syncer.Matched.name_member (h : sy.Matched) (ha : a ∈ sy.members) :
    sy.name (sy.member a) = a := by
  obtain ⟨s, hs⟩ := isSome_iff_exists.mp (lookup_isSome.mpr ha)
  rw [member_eq hs]
  exact h.name_eq hs

/-- The member on a seat has a tree and is found on that seat. -/
def Syncer.HasTree (sy : Syncer) (s : Seat) : Prop :=
  sy.name s ∈ sy.forest ∧ sy.member (sy.name s) = s

theorem Syncer.Matched.hasTree (h : sy.Matched) (ha : a ∈ sy.members) (ht : a ∈ sy.forest) :
    sy.HasTree (sy.member a) := by
  rw [Syncer.HasTree, h.name_member ha]
  exact ⟨ht, rfl⟩

/-- What the reads of the handlers rest on. -/
structure Rooted (sy : Syncer) : Prop where
  name : sy.name sy.myself = sy.me
  matched : sy.Matched
  member : ∀ a ∈ sy.forest, a ∈ sy.members
  agreed : ∀ s, sy.agreed = some s → sy.HasTree s
  given : sy.sigGiven ≠ none → sy.agreed ≠ none
  asked : ∀ s, sy.asked s ≠ none → sy.member (sy.name s) = s
  known : ∀ f v, sy.knowledges.knowledge f v ≠ 0 → sy.HasTree f
  bodies : ∀ a t r, sy.forest.lookup a = some t → t.block = some r →
    ∃ b, sy.heap[r]? = some b ∧ b.scripts ≠ []

/-- A rooted machine that has not given its signature. -/
structure Open (sy : Syncer) : Prop extends Rooted sy where
  undecided : sy.sigGiven = none

/-! ## Changes that keep it -/

section Vote

variable {agreed : Option Seat} {asked : Seat → Option MsgCandidate} (agrees : List Seat)
  (hagreed : ∀ s, agreed = some s → sy.HasTree s)
  (hasked : ∀ s, asked s ≠ none → sy.asked s ≠ none ∨ sy.member (sy.name s) = s)
  (hkb : kb.knowledge = sy.knowledges.knowledge)

include hagreed hasked hkb

/-- A vote is for someone with a tree; a candidate is a member; nothing new is known. -/
theorem Rooted.vote (h : Rooted sy) (hgiven : sy.sigGiven ≠ none → agreed ≠ none) :
    Rooted { sy with agreed := agreed, agrees := agrees, asked := asked, knowledges := kb } where
  __ := h
  agreed := hagreed
  given := hgiven
  asked := fun s hs => (hasked s hs).elim (h.asked s) id
  known := fun f v hf => h.known f v (hkb ▸ hf)

/-- An open machine may agree to anyone with a tree. -/
theorem Open.vote (h : Open sy) :
    Open { sy with agreed := agreed, agrees := agrees, asked := asked, knowledges := kb } :=
  ⟨h.toRooted.vote agrees hagreed hasked hkb fun hg => absurd h.undecided hg, h.undecided⟩

end Vote

variable {b : Seat}

/-- A candidate that is struck off has asked no more. -/
theorem asked_update_none {asked : Seat → Option MsgCandidate} {p : Seat → Prop} (s : Seat)
    (h : update asked b none s ≠ none) : asked s ≠ none ∨ p s := by
  by_cases hs : s = b
  · subst hs
    simp at h
  · exact .inl (by rwa [update_of_ne hs] at h)

/-- A new candidate is the one that was added. -/
theorem asked_update_some {asked : Seat → Option MsgCandidate}
    (h : update asked b (some msg) s ≠ none) : asked s ≠ none ∨ s = b := by
  by_cases hs : s = b
  · exact .inr hs
  · exact .inl (by rwa [update_of_ne hs] at h)

/-- The tree of a member who is not agreed to may go, with all that is known of it. -/
theorem Rooted.erase (h : Rooted sy) (ha : a ∈ sy.members) (malice : List Address)
    (hagreed : ∀ s, sy.agreed = some s → sy.name s ≠ a)
    (hrow : ∀ v, kb.knowledge (sy.member a) v = 0)
    (hkb : ∀ f v, kb.knowledge f v ≠ 0 → sy.knowledges.knowledge f v ≠ 0) :
    Rooted { sy with malice := malice, forest := sy.forest.erase a, knowledges := kb } where
  __ := h
  member := fun b hb => h.member b (mem_erase.mp hb).2
  agreed := fun s hs => ⟨mem_erase.mpr ⟨hagreed s hs, (h.agreed s hs).1⟩, (h.agreed s hs).2⟩
  known := by
    intro f v hf
    have htree := h.known f v (hkb f v hf)
    refine ⟨mem_erase.mpr ⟨fun heq => hf ?_, htree.1⟩, htree.2⟩
    -- the row of the member whose tree goes is cleared
    have hseat : f = sy.member a := by rw [← heq]; exact htree.2.symm
    rw [hseat]
    exact hrow v
  bodies := by
    intro b t r ht
    by_cases hb : b = a
    · subst hb
      simp [lookup_erase] at ht
    · exact h.bodies b t r (by rwa [lookup_erase_ne hb] at ht)

/-- A member may get a tree whose body, if it has one, is in the heap. -/
theorem Rooted.insert (h : Rooted sy) {t : Tree} (ha : a ∈ sy.members)
    (ht : ∀ r, t.block = some r → ∃ b, sy.heap[r]? = some b ∧ b.scripts ≠ []) :
    Rooted { sy with forest := sy.forest.insert a t } where
  __ := h
  member := fun b hb => ((mem_insert _).mp hb).elim (fun heq => heq ▸ ha) (h.member b)
  agreed := fun s hs => ⟨(mem_insert _).mpr (.inr (h.agreed s hs).1), (h.agreed s hs).2⟩
  known := fun f v hf =>
    ⟨(mem_insert _).mpr (.inr (h.known f v hf).1), (h.known f v hf).2⟩
  bodies := by
    intro b u r hu
    obtain ⟨-, rfl⟩ | ⟨-, hu⟩ := lookup_insert_cases hu
    · exact ht r
    · exact h.bodies b u r hu

/-! ## Reads -/

theorem treeHash_ends (h : a ∈ sy.forest) : Ends (sy.treeHash a) fun _ => True := by
  obtain ⟨t, ht⟩ := isSome_iff_exists.mp (lookup_isSome.mpr h)
  rw [treeHash, ht]
  exact ends_ok trivial

/-- A release names someone with a tree, or nobody. -/
theorem makeRelease_ends {better : Int32} (h : better ≠ -1 → sy.nameAt better ∈ sy.forest) :
    Ends (makeRelease K sy better) fun _ => True := by
  unfold makeRelease
  split
  · rename_i hno
    exact Ends.bind (treeHash_ends (h hno)) fun _ _ => ends_ok trivial
  · exact ends_ok trivial

theorem Rooted.makeRelease_agreed (h : Rooted sy) :
    Ends (makeRelease K sy (seatNo sy.agreed)) fun _ => True := by
  refine makeRelease_ends fun hno => ?_
  cases ha : sy.agreed with
  | none => exact absurd (by rw [ha]; rfl) hno
  | some s =>
    rw [nameAt_seatNo]
    exact (h.agreed s ha).1

theorem newKnowledgeMsg_ends (h : sy.name sy.myself ∈ sy.forest) :
    Ends (newKnowledgeMsg K sy) fun _ => True :=
  (treeHash_ends h).bind fun _ _ => ends_ok trivial

/-- A block that is qualified is known of. -/
theorem known_of_qualified {myself who : Seat} (h : kb.qualified myself who = true) :
    ∃ v, kb.knowledge who v ≠ 0 := by
  by_contra hnone
  push Not at hnone
  simp only [Knowledgebase.qualified, hnone, Int64.zero_and, decide_eq_true_eq] at h
  have hzero : ∀ i : Seat, ¬CommitteeSigs ≤ countBits 0 := by decide
  have hcount : (List.finRange CommitteeSize).countP
      (fun _ => decide (CommitteeSigs ≤ countBits 0)) = 0 :=
    List.countP_eq_zero.mpr fun i _ => by simpa using hzero i
  exact absurd h (by decide)

/-! ## The vote -/

theorem candidacy_ends (h : Open l.sy) : Ends (candidacy K l) fun p => Open p.1.sy := by
  unfold candidacy
  split
  · exact ends_ok h
  split
  · exact ends_ok h
  rename_i hc _
  have hqual : l.sy.knowledges.qualified l.sy.myself l.sy.myself = true := by
    by_contra hno
    exact hc (.inr hno)
  obtain ⟨v, hv⟩ := known_of_qualified hqual
  have htree := h.known _ v hv
  refine Ends.bind (treeHash_ends (by rw [← h.name]; exact htree.1)) fun m _ => ends_ok ?_
  rw [Local.sendSigned_sy]
  refine h.vote _ (fun s hs => ?_) (fun _ => .inl) rfl
  cases hs
  exact htree

theorem consentTo_ends (h : Open l.sy) (hb : l.sy.name b ∈ l.sy.forest) :
    Ends (consentTo K l b) fun l' => Open l'.sy := by
  unfold consentTo
  split
  · rename_i hasked
    refine Ends.bind (treeHash_ends hb) fun m _ => ends_ok ?_
    simp only [Local.sendSigned_sy]
    refine h.vote _ (fun s hs => ?_) asked_update_none rfl
    cases hs
    exact ⟨hb, h.asked b (isSome_iff_ne_none.mp hasked.1)⟩
  · exact ends_ok h

theorem mem_forest_of_better {left right : Int32} (h : sy.better left right = true) :
    sy.nameAt left ∈ sy.forest := by
  unfold better at h
  split at h
  · cases h
  · rename_i t ht
    exact mem_of_lookup ht

theorem mem_forest_of_block (h : sy.blockOf a ≠ none) : a ∈ sy.forest := by
  obtain ⟨r, hr⟩ := ne_none_iff_exists'.mp h
  obtain ⟨t, ht, -⟩ := bind_eq_some_iff.mp hr
  exact mem_of_lookup ht

/-- The own candidacy is given up for a seat. -/
theorem yield_ends {better : Int32} (h : Open l.sy)
    (hseat : l.sy.better better (seatNo l.sy.agreed) = true → (seatOf better).isSome) :
    Ends (yield K better l) fun p => Open p.1.sy ∧ (p.2 = false → p.1 = l) := by
  unfold yield
  split
  · rename_i hc
    obtain ⟨s, hs⟩ := isSome_iff_exists.mp (hseat hc.2)
    have hname : l.sy.nameAt better = l.sy.name s := by rw [nameAt, hs]
    have htree : l.sy.name s ∈ l.sy.forest := hname ▸ mem_forest_of_better hc.2
    refine Ends.bind (makeRelease_ends fun _ => by rw [hname]; exact htree) fun rls _ => ?_
    have hplace : place better = .ok s := by rw [place, hs]
    simp only [hplace, ok_bind]
    refine Ends.bind (consentTo_ends ?_ ?_) fun u hu => ends_ok ⟨hu, by simp⟩
    · simp only [Local.foldl_send_sy]
      exact h.vote [] (by simp) (fun _ => .inl) rfl
    · simp only [Local.foldl_send_sy]
      exact htree
  · exact ends_ok ⟨h, fun _ => rfl⟩

theorem answer_ends {fmp : Seat} (h : Open l.sy) (hfmp : l.sy.HasTree fmp) :
    Ends (answer K msg fmp l) fun l' => Open l'.sy := by
  simp only [answer]
  split
  · refine ends_ok ?_
    rw [Local.sendSigned_sy]
    refine h.vote _ (fun s hs => ?_) asked_update_none rfl
    cases hs
    exact hfmp
  rename_i hc
  obtain ⟨a, ha⟩ := ne_none_iff_exists'.mp fun hnone => hc (.inl hnone)
  have hread : Ends ({ l.sy with asked := update l.sy.asked fmp none }.treeHash
      ({ l.sy with asked := update l.sy.asked fmp none }.nameAt
        (seatNo l.sy.agreed))) fun _ => True := by
    rw [ha, nameAt_seatNo]
    exact treeHash_ends (h.agreed a ha).1
  refine hread.bind fun m _ => ends_ok ?_
  rw [Local.sendSigned_sy]
  exact h.vote _ h.agreed asked_update_none rfl

theorem refuse_rooted {fmp : Seat} (h : Rooted l.sy) (hfmp : l.sy.member (l.sy.name fmp) = fmp) :
    Rooted (refuse K msg fmp l).sy := by
  have hstrike : Rooted { l.sy with asked := update l.sy.asked fmp none } :=
    h.vote _ h.agreed asked_update_none rfl h.given
  unfold refuse
  split
  · split
    · exact hstrike
    · refine h.vote _ h.agreed (fun s hs => ?_) rfl h.given
      exact (asked_update_some hs).imp_right fun heq => by rw [heq]; exact hfmp
  · exact hstrike

/-- `Candidate` keeps a machine rooted, whether it has given its signature or not. -/
theorem candidate_ends (h : Rooted l.sy) : Ends (candidate K l msg) fun l' => Rooted l'.sy := by
  simp only [candidate]
  split
  · exact ends_ok h
  rename_i fmp hfmp
  have hname : l.sy.name fmp = msg.f := h.matched.name_eq hfmp
  have hseat : l.sy.member (l.sy.name fmp) = fmp := by rw [hname, member_eq hfmp]
  split
  · exact ends_ok h
  split
  · exact ends_ok (refuse_rooted h hseat)
  rename_i hg
  have hopen : Open { l.sy with asked := update l.sy.asked fmp (some msg) } :=
    Open.vote _ h.agreed (fun s hs => (asked_update_some hs).imp_right fun heq => by
      rw [heq]
      exact hseat) rfl ⟨h, not_not.mp hg⟩
  split
  · exact ends_ok hopen.toRooted
  rename_i hc
  have htree : l.sy.HasTree fmp := by
    have hblock : l.sy.blockOf msg.f ≠ none := fun hnone => hc (.inl hnone)
    exact ⟨hname ▸ mem_forest_of_block hblock, hseat⟩
  have hanswer : Ends (answer K msg fmp { l with sy := { l.sy with
      asked := update l.sy.asked fmp (some msg) } }) fun l' => Rooted l'.sy :=
    (answer_ends (l := { l with sy := { l.sy with
      asked := update l.sy.asked fmp (some msg) } }) hopen htree).mono
      fun _ h => h.toRooted
  split
  · refine Ends.bind (yield_ends hopen fun _ => by rw [seatOf_no]; rfl) fun p hp => ?_
    obtain ⟨u, yielded⟩ := p
    cases yielded with
    | true => exact ends_ok hp.1.toRooted
    | false =>
      have hu := hp.2 rfl
      subst hu
      exact hanswer
  · exact hanswer

theorem release_ends {msg : MsgRelease} (h : Open l.sy) (hsender : msg.sender ∈ l.sy.members) :
    Ends (release K l msg) fun l' => Open l'.sy := by
  simp only [release]
  split
  · exact ends_ok h
  have hrow : ∀ v, (l.sy.knowledges.forget (l.sy.member msg.sender)).knowledge
      (l.sy.member msg.sender) v = 0 := fun v => by simp [Knowledgebase.forget]
  have hkb : ∀ f v, (l.sy.knowledges.forget (l.sy.member msg.sender)).knowledge f v ≠ 0 →
      l.sy.knowledges.knowledge f v ≠ 0 := by
    intro f v hf hzero
    simp only [Knowledgebase.forget, hzero, Int64.zero_and, ite_self, ne_eq,
      not_true_eq_false] at hf
  split
  · -- the one agreed to is released, so nobody is agreed to any more
    have hnone : Open { l.sy with agreed := none } :=
      h.vote l.sy.agrees (by simp) (fun _ => .inl) rfl
    have herase := hnone.toRooted.erase hsender l.sy.malice (by simp) hrow hkb
    refine Ends.bind (candidacy_ends ?_) fun p hp => ends_ok hp
    exact Open.vote _ (by simp) asked_update_none rfl ⟨herase, h.undecided⟩
  · rename_i hother
    have herase := h.toRooted.erase hsender l.sy.malice (fun s hs heq => hother ?_) hrow hkb
    · exact ends_ok (Open.vote _ herase.agreed asked_update_none rfl
        ⟨herase, h.undecided⟩)
    · rw [hs, ← (h.agreed s hs).2, heq]

theorem giveUp_ends {sender : Address} (h : Open l.sy) :
    Ends (giveUp K l sender) fun l' => Open l'.sy := by
  unfold giveUp
  split
  · refine Ends.bind h.toRooted.makeRelease_agreed fun rls _ => ends_ok ?_
    exact h.vote [] nofun (fun _ => .inl) rfl
  · exact ends_ok h

/-- A rejection that names no seat comes while the zero address, to which such a number leads, has
no better block. -/
def HarmlessResp (sy : Syncer) (k : MsgCandidateResp) : Prop :=
  sy.sigGiven = none → admits sy k.sender = true → k.signer = some k.sender → k.reply = .rjct →
    sy.agreed = some sy.myself → k.better = -1 ∨ (seatOf k.better).isSome = true ∨
      sy.blockOf (sy.nameAt k.better) = none ∨ sy.better k.better sy.myself.no = false

theorem rejection_ends {msg : MsgCandidateResp} (h : Open l.sy)
    (hagreed : l.sy.agreed = some l.sy.myself)
    (hsafe : msg.better = -1 ∨ (seatOf msg.better).isSome = true ∨
      l.sy.blockOf (l.sy.nameAt msg.better) = none ∨
      l.sy.better msg.better l.sy.myself.no = false) :
    Ends (rejection K l msg) fun l' => Open l'.sy := by
  simp only [rejection]
  have hnote : Open { l.sy with
      knowledges := l.sy.knowledges.rejected (some (l.sy.member msg.sender)) } :=
    h.vote _ h.agreed (fun _ => .inl) rfl
  split
  · exact giveUp_ends hnote
  rename_i hno
  split
  · exact ends_ok hnote
  rename_i hblock
  refine Ends.bind (yield_ends hnote fun hbetter => ?_) fun p hp => ?_
  · rcases hsafe with hsafe | hsafe | hsafe | hsafe
    · exact absurd hsafe hno
    · exact hsafe
    · exact absurd hsafe hblock
    · have hbetter : l.sy.better msg.better (seatNo l.sy.agreed) = true := hbetter
      rw [hagreed, show seatNo (some l.sy.myself) = l.sy.myself.no from rfl, hsafe] at hbetter
      cases hbetter
  · obtain ⟨u, yielded⟩ := p
    cases yielded with
    | true => exact giveUp_ends hp.1
    | false =>
      have hu := hp.2 rfl
      subst hu
      have htree := (h.agreed _ hagreed).1
      rw [h.name] at htree
      refine Ends.bind (treeHash_ends htree) fun m _ => ends_ok ?_
      rw [Local.sendSigned_sy]
      exact hnote

end Zent.Consensus
