import Zent.Consensus.Rooted
import Zent.Consensus.Learning

/-!
# Messages that cannot crash a machine

The fields of a message reach array accesses and slices unchecked, and one handler deletes a tree
that another one reads. `Harmless` is what a message or a block has to satisfy in the state it
meets; everything else, any tick included, leads to a normal end.
-/

namespace Zent.Consensus

open Go List Option Function AList

variable {K : Keys} {l : Local} {sy : Syncer} {r : Nat} {mp : Seat} {heap : List Block}

/-! ## Signing -/

/-- The heap of a rooted machine may change as long as no block object loses all its scripts. -/
theorem Rooted.sign (h : Rooted sy) (signed : List Address) {given : Option Seat}
    (hgiven : given ≠ none → sy.agreed ≠ none)
    (hheap : ∀ (r : Nat) (b : Block), sy.heap[r]? = some b → b.scripts ≠ [] →
      ∃ b' : Block, heap[r]? = some b' ∧ b'.scripts ≠ []) :
    Rooted { sy with heap := heap, signed := signed, sigGiven := given } where
  __ := h
  given := hgiven
  bodies := by
    intro a t r ht hr
    obtain ⟨b, hb, hne⟩ := h.bodies a t r ht hr
    exact hheap r b hb hne

/-- A change of one block object that leaves it a script. -/
theorem modify_keeps {f : Block → Block} (hf : ∀ b, b.scripts ≠ [] → (f b).scripts ≠ []) :
    ∀ (r' : Nat) (b : Block), heap[r']? = some b → b.scripts ≠ [] →
      ∃ b' : Block, (heap.modify r f)[r']? = some b' ∧ b'.scripts ≠ [] := by
  intro r' b hb hne
  rw [getElem?_modify, hb]
  by_cases hr : r = r'
  · exact ⟨f b, by simp [hr], hf b hne⟩
  · exact ⟨b, by simp [hr], hne⟩

theorem cut_ne_nil (b : Block) (h : b.scripts ≠ []) : b.cut.scripts ≠ [] := by
  simp [Block.cut, h]

theorem add_ne_nil (script : Bytes) (b : Block) (_ : b.scripts ≠ []) :
    (b.add script).scripts ≠ [] := by
  simp [Block.add]

theorem truncate_ends {b : Block} (hb : sy.heap[r]? = some b) (hne : b.scripts ≠ []) :
    Ends (sy.truncate r) fun sy' => sy' = { sy with heap := sy.heap.modify r Block.cut } := by
  have hslice : slice (ε := Empty) b.scripts 0 1 = .ok (b.scripts.take 1) :=
    slice_zero (length_pos_iff.mpr hne)
  have htrunc : sy.truncate r =
      .ok { sy with heap := sy.heap.set r { b with scripts := b.scripts.take 1 } } := by
    simp only [Syncer.truncate, index_eq_ok.mpr hb, ok_bind, hslice]
    rfl
  exact ⟨_, htrunc, truncate_eq_ok htrunc⟩

theorem checkScript_ends {s : Bytes} {h : Int32} {m : Hash}
    (hlen : PubKeyBytesLenCompressed ≤ s.length) : Ends (checkScript K s h m) fun _ => True := by
  rw [checkScript, if_neg (Nat.not_lt.mpr hlen)]
  exact ends_ok trivial

/-- The signature is given to a machine that has agreed to someone. -/
theorem giveSignature_ends {owner : Address} {own : Bytes} (h : Rooted l.sy)
    (hagreed : l.sy.agreed ≠ none) : Ends (giveSignature owner own l) fun p => Rooted p.1.sy := by
  have hupd := l.updateLastWritten_sy
  simp only [giveSignature]
  generalize l.updateLastWritten = p at hupd
  rw [← hupd] at h hagreed
  split
  · exact ends_ok h
  split
  · exact ends_ok (h.sign p.1.sy.signed (fun _ => hagreed) fun r b hb hne => ⟨b, hb, hne⟩)
  rename_i r hr
  obtain ⟨t, ht, htr⟩ := bind_eq_some_iff.mp hr
  obtain ⟨b, hb, hne⟩ := h.bodies owner t r ht htr
  refine Ends.bind (truncate_ends hb hne) fun sy' hsy' => ends_ok ?_
  subst hsy'
  refine h.sign _ (fun _ => hagreed) fun r' b' hb' hne' => ?_
  obtain ⟨b₁, hb₁, hne₁⟩ := modify_keeps (r := r) cut_ne_nil r' b' hb' hne'
  exact modify_keeps (add_ne_nil own) r' b₁ hb₁ hne₁

theorem ckconsensus_ends {dest : Dest} (h : Rooted l.sy) :
    Ends (ckconsensus K dest l) fun p => Rooted p.1.sy ∧ (p.2 = false → p.1 = l) := by
  have hends : Ends (ckconsensus K dest l) fun p => Rooted p.1.sy := by
    unfold ckconsensus
    split
    · exact ends_ok h
    rename_i hagreed
    have hagreed : l.sy.agreed ≠ none := fun hnone => hagreed (.inl (by rw [hnone]; nofun))
    split
    · exact ends_ok h
    rename_i hblock
    split
    · refine Ends.bind (treeHash_ends (mem_forest_of_block hblock)) fun m _ => ?_
      refine Ends.bind (giveSignature_ends h hagreed) fun p hp => ?_
      obtain ⟨u, _ | _⟩ := p <;> exact ends_ok hp
    · exact ends_ok h
  obtain ⟨⟨u, b⟩, hck, hu⟩ := hends
  refine ⟨(u, b), hck, hu, fun hb => ?_⟩
  rcases ckconsensus_spec hck with ⟨heq, -⟩ | ⟨_, _, _, hb', -⟩
  · exact heq
  · exact absurd (hb.symm.trans hb') (by decide)

/-- An announcement of the one agreed to carries a public key. -/
def HarmlessConsensus (sy : Syncer) (k : MsgConsensus) : Prop :=
  sy.sigGiven = none → admits sy k.sender = true → sy.agreed = some (sy.member k.sender) →
    PubKeyBytesLenCompressed ≤ k.signature.length

theorem countSender_rooted (msg : MsgConsensus) (h : Rooted l.sy) :
    Rooted (countSender msg l).1.sy := by
  rcases countSender_spec msg l with heq | ⟨r, -, -, heq⟩
  · rw [heq]
    exact h
  · rw [heq]
    exact h.sign _ h.given (modify_keeps (add_ne_nil msg.signature))

theorem consensus_ends {msg : MsgConsensus} (h : Open l.sy) (hsender : msg.sender ∈ l.sy.members)
    (hlen : l.sy.agreed = some (l.sy.member msg.sender) →
      PubKeyBytesLenCompressed ≤ msg.signature.length) :
    Ends (consensus K l msg) fun p => Rooted p.1.sy := by
  unfold consensus
  split
  · exact ends_ok h.toRooted
  rename_i hagreed
  have hagreed : l.sy.agreed = some (l.sy.member msg.sender) := not_not.mp hagreed
  have htree := (h.agreed _ hagreed).1
  rw [h.matched.name_member hsender] at htree
  refine Ends.bind (treeHash_ends htree) fun m _ => ?_
  refine Ends.bind (checkScript_ends (hlen hagreed)) fun valid _ => ?_
  split
  · exact ends_ok h.toRooted
  have hg : ((l.sign m).send .committee (.signature ⟨msg.sender, l.sy.me, msg.m,
      K.sign l.sy.me l.sy.height m⟩)).sy.sigGiven = none := h.undecided
  rw [if_pos hg]
  refine Ends.bind (giveSignature_ends h.toRooted (by simp [hagreed])) fun p hp => ?_
  obtain ⟨u, given⟩ := p
  cases given with
  | true => exact ends_ok (countSender_rooted msg hp)
  | false => exact ends_ok hp

/-- A signature for the block agreed to carries a public key. -/
def HarmlessSignature (sy : Syncer) (k : MsgSignature) : Prop :=
  sy.agreed ≠ none → signedTree sy k = sy.agreed → k.sender ∉ sy.signed →
    PubKeyBytesLenCompressed ≤ k.signature.length

variable {msg : MsgSignature}

theorem takeSignature_ends {a : Seat} {f : Tree} {b : Block} (h : Rooted l.sy)
    (hagreed : l.sy.agreed = some a) (hr : f.block = some r) (hb : l.sy.heap[r]? = some b)
    (hne : b.scripts ≠ []) : Ends (takeSignature a f msg l) fun p => Rooted p.1.sy := by
  have hroom : Ends (makeRoom l.sy f.block) fun sy' => ∃ heap,
      sy' = { l.sy with heap := heap } ∧ Rooted { l.sy with heap := heap } := by
    unfold makeRoom
    split
    · rw [hr]
      refine (truncate_ends hb hne).mono fun sy' hsy' => ⟨_, hsy', ?_⟩
      exact h.sign _ h.given (modify_keeps cut_ne_nil)
    · exact ends_ok ⟨l.sy.heap, rfl, h⟩
  refine hroom.bind fun sy' hsy' => ?_
  obtain ⟨heap, rfl, hrooted⟩ := hsy'
  have hupd := Local.updateLastWritten_sy { l with sy := { l.sy with heap := heap } }
  dsimp only at hupd ⊢
  generalize Local.updateLastWritten { l with sy := { l.sy with heap := heap } } = p at hupd
  rw [← hupd] at hrooted
  have hp : p.1.sy.agreed = some a := by rw [hupd]; exact hagreed
  split
  · exact ends_ok hrooted
  · rw [hr]
    exact ends_ok (hrooted.sign _ (fun _ => by rw [hp]; nofun)
      (modify_keeps (add_ne_nil msg.signature)))

theorem signature_ends (h : Rooted l.sy) (hsafe : HarmlessSignature l.sy msg) :
    Ends (signature K l msg) fun p => Rooted p.1.sy := by
  unfold signature
  split
  · exact ends_ok h
  rename_i a ha
  split
  · exact ends_ok h
  rename_i f hf
  split
  · exact ends_ok h
  split
  · exact ends_ok h
  rename_i hfresh
  split
  · exact ends_ok h
  rename_i hsigned
  have hsigned : signedTree l.sy msg = some a := not_not.mp hsigned
  have hlen := hsafe (by rw [ha]; nofun) (by rw [hsigned, ha]) hfresh
  refine Ends.bind (checkScript_ends hlen) fun valid _ => ?_
  split
  · exact ends_ok h
  -- the tree the signature names is the one agreed to, and it has a body
  have hbody : ∃ r, f.block = some r := by
    unfold signedTree at hsigned
    split at hsigned
    · cases hsigned
    rename_i f' hf'
    split at hsigned
    · rename_i hbody
      have hmem : msg.owner ∈ l.sy.members :=
        h.member _ (mem_of_lookup hf')
      have hname : l.sy.name a = msg.owner := by
        rw [← some.inj hsigned]
        exact h.matched.name_member hmem
      rw [hname, hf'] at hf
      cases hf
      exact isSome_iff_exists.mp hbody.2
    · cases hsigned
  obtain ⟨r, hr⟩ := hbody
  obtain ⟨b, hb, hne⟩ := h.bodies _ f r hf hr
  exact takeSignature_ends h ha hr hb hne

theorem reckconsensus_ends : Ends (reckconsensus K l) fun l' => l'.sy = l.sy := by
  unfold reckconsensus
  split
  · exact ends_ok rfl
  split
  · exact ends_ok rfl
  rename_i hc
  exact Ends.bind (treeHash_ends (mem_forest_of_block fun hnone => hc (.inl hnone)))
    fun m _ => ends_ok rfl

/-! ## Knowledge -/

variable {k : List Int32} {kb : Knowledgebase} {connected : Address → Bool}

/-- The signatures of a knowledge message are looked at one by one, up to the first that is not
valid. -/
theorem checkSigners_ends {signers : List (Option Address)}
    (h : k.length ≤ signers.length ∨ none ∈ signers) :
    Ends (checkSigners k signers) fun b => b = true → none ∉ signers.take k.length := by
  induction k generalizing signers with
  | nil => exact ends_ok (by simp)
  | cons i k ih =>
    cases signers with
    | nil => simp at h
    | cons signer signers =>
      cases signer with
      | none => exact ends_ok nofun
      | some a =>
        refine (ih ?_).mono fun b hb hvalid => ?_
        · simpa using h
        · simpa using hb hvalid

/-- A knowledge message has a signature for each seat it names, up to one that is not valid; and if
it is taken, it names seats only. -/
def HarmlessKnowledge (sy : Syncer) (k : MsgKnowledge) : Prop :=
  sy.sigGiven = none → admits sy k.finder = true →
    (k.k.length ≤ k.signers.length ∨ none ∈ k.signers) ∧
    (none ∉ k.signers.take k.k.length →
      (sy.forest.lookup k.finder).all (fun t => t.hash = k.m) = true → k.sender ∈ sy.members →
      ∀ i ∈ k.k, (seatOf i).isSome = true)

theorem place_ends {i : Int32} (h : (seatOf i).isSome = true) :
    Ends (place i) fun s => seatOf i = some s := by
  obtain ⟨s, hs⟩ := isSome_iff_exists.mp h
  rw [place, hs]
  exact ends_ok rfl

theorem gain_ends (hk : ∀ i ∈ k, (seatOf i).isSome = true) :
    Ends (kb.gain mp k) fun p => ∀ f v, f ≠ mp → p.1.knowledge f v = kb.knowledge f v := by
  refine Ends.bind (ends_foldlM (P := fun s : Knowledgebase × Int64 × Int64 => ∀ f v, f ≠ mp →
    s.1.knowledge f v = kb.knowledge f v) (fun _ _ _ => rfl) fun s i hi hs => ?_) fun p hp => ?_
  · refine (place_ends (hk i hi)).bind fun v _ => ends_ok fun f w hf => ?_
    split
    · simp only [Knowledgebase.learn, hf, false_and, if_false]
      exact hs f w hf
    · exact hs f w hf
  · refine Ends.bind (ends_foldlM (P := fun _ => True) trivial fun _ i hi _ => ?_)
      fun _ _ => ends_ok hp
    exact (place_ends (hk i hi)).bind fun _ _ => ends_ok trivial

theorem improve_ends {dest : Seat} (hk : ∀ i ∈ k, (seatOf i).isSome = true) :
    Ends (improve k dest) fun _ => True := by
  refine Ends.bind (ends_foldlM (P := fun _ => True) trivial fun _ i hi _ => ?_)
    fun _ _ => ends_ok trivial
  exact (place_ends (hk i hi)).bind fun _ _ => ends_ok trivial

theorem passOn_ends {msg lmg : MsgKnowledge} {tosend : Bool} {i : Seat} {ng : Int64}
    (hk : ∀ i ∈ msg.k, (seatOf i).isSome = true) :
    Ends (passOn msg lmg tosend mp ng l i) fun l' => l'.sy = l.sy := by
  unfold passOn
  split
  · exact ends_ok rfl
  · refine (improve_ends hk).bind fun imp _ => ends_ok ?_
    split <;> rfl

theorem introduce_ends : Ends (introduce K mp l) fun l' => l'.sy = l.sy := by
  unfold introduce
  split
  · rename_i hc
    exact (newKnowledgeMsg_ends hc.1).bind fun k _ => ends_ok rfl
  · exact ends_ok rfl

/-- Knowledge of the block of a finder with a tree. -/
theorem Open.learn (h : Open sy) (hmp : sy.HasTree mp)
    (hkb : ∀ f v, f ≠ mp → kb.knowledge f v = sy.knowledges.knowledge f v) :
    Open { sy with knowledges := kb } where
  __ := h
  known := by
    intro f v hf
    by_cases hmpf : f = mp
    · rw [hmpf]
      exact hmp
    · exact h.known f v (by rw [← hkb f v hmpf]; exact hf)

theorem procKnowledge_ends {msg : MsgKnowledge} (h : Open l.sy) (htree : msg.finder ∈ l.sy.forest)
    (hk : msg.sender ∈ l.sy.members → ∀ i ∈ msg.k, (seatOf i).isSome = true) :
    Ends (procKnowledge K l msg) fun l' => Open l'.sy := by
  unfold procKnowledge
  split
  · rename_i mp s hfinder hsender
    have hk := hk (mem_of_lookup hsender)
    have hmp : l.sy.HasTree mp := by
      rw [← member_eq hfinder]
      exact h.matched.hasTree (h.member _ htree) htree
    have hway : ∀ i ∈ (if (!endsWithMe l.sy msg.k && K.hasKey l.sy.me) = true then
        { addK K l.sy msg with sender := l.sy.me } else msg).k, (seatOf i).isSome = true := by
      intro i hi
      split at hi
      · rename_i htosend
        rw [Bool.and_eq_true] at htosend
        simp only [addK, if_pos htosend.2, mem_append, mem_singleton] at hi
        rcases hi with hi | rfl
        · exact hk i hi
        · rw [seatOf_no]
          rfl
      · exact hk i hi
    refine (gain_ends hway).bind fun p hp => ?_
    have hlearn : Open { l.sy with knowledges := p.1 } := h.learn hmp hp
    refine Ends.bind (ends_foldlM (P := fun l' : Local =>
        l'.sy = { l.sy with knowledges := p.1 }) rfl fun u i _ hu => ?_) fun u hu => ?_
    · exact (passOn_ends hk).mono fun _ heq => heq.trans hu
    · refine introduce_ends.mono fun l' hl' => ?_
      rw [hl', hu]
      exact hlearn
  · exact ends_ok h

theorem Rooted.register (h : Rooted sy) {finder : Address} (m : Hash)
    (hf : finder ∈ sy.members) : Rooted (register sy finder m).1 := by
  unfold Consensus.register
  split
  · exact h.insert hf nofun
  · exact h

theorem mem_register (sy : Syncer) (finder : Address) (m : Hash) :
    finder ∈ (register sy finder m).1.forest := by
  unfold register
  split
  · exact (mem_insert _).mpr (.inl rfl)
  · rename_i t ht
    exact mem_of_lookup ht

theorem Rooted.keepKnow (h : Rooted sy) (k : MsgKnowledge) : Rooted (keepKnow sy k) := by
  unfold Consensus.keepKnow
  split
  · exact h
  rename_i t ht
  split
  · exact h.insert (h.member _ (mem_of_lookup ht)) fun r hr => h.bodies _ t r ht hr
  · exact h

theorem mem_keepKnow {k : MsgKnowledge} {a : Address} (h : a ∈ sy.forest) :
    a ∈ (keepKnow sy k).forest := by
  unfold keepKnow
  split
  · exact h
  split
  · exact (mem_insert _).mpr (.inr h)
  · exact h

theorem admits_member {a : Address} (h : admits sy a = true) : a ∈ sy.members := by
  simp only [admits, Bool.and_eq_true, decide_eq_true_eq] at h
  exact h.2

section

variable (h : Rooted l.sy)

include h

theorem onKnowledge_ends {k : MsgKnowledge} (hsafe : HarmlessKnowledge l.sy k) :
    Ends (onKnowledge K l k) fun l' => Rooted l'.sy := by
  unfold onKnowledge
  split
  · exact ends_ok h
  rename_i hc
  simp only [not_or, not_not] at hc
  obtain ⟨hg, hadmits⟩ := hc
  obtain ⟨hsigners, hseats⟩ := hsafe hg hadmits
  refine (checkSigners_ends hsigners).bind fun verified hverified => ?_
  cases verified with
  | false => exact ends_ok h
  | true =>
    have hreg := h.register k.m (admits_member hadmits)
    rcases hr : register l.sy k.finder k.m with ⟨sy, valid⟩
    rw [hr] at hreg
    cases valid with
    | false => exact ends_ok hreg
    | true =>
      have hmem := mem_register l.sy k.finder k.m
      rw [hr] at hmem
      obtain ⟨m, hm, -⟩ := treeHash_ends hmem
      simp only [not_true_eq_false, if_false, hm, ok_bind,
        if_neg (not_not.mpr (treeHash_register hr hm))]
      have hquiet := (register_mild hr).trans (keepKnow_mild { l with sy } k)
      have hopen : Open (keepKnow sy k) := ⟨hreg.keepKnow k, hquiet.undecided hg⟩
      refine Ends.bind (procKnowledge_ends hopen (mem_keepKnow hmem) fun hsender => ?_)
        fun u hu => ?_
      · refine hseats (hverified rfl) ?_ (by rw [← hquiet.frame.members]; exact hsender)
        rw [Option.all_eq_true]
        exact fun t ht => decide_eq_true (register_valid hr t ht)
      · exact (candidacy_ends hu).bind fun p hp => ends_ok hp.toRooted

/-! ## The other commands -/

theorem onCandidate_ends {k : MsgCandidate} :
    Ends (onCandidate K l k) fun l' => Rooted l'.sy := by
  unfold onCandidate
  split
  · exact ends_ok h
  rename_i hc
  simp only [not_or, not_not] at hc
  have hreg := h.register k.m (admits_member hc.2.1)
  dsimp only
  split
  · exact ends_ok hreg
  split
  · refine ends_ok (hreg.vote _ hreg.agreed (fun s hs => ?_) rfl hreg.given)
    refine (asked_update_some hs).imp_right fun heq => ?_
    rw [heq, hreg.matched.name_member (hreg.member _ (mem_register l.sy k.f k.m))]
  · exact candidate_ends hreg

theorem onCandidateResp_ends {k : MsgCandidateResp} (hsafe : HarmlessResp l.sy k) :
    Ends (onCandidateResp K l k) fun l' => Rooted l'.sy := by
  unfold onCandidateResp
  split
  · exact ends_ok h
  rename_i hc
  simp only [not_or, not_not] at hc
  obtain ⟨hg, hadmits, hsigner⟩ := hc
  unfold candidateResp
  split
  · split
    · refine Ends.bind (ckconsensus_ends ?_) fun p hp => ends_ok hp.1
      exact h.vote _ h.agreed (fun _ => .inl) rfl h.given
    · exact h.makeRelease_agreed.bind fun rls _ => ends_ok h
  · rename_i hreply
    split
    · rename_i hagreed
      exact (rejection_ends ⟨h, hg⟩ hagreed (hsafe hg hadmits hsigner hreply hagreed)).mono
        fun _ hl' => hl'.toRooted
    · exact ends_ok h
  · exact ends_ok h

theorem onRelease_ends {k : MsgRelease} :
    Ends (onRelease K l k) fun l' => Rooted l'.sy := by
  unfold onRelease
  split
  · exact ends_ok h
  · rename_i hc
    simp only [not_or, not_not] at hc
    exact (release_ends ⟨h, hc.1⟩ (admits_member hc.2.1)).mono fun _ hl' => hl'.toRooted

theorem onConsensus_ends {k : MsgConsensus} (hsafe : HarmlessConsensus l.sy k) :
    Ends (onConsensus K l k) fun p => Rooted p.1.sy := by
  unfold onConsensus
  split
  · exact ends_ok h
  · rename_i hc
    simp only [not_or, not_not] at hc
    exact consensus_ends ⟨h, hc.1⟩ (admits_member hc.2) (hsafe hc.1 hc.2)

end

/-- A block is not a second, different one of the member agreed to. -/
def HarmlessTree (sy : Syncer) (t : Mined) : Prop :=
  sy.sigGiven = none → admits sy t.creator = true → sy.agreed.map sy.name = some t.creator →
    t.creator ≠ sy.me → (sy.forest.lookup t.creator).all (fun tree =>
      tree.block = none ∨ tree.hash = zerohash ∨ t.block.hash = tree.hash) = true

theorem announce_ends {creator : Address} (h : Rooted sy)
    (hmem : creator = sy.me → creator ∈ sy.forest) :
    Ends (announce K l creator sy) fun l' => Rooted l'.sy := by
  unfold announce
  split
  · rename_i hme
    refine (newKnowledgeMsg_ends ?_).bind fun k _ => ends_ok h
    rw [h.name, ← hme]
    exact hmem hme
  · exact ends_ok h

/-- The body of a proposal comes into the heap, with its two scripts. -/
theorem Rooted.plant (h : Rooted sy) {t : Mined} (tree : Tree) (ht : t.creator ∈ sy.members) :
    Rooted (sy.plant t tree) := by
  have hgrow : Rooted { sy with heap := sy.heap ++ [t.block] } := by
    refine h.sign sy.signed h.given fun r b hb hne => ⟨b, ?_, hne⟩
    rw [getElem?_append_left (List.getElem?_eq_some_iff.mp hb).1]
    exact hb
  refine hgrow.insert ht fun r hr => ⟨t.block, ?_, ?_⟩
  · cases hr
    exact getElem?_concat_length
  · exact ne_nil_of_length_pos (by rw [t.unsigned]; decide)

theorem newTree_ends {t : Mined} (h : Rooted l.sy) (hsafe : HarmlessTree l.sy t) :
    Ends (newTree K l t) fun l' => Rooted l'.sy := by
  unfold newTree
  split
  · exact ends_ok h
  rename_i hc
  simp only [not_or, not_not] at hc
  obtain ⟨hg, hadmits⟩ := hc
  have hmem := admits_member hadmits
  have hplanted : ∀ tree, t.creator ∈ (l.sy.plant t tree).forest := fun tree =>
    (mem_insert _).mpr (.inl rfl)
  split
  · exact announce_ends (h.plant _ hmem) fun _ => hplanted _
  rename_i tree htree
  split
  · exact announce_ends (h.plant _ hmem) fun _ => hplanted _
  rename_i hbody
  split
  · rename_i hhash
    split
    · exact ends_ok h
    rename_i hme
    refine announce_ends (h.erase hmem _ (fun s hs hname => ?_) (fun v => ?_) fun f v hf => ?_)
      fun heq => absurd heq.symm hme
    · have hall := hsafe hg hadmits (by rw [hs]; exact congrArg some hname) (Ne.symm hme)
      rw [htree] at hall
      rcases of_decide_eq_true hall with hnone | hzero | heq
      · exact hbody hnone
      · exact hhash.1 hzero
      · exact hhash.2 heq
    · simp [Knowledgebase.malice]
    · intro hzero
      simp only [Knowledgebase.malice, update_apply] at hf
      split at hf
      · exact hf rfl
      · exact hf hzero
  · exact announce_ends h fun _ => mem_of_lookup htree

/-- What a command has to satisfy in the state it meets. -/
def HarmlessCommand (sy : Syncer) : Command → Prop
  | .tree t => HarmlessTree sy t
  | .msg (.knowledge k) => HarmlessKnowledge sy k
  | .msg (.candidateResp k) => HarmlessResp sy k
  | .msg (.consensus k) => HarmlessConsensus sy k
  | .msg (.signature k) => HarmlessSignature sy k
  | .debug | .msg (.candidate _) | .msg (.release _) => True

theorem process_ends {cmd : Command} (h : Rooted l.sy)
    (hsafe : l.sy.runnable = true → l.sy.done = false → HarmlessCommand l.sy cmd) :
    Ends (process K l cmd) fun p => Rooted p.1.sy := by
  unfold process
  split
  · exact ends_ok h
  rename_i hc
  simp only [not_or, not_not] at hc
  have hsafe := hsafe hc.1 (Bool.eq_false_iff.mpr hc.2)
  split
  · exact ends_ok h
  · exact (newTree_ends h hsafe).bind fun _ hu => ends_ok hu
  · exact (onKnowledge_ends h hsafe).bind fun _ hu => ends_ok hu
  · exact (onCandidate_ends h).bind fun _ hu => ends_ok hu
  · exact (onCandidateResp_ends h hsafe).bind fun _ hu => ends_ok hu
  · exact (onRelease_ends h).bind fun _ hu => ends_ok hu
  · exact onConsensus_ends h hsafe
  · exact signature_ends h hsafe

/-! ## Ticks -/

theorem Rooted.dressAll (h : Rooted sy) (pick : Hash → Address) : Rooted (dressAll pick sy) := by
  have hmem : ∀ a, a ∈ (Consensus.dressAll pick sy).forest ↔ a ∈ sy.forest := by
    intro a
    rw [← lookup_isSome, ← lookup_isSome, lookup_dressAll, isSome_map]
  have htree : ∀ s, sy.HasTree s → (Consensus.dressAll pick sy).HasTree s := fun s hs =>
    ⟨(hmem _).mpr hs.1, hs.2⟩
  refine ⟨h.name, h.matched, fun a ha => h.member a ((hmem a).mp ha),
    fun s hs => htree s (h.agreed s hs), h.given, h.asked, fun f v hf => htree f (h.known f v hf),
    ?_⟩
  intro a t r ht hr
  rw [lookup_dressAll] at ht
  obtain ⟨u, hu, rfl⟩ := map_eq_some_iff.mp ht
  rcases dress_spec pick sy u with heq | ⟨-, -, a', s, hs, -, hblock⟩
  · rw [heq] at hr
    exact h.bodies a u r hu hr
  · exact h.bodies a' s r hs (hblock ▸ hr)

theorem repeatCandidacy_ends (h : Open l.sy) (hagreed : l.sy.agreed = some l.sy.myself) :
    Ends (repeatCandidacy K l) fun p => Rooted p.1.sy := by
  simp only [repeatCandidacy]
  split
  · refine h.toRooted.makeRelease_agreed.bind fun rls _ => ends_ok ?_
    have hopen : Open { l.sy with
        agrees := [], agreed := none
        asked := update l.sy.asked (bestRival l.sy) none } :=
      h.vote [] (by simp) asked_update_none rfl
    exact hopen.toRooted
  · have htree := (h.agreed _ hagreed).1
    rw [h.name] at htree
    refine (treeHash_ends htree).bind fun m _ => ends_ok ?_
    rw [Local.sendSigned_sy]
    exact h.toRooted

theorem best_eq_some {s : Seat} (h : sy.best = some s) : ∃ a ∈ sy.forest, sy.member a = s := by
  obtain ⟨p, hp, rfl⟩ := map_eq_some_iff.mp h
  refine ⟨p.1, ?_, rfl⟩
  -- whatever the loop has selected is an entry of the forest
  refine List.foldlRecOn (motive := fun seld : Option (Address × Tree) =>
    ∀ q, seld = some q → q.1 ∈ sy.forest) _ _ ?_ (fun seld hseld e he q hq => ?_) p hp
  · exact fun q hq => nomatch hq
  have he : e.1 ∈ sy.forest := mem_keys.mpr (mem_map_of_mem he)
  split at hq
  · split at hq
    · cases hq
      exact he
    · cases hq
  split at hq
  · cases hq
    exact he
  · exact hseld q hq

theorem agreeToBest_rooted (h : Open l.sy) :
    Rooted (agreeToBest connected l).sy := by
  unfold agreeToBest
  split
  · exact h.toRooted
  rename_i best hbest
  split
  · obtain ⟨a, ha, rfl⟩ := best_eq_some hbest
    refine (h.vote _ (fun s hs => ?_) asked_update_none rfl).toRooted
    cases hs
    exact h.matched.hasTree (h.member a ha) ha
  · exact h.toRooted

theorem repeatVote_ends (h : Rooted l.sy) :
    Ends (repeatVote K connected l) fun p => Rooted p.1.sy := by
  unfold repeatVote
  split
  · rename_i hg
    unfold repeatSignature
    split
    · exact ends_ok h
    obtain ⟨s, hs⟩ := ne_none_iff_exists'.mp (h.given hg)
    refine Ends.bind (treeHash_ends ?_) fun m _ => ends_ok h
    rw [hs, nameAt_seatNo]
    exact (h.agreed s hs).1
  rename_i hg
  have hopen : Open l.sy := ⟨h, not_not.mp hg⟩
  refine (ckconsensus_ends h).bind fun p hp => ?_
  obtain ⟨u, decided⟩ := p
  cases decided with
  | true => exact ends_ok hp.1
  | false =>
    have hu := hp.2 rfl
    subst hu
    simp only [Bool.false_eq_true, if_false]
    split
    · rename_i hagreed
      exact repeatCandidacy_ends hopen hagreed
    split
    · rename_i a ha
      refine (treeHash_ends (h.agreed a ha).1).bind fun m _ => ends_ok ?_
      rw [Local.sendSigned_sy]
      exact h
    · exact ends_ok (agreeToBest_rooted hopen)

theorem relay_ends {s : Seat} (h : Rooted l.sy) : Ends (relay K l s) fun p => Rooted p.1.sy := by
  simp only [relay]
  split
  · exact ends_ok h
  rename_i t ht
  split
  · exact ends_ok h
  split
  · exact ends_ok h
  refine ends_ok ?_
  rw [Local.foldl_send_sy]
  exact h.insert (h.member _ (mem_of_lookup ht)) fun r hr => h.bodies _ t r ht hr

theorem repeatKnowledge_ends {room : Bool} (h : Rooted l.sy) :
    Ends (repeatKnowledge K room l) fun l' => Rooted l'.sy := by
  have hshare : Ends (shareOwn K room l) fun l' => Rooted l'.sy := by
    unfold shareOwn
    split
    · rename_i hc
      exact (newKnowledgeMsg_ends (by rw [h.name]; exact hc.1)).bind fun k _ => ends_ok h
    · exact ends_ok h
  refine hshare.bind fun u hu => ?_
  refine Ends.bind (ends_foldlM (P := fun p : Local × Bool => Rooted p.1.sy) hu
    fun p s _ hp => ?_) fun p hp => ends_ok hp
  split
  · exact relay_ends hp
  · exact ends_ok hp

theorem Rooted.flags (h : Rooted sy) (runnable done : Bool) (phase : Phase) :
    Rooted { sy with runnable := runnable, done := done, phase := phase } := { h with }

/-- A tick of a rooted machine is always harmless. -/
theorem repeater_ends {t : Tick} (h : Rooted l.sy) :
    Ends (repeater K t l) fun l' => Rooted l'.sy := by
  unfold repeater
  split
  · exact ends_ok h
  split
  · exact ends_ok (h.flags l.sy.runnable true l.sy.phase)
  refine Ends.bind (repeatVote_ends (h.dressAll t.pick)) fun p hp => ?_
  obtain ⟨u, more⟩ := p
  cases more with
  | true => exact repeatKnowledge_ends hp
  | false => exact ends_ok hp

/-! ## Runs -/

/-- What an event has to satisfy in the state of the machine it happens to. -/
def Harmless (sy : Syncer) : NodeEvent → Prop
  | .command _ cmd => sy.phase = .looping → sy.runnable = true → sy.done = false →
      sy.Matched ∧ HarmlessCommand sy cmd
  | .tick _ _ => sy.phase = .looping → sy.runnable = true → sy.done = false → sy.Matched
  | .drain _ msg => sy.phase = .draining → sy.Matched ∧ HarmlessSignature sy msg
  | _ => True

/-- A machine that has not been started has done nothing. -/
structure Blank (sy : Syncer) : Prop where
  forest : sy.forest = ∅
  agreed : sy.agreed = none
  asked : ∀ s, sy.asked s = none

/-- What holds of each machine of a node in a harmless run. -/
structure Standing (sy : Syncer) : Prop where
  seated : Seated sy
  blank : sy.phase = .idle → Blank sy
  rooted : sy.phase ≠ .idle → sy.Matched → Rooted sy

theorem Standing.create (h : Int32) : Standing (createSyncer h) :=
  ⟨.create h, fun _ => ⟨rfl, rfl, fun _ => rfl⟩, fun hb => absurd rfl hb⟩

/-- The machine starts without trees and without knowledge. -/
theorem Blank.rooted (h : Blank sy) (hg : sy.sigGiven = none) (hname : sy.name sy.myself = sy.me)
    (hmatched : sy.Matched) (hkb : sy.knowledges = .create) : Rooted sy where
  name := hname
  matched := hmatched
  member := fun a ha => by
    rw [h.forest] at ha
    exact absurd ha (notMem_empty a)
  agreed := fun s hs => by
    rw [h.agreed] at hs
    cases hs
  given := fun hne => absurd hg hne
  asked := fun s hs => absurd (h.asked s) hs
  known := fun f v hf => absurd (by rw [hkb]; rfl) hf
  bodies := fun a t r ht => by
    rw [h.forest] at ht
    cases ht

/-- The committee is set before anything has been done. -/
theorem Standing.setCommittee (h : Standing sy) (best : Snapshot) :
    Standing (sy.setCommittee best) := by
  have hseated := (setCommittee_spec (l := ⟨0, sy, []⟩) best h.seated).2
  by_cases hoff : sy.runnable ∨ sy.done ∨ sy.height ≠ best.height + 1
  · have hsame : sy.setCommittee best = sy := by simp only [Syncer.setCommittee, if_pos hoff]
    rw [hsame]
    exact h
  have hidle : sy.phase = .idle := by
    by_contra hb
    exact hoff ((h.seated.active hb).imp id .inl)
  have hblank := h.blank hidle
  obtain ⟨me, myself, members, names, b, hfold, -⟩ :=
    foldl_sit best (List.finRange CommitteeSize) (sy, false) (nodup_finRange _) (by simp)
  have heq : sy.setCommittee best = if b then
      { sy with
        me := me, myself := myself, members := members, names := names
        knowledges := .create, runnable := true, phase := .looping }
      else { sy with
        me := me, myself := myself, members := members, names := names
        knowledges := .create } := by
    simp only [Syncer.setCommittee, if_neg hoff, hfold]
  rw [heq] at hseated ⊢
  cases b with
  | false =>
    exact ⟨hseated, fun _ => ⟨hblank.forest, hblank.agreed, hblank.asked⟩,
      fun hb => absurd hidle hb⟩
  | true =>
    refine ⟨hseated, by simp, fun hb hmatched => ?_⟩
    exact Blank.rooted ⟨hblank.forest, hblank.agreed, hblank.asked⟩ (h.seated.idle hidle)
      (hseated.name hb) hmatched rfl

theorem Standing.of_rooted (hs : Seated sy) (hb : sy.phase ≠ .idle) (h : Rooted sy) : Standing sy :=
  ⟨hs, fun hidle => absurd hidle hb, fun _ _ => h⟩

variable {e : NodeEvent}

/-- A rooted machine stands after what it has been given to do. -/
theorem Standing.runs {u : Local} (h : Standing l.sy) (hb : l.sy.phase ≠ .idle)
    (hruns : Runs K l e u) (hu : Rooted u.sy) : u.sy.phase ≠ .idle ∧ Standing u.sy := by
  have hub : u.sy.phase ≠ .idle := by
    rw [hruns.frame.phase]
    exact hb
  exact ⟨hub, .of_rooted (hruns.frame.seated h.seated hb) hub hu⟩

/-- A machine that has been started stands, whatever its flags become. -/
theorem Standing.flags (h : Standing sy) (hb : sy.phase ≠ .idle) {runnable done : Bool}
    {phase : Phase} (hphase : phase ≠ .idle)
    (hs : Seated { sy with runnable := runnable, done := done, phase := phase }) :
    Standing { sy with runnable := runnable, done := done, phase := phase } :=
  ⟨hs, fun hidle => absurd hidle hphase,
    fun _ hmatched => (h.rooted hb hmatched).flags runnable done phase⟩

theorem leaveIf_standing {b : Bool} (h : Standing l.sy) (hb : l.sy.phase ≠ .idle) :
    Standing (l.leaveIf b).sy := by
  cases b with
  | false => exact h
  | true =>
    have hs := leaveIf_seated (b := true) h.seated hb
    exact h.flags hb (by decide : Phase.draining ≠ .idle) hs

/-- **A harmless event ends normally**, and the machine still stands. -/
theorem act_ends (h : Standing l.sy) (hsafe : Harmless l.sy e) :
    Ends (act K e l) fun l' => Standing l'.sy := by
  cases e with
  | create height => exact ends_ok h
  | setCommittee i best => exact ends_ok (h.setCommittee best)
  | command i cmd =>
    simp only [act]
    split
    · rename_i hloop
      have hb : l.sy.phase ≠ .idle := by simp [hloop]
      by_cases hoff : ¬l.sy.runnable ∨ l.sy.done
      · simp only [process, if_pos hoff, ok_bind]
        exact ends_ok (leaveIf_standing h hb)
      simp only [not_or, not_not] at hoff
      have hsafe := hsafe hloop hoff.1 (Bool.eq_false_iff.mpr hoff.2)
      have hrooted := h.rooted hb hsafe.1
      obtain ⟨⟨u, b⟩, hproc, hu⟩ := process_ends (K := K) hrooted fun _ _ => hsafe.2
      obtain ⟨hub, hstands⟩ := h.runs hb (.command hproc : Runs K l (.command i cmd) u) hu
      rw [hproc]
      exact ends_ok (leaveIf_standing hstands hub)
    · exact ends_ok h
  | tick i t =>
    simp only [act]
    split
    · rename_i hloop
      have hb : l.sy.phase ≠ .idle := by simp [hloop]
      by_cases hoff : ¬l.sy.runnable ∨ l.sy.done
      · simp only [repeater, if_pos hoff]
        exact ends_ok h
      simp only [not_or, not_not] at hoff
      have hrooted := h.rooted hb (hsafe hloop hoff.1 (Bool.eq_false_iff.mpr hoff.2))
      obtain ⟨u, htick, hu⟩ := repeater_ends (K := K) (t := t) hrooted
      rw [htick]
      exact ends_ok (h.runs hb (.tick htick : Runs K l (.tick i t) u) hu).2
    · exact ends_ok h
  | quit i =>
    refine ends_ok ⟨⟨h.seated.idle, fun _ => .inr rfl, h.seated.name, h.seated.member⟩,
      fun hidle => ?_, fun hb hmatched => (h.rooted hb hmatched).flags l.sy.runnable true _⟩
    exact ⟨(h.blank hidle).forest, (h.blank hidle).agreed, (h.blank hidle).asked⟩
  | leave i =>
    refine ends_ok ?_
    by_cases hloop : l.sy.phase = .looping
    · exact leaveIf_standing h (by simp [hloop])
    · simp only [hloop, false_and, decide_false, Local.leaveIf, Bool.false_eq_true, if_false]
      exact h
  | drain i msg =>
    simp only [act]
    split
    · rename_i hdrain
      have hb : l.sy.phase ≠ .idle := by simp [hdrain]
      have hsafe := hsafe hdrain
      obtain ⟨⟨u, b⟩, hsig, hu⟩ := signature_ends (K := K) (h.rooted hb hsafe.1) hsafe.2
      rw [hsig]
      exact ends_ok (h.runs hb (.drain hsig : Runs K l (.drain i msg) u) hu).2
    · exact ends_ok h
  | finish i =>
    simp only [act]
    split
    · rename_i hdrain
      have hb : l.sy.phase ≠ .idle := by simp [hdrain]
      have hs := finish_seated h.seated hb
      refine ends_ok ?_
      unfold finish at hs ⊢
      split at hs
      · exact h.flags hb (by simp) hs
      · exact h.flags hb (by simp) hs
    · exact ends_ok h
  | recheck i =>
    simp only [act]
    split
    · exact reckconsensus_ends.mono fun l' hl' => by rw [hl']; exact h
    · exact ends_ok h

/-- What a step does to a node whose machines stand. -/
theorem step_ends {n : Node} (h : ∀ sy ∈ n.syncers, Standing sy)
    (hsafe : ∀ i sy, e.target = some i → n.syncers[i]? = some sy → Harmless sy e) :
    Ends (n.step K e) fun n' => ∀ sy ∈ n'.syncers, Standing sy := by
  unfold Node.step
  split
  · rename_i height
    refine ends_ok fun sy hsy => ?_
    rcases mem_append.mp hsy with hsy | hsy
    · exact h sy hsy
    · rw [mem_singleton.mp hsy]
      exact .create height
  split
  · exact ends_ok h
  rename_i i sy hsome
  obtain ⟨j, hj, hsome⟩ := bind_eq_some_iff.mp hsome
  obtain ⟨sy', hsy, hpair⟩ := map_eq_some_iff.mp hsome
  cases hpair
  have hact : Ends (act K e (n.view sy)) fun l' => Standing l'.sy :=
    act_ends (h sy (mem_of_getElem? hsy)) (hsafe i sy hj hsy)
  refine hact.bind fun l hl => ends_ok fun a ha => ?_
  rcases mem_or_eq_of_mem_set ha with ha | rfl
  · exact h a ha
  · exact hl

/-- **No harmless run crashes.** If every event is harmless in the state that it meets, the whole
run ends normally, whatever messages, blocks and ticks it is made of. -/
theorem run_ends_of_harmless (K : Keys) (es : List NodeEvent)
    (hsafe : ∀ done e rest u, es = done ++ e :: rest → Node.run K done = .ok u →
      ∀ i sy, e.target = some i → u.syncers[i]? = some sy → Harmless sy e) :
    ∃ n, Node.run K es = .ok n := by
  have hrun : ∃ n, Node.run K es = .ok n ∧ Node.run K es = .ok n ∧ ∀ sy ∈ n.syncers, Standing sy :=
    foldlM_progress
      (P := fun done (u : Node) => Node.run K done = .ok u ∧ ∀ sy ∈ u.syncers, Standing sy)
      ⟨rfl, by simp [Node.start]⟩ fun done e rest u hes hu => by
        obtain ⟨u', hstep, hu'⟩ := step_ends (K := K) hu.2 (hsafe done e rest u hes hu.1)
        refine ⟨u', hstep, ?_, hu'⟩
        rw [Node.run, foldlM_append, show done.foldlM (Node.step K) Node.start = .ok u from hu.1]
        simp only [ok_bind, foldlM_cons, hstep]
        rfl
  obtain ⟨n, hn, -⟩ := hrun
  exact ⟨n, hn⟩

/-- A tick that finds nobody connected and no room in the queue. -/
def lonelyTick : Tick := ⟨fun _ => 0, fun _ => false, false⟩

/-- The machine agrees to the first member, and its clock ticks. -/
def tickedVote : List NodeEvent := sampleVote 0 false 11 ++ [.tick 0 lonelyTick]

theorem tickedVote_ends : ∃ n, Node.run Keys.sample tickedVote = .ok n := by
  refine run_ends_of_harmless Keys.sample _ fun done e rest u hes hdone i sy htarget hi => ?_
  -- the tables match in every state, and nobody is agreed to when the block comes in
  have hall : ∀ j : Fin 6, Ends (Node.run Keys.sample (tickedVote.take j)) fun u =>
      ∀ sy ∈ u.syncers, sy.Matched ∧ (j.val = 2 → sy.agreed = none) := by
    decide +kernel
  obtain ⟨j, rfl, hget⟩ := exists_take hes
  have hlt : j < 6 := (List.getElem?_eq_some_iff.mp hget).1
  obtain ⟨hmatched, hagreed⟩ := Node.look (hall ⟨j, hlt⟩) hdone hi
  match j with
  | 0 | 1 =>
    cases hget
    trivial
  | 2 =>
    cases hget
    refine fun _ _ _ => ⟨hmatched, fun _ _ hname => ?_⟩
    rw [hagreed rfl] at hname
    cases hname
  | 3 =>
    cases hget
    refine fun _ _ _ => ⟨hmatched, fun _ _ => ⟨.inl (by decide), fun _ _ _ => ?_⟩⟩
    exact all_eq_true.mp (by decide)
  | 4 =>
    cases hget
    exact fun _ _ _ => ⟨hmatched, trivial⟩
  | 5 =>
    cases hget
    exact fun _ _ _ => hmatched

/-- Four ways to crash a node: a knowledge message that names the seat 7; one that names two seats
and has one signature; an announcement of the member agreed to with a signature of one byte; a
second block of the member agreed to, and then a tick. -/
theorem messages_crash :
    Node.run Keys.sample [.create 5, .setCommittee 0 sampleCommittee,
      .command 0 (.msg (.knowledge ⟨1, 1, 11, [7], [some 9]⟩))] = crash ∧
    Node.run Keys.sample [.create 5, .setCommittee 0 sampleCommittee,
      .command 0 (.msg (.knowledge ⟨1, 1, 11, [0, 1], [some 1]⟩))] = crash ∧
    Node.run Keys.sample (sampleVote 0 false 11 ++
      [.command 0 (.msg (.consensus ⟨1, 11, [1]⟩))]) = crash ∧
    Node.run Keys.sample (sampleVote 0 false 11 ++
      [.command 0 (.tree ⟨1, 0, ⟨22, [[], []]⟩, rfl⟩), .tick 0 lonelyTick]) = crash := by
  refine ⟨not_returns_iff.mp ?_, not_returns_iff.mp ?_, not_returns_iff.mp ?_,
    not_returns_iff.mp ?_⟩
  all_goals decide +kernel

end Zent.Consensus
