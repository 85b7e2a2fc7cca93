import Zent.Consensus.Event

/-!
# What a published block carries

At the end of `run` the block to which the signature was given is published if it has more than
`CommitteeSigs` scripts. Signatures are counted by the sender a message claims; nobody compares it
with the key of the signature, and `signature` does not ask whether it is a member.
-/

namespace Zent.Consensus

open Go List Option AList Syncer Event

variable {K : Keys} {l l' l'' : Local}

/-- The script `s` is a signature of `a` for the height and hash. -/
def SignedBy (K : Keys) (h : Int32) (m : Hash) (a : Address) (s : Bytes) : Prop :=
  K.keyOf s = some a ∧ K.verifies s h m = true

/-- Among the scripts after the first there are, for enough distinct members, valid signatures
over the height and the hash of the block. -/
def CarriesQuorum (K : Keys) (members : List Address) (h : Int32) (b : Block) : Prop :=
  ∃ signers : List Address, signers.Nodup ∧ CommitteeSigs ≤ signers.length ∧
    ∀ a ∈ signers, a ∈ members ∧ ∃ s ∈ b.scripts.drop 1, SignedBy K h b.hash a s

/-- Every block published carries a quorum. -/
def PublishesQuorums (K : Keys) (log : List Event) : Prop :=
  ∀ members h b, publish members h b ∈ log → CarriesQuorum K members h b

/-- A signature that will be looked at is by the member that claims to send it. -/
def GenuineSignature (K : Keys) (l : Local) (msg : MsgSignature) : Prop :=
  ∀ a f, Offered K l msg a f →
    K.keyOf msg.signature = some msg.sender ∧ msg.sender ∈ l.sy.members

/-- An announcement that will be counted is signed by its sender, who holds the seat agreed to,
and the block is there. -/
def GenuineConsensus (K : Keys) (l : Local) (msg : MsgConsensus) : Prop :=
  ∀ m, l.sy.sigGiven = none → l.last < l.sy.height → Announced K l msg m →
    K.keyOf msg.signature = some msg.sender ∧
    l.sy.name (l.sy.member msg.sender) = msg.sender ∧ l.sy.blockOf msg.sender ≠ none

/-- A block that comes in for a naked tree has the hash registered for it. -/
def GenuineTree (l : Local) (t : Mined) : Prop :=
  ∀ tree, l.sy.forest.lookup t.creator = some tree → tree.block = none →
    tree.hash = t.block.hash

/-- A step is genuine if the block or signature it brings in is. -/
def Genuine (K : Keys) (n : Node) (e : NodeEvent) : Prop :=
  ∀ i sy, e.target = some i → n.syncers[i]? = some sy →
    match e with
    | .command _ (.tree t) => GenuineTree (n.view sy) t
    | .command _ (.msg (.consensus k)) => GenuineConsensus K (n.view sy) k
    | .command _ (.msg (.signature k)) => GenuineSignature K (n.view sy) k
    | .drain _ k => GenuineSignature K (n.view sy) k
    | _ => True

/-! ## The signatures collected -/

/-- The scripts after the first are the signatures of those counted. -/
structure Collected (K : Keys) (members : Go.Map Address Seat) (h : Int32)
    (signed : List Address) (b : Block) : Prop where
  count : b.scripts.length = signed.length + 1
  nodup : signed.Nodup
  valid : ∀ a ∈ signed, a ∈ members ∧ ∃ s ∈ b.scripts.drop 1, SignedBy K h b.hash a s

section Collected

variable {members : Go.Map Address Seat} {h : Int32} {signed : List Address} {b : Block}

/-- A block that has made room has no signatures. -/
theorem Collected.cut (hne : b.scripts ≠ []) : Collected K members h [] b.cut := by
  obtain ⟨s, rest, hs⟩ := exists_cons_of_ne_nil hne
  exact ⟨by simp [Block.cut, hs], nodup_nil, by simp⟩

theorem Collected.add (hc : Collected K members h signed b) {a : Address} {s : Bytes}
    (hnew : a ∉ signed) (hmem : a ∈ members) (hs : SignedBy K h b.hash a s) :
    Collected K members h (signed.insert a) (b.add s) := by
  have hdrop : (b.add s).scripts.drop 1 = b.scripts.drop 1 ++ [s] := by
    rw [Block.add, drop_append_of_le_length (by rw [hc.count]; omega)]
  rw [insert_of_not_mem hnew]
  refine ⟨?_, nodup_cons.mpr ⟨hnew, hc.nodup⟩, ?_⟩
  · simp only [Block.add, length_append, length_cons, length_nil, hc.count]
  · intro a' ha'
    rw [hdrop]
    rcases mem_cons.mp ha' with rfl | ha'
    · exact ⟨hmem, s, by simp, hs⟩
    · obtain ⟨hmem', s', hs', hsigned⟩ := hc.valid a' ha'
      exact ⟨hmem', s', mem_append_left _ hs', hsigned⟩

theorem Collected.quorum (hc : Collected K members h signed b)
    (henough : CommitteeSigs < b.scripts.length) : CarriesQuorum K members.keys h b := by
  refine ⟨signed, hc.nodup, by have := hc.count; omega, fun a ha => ?_⟩
  obtain ⟨hmem, hs⟩ := hc.valid a ha
  exact ⟨mem_keys.mp hmem, hs⟩

end Collected

/-! ## The invariant of a machine -/

/-- The body of a tree has the hash of the tree, and a first script. -/
def Bodies (forest : Go.Map Address Tree) (heap : List Block) : Prop :=
  ∀ a t r, forest.lookup a = some t → t.block = some r →
    ∃ b, heap[r]? = some b ∧ b.hash = t.hash ∧ b.scripts ≠ []

/-- The block to which the signature was given has the signatures counted. -/
def Gathered (K : Keys) (sy : Syncer) (s : Seat) : Prop :=
  ∃ t r b, sy.forest.lookup (sy.name s) = some t ∧ t.block = some r ∧ sy.heap[r]? = some b ∧
    Collected K sy.members sy.height sy.signed b

structure Honest (K : Keys) (sy : Syncer) : Prop where
  bodies : Bodies sy.forest sy.heap
  undecided : sy.sigGiven = none → sy.signed = []
  agreed : ∀ s, sy.sigGiven = some s → sy.agreed = some s
  decided : ∀ s, sy.sigGiven = some s → Gathered K sy s

theorem Honest.create (h : Int32) : Honest K (createSyncer h) where
  bodies := by
    intro a t r ht
    cases ht
  undecided := fun _ => rfl
  agreed := nofun
  decided := nofun

/-- A change of a block object that keeps its hash and leaves a script. -/
structure KeepsBlock (f : Block → Block) : Prop where
  hash : ∀ b, (f b).hash = b.hash
  scripts : ∀ b, b.scripts ≠ [] → (f b).scripts ≠ []

theorem KeepsBlock.cut : KeepsBlock Block.cut := by
  refine ⟨fun _ => rfl, fun b hb => ?_⟩
  obtain ⟨s, rest, hs⟩ := exists_cons_of_ne_nil hb
  simp [Block.cut, hs]

theorem KeepsBlock.add (s : Bytes) : KeepsBlock (Block.add s) :=
  ⟨fun _ => rfl, fun b _ => by simp [Block.add]⟩

theorem KeepsBlock.comp {f g : Block → Block} (hf : KeepsBlock f) (hg : KeepsBlock g) :
    KeepsBlock (f ∘ g) :=
  ⟨fun b => (hf.hash _).trans (hg.hash b), fun b hb => hf.scripts _ (hg.scripts b hb)⟩

theorem KeepsBlock.makesRoom (l : Local) : KeepsBlock (makesRoom l) := by
  by_cases hg : l.sy.sigGiven = none
  · have heq : Consensus.makesRoom l = Block.cut := by
      funext b
      simp [Consensus.makesRoom, hg]
    rw [heq]
    exact .cut
  · have heq : Consensus.makesRoom l = id := by
      funext b
      simp [Consensus.makesRoom, hg]
    rw [heq]
    exact ⟨fun _ => rfl, fun _ h => h⟩

theorem Bodies.modify {forest : Go.Map Address Tree} {heap : List Block} {f : Block → Block}
    (h : Bodies forest heap) (r : Nat) (hf : KeepsBlock f) : Bodies forest (heap.modify r f) := by
  intro a t r' ht hr'
  obtain ⟨b, hb, hhash, hne⟩ := h a t r' ht hr'
  rw [getElem?_modify, hb]
  by_cases hrr : r = r'
  · exact ⟨f b, by simp [hrr], (hf.hash b).trans hhash, hf.scripts b hne⟩
  · exact ⟨b, by simp [hrr], hhash, hne⟩

variable {sy : Syncer}

theorem blockOf_eq_some {a : Address} {r : Nat} (h : sy.blockOf a = some r) :
    ∃ t, sy.forest.lookup a = some t ∧ t.block = some r :=
  bind_eq_some_iff.mp h

/-! ## Handlers keep it -/

section

variable (hl : Honest K l.sy)

include hl

theorem Quiet.honest (h : Quiet l l') : Honest K l'.sy where
  bodies := by
    intro a t' r ht' hr
    rw [h.heap]
    rcases h.trees a t' ht' with hnone | ⟨t, ht, hsame⟩
    · cases hnone.symm.trans hr
    · obtain ⟨b, hb, hhash, hne⟩ := hl.bodies a t r ht (hsame.block.symm.trans hr)
      exact ⟨b, hb, hhash.trans hsame.hash.symm, hne⟩
  undecided := fun hg => h.signed.trans (hl.undecided (h.sigGiven.symm.trans hg))
  agreed := by
    intro s hs
    have hs := h.sigGiven.symm.trans hs
    exact (h.agreed (by simp [hs])).trans (hl.agreed s hs)
  decided := by
    intro s hs
    have hs := h.sigGiven.symm.trans hs
    obtain ⟨t, r, b, ht, hr, hb, hc⟩ := hl.decided s hs
    obtain ⟨t', ht', hsame⟩ := h.kept (by simp [hs]) _ t ht
    refine ⟨t', r, b, by rw [h.frame.name]; exact ht', hsame.block.trans hr,
      by rw [h.heap]; exact hb, ?_⟩
    rw [h.frame.members, h.frame.height, h.signed]
    exact hc

theorem Shift.honest (h : Shift l l') : Honest K l'.sy where
  bodies := by rw [h.forest, h.heap]; exact hl.bodies
  undecided := fun hg => h.signed.trans (hl.undecided (h.sigGiven.symm.trans hg))
  agreed := fun s hs => h.agreed.trans (hl.agreed s (h.sigGiven.symm.trans hs))
  decided := by
    intro s hs
    have hs := h.sigGiven.symm.trans hs
    have hg : l.sy.sigGiven ≠ none := by simp [hs]
    obtain ⟨t, r, b, ht, hr, hb, hc⟩ := hl.decided s hs
    refine ⟨t, r, b, ?_, hr, by rw [h.heap]; exact hb, ?_⟩
    · rw [h.forest, name, h.names hg]
      exact ht
    · rw [h.members hg, h.height, h.signed]
      exact hc

/-- A tree that comes in genuinely has the hash of its body. -/
theorem plant_honest {t : Mined} {tree : Tree} (hg : l.sy.sigGiven = none)
    (hbare : Bare l.sy t tree) (hgen : GenuineTree l t) : Honest K (l.sy.plant t tree) where
  bodies := by
    have hhash : tree.hash = t.block.hash := by
      rcases hbare.origin with ⟨-, hfresh⟩ | hold
      · exact hfresh
      · exact hgen tree hold hbare.naked
    intro a t' r ht' hr
    by_cases ha : a = t.creator
    · subst ha
      have ht' := (lookup_insert _).symm.trans ht'
      cases ht'
      cases hr
      refine ⟨t.block, by simp [plant], hhash.symm, ?_⟩
      intro hnil
      have := t.unsigned
      rw [hnil] at this
      cases this
    · have ht' := (lookup_insert_ne ha).symm.trans ht'
      obtain ⟨b, hb, hrest⟩ := hl.bodies a t' r ht' hr
      refine ⟨b, ?_, hrest⟩
      have hlt := (List.getElem?_eq_some_iff.mp hb).1
      exact (getElem?_append_left hlt).trans hb
  undecided := fun _ => hl.undecided hg
  agreed := fun s hs => absurd (hg.symm.trans hs) nofun
  decided := fun s hs => absurd (hg.symm.trans hs) nofun

/-- A tick gives a naked tree a body with its hash. -/
theorem dressAll_honest (pick : Hash → Address) : Honest K (dressAll pick l.sy) where
  bodies := by
    intro a t' r ht' hr
    rw [lookup_dressAll] at ht'
    obtain ⟨t, ht, rfl⟩ := map_eq_some_iff.mp ht'
    rcases dress_spec pick l.sy t with heq | ⟨-, hhash, a', s, hs, hsame, hblock⟩
    · rw [heq] at hr ⊢
      exact hl.bodies a t r ht hr
    · obtain ⟨b, hb, hbhash, hne⟩ := hl.bodies a' s r hs (hblock.symm.trans hr)
      exact ⟨b, hb, hbhash.trans (hsame.trans hhash.symm), hne⟩
  undecided := hl.undecided
  agreed := hl.agreed
  decided := by
    intro s hs
    obtain ⟨t, r, b, ht, hr, hrest⟩ := hl.decided s hs
    have hdress : dress pick l.sy t = t := by
      rcases dress_spec pick l.sy t with heq | ⟨hnone, -⟩
      · exact heq
      · cases hnone.symm.trans hr
    refine ⟨t, r, b, ?_, hr, hrest⟩
    rw [lookup_dressAll]
    show (l.sy.forest.lookup (l.sy.name s)).map (dress pick l.sy) = some t
    rw [ht, map_some, hdress]

/-- Signing and sending are outside the machine. -/
theorem Given.honest {owner : Address} {own : Bytes} {m : Hash} {s : Seat}
    (h : Given owner own l' l'') (hsy : l'.sy = l.sy) (hg : l.sy.sigGiven = none)
    (hs : l.sy.agreed = some s) (howner : l.sy.name s = owner)
    (hbody : l.sy.blockOf owner ≠ none) (hm : l.sy.treeHash owner = .ok m)
    (hme : l.sy.me ∈ l.sy.members) (hown : SignedBy K l.sy.height m l.sy.me own) :
    Honest K l''.sy := by
  obtain ⟨r, hr⟩ := ne_none_iff_exists'.mp hbody
  obtain ⟨hheap, hsigned⟩ := h.body r (by rw [hsy]; exact hr)
  obtain ⟨t, ht, htr⟩ := blockOf_eq_some hr
  obtain ⟨t', ht', rfl⟩ := treeHash_eq_ok hm
  cases ht.symm.trans ht'
  obtain ⟨b, hb, hhash, hne⟩ := hl.bodies owner t r ht htr
  rw [hsy] at hheap hsigned
  have hgiven : l''.sy.sigGiven = some s := by rw [h.sigGiven, hsy, hs]
  refine ⟨?_, fun hnone => ?_, fun s' hs' => ?_, fun s' hs' => ?_⟩
  · rw [h.forest, hsy, hheap]
    exact hl.bodies.modify r ((KeepsBlock.add own).comp .cut)
  · cases hgiven.symm.trans hnone
  · rw [h.agreed, hsy, hs, ← hgiven, hs']
  · cases hgiven.symm.trans hs'
    refine ⟨t, r, (b.cut).add own, ?_, htr, ?_, ?_⟩
    · rw [h.forest, h.frame.name, hsy, howner]
      exact ht
    · rw [hheap, getElem?_modify_eq, hb]
      rfl
    · rw [h.frame.members, h.frame.height, hsigned, hsy, hl.undecided hg]
      exact (Collected.cut hne).add not_mem_nil hme (by rw [← hhash] at hown; exact hown)

/-- One more signature for the block the signature was given to. -/
theorem collect_honest {s : Seat} {t : Tree} {r : Nat} {a : Address} {script : Bytes}
    (hg : l.sy.sigGiven = some s) (ht : l.sy.forest.lookup (l.sy.name s) = some t)
    (hr : t.block = some r)
    (hnew : a ∉ l.sy.signed) (hmem : a ∈ l.sy.members)
    (hsig : SignedBy K l.sy.height t.hash a script) : Honest K (l.sy.collect r a script) := by
  obtain ⟨t', r', b, ht', hr', hb, hc⟩ := hl.decided s hg
  cases ht.symm.trans ht'
  cases hr.symm.trans hr'
  obtain ⟨b', hb', hhash, -⟩ := hl.bodies _ t r ht hr
  cases hb.symm.trans hb'
  refine ⟨hl.bodies.modify r (KeepsBlock.add script), fun hnone => ?_, hl.agreed, fun s' hs' => ?_⟩
  · cases hg.symm.trans hnone
  · cases hg.symm.trans hs'
    refine ⟨t, r, b.add script, ht, hr, ?_, hc.add hnew hmem (by rw [hhash]; exact hsig)⟩
    show (l.sy.heap.modify r (Block.add script))[r]? = _
    rw [getElem?_modify_eq, hb]
    rfl

variable {b : Bool}

theorem ckconsensus_honest {dest : Dest} (h : ckconsensus K dest l = .ok (l', b))
    (hname : l.sy.name l.sy.myself = l.sy.me) (hme : l.sy.me ∈ l.sy.members) :
    Honest K l'.sy := by
  rcases ckconsensus_spec h with
    ⟨rfl, -⟩ | ⟨m, u, own, -, hg, hagreed, hkey, rfl, hbody, hm, -, hgiven, -, rfl⟩
  · exact hl
  · have hu := hgiven.honest hl rfl hg hagreed hname hbody hm hme
      ⟨K.keyOf_sign _ _ _ hkey, K.verifies_sign _ _ _ hkey⟩
    exact hu

theorem consensus_honest {msg : MsgConsensus} (h : consensus K l msg = .ok (l', b))
    (hg : l.sy.sigGiven = none) (hme : l.sy.me ∈ l.sy.members)
    (hmem : msg.sender ∈ l.sy.members) (hgen : GenuineConsensus K l msg) : Honest K l'.sy := by
  rcases consensus_spec h hg with rfl | ⟨m, hann, ⟨-, rfl⟩ | ⟨hlow, u, hgiven, -, rfl⟩⟩
  · exact hl
  · exact hl
  obtain ⟨hkey, hname, hbody⟩ := hgen m hg hlow hann
  have hu : Honest K u.sy := hgiven.honest hl rfl hg hann.agreed hname hbody hann.tree hme
    ⟨K.keyOf_sign _ _ _ hann.hasKey, K.verifies_sign _ _ _ hann.hasKey⟩
  rcases countSender_spec msg u with heq | ⟨r, hr, hnew, heq⟩
  · rw [heq]
    exact hu
  rw [heq]
  obtain ⟨t, ht, htr⟩ := blockOf_eq_some hr
  obtain ⟨t', ht', hhash⟩ := treeHash_eq_ok hann.tree
  have hforest : u.sy.forest = l.sy.forest := hgiven.forest
  rw [hforest] at ht
  cases ht.symm.trans ht'
  have hfr := hgiven.frame
  refine collect_honest (s := l.sy.member msg.sender) hu (hgiven.sigGiven.trans hann.agreed)
    ?_ htr hnew ?_ ⟨hkey, ?_⟩
  · rw [hforest, hfr.name]
    show l.sy.forest.lookup (l.sy.name _) = _
    rw [hname]
    exact ht
  · rw [hfr.members]
    exact hmem
  · rw [hfr.height, hhash]
    exact hann.verifies

theorem signature_honest {msg : MsgSignature} (h : signature K l msg = .ok (l', b))
    (hgen : GenuineSignature K l msg) : Honest K l'.sy := by
  rcases signature_spec h with rfl | ⟨a, f, hoff, -, href | htak⟩
  · exact hl
  · -- the block may have made room
    refine ⟨?_, fun hg => ?_, fun s hs => ?_, fun s hs => ?_⟩
    · rw [href.forest]
      rcases href.heap with heq | ⟨r, -, -, heq⟩
      · rw [heq]
        exact hl.bodies
      · rw [heq]
        exact hl.bodies.modify r .cut
    · exact href.signed.trans (hl.undecided (href.sigGiven.symm.trans hg))
    · exact href.agreed.trans (hl.agreed s (href.sigGiven.symm.trans hs))
    · -- a decided machine refuses only what is for another seat than the one agreed to
      have hs := hl.agreed s (href.sigGiven.symm.trans hs) |>.symm.trans hoff.agreed
      cases hs
      exact absurd (href.sigGiven.symm.trans ‹_›) href.other
  · obtain ⟨hkey, hmem⟩ := hgen a f hoff
    obtain ⟨r, hr, hheap⟩ := htak.body
    obtain ⟨b, hb, hhash, hne⟩ := hl.bodies _ f r hoff.tree hr
    -- what is in the block once it has made room
    have hroom : Collected K l.sy.members l.sy.height l.sy.signed (makesRoom l b) := by
      cases hg : l.sy.sigGiven with
      | none =>
        simp only [makesRoom, hg, if_true, hl.undecided hg]
        exact .cut hne
      | some s =>
        obtain ⟨t, r', b', ht, hr', hb', hc⟩ := hl.decided s hg
        cases (hl.agreed s hg).symm.trans hoff.agreed
        cases ht.symm.trans hoff.tree
        cases hr.symm.trans hr'
        cases hb.symm.trans hb'
        simpa [makesRoom, hg] using hc
    have hkeeps := KeepsBlock.makesRoom l
    refine ⟨?_, fun hg => ?_, fun s hs => ?_, fun s hs => ?_⟩
    · rw [htak.forest, hheap]
      exact hl.bodies.modify r ((KeepsBlock.add _).comp hkeeps)
    · cases htak.sigGiven.symm.trans hg
    · rw [htak.agreed, hoff.agreed, ← htak.sigGiven, hs]
    · cases htak.sigGiven.symm.trans hs
      refine ⟨f, r, (makesRoom l b).add msg.signature, ?_, hr, ?_, ?_⟩
      · rw [htak.forest, htak.frame.name]
        exact hoff.tree
      · rw [hheap, getElem?_modify_eq, hb]
        rfl
      · rw [htak.frame.members, htak.frame.height, htak.signed]
        refine hroom.add hoff.fresh hmem ⟨hkey, ?_⟩
        rw [hkeeps.hash, hhash, ← hoff.hash]
        exact hoff.verifies

end

variable {e : NodeEvent} {n : Node}

/-- **One handler.** A genuine handler of a machine with a seat keeps the invariant. -/
theorem Runs.honest {i : Nat} (h : Runs K (n.view sy) e l') (hl : Honest K sy) (hs : Seated sy)
    (hb : sy.phase ≠ .idle) (htarget : e.target = some i) (hi : n.syncers[i]? = some sy)
    (hgen : Genuine K n e) : Honest K l'.sy := by
  have hgen := hgen i sy htarget hi
  cases h with
  | command h =>
    rcases process_spec h with hq | ⟨t, rfl, ht⟩ | ⟨u, dest, c, hq, hck⟩ |
      ⟨k, -, hk⟩ | ⟨k, rfl, hg, hmem, hc⟩ | ⟨k, rfl, hsig⟩
    · exact hq.honest hl
    · rcases newTree_spec ht with hq | ⟨hg, tree, hbare, rfl⟩
      · exact hq.honest hl
      · exact plant_honest hl hg hbare hgen
    · refine ckconsensus_honest (hq.honest hl) hck ?_ ?_
      · rw [hq.frame.name, hq.frame.myself, hq.frame.me]
        exact hs.name hb
      · rw [hq.frame.me, hq.frame.members]
        exact hs.member hb
    · exact (onKnowledge_quiet hk).honest hl
    · exact consensus_honest hl hc hg (hs.member hb) hmem hgen
    · exact signature_honest hl hsig hgen
  | tick h =>
    rcases repeater_spec h with hq | ⟨d, rfl, hq | hck | ⟨-, m, -, hq⟩⟩
    · exact hq.honest hl
    · exact hq.honest (dressAll_honest hl _)
    · exact ckconsensus_honest (dressAll_honest hl _) hck (hs.name hb) (hs.member hb)
    · exact hq.honest (dressAll_honest hl _)
  | drain h => exact signature_honest hl h hgen
  | recheck h =>
    rcases reckconsensus_spec h with rfl | ⟨m, -, -, -, hq⟩
    · exact hl
    · exact hq.honest hl

/-! ## Publishing -/

/-- Nothing is published on the way from `l` to `l'`. -/
def NothingPublished (l l' : Local) : Prop :=
  ∀ members h b, publish members h b ∈ l'.log → publish members h b ∈ l.log

theorem nothingPublished_of_log (h : l'.log = l.log) : NothingPublished l l' :=
  fun _ _ _ hp => h ▸ hp

theorem Quiet.nothingPublished (h : Quiet l l') : NothingPublished l l' := by
  intro members height b hp
  obtain ⟨sent, hlog, hsent⟩ := h.log
  rw [hlog, mem_append] at hp
  rcases hp with hnew | hold
  · cases hsent _ hnew
  · exact hold

theorem sign_nothingPublished (l : Local) (m : Hash) : NothingPublished l (l.sign m) := by
  intro members height b hp
  rcases mem_cons.mp hp with heq | hold
  · cases heq
  · exact hold

/-- Only the end of `run` publishes. -/
theorem Runs.nothingPublished (h : Runs K l e l') : NothingPublished l l' := by
  have hspans : Spans NothingPublished :=
    { refl := fun _ => nothingPublished_of_log rfl
      trans := fun h h' members height b hp => h members height b (h' members height b hp)
      mild := fun h => h.toQuiet.nothingPublished
      sign := sign_nothingPublished
      given := fun h _ => nothingPublished_of_log h.log
      refused := fun h _ => nothingPublished_of_log h.log
      taken := fun h _ => nothingPublished_of_log h.log
      count := fun _ _ _ _ => nothingPublished_of_log rfl
      plant := fun _ _ _ => nothingPublished_of_log rfl
      dress := fun _ _ => nothingPublished_of_log rfl }
  rcases hspans.runs h with hnothing | ⟨i, k, -, hk⟩
  · exact hnothing
  · exact (onKnowledge_quiet hk).nothingPublished

/-- What `run` publishes at its end is the block the signature was given to. -/
theorem conclusion_eq_some {b : Block} (h : sy.conclusion = some b) :
    ∃ s t r, sy.sigGiven = some s ∧ sy.forest.lookup (sy.name s) = some t ∧ t.block = some r ∧
      sy.heap[r]? = some b ∧ CommitteeSigs < b.scripts.length := by
  unfold conclusion at h
  split at h
  · cases h
  rename_i s hs
  obtain ⟨hb, hlen⟩ := filter_eq_some_iff.mp h
  obtain ⟨r, hr, hb⟩ := bind_eq_some_iff.mp hb
  obtain ⟨t, ht, htr⟩ := blockOf_eq_some hr
  exact ⟨s, t, r, hs, ht, htr, hb, (of_decide_eq_true hlen).2⟩

theorem finish_honest (hl : Honest K l.sy) : Honest K (finish l).sy := by
  unfold finish
  split
  · exact ⟨hl.bodies, hl.undecided, hl.agreed, hl.decided⟩
  · exact ⟨hl.bodies, hl.undecided, hl.agreed, hl.decided⟩

theorem finish_publishes (hl : Honest K l.sy) (hlog : PublishesQuorums K l.log) :
    PublishesQuorums K (finish l).log := by
  unfold finish
  split
  · exact hlog
  rename_i b hb
  intro members height b' hp
  rcases mem_cons.mp hp with heq | hold
  · cases heq
    obtain ⟨s, t, r, hs, ht, hr, hb, hlen⟩ := conclusion_eq_some hb
    obtain ⟨t', r', b', ht', hr', hb', hc⟩ := hl.decided s hs
    cases ht.symm.trans ht'
    cases hr.symm.trans hr'
    cases hb.symm.trans hb'
    exact hc.quorum hlen
  · exact hlog members height b' hold

/-! ## The node -/

/-- What holds of a node in a genuine run. -/
structure AllHonest (K : Keys) (n : Node) : Prop where
  seated : ∀ sy ∈ n.syncers, Seated sy
  honest : ∀ sy ∈ n.syncers, Honest K sy
  published : PublishesQuorums K n.log

theorem AllHonest.set {i : Nat} (h : AllHonest K n) (hs : Seated l.sy) (hl : Honest K l.sy)
    (hlog : PublishesQuorums K l.log) : AllHonest K ⟨l.last, n.syncers.set i l.sy, l.log⟩ := by
  refine ⟨fun sy hsy => ?_, fun sy hsy => ?_, hlog⟩
  · rcases mem_or_eq_of_mem_set hsy with hsy | rfl
    · exact h.seated sy hsy
    · exact hs
  · rcases mem_or_eq_of_mem_set hsy with hsy | rfl
    · exact h.honest sy hsy
    · exact hl

theorem AllHonest.step {n' : Node} (h : AllHonest K n) (hgen : Genuine K n e)
    (hstep : n.step K e = .ok n') : AllHonest K n' := by
  rcases Node.step_eq_ok K hstep with rfl | ⟨height, rfl⟩ | ⟨i, sy, l, htarget, hi, hact, rfl⟩
  · exact h
  · refine ⟨forall_mem_append.mpr ⟨h.seated, ?_⟩, forall_mem_append.mpr ⟨h.honest, ?_⟩, h.published⟩
    · exact forall_mem_singleton.mpr (.create height)
    · exact forall_mem_singleton.mpr (.create height)
  have hseat := h.seated sy (mem_of_getElem? hi)
  have hhon := h.honest sy (mem_of_getElem? hi)
  rcases act_spec hact hseat with ⟨hshift, hs⟩ | ⟨hdrain, rfl⟩ | ⟨u, hb, hruns, hshift, hs⟩
  · exact h.set hs (hshift.honest hhon) (by rw [hshift.log]; exact h.published)
  · exact h.set (finish_seated hseat (by simp [hdrain])) (finish_honest hhon)
      (finish_publishes hhon h.published)
  have hu := hruns.honest hhon hseat hb htarget hi hgen
  refine h.set hs (hshift.honest hu) fun members height b hp => ?_
  rw [hshift.log] at hp
  exact h.published members height b (hruns.nothingPublished members height b hp)

/-- **A published block carries a quorum.** In a run whose steps are all genuine, every block the
node publishes holds valid signatures of `CommitteeSigs` distinct members. -/
theorem quorum_of_genuine (K : Keys) (es : List NodeEvent) (n : Node)
    (hgen : ∀ done e rest u, es = done ++ e :: rest → Node.run K done = .ok u → Genuine K u e)
    (hrun : Node.run K es = .ok n) : PublishesQuorums K n.log := by
  have hstart : AllHonest K Node.start :=
    ⟨by simp [Node.start], by simp [Node.start], by simp [Node.start, PublishesQuorums]⟩
  have hinv : AllHonest K n :=
    foldlM_induction_run (P := fun _ u => AllHonest K u) hstart
      (fun done e rest u u' hes hdone hu hstep => hu.step (hgen done e rest u hes hdone) hstep)
      hrun
  exact hinv.published

/-- The run of one machine that signs the block `11` and publishes it. -/
def sampleRun : List NodeEvent := sampleVote 0 false 11 ++ [sampleConsensus 0 1 11, .finish 0]

theorem sampleRun_quorum :
    ∃ n, Node.run Keys.sample sampleRun = .ok n ∧
      publish [3, 2, 1] 5 ⟨11, [[], sampleScript 3 5 11, sampleScript 1 5 11]⟩ ∈ n.log ∧
      PublishesQuorums Keys.sample n.log := by
  refine exists_end (Q := fun n => publish [3, 2, 1] 5 ⟨11, [[], sampleScript 3 5 11,
    sampleScript 1 5 11]⟩ ∈ n.log) (by decide +kernel) fun n hrun hpub =>
      ⟨hpub, quorum_of_genuine Keys.sample sampleRun n ?_ hrun⟩
  -- a block comes in once, for a forest without trees; one announcement comes in
  have hempty : Ends (Node.run Keys.sample (sampleRun.take 2)) fun u =>
      ∀ sy ∈ u.syncers, sy.forest.lookup 1 = none := by decide +kernel
  have hready : Ends (Node.run Keys.sample (sampleRun.take 5)) fun u =>
      ∀ sy ∈ u.syncers, sy.name (sy.member 1) = 1 ∧ sy.blockOf 1 = some 0 := by decide +kernel
  intro done e rest u hes hdone i sy _ hi
  obtain ⟨j, rfl, hget⟩ := exists_take hes
  match j with
  | 0 | 1 | 3 | 4 | 6 =>
    cases hget
    trivial
  | 2 =>
    cases hget
    intro tree htree
    cases (Node.look hempty hdone hi).symm.trans htree
  | 5 =>
    cases hget
    obtain ⟨hname, hbody⟩ := Node.look hready hdone hi
    exact fun _ _ _ _ => ⟨by decide +kernel, hname, by rw [Node.view, hbody]; simp⟩
  | j + 7 => cases hget

/-- An outsider with the key `9` signs the agreed block twice, in the names of two members. Both
signatures are counted, and the block is published without a signature of any member. -/
theorem forged_quorum :
    ∃ n b, Node.run Keys.sample (sampleVote 0 false 11 ++
        [.command 0 (.msg (.signature ⟨1, 1, 11, sampleScript 9 5 11⟩)),
          .command 0 (.msg (.signature ⟨1, 2, 11, sampleScript 9 5 11⟩)), .finish 0]) = .ok n ∧
      publish [3, 2, 1] 5 b ∈ n.log ∧
      (∀ a ∈ ([3, 2, 1] : List Address), ∀ s ∈ b.scripts, Keys.sample.keyOf s ≠ some a) ∧
      ¬CarriesQuorum Keys.sample [3, 2, 1] 5 b := by
  obtain ⟨n, hrun, hpub⟩ : Ends (Node.run Keys.sample (sampleVote 0 false 11 ++
      [.command 0 (.msg (.signature ⟨1, 1, 11, sampleScript 9 5 11⟩)),
        .command 0 (.msg (.signature ⟨1, 2, 11, sampleScript 9 5 11⟩)),
        .finish 0])) fun n => publish [3, 2, 1] 5
          ⟨11, [[], sampleScript 9 5 11, sampleScript 9 5 11]⟩ ∈ n.log := by
    decide +kernel
  have hnone : ∀ a ∈ ([3, 2, 1] : List Address),
      ∀ s ∈ [[], sampleScript 9 5 11, sampleScript 9 5 11], Keys.sample.keyOf s ≠ some a := by
    have hkeys : [[], sampleScript 9 5 11, sampleScript 9 5 11].map Keys.sample.keyOf =
        [none, some 9, some 9] := by decide +kernel
    intro a ha s hs hkey
    have hkey : some a ∈ [none, some 9, some 9] := by
      rw [← hkeys, ← hkey]
      exact mem_map_of_mem hs
    have h9 : a = 9 := by simpa using hkey
    subst h9
    simp at ha
  refine ⟨n, _, hrun, hpub, hnone, ?_⟩
  rintro ⟨signers, -, henough, hsigners⟩
  obtain ⟨a, ha⟩ : ∃ a, a ∈ signers := exists_mem_of_length_pos (by
    have : CommitteeSigs = 2 := rfl
    omega)
  obtain ⟨hmem, s, hs, hkey, -⟩ := hsigners a ha
  exact hnone a hmem s (mem_of_mem_drop hs) hkey

end Zent.Consensus
