import Zent.Consensus.Frame

/-!
# What signing does

One specification for each of the handlers that are not quiet: what has to hold for it to give or
count a signature, and what it then changes.

* `consensus_spec`, `signature_spec`, `ckconsensus_spec`, `newTree_spec` — everything these
  handlers can do; `lookup_dressAll` — what a tick does to the trees before it votes.
-/

namespace Zent.Consensus

open Go List AList

variable {K : Keys} {l l' : Local} {sy : Syncer} {r : Nat}

/-! ## Scripts of a block object -/

/-- Cut the scripts down to the first. -/
def Block.cut (b : Block) : Block := { b with scripts := b.scripts.take 1 }

/-- Append a script. -/
def Block.add (script : Bytes) (b : Block) : Block := { b with scripts := b.scripts ++ [script] }

theorem truncate_eq_ok {sy' : Syncer} (h : sy.truncate r = .ok sy') :
    sy' = { sy with heap := sy.heap.modify r Block.cut } := by
  simp only [Syncer.truncate, bind_eq_ok] at h
  obtain ⟨b, hb, first, hfirst, h⟩ := h
  cases h
  have hb : sy.heap[r]? = some b := by
    unfold index at hb
    split at hb
    · rename_i b' hb'
      cases hb
      exact hb'
    · cases hb
  have hfirst : first = b.scripts.take 1 := by
    unfold slice at hfirst
    split at hfirst
    · cases hfirst
      rfl
    · cases hfirst
  rw [modify_eq_set_getElem?, hb, hfirst]
  rfl

variable {block : Option Nat}

theorem deref_eq_ok (h : deref block = .ok r) : block = some r := by
  unfold deref at h
  split at h
  · cases h
    rfl
  · cases h

theorem treeHash_eq_ok {a : Address} {m : Hash} (h : sy.treeHash a = .ok m) :
    ∃ t, sy.forest.lookup a = some t ∧ t.hash = m := by
  unfold Syncer.treeHash at h
  split at h
  · rename_i t ht
    cases h
    exact ⟨t, ht, rfl⟩
  · cases h

theorem checkScript_eq_ok {s : Bytes} {h : Int32} {m : Hash} {valid : Bool}
    (hc : checkScript K s h m = .ok valid) : valid = ((K.keyOf s).isSome && K.verifies s h m) := by
  unfold checkScript at hc
  split at hc
  · cases hc
  · cases hc
    rfl

/-! ## Giving the own signature -/

/-- The own signature is given to the one agreed to, for the block of `owner`. -/
structure Given (owner : Address) (own : Bytes) (l l' : Local) : Prop where
  frame : Frame l l'
  last : l'.last = l.sy.height
  log : l'.log = l.log
  agreed : l'.sy.agreed = l.sy.agreed
  sigGiven : l'.sy.sigGiven = l.sy.agreed
  forest : l'.sy.forest = l.sy.forest
  naked : l.sy.blockOf owner = none → l'.sy.heap = l.sy.heap ∧ l'.sy.signed = l.sy.signed
  /-- the name of the miner makes room for the signature -/
  body : ∀ r, l.sy.blockOf owner = some r →
    l'.sy.heap = l.sy.heap.modify r (Block.add own ∘ Block.cut) ∧
    l'.sy.signed = l.sy.signed.insert l.sy.me

theorem giveSignature_spec {owner : Address} {own : Bytes} {given : Bool}
    (h : giveSignature owner own l = .ok (l', given)) (hg : l.sy.sigGiven = none)
    (ha : l.sy.agreed ≠ none) :
    (¬l.last < l.sy.height ∧ given = false ∧ l' = l) ∨
    (l.last < l.sy.height ∧ given = true ∧ Given owner own l l' ∧ l'.known = l.known) := by
  by_cases hlow : l.last < l.sy.height
  · refine .inr ⟨hlow, ?_⟩
    simp only [giveSignature, Local.updateLastWritten, if_pos hlow, not_true_eq_false,
      false_and, if_false] at h
    split at h
    · rename_i hnone
      cases h
      refine ⟨rfl, ⟨{ Frame.refl l with }, rfl, rfl, rfl, rfl, rfl,
        fun _ => ⟨rfl, rfl⟩, ?_⟩, rfl⟩
      intro r hr
      cases hnone.symm.trans hr
    rename_i r hsome
    obtain ⟨sy, htrunc, h⟩ := of_bind h
    cases truncate_eq_ok htrunc
    cases h
    refine ⟨rfl, ⟨{ Frame.refl l with }, rfl, rfl, rfl, rfl, rfl, ?_, ?_⟩, rfl⟩
    · intro hnone
      cases hsome.symm.trans hnone
    · intro r' hr'
      cases hsome.symm.trans hr'
      exact ⟨modify_modify_eq _ _ _ _, rfl⟩
  · simp only [giveSignature, Local.updateLastWritten, if_neg hlow, hg] at h
    rw [if_pos ⟨by decide, Ne.symm ha⟩] at h
    cases h
    exact .inl ⟨hlow, rfl, rfl⟩

variable {b : Bool}

/-- `ckconsensus` does nothing, or signs the own block and gives it the signature. -/
theorem ckconsensus_spec {dest : Dest} (h : ckconsensus K dest l = .ok (l', b)) :
    (l' = l ∧ b = false) ∨
    ∃ m u own, b = true ∧ l.sy.sigGiven = none ∧ l.sy.agreed = some l.sy.myself ∧
      K.hasKey l.sy.me = true ∧ own = K.sign l.sy.me l.sy.height m ∧
      l.sy.blockOf l.sy.me ≠ none ∧ l.sy.treeHash l.sy.me = .ok m ∧ l.last < l.sy.height ∧
      Given l.sy.me own l u ∧ u.known = l.known ∧
      l' = (u.sign m).send dest (.consensus ⟨u.sy.me, m, own⟩) := by
  unfold ckconsensus at h
  split at h
  · cases h
    exact .inl ⟨rfl, rfl⟩
  rename_i hagreed
  split at h
  · cases h
    exact .inl ⟨rfl, rfl⟩
  rename_i hbody
  split at h
  · rename_i hkey
    simp only [bind_eq_ok] at h
    obtain ⟨m, hm, ⟨u, given⟩, hgive, h⟩ := h
    have hagreed : l.sy.agreed = some l.sy.myself := by
      by_contra hne
      exact hagreed (.inl hne)
    rcases giveSignature_spec hgive hkey.2 (by simp [hagreed]) with
      ⟨-, rfl, rfl⟩ | ⟨hlow, rfl, hgiven, hknown⟩
    · cases h
      exact .inl ⟨rfl, rfl⟩
    · cases h
      exact .inr ⟨m, u, _, rfl, hkey.2, hagreed, hkey.1, rfl, hbody, hm, hlow, hgiven, hknown, rfl⟩
  · cases h
    exact .inl ⟨rfl, rfl⟩

/-! ## An announcement -/

/-- An announcement that `consensus` answers with the own signature, for the hash `m`. -/
structure Announced (K : Keys) (l : Local) (msg : MsgConsensus) (m : Hash) : Prop where
  agreed : l.sy.agreed = some (l.sy.member msg.sender)
  tree : l.sy.treeHash msg.sender = .ok m
  parses : (K.keyOf msg.signature).isSome = true
  verifies : K.verifies msg.signature l.sy.height m = true
  hasKey : K.hasKey l.sy.me = true

/-- The machine after the own signature for `m` was made and cast. -/
def castSignature (K : Keys) (l : Local) (msg : MsgConsensus) (m : Hash) : Local :=
  (l.sign m).send .committee
    (.signature ⟨msg.sender, l.sy.me, msg.m, K.sign l.sy.me l.sy.height m⟩)

/-- The signature of an announcement is counted, or nothing happens. -/
theorem countSender_spec (msg : MsgConsensus) (l : Local) :
    (countSender msg l).1 = l ∨ ∃ r, l.sy.blockOf msg.sender = some r ∧
      msg.sender ∉ l.sy.signed ∧
      (countSender msg l).1 = { l with sy := l.sy.collect r msg.sender msg.signature } := by
  unfold countSender
  split
  · exact .inl rfl
  rename_i r hr
  split
  · exact .inl rfl
  · rename_i hnew
    exact .inr ⟨r, hr, hnew, rfl⟩

/-- `consensus` does nothing, or it signs: then the signature is refused to the block when the
height is not above the last one signed, and given to it otherwise. -/
theorem consensus_spec {msg : MsgConsensus} (h : consensus K l msg = .ok (l', b))
    (hg : l.sy.sigGiven = none) :
    l' = l ∨ ∃ m, Announced K l msg m ∧
      ((¬l.last < l.sy.height ∧ l' = castSignature K l msg m) ∨
      (l.last < l.sy.height ∧ ∃ u,
        Given msg.sender (K.sign l.sy.me l.sy.height m) (castSignature K l msg m) u ∧
        u.known = l.known ∧ l' = (countSender msg u).1)) := by
  unfold consensus at h
  split at h
  · cases h
    exact .inl rfl
  rename_i hagreed
  have hagreed : l.sy.agreed = some (l.sy.member msg.sender) := not_not.mp hagreed
  simp only [bind_eq_ok] at h
  obtain ⟨m, hm, valid, hvalid, h⟩ := h
  have hvalid := checkScript_eq_ok hvalid
  split at h
  · cases h
    exact .inl rfl
  rename_i hsigns
  simp only [not_or, not_not, hvalid, Bool.and_eq_true] at hsigns
  have hann : Announced K l msg m := ⟨hagreed, hm, hsigns.1.1, hsigns.1.2, hsigns.2⟩
  have hcast : (castSignature K l msg m).sy.sigGiven = none := hg
  split at h
  case isFalse hnot => exact absurd hg hnot
  obtain ⟨⟨u, given⟩, hgive, h⟩ := of_bind h
  rcases giveSignature_spec (l := castSignature K l msg m) hgive hcast
      (by rw [show (castSignature K l msg m).sy.agreed = _ from hagreed]; simp) with
    ⟨hhigh, rfl, rfl⟩ | ⟨hlow, rfl, hgiven, hknown⟩
  · cases h
    exact .inr ⟨m, hann, .inl ⟨hhigh, rfl⟩⟩
  · refine .inr ⟨m, hann, .inr ⟨hlow, u, hgiven, hknown, ?_⟩⟩
    have h : countSender msg u = (l', b) := Except.ok.inj h
    rw [h]

/-! ## A signature of another member -/

/-- A signature that `signature` looks at: it verifies for the block agreed to, and its sender has
not been counted. -/
structure Offered (K : Keys) (l : Local) (msg : MsgSignature) (a : Seat) (f : Tree) : Prop where
  agreed : l.sy.agreed = some a
  tree : l.sy.forest.lookup (l.sy.name a) = some f
  hash : msg.m = f.hash
  fresh : msg.sender ∉ l.sy.signed
  parses : (K.keyOf msg.signature).isSome = true
  verifies : K.verifies msg.signature l.sy.height msg.m = true

/-- The scripts of the agreed block after the first signature is let in, if this is the first. -/
def makesRoom (l : Local) (b : Block) : Block := if l.sy.sigGiven = none then b.cut else b

/-- A signature is looked at: the block makes room for it, but it is refused. -/
structure Refused (a : Seat) (f : Tree) (l l' : Local) : Prop where
  frame : Frame l l'
  high : ¬l.last < l.sy.height
  other : l.sy.sigGiven ≠ some a
  last : l'.last = l.last
  log : l'.log = l.log
  agreed : l'.sy.agreed = l.sy.agreed
  sigGiven : l'.sy.sigGiven = l.sy.sigGiven
  forest : l'.sy.forest = l.sy.forest
  signed : l'.sy.signed = l.sy.signed
  heap : l'.sy.heap = l.sy.heap ∨
    ∃ r, f.block = some r ∧ l.sy.sigGiven = none ∧ l'.sy.heap = l.sy.heap.modify r Block.cut

/-- A signature is counted for the agreed seat `a`. -/
structure Taken (a : Seat) (f : Tree) (msg : MsgSignature) (l l' : Local) : Prop where
  frame : Frame l l'
  last : (l.last < l.sy.height ∧ l'.last = l.sy.height) ∨
    (¬l.last < l.sy.height ∧ l.sy.sigGiven = some a ∧ l'.last = l.last)
  log : l'.log = l.log
  agreed : l'.sy.agreed = l.sy.agreed
  sigGiven : l'.sy.sigGiven = some a
  forest : l'.sy.forest = l.sy.forest
  signed : l'.sy.signed = l.sy.signed.insert msg.sender
  body : ∃ r, f.block = some r ∧
    l'.sy.heap = l.sy.heap.modify r (Block.add msg.signature ∘ makesRoom l)

/-- The heap after the block `block` has made room for a signature. -/
def MadeRoom (l : Local) (block : Option Nat) (heap : List Block) : Prop :=
  (l.sy.sigGiven ≠ none ∧ heap = l.sy.heap) ∨
    ∃ r, block = some r ∧ l.sy.sigGiven = none ∧ heap = l.sy.heap.modify r Block.cut

theorem makeRoom_eq_ok (h : makeRoom l.sy block = .ok sy) :
    ∃ heap, sy = { l.sy with heap := heap } ∧ MadeRoom l block heap := by
  unfold makeRoom at h
  split at h
  · rename_i hg
    obtain ⟨r, hr, htrunc⟩ := of_bind h
    exact ⟨_, truncate_eq_ok htrunc, .inr ⟨r, deref_eq_ok hr, hg, rfl⟩⟩
  · rename_i hg
    cases h
    exact ⟨l.sy.heap, rfl, .inl ⟨hg, rfl⟩⟩

theorem MadeRoom.add {heap : List Block} (h : MadeRoom l block heap) (hr : block = some r)
    (sig : Bytes) :
    heap.modify r (Block.add sig) = l.sy.heap.modify r (Block.add sig ∘ makesRoom l) := by
  rcases h with ⟨hg, rfl⟩ | ⟨r', hr', hg, rfl⟩
  · congr 1
    funext b
    simp [makesRoom, hg]
  cases hr.symm.trans hr'
  rw [modify_modify_eq]
  congr 1
  funext b
  simp [makesRoom, hg]

variable {msg : MsgSignature}

theorem takeSignature_spec {a : Seat} {f : Tree} (h : takeSignature a f msg l = .ok (l', b)) :
    l'.known = l.known ∧ (Refused a f l l' ∨ Taken a f msg l l') := by
  simp only [takeSignature, bind_eq_ok] at h
  obtain ⟨sy, hroom, h⟩ := h
  obtain ⟨heap, rfl, hmade⟩ := makeRoom_eq_ok hroom
  by_cases hlow : l.last < l.sy.height
  · simp only [Local.updateLastWritten, if_pos hlow, not_true_eq_false, false_and, if_false,
      bind_eq_ok] at h
    obtain ⟨r, hr, h⟩ := h
    cases h
    have hr := deref_eq_ok hr
    exact ⟨rfl, .inr ⟨{ Frame.refl l with }, .inl ⟨hlow, rfl⟩, rfl, rfl, rfl,
      rfl, rfl, r, hr, hmade.add hr msg.signature⟩⟩
  · simp only [Local.updateLastWritten, if_neg hlow] at h
    split at h
    · rename_i hother
      cases h
      exact ⟨rfl, .inl ⟨{ Frame.refl l with }, hlow, hother.2, rfl, rfl, rfl, rfl,
        rfl, rfl, hmade.imp_left And.right⟩⟩
    rename_i hsame
    obtain ⟨r, hr, h⟩ := of_bind h
    cases h
    have hr := deref_eq_ok hr
    have hsame : l.sy.sigGiven = some a := by
      by_contra hne
      exact hsame ⟨by decide, hne⟩
    exact ⟨rfl, .inr ⟨{ Frame.refl l with }, .inr ⟨hlow, hsame, rfl⟩, rfl, rfl,
      rfl, rfl, rfl, r, hr, hmade.add hr msg.signature⟩⟩

theorem signature_spec (h : signature K l msg = .ok (l', b)) :
    l' = l ∨ ∃ a f, Offered K l msg a f ∧ l'.known = l.known ∧
      (Refused a f l l' ∨ Taken a f msg l l') := by
  unfold signature at h
  split at h
  · cases h
    exact .inl rfl
  rename_i a ha
  split at h
  · cases h
    exact .inl rfl
  rename_i f hf
  split at h
  · cases h
    exact .inl rfl
  rename_i hm
  split at h
  · cases h
    exact .inl rfl
  rename_i hfresh
  split at h
  · cases h
    exact .inl rfl
  obtain ⟨valid, hvalid, h⟩ := of_bind h
  have hvalid := checkScript_eq_ok hvalid
  split at h
  · cases h
    exact .inl rfl
  rename_i hv
  simp only [not_not, hvalid, Bool.and_eq_true] at hv
  exact .inr ⟨a, f, ⟨ha, hf, not_not.mp hm, hfresh, hv.1, hv.2⟩, takeSignature_spec h⟩

/-! ## A new tree -/

/-- What a new tree is planted on: nothing, or a naked tree. -/
structure Bare (sy : Syncer) (t : Mined) (tree : Tree) : Prop where
  naked : tree.block = none
  origin : (sy.forest.lookup t.creator = none ∧ tree.hash = t.block.hash) ∨
    sy.forest.lookup t.creator = some tree

theorem announce_eq_ok {creator : Address} (h : announce K l creator sy = .ok l') :
    l' = { l with sy } := by
  unfold announce at h
  split at h
  · obtain ⟨_, -, h⟩ := of_bind h
    cases h
    rfl
  · cases h
    rfl

theorem newTree_spec {t : Mined} (h : newTree K l t = .ok l') :
    Mild l l' ∨ (l.sy.sigGiven = none ∧ ∃ tree, Bare l.sy t tree ∧
      l' = { l with sy := l.sy.plant t tree }) := by
  unfold newTree at h
  split at h
  · cases h
    exact .inl (.refl l)
  rename_i hc
  have hg : l.sy.sigGiven = none := by
    by_contra hne
    exact hc (.inl hne)
  split at h
  · rename_i hnone
    exact .inr ⟨hg, _, ⟨rfl, .inl ⟨hnone, rfl⟩⟩, announce_eq_ok h⟩
  rename_i tree htree
  split at h
  · rename_i hnaked
    exact .inr ⟨hg, tree, ⟨hnaked, .inr htree⟩, announce_eq_ok h⟩
  split at h
  · split at h
    · cases h
      exact .inl (.refl l)
    · rw [announce_eq_ok h]
      have herase := Mild.erase hg t.creator (l.sy.malice.insert t.creator)
      exact .inl (herase.trans (.notes _ l.sy.asked (malice_fades _ _)))
  · rw [announce_eq_ok h]
    exact .inl (.refl l)

/-! ## A tick -/

/-- The trees of a tick, before the vote. -/
theorem lookup_dressAll (pick : Hash → Address) (sy : Syncer) (a : Address) :
    (dressAll pick sy).forest.lookup a = (sy.forest.lookup a).map (dress pick sy) := by
  have hkeys : ((sy.forest.entries.map fun e => (e.1, dress pick sy e.2)).map Prod.fst) =
      sy.forest.keys := by
    rw [map_map]
    rfl
  cases ha : sy.forest.lookup a with
  | none =>
    rw [lookup_eq_none] at ha
    rw [dressAll, lookup_putAll_of_notMem _ _ (by rwa [hkeys]), Option.map_none, lookup_eq_none]
    exact ha
  | some t =>
    have hmem : (a, dress pick sy t) ∈
        sy.forest.entries.map fun e => (e.1, dress pick sy e.2) :=
      mem_map.mpr ⟨⟨a, t⟩, mem_lookup_iff.mp ha, rfl⟩
    exact lookup_putAll (p := (a, dress pick sy t)) _ _
      (by rw [hkeys]; exact sy.forest.nodupKeys) hmem

theorem rtree_eq_some {pick : Hash → Address} {h : Hash} {s : Tree}
    (hs : rtree pick sy h = some s) :
    s.hash = h ∧ s.block ≠ none ∧ ∃ a, sy.forest.lookup a = some s := by
  simp only [rtree] at hs
  split at hs
  · rename_i t ht
    cases hs
    obtain ⟨hlook, hfits⟩ := Option.filter_eq_some_iff.mp ht
    have hfits := of_decide_eq_true hfits
    exact ⟨hfits.1, hfits.2, pick h, hlook⟩
  · have hfits : s.fits h = true := find?_some hs
    have hfits := of_decide_eq_true hfits
    obtain ⟨⟨a, t⟩, he, rfl⟩ := mem_map.mp (mem_of_find?_eq_some hs)
    exact ⟨hfits.1, hfits.2, a, mem_lookup_iff.mpr he⟩

/-- A tree keeps its hash in a tick, and its body if it has one. -/
theorem dress_spec (pick : Hash → Address) (sy : Syncer) (t : Tree) :
    dress pick sy t = t ∨ (t.block = none ∧ (dress pick sy t).hash = t.hash ∧
      ∃ a s, sy.forest.lookup a = some s ∧ s.hash = t.hash ∧
        (dress pick sy t).block = s.block) := by
  unfold dress
  split
  · rename_i s hnone hs
    obtain ⟨hhash, -, a, ha⟩ := rtree_eq_some hs
    exact .inr ⟨hnone, rfl, a, s, ha, hhash, rfl⟩
  · exact .inl rfl

theorem repeatCandidacy_mild (h : repeatCandidacy K l = .ok (l', b)) (hg : l.sy.sigGiven = none) :
    Mild l l' := by
  simp only [repeatCandidacy] at h
  split at h
  · obtain ⟨r, -, h⟩ := of_bind h
    cases h
    have hsend := Mild.send l .everyone (.release r)
    exact hsend.trans (.agree _ _ _ (hsend.undecided hg))
  · obtain ⟨m, -, h⟩ := of_bind h
    cases h
    exact .sendSigned _ _ _

theorem agreeToBest_mild (connected : Address → Bool) (hg : l.sy.sigGiven = none) :
    Mild l (agreeToBest connected l) := by
  unfold agreeToBest
  split
  · exact .refl l
  · split
    · exact .agree _ _ _ hg
    · exact .refl l

theorem relay_mild {s : Seat} (h : relay K l s = .ok (l', b)) : Mild l l' := by
  simp only [relay] at h
  split at h
  · cases h
    exact .refl l
  rename_i t ht
  split at h
  · cases h
    exact .refl l
  split at h
  · cases h
    exact .refl l
  · cases h
    refine (Mild.insertSame ht ?_).trans (.sendAll _ _ _)
    exact ⟨rfl, rfl⟩

theorem shareOwn_mild {room : Bool} (h : shareOwn K room l = .ok l') : Mild l l' := by
  unfold shareOwn at h
  split at h
  · obtain ⟨k, -, h⟩ := of_bind h
    cases h
    exact .send _ _ _
  · cases h
    exact .refl l

theorem repeatKnowledge_mild {room : Bool} (h : repeatKnowledge K room l = .ok l') : Mild l l' := by
  simp only [repeatKnowledge, bind_eq_ok] at h
  obtain ⟨u, hu, ⟨v, b⟩, hrelay, h⟩ := h
  cases h
  refine (shareOwn_mild hu).trans
    (foldlM_induction (P := fun _ (p : Local × Bool) => Mild u p.1) (.refl u)
      (fun _ s p p' hp hstep => ?_) hrelay)
  split at hstep
  · exact hp.trans (relay_mild (b := p'.2) hstep)
  · cases hstep
    exact hp

/-- A tick stops the machine, or it dresses the trees and then sends the signature given again,
gives the signature to the own block, or is quiet. -/
theorem repeater_spec {t : Tick} (h : repeater K t l = .ok l') :
    Mild l l' ∨ ∃ d, d = { l with sy := dressAll t.pick l.sy } ∧
      (Mild d l' ∨ ckconsensus K .everyone d = .ok (l', true) ∨
      (l.sy.sigGiven ≠ none ∧ ∃ m, d.sy.treeHash (d.sy.nameAt (seatNo d.sy.agreed)) = .ok m ∧
        Mild (d.sign m) l')) := by
  unfold repeater at h
  split at h
  · cases h
    exact .inl (.refl l)
  split at h
  · cases h
    exact .inl { Mild.refl l with frame := ⟨rfl, rfl, rfl, rfl, rfl, rfl, rfl, fun _ => rfl⟩ }
  refine .inr ⟨_, rfl, ?_⟩
  obtain ⟨⟨u, more⟩, hvote, h⟩ := of_bind h
  have hrest : Mild u l' := by
    cases more with
    | true => exact repeatKnowledge_mild h
    | false =>
      cases h
      exact .refl _
  unfold repeatVote at hvote
  split at hvote
  · rename_i hg
    unfold repeatSignature at hvote
    split at hvote
    · cases hvote
      exact .inl hrest
    · obtain ⟨m, hm, hvote⟩ := of_bind hvote
      cases hvote
      exact .inr (.inr ⟨hg, m, hm, (Mild.send _ _ _).trans hrest⟩)
  · rename_i hg
    have hg : (dressAll t.pick l.sy).sigGiven = none := not_not.mp hg
    obtain ⟨⟨v, decided⟩, hck, hvote⟩ := of_bind hvote
    cases decided with
    | true =>
      cases hvote
      cases h
      exact .inr (.inl hck)
    | false =>
      have hsame : v = { l with sy := dressAll t.pick l.sy } := by
        rcases ckconsensus_spec hck with ⟨rfl, -⟩ | ⟨_, _, _, hcontra, -⟩
        · rfl
        · cases hcontra
      subst hsame
      refine .inl (Mild.trans ?_ hrest)
      simp only [Bool.false_eq_true, if_false] at hvote
      split at hvote
      · exact repeatCandidacy_mild hvote hg
      split at hvote
      · obtain ⟨m, -, hvote⟩ := of_bind hvote
        cases hvote
        exact .sendSigned _ _ _
      · cases hvote
        exact agreeToBest_mild _ hg

/-- `reckconsensus` does nothing, or signs the own block, to which the signature was given. -/
theorem reckconsensus_spec (h : reckconsensus K l = .ok l') :
    l' = l ∨ ∃ m, l.sy.agreed = some l.sy.myself ∧ l.sy.sigGiven = some l.sy.myself ∧
      l.sy.treeHash l.sy.me = .ok m ∧ Mild (l.sign m) l' := by
  unfold reckconsensus at h
  split at h
  · cases h
    exact .inl rfl
  rename_i hgiven
  simp only [not_or, not_not] at hgiven
  split at h
  · cases h
    exact .inl rfl
  · obtain ⟨m, hm, h⟩ := of_bind h
    cases h
    exact .inr ⟨m, hgiven.1, hgiven.2.1, hm, .send _ _ _⟩

/-! ## A command -/

/-- A consent or a rejection is quiet, but for the `ckconsensus` that a consent may lead to. -/
theorem onCandidateResp_spec {k : MsgCandidateResp} (h : onCandidateResp K l k = .ok l') :
    Mild l l' ∨ ∃ u b, Mild l u ∧ ckconsensus K .committee u = .ok (l', b) := by
  unfold onCandidateResp at h
  split at h
  · cases h
    exact .inl (.refl l)
  rename_i hc
  have hg : l.sy.sigGiven = none := by
    by_contra hne
    exact hc (.inl hne)
  unfold candidateResp at h
  split at h
  · split at h
    · obtain ⟨⟨v, b⟩, hck, h⟩ := of_bind h
      cases h
      exact .inr ⟨_, b, .agree l.sy.asked l.sy.agreed _ hg, hck⟩
    · obtain ⟨rls, -, h⟩ := of_bind h
      cases h
      exact .inl (.send _ _ _)
  · split at h
    · exact .inl (rejection_mild hg h)
    · cases h
      exact .inl (.refl l)
  · cases h
    exact .inl (.refl l)

/-- What a command can do: it is mild, plants a tree, leads to a `ckconsensus`, is a knowledge
message, or an announcement or a signature that the machine is still open to. -/
theorem process_spec {cmd : Command} (h : process K l cmd = .ok (l', b)) :
    Mild l l' ∨ (∃ t, cmd = .tree t ∧ newTree K l t = .ok l') ∨
    (∃ u dest c, Mild l u ∧ ckconsensus K dest u = .ok (l', c)) ∨
    (∃ k, cmd = .msg (.knowledge k) ∧ onKnowledge K l k = .ok l') ∨
    (∃ k, cmd = .msg (.consensus k) ∧ l.sy.sigGiven = none ∧ k.sender ∈ l.sy.members ∧
      consensus K l k = .ok (l', b)) ∨
    (∃ k, cmd = .msg (.signature k) ∧ signature K l k = .ok (l', b)) := by
  unfold process at h
  split at h
  · cases h
    exact .inl (.refl l)
  split at h
  · cases h
    exact .inl (.refl l)
  · rename_i t
    obtain ⟨u, hu, h⟩ := of_bind h
    cases h
    exact .inr (.inl ⟨t, rfl, hu⟩)
  · rename_i k
    obtain ⟨u, hu, h⟩ := of_bind h
    cases h
    exact .inr (.inr (.inr (.inl ⟨k, rfl, hu⟩)))
  · obtain ⟨u, hu, h⟩ := of_bind h
    cases h
    exact .inl (onCandidate_mild hu)
  · obtain ⟨u, hu, h⟩ := of_bind h
    cases h
    rcases onCandidateResp_spec hu with hq | ⟨v, c, hq, hck⟩
    · exact .inl hq
    · exact .inr (.inr (.inl ⟨v, _, c, hq, hck⟩))
  · obtain ⟨u, hu, h⟩ := of_bind h
    cases h
    exact .inl (onRelease_mild hu)
  · rename_i k
    unfold onConsensus at h
    split at h
    · cases h
      exact .inl (.refl l)
    · rename_i hc
      simp only [not_or, not_not, admits, Bool.and_eq_true, decide_eq_true_eq] at hc
      exact .inr (.inr (.inr (.inr (.inl ⟨k, rfl, hc.1, hc.2.2, h⟩))))
  · rename_i k
    exact .inr (.inr (.inr (.inr (.inr ⟨k, rfl, h⟩))))

end Zent.Consensus
