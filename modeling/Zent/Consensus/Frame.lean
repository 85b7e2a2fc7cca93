import Zent.Consensus.Node

/-!
# What the vote leaves alone

Candidacy, consent, release and the spreading of knowledge change who is agreed to and which
trees are there, and send messages. They neither sign nor count a signature. `Quiet` says so once,
and each handler of the vote is shown to be quiet; the results on signatures then only look at the
handlers that are not.

* `Frame` — the identity of the machine and its committee stay.
* `Quiet` — moreover the signatures, the block objects and the height last signed stay, new or
  changed trees have no body, and once the signature is given the agreement and all trees stay.
* `Mild` — and nothing more is known than before. So is every handler of the vote, but for that of
  a knowledge message.
-/

namespace Zent.Consensus

open Go AList Syncer

variable {K : Keys} {l l' l'' : Local} {msg : MsgCandidate}

theorem seatOf_no (s : Seat) : seatOf s.no = some s := by
  revert s
  decide

theorem nameAt_seatNo (sy : Syncer) (s : Seat) : sy.nameAt (seatNo (some s)) = sy.name s := by
  rw [nameAt, seatNo, seatOf_no]

/-! ## Bits of a word -/

/-- Every bit of `x` is set in `y`. -/
def Within (x y : Int64) : Prop := x &&& y = x

theorem Within.refl (x : Int64) : Within x x := Int64.and_self

theorem Within.trans {x y z : Int64} (h : Within x y) (h' : Within y z) : Within x z := by
  rw [Within, ← h, Int64.and_assoc, h']

theorem within_zero (y : Int64) : Within 0 y := Int64.zero_and

theorem within_and (x y : Int64) : Within (x &&& y) x := by
  rw [Within, Int64.and_comm x y, Int64.and_assoc, Int64.and_self]

/-! ## The frame -/

/-- What no handler changes. -/
structure Frame (l l' : Local) : Prop where
  height : l'.sy.height = l.sy.height
  members : l'.sy.members = l.sy.members
  names : l'.sy.names = l.sy.names
  me : l'.sy.me = l.sy.me
  myself : l'.sy.myself = l.sy.myself
  phase : l'.sy.phase = l.sy.phase
  runnable : l'.sy.runnable = l.sy.runnable
  done : l.sy.done = true → l'.sy.done = true

namespace Frame

protected theorem refl (l : Local) : Frame l l := ⟨rfl, rfl, rfl, rfl, rfl, rfl, rfl, id⟩

protected theorem trans (h : Frame l l') (h' : Frame l' l'') : Frame l l'' :=
  ⟨h'.height.trans h.height, h'.members.trans h.members, h'.names.trans h.names,
    h'.me.trans h.me, h'.myself.trans h.myself, h'.phase.trans h.phase,
    h'.runnable.trans h.runnable, h'.done ∘ h.done⟩

theorem name (h : Frame l l') (s : Seat) : l'.sy.name s = l.sy.name s := by
  rw [Syncer.name, Syncer.name, h.names]

end Frame

/-- Two trees with the same block. -/
structure Tree.Same (t t' : Tree) : Prop where
  hash : t'.hash = t.hash
  block : t'.block = t.block

theorem Tree.Same.refl (t : Tree) : t.Same t := ⟨rfl, rfl⟩

theorem Tree.Same.trans {t t' t'' : Tree} (h : t.Same t') (h' : t'.Same t'') : t.Same t'' :=
  ⟨h'.hash.trans h.hash, h'.block.trans h.block⟩

/-- Neither a signature nor a publication. -/
def Event.isSend : Event → Bool
  | .send _ _ => true
  | _ => false

/-- A step of the vote. -/
structure Quiet (l l' : Local) : Prop where
  frame : Frame l l'
  last : l'.last = l.last
  sigGiven : l'.sy.sigGiven = l.sy.sigGiven
  signed : l'.sy.signed = l.sy.signed
  heap : l'.sy.heap = l.sy.heap
  log : ∃ sent, l'.log = sent ++ l.log ∧ ∀ e ∈ sent, e.isSend = true
  /-- trees are kept, or have no body -/
  trees : ∀ a t', l'.sy.forest.lookup a = some t' →
    t'.block = none ∨ ∃ t, l.sy.forest.lookup a = some t ∧ t.Same t'
  agreed : l.sy.sigGiven ≠ none → l'.sy.agreed = l.sy.agreed
  /-- once the signature is given no tree goes -/
  kept : l.sy.sigGiven ≠ none → ∀ a t, l.sy.forest.lookup a = some t →
    ∃ t', l'.sy.forest.lookup a = some t' ∧ t.Same t'

namespace Quiet

protected theorem refl (l : Local) : Quiet l l where
  frame := .refl l
  last := rfl
  sigGiven := rfl
  signed := rfl
  heap := rfl
  log := ⟨[], rfl, by simp⟩
  trees := fun _ t h => .inr ⟨t, h, .refl t⟩
  agreed := fun _ => rfl
  kept := fun _ _ t h => ⟨t, h, .refl t⟩

protected theorem trans (h : Quiet l l') (h' : Quiet l' l'') : Quiet l l'' where
  frame := h.frame.trans h'.frame
  last := h'.last.trans h.last
  sigGiven := h'.sigGiven.trans h.sigGiven
  signed := h'.signed.trans h.signed
  heap := h'.heap.trans h.heap
  log := by
    obtain ⟨sent, hlog, hsent⟩ := h.log
    obtain ⟨sent', hlog', hsent'⟩ := h'.log
    exact ⟨sent' ++ sent, by rw [hlog', hlog, List.append_assoc],
      List.forall_mem_append.mpr ⟨hsent', hsent⟩⟩
  trees := by
    intro a t'' ht''
    rcases h'.trees a t'' ht'' with hnone | ⟨t', ht', hsame'⟩
    · exact .inl hnone
    · rcases h.trees a t' ht' with hnone | ⟨t, ht, hsame⟩
      · exact .inl (hsame'.block.trans hnone)
      · exact .inr ⟨t, ht, hsame.trans hsame'⟩
  agreed := fun hg => (h'.agreed (h.sigGiven ▸ hg)).trans (h.agreed hg)
  kept := by
    intro hg a t ht
    obtain ⟨t', ht', hsame⟩ := h.kept hg a t ht
    obtain ⟨t'', ht'', hsame'⟩ := h'.kept (h.sigGiven ▸ hg) a t' ht'
    exact ⟨t'', ht'', hsame.trans hsame'⟩

theorem undecided (h : Quiet l l') (hg : l.sy.sigGiven = none) : l'.sy.sigGiven = none :=
  h.sigGiven.trans hg

/-- Who has asked and what is known may change at any time. -/
theorem notes (l : Local) (asked : Seat → Option MsgCandidate) (kb : Knowledgebase) :
    Quiet l { l with sy := { l.sy with asked := asked, knowledges := kb } } :=
  { Quiet.refl l with frame := { Frame.refl l with } }

end Quiet

/-! ## Steps after which nothing more is known -/

/-- What is known of whose block, by whom. -/
def Local.known (l : Local) : Seat → Seat → Int64 := l.sy.knowledges.knowledge

/-- Nothing more is known after the step. -/
def Fades (l l' : Local) : Prop := ∀ f v, Within (l'.known f v) (l.known f v)

theorem Fades.of_eq (h : l'.known = l.known) : Fades l l' := fun f v => by
  rw [h]
  exact .refl _

theorem Fades.trans (h : Fades l l') (h' : Fades l' l'') : Fades l l'' := fun f v =>
  (h' f v).trans (h f v)

theorem forget_fades (kb : Knowledgebase) (w f v : Seat) :
    Within ((kb.forget w).knowledge f v) (kb.knowledge f v) := by
  simp only [Knowledgebase.forget]
  split
  · exact within_zero _
  · exact within_and _ _

theorem malice_fades (kb : Knowledgebase) (c f v : Seat) :
    Within ((kb.malice c).knowledge f v) (kb.knowledge f v) := by
  simp only [Knowledgebase.malice, Function.update_apply]
  split
  · exact within_zero _
  · exact .refl _

@[simp] theorem knowledge_rejected (kb : Knowledgebase) (who : Option Seat) :
    (kb.rejected who).knowledge = kb.knowledge := by
  unfold Knowledgebase.rejected
  split <;> rfl

theorem rejected_fades (kb : Knowledgebase) (who : Option Seat) (f v : Seat) :
    Within ((kb.rejected who).knowledge f v) (kb.knowledge f v) := by
  rw [knowledge_rejected]
  exact .refl _

/-- A quiet step after which nothing more is known. -/
structure Mild (l l' : Local) : Prop extends Quiet l l' where
  fades : Fades l l'

namespace Mild

protected theorem refl (l : Local) : Mild l l := { Quiet.refl l with fades := .of_eq rfl }

protected theorem trans (h : Mild l l') (h' : Mild l' l'') : Mild l l'' :=
  { h.toQuiet.trans h'.toQuiet with fades := h.fades.trans h'.fades }

/-! ### The elementary steps -/

theorem send (l : Local) (d : Dest) (m : Msg) : Mild l (l.send d m) :=
  { Mild.refl l with
    frame := { Frame.refl l with }
    log := ⟨[.send d m], rfl, by simp [Event.isSend]⟩ }

theorem sendSigned (l : Local) (d : Dest) (m : Msg) : Mild l (l.sendSigned K d m) := by
  unfold Local.sendSigned
  split
  · exact .send l d m
  · exact .refl l

theorem sendAll (m : Msg) (seats : List Seat) :
    ∀ l : Local, Mild l (seats.foldl (fun l s => l.send (.only (l.sy.name s)) m) l) := by
  induction seats with
  | nil => exact fun l => .refl l
  | cons s rest ih => exact fun l => (Mild.send l _ m).trans (ih _)

section

variable {kb : Knowledgebase} (l) (asked : Seat → Option MsgCandidate)

theorem notes (hkb : ∀ f v, Within (kb.knowledge f v) (l.known f v)) :
    Mild l { l with sy := { l.sy with asked := asked, knowledges := kb } } :=
  { Quiet.notes l asked kb with fades := hkb }

theorem asks : Mild l { l with sy := { l.sy with asked := asked } } :=
  .notes l asked (Mild.refl l).fades

variable {l} (agreed : Option Seat) (agrees : List Seat) (hg : l.sy.sigGiven = none)

include hg

/-- Before the signature is given, the agreement may change too. -/
theorem vote (hkb : ∀ f v, Within (kb.knowledge f v) (l.known f v)) :
    Mild l { l with sy := { l.sy with
      agreed := agreed, agrees := agrees, asked := asked, knowledges := kb } } :=
  { Quiet.notes l asked kb with
    frame := { Frame.refl l with }
    agreed := fun h => absurd hg h
    fades := hkb }

theorem agree :
    Mild l { l with sy := { l.sy with agreed := agreed, agrees := agrees, asked := asked } } :=
  .vote asked agreed agrees hg (Mild.refl l).fades

/-- Before the signature is given, a tree may go. -/
theorem erase (a : Address) (malice : List Address) :
    Mild l { l with sy := { l.sy with malice := malice, forest := l.sy.forest.erase a } } :=
  { Mild.refl l with
    frame := { Frame.refl l with }
    trees := by
      intro b t' ht'
      by_cases hb : b = a
      · subst hb
        simp [lookup_erase] at ht'
      · exact .inr ⟨t', by rwa [lookup_erase_ne hb] at ht', .refl t'⟩
    kept := fun h => absurd hg h }

end

variable {a : Address} {t' : Tree}

/-- A tree may come that is naked or has the same block as one it replaces, if it replaces one with
the same block only. -/
theorem insertTree (hnew : t'.block = none ∨ ∃ t, l.sy.forest.lookup a = some t ∧ t.Same t')
    (hold : ∀ t, l.sy.forest.lookup a = some t → t.Same t') :
    Mild l { l with sy := { l.sy with forest := l.sy.forest.insert a t' } } :=
  { Mild.refl l with
    frame := { Frame.refl l with }
    trees := by
      intro b u' hu'
      obtain ⟨rfl, rfl⟩ | ⟨-, hu'⟩ := lookup_insert_cases hu'
      · exact hnew
      · exact .inr ⟨u', hu', .refl u'⟩
    kept := by
      intro _ b u hu
      by_cases hb : b = a
      · subst hb
        exact ⟨t', lookup_insert _, hold u hu⟩
      · exact ⟨u, by rw [lookup_insert_ne hb]; exact hu, .refl u⟩ }

/-- A tree may be replaced by one with the same block. -/
theorem insertSame {t : Tree} (ht : l.sy.forest.lookup a = some t) (hsame : t.Same t') :
    Mild l { l with sy := { l.sy with forest := l.sy.forest.insert a t' } } := by
  refine insertTree (.inr ⟨t, ht, hsame⟩) fun u hu => ?_
  rw [ht] at hu
  cases hu
  exact hsame

/-- A naked tree may come where there is none. -/
theorem insertNaked (ht : l.sy.forest.lookup a = none) (hnaked : t'.block = none) :
    Mild l { l with sy := { l.sy with forest := l.sy.forest.insert a t' } } := by
  refine insertTree (.inl hnaked) fun u hu => ?_
  rw [ht] at hu
  cases hu

end Mild

/-! ## The handlers of the vote -/

theorem refuse_mild (msg : MsgCandidate) (fmp : Seat) (l : Local) :
    Mild l (refuse K msg fmp l) := by
  unfold refuse
  split
  · split
    · exact (Mild.asks l _).trans (.send _ _ _)
    · exact .asks l _
  · exact .asks l _

section

variable (hg : l.sy.sigGiven = none)

include hg

theorem candidacy_mild {b : Bool} (h : candidacy K l = .ok (l', b)) : Mild l l' := by
  unfold candidacy at h
  split at h
  · cases h
    exact .refl l
  split at h
  · cases h
    exact .refl l
  · obtain ⟨m, -, h⟩ := of_bind h
    cases h
    exact (Mild.vote l.sy.asked _ _ hg (rejected_fades _ _)).trans (.sendSigned _ _ _)

theorem consentTo_mild {b : Seat} (h : consentTo K l b = .ok l') : Mild l l' := by
  unfold consentTo at h
  split at h
  · obtain ⟨m, -, h⟩ := of_bind h
    cases h
    have hsend := Mild.sendSigned (K := K) l (.only (l.sy.name b))
      (.candidateResp ⟨.cnst, b.no, l.sy.me, m, some l.sy.me⟩)
    exact hsend.trans (.agree _ _ _ (hsend.undecided hg))
  · cases h
    exact .refl l

theorem yield_mild {better : Int32} {b : Bool} (h : yield K better l = .ok (l', b)) :
    Mild l l' := by
  unfold yield at h
  split at h
  · simp only [bind_eq_ok] at h
    obtain ⟨rls, -, s, -, u, hconsent, h⟩ := h
    cases h
    have hrel := Mild.sendAll (.release rls) (l.sy.agrees.filter (· ≠ l.sy.myself)) l
    exact hrel.trans ((Mild.vote _ _ _ (hrel.undecided hg) (rejected_fades _ _)).trans
      (consentTo_mild (hrel.undecided hg) hconsent))
  · cases h
    exact .refl l

theorem answer_mild {fmp : Seat} (h : answer K msg fmp l = .ok l') : Mild l l' := by
  simp only [answer] at h
  split at h
  · cases h
    exact (Mild.agree _ (some fmp) l.sy.agrees hg).trans (.sendSigned _ _ _)
  · obtain ⟨m, -, h⟩ := of_bind h
    cases h
    exact (Mild.asks l _).trans (.sendSigned _ _ _)

theorem release_mild {msg : MsgRelease} (h : release K l msg = .ok l') : Mild l l' := by
  simp only [release] at h
  split at h
  · cases h
    exact .refl l
  have herase := Mild.erase hg msg.sender l.sy.malice
  split at h
  · obtain ⟨⟨u, b⟩, hcand, h⟩ := of_bind h
    cases h
    exact herase.trans ((Mild.vote _ _ _ (herase.undecided hg) (forget_fades _ _)).trans
      (candidacy_mild hg hcand))
  · cases h
    exact herase.trans (.vote _ _ _ (herase.undecided hg) (forget_fades _ _))

theorem giveUp_mild {sender : Address} (h : giveUp K l sender = .ok l') : Mild l l' := by
  unfold giveUp at h
  split at h
  · obtain ⟨rls, -, h⟩ := of_bind h
    cases h
    exact (Mild.vote l.sy.asked none [] hg (rejected_fades _ _)).trans (.send _ _ _)
  · cases h
    exact .refl l

theorem rejection_mild {msg : MsgCandidateResp} (h : rejection K l msg = .ok l') : Mild l l' := by
  simp only [rejection] at h
  have hnote := Mild.notes l l.sy.asked
    (rejected_fades l.sy.knowledges (some (l.sy.member msg.sender)))
  split at h
  · exact hnote.trans (giveUp_mild hg h)
  split at h
  · cases h
    exact hnote
  obtain ⟨⟨u, yielded⟩, hyield, h⟩ := of_bind h
  have hu := hnote.trans (yield_mild hg hyield)
  cases yielded with
  | true => exact hu.trans (giveUp_mild (hu.undecided hg) h)
  | false =>
    obtain ⟨m, -, h⟩ := of_bind h
    cases h
    exact hu.trans (.sendSigned _ _ _)

end

theorem candidate_mild (h : candidate K l msg = .ok l') : Mild l l' := by
  simp only [candidate] at h
  split at h
  · cases h
    exact .refl l
  split at h
  · cases h
    exact .refl l
  split at h
  · cases h
    exact refuse_mild _ _ l
  rename_i hg
  have hg : l.sy.sigGiven = none := not_not.mp hg
  have hasked := Mild.asks l (Function.update l.sy.asked ‹Seat› (some msg))
  split at h
  · cases h
    exact hasked
  split at h
  · obtain ⟨⟨u, yielded⟩, hyield, h⟩ := of_bind h
    have hu := hasked.trans (yield_mild hg hyield)
    cases yielded with
    | true => cases h; exact hu
    | false => exact hu.trans (answer_mild (hu.undecided hg) h)
  · exact hasked.trans (answer_mild hg h)

/-! ## Knowledge -/

theorem register_mild {finder : Address} {m : Hash} {sy : Syncer} {valid : Bool}
    (h : register l.sy finder m = (sy, valid)) : Mild l { l with sy } := by
  unfold register at h
  split at h
  · rename_i hnone
    cases h
    exact .insertNaked hnone rfl
  · cases h
    exact .refl l

theorem treeHash_register {sy sy' : Syncer} {finder : Address} {m m' : Hash}
    (hreg : register sy finder m = (sy', true)) (hm : sy'.treeHash finder = .ok m') : m' = m := by
  unfold register at hreg
  split at hreg
  · cases hreg
    simp only [treeHash, lookup_insert] at hm
    cases hm
    rfl
  rename_i t ht
  obtain ⟨rfl, hvalid⟩ := Prod.mk.inj hreg
  simp only [treeHash, ht] at hm
  cases hm
  exact of_decide_eq_true hvalid

theorem keepKnow_mild (l : Local) (k : MsgKnowledge) : Mild l { l with sy := keepKnow l.sy k } := by
  unfold keepKnow
  split
  · exact .refl l
  rename_i t ht
  split
  · exact .insertSame ht ⟨rfl, rfl⟩
  · exact .refl l

theorem passOn_mild {msg lmg : MsgKnowledge} {tosend : Bool} {mp i : Seat} {ng : Int64}
    (h : passOn msg lmg tosend mp ng l i = .ok l') : Mild l l' := by
  unfold passOn at h
  split at h
  · cases h
    exact .refl l
  obtain ⟨imp, -, h⟩ := of_bind h
  split at h
  · cases h
    exact .send _ _ _
  · cases h
    exact .refl l

theorem introduce_mild {mp : Seat} (h : introduce K mp l = .ok l') : Mild l l' := by
  unfold introduce at h
  split at h
  · obtain ⟨k, -, h⟩ := of_bind h
    cases h
    exact .send _ _ _
  · cases h
    exact .refl l

theorem procKnowledge_quiet {msg : MsgKnowledge} (h : procKnowledge K l msg = .ok l') :
    Quiet l l' := by
  unfold procKnowledge at h
  split at h
  · simp only [bind_eq_ok] at h
    obtain ⟨⟨kb, ng, c⟩, -, u, hpass, h⟩ := h
    have hnote := Quiet.notes l l.sy.asked kb
    have hpass : Quiet { l with sy := { l.sy with knowledges := kb } } u :=
      foldlM_induction (P := fun _ v => Quiet _ v) (.refl _)
        (fun _ _ _ _ hv hstep => hv.trans (passOn_mild hstep).toQuiet) hpass
    exact (hnote.trans hpass).trans (introduce_mild h).toQuiet
  · cases h
    exact .refl l

theorem onKnowledge_quiet {k : MsgKnowledge} (h : onKnowledge K l k = .ok l') : Quiet l l' := by
  unfold onKnowledge at h
  split at h
  · cases h
    exact .refl l
  rename_i hc
  have hg : l.sy.sigGiven = none := by
    by_contra hne
    exact hc (.inl hne)
  obtain ⟨verified, -, h⟩ := of_bind h
  cases verified with
  | false =>
    cases h
    exact .refl l
  | true =>
    rcases hr : register l.sy k.finder k.m with ⟨sy, valid⟩
    simp only [hr] at h
    have hreg := register_mild hr
    cases valid with
    | false =>
      cases h
      exact hreg.toQuiet
    | true =>
      simp only [not_true_eq_false, if_false, bind_eq_ok] at h
      obtain ⟨m, hm, u, hproc, ⟨v, b⟩, hcand, h⟩ := h
      cases h
      rw [if_neg (not_not.mpr (treeHash_register hr hm))] at hproc
      have hu := (hreg.toQuiet.trans (keepKnow_mild _ k).toQuiet).trans (procKnowledge_quiet hproc)
      exact hu.trans (candidacy_mild (hu.undecided hg) hcand).toQuiet

theorem onCandidate_mild {k : MsgCandidate} (h : onCandidate K l k = .ok l') : Mild l l' := by
  unfold onCandidate at h
  split at h
  · cases h
    exact .refl l
  rcases hr : register l.sy k.f k.m with ⟨sy, valid⟩
  simp only [hr] at h
  have hreg := register_mild hr
  cases valid with
  | false =>
    cases h
    exact hreg
  | true =>
    simp only [not_true_eq_false, if_false] at h
    split at h
    · cases h
      exact hreg.trans (.asks _ _)
    · exact hreg.trans (candidate_mild h)

theorem onRelease_mild {k : MsgRelease} (h : onRelease K l k = .ok l') : Mild l l' := by
  unfold onRelease at h
  split at h
  · cases h
    exact .refl l
  · rename_i hc
    exact release_mild (by by_contra hne; exact hc (.inl hne)) h

end Zent.Consensus
