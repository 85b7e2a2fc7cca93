import Zent.Consensus.Learning

/-!
# Who vouches for what is known

A knowledge message lists the seats it went through, and each of them is supposed to have signed
it. `validateMsg` checks that every signature is valid under some key, but never asks whose key it
is, so the list can name members that have never seen the message.
-/

namespace Zent.Consensus

open Go Option List Prod Syncer

variable {K : Keys} {l l' : Local}

/-- The seat `s` stands at the place `p` of the way of a message, which ends with the node itself,
and the signature there is that of the member, or it is the own seat. -/
def SignedAt (sy : Syncer) (k : MsgKnowledge) (p : Nat) (s : Seat) : Prop :=
  On (k.k ++ [sy.myself.no]) p s ∧ (s ≠ sy.myself → k.signers[p]? = some (some (sy.name s)))

/-- `v` vouches that `b` knows the block of `f`: the machine `i` was sent a message about the block
that `b` had signed when `v` did. -/
def Vouches (es : List NodeEvent) (i : Nat) (sy : Syncer) (f v b : Seat) : Prop :=
  ∃ k, NodeEvent.command i (.msg (.knowledge k)) ∈ es ∧ k.finder = sy.name f ∧
    ∃ p q, p ≤ q ∧ SignedAt sy k p b ∧ SignedAt sy k q v

/-- What is known to the machine `i` rests on the signatures of the messages it was sent. -/
structure Authentic (es : List NodeEvent) (i : Nat) (sy : Syncer) : Prop where
  signed : ∀ f v b, b ≠ sy.myself → v ≠ sy.myself → Has (sy.knowledges.knowledge f v) b →
    ∃ k, NodeEvent.command i (.msg (.knowledge k)) ∈ es ∧ k.finder = sy.name f ∧
      ∃ p q, p ≤ q ∧ On k.k p b ∧ k.signers[p]? = some (some (sy.name b)) ∧
        On k.k q v ∧ k.signers[q]? = some (some (sy.name v))
  /-- a quorum of members vouch for a quorum each -/
  qualified : ∀ f, sy.knowledges.qualified sy.myself f = true →
    ∃ viewers : List Seat, viewers.Nodup ∧ CommitteeSigs ≤ viewers.length ∧
      ∀ v ∈ viewers, ∃ known : List Seat, known.Nodup ∧ CommitteeSigs ≤ known.length ∧
        ∀ b ∈ known, Vouches es i sy f v b

/-- A knowledge message that is taken has the signature of each other member at its place, and
its finder has the seat that the tables give it. -/
def Attested (n : Node) (e : NodeEvent) : Prop :=
  ∀ i k sy, e = .command i (.msg (.knowledge k)) → n.syncers[i]? = some sy →
    sy.phase = .looping → Takes sy k → sy.name (sy.member k.finder) = k.finder ∧
      ∀ p s, On k.k p s → s ≠ sy.myself → k.signers[p]? = some (some (sy.name s))

/-! ## An event -/

/-- The seats and who sits on them stay. -/
structure SameSeats (l l' : Local) : Prop where
  names : l'.sy.names = l.sy.names
  myself : l'.sy.myself = l.sy.myself

theorem SameSeats.refl (l : Local) : SameSeats l l := ⟨rfl, rfl⟩

theorem leaveIf_knowledges (l : Local) (b : Bool) :
    SameSeats l (l.leaveIf b) ∧ (l.leaveIf b).known = l.known := by
  unfold Local.leaveIf
  split <;> exact ⟨⟨rfl, rfl⟩, rfl⟩

theorem setCommittee_known (best : Snapshot) (sy : Syncer) :
    sy.setCommittee best = sy ∨ (sy.setCommittee best).knowledges = .create := by
  unfold setCommittee
  split
  · exact .inl rfl
  · right
    dsimp only
    split <;> rfl

variable {e : NodeEvent}

/-- After an event nothing is known, or the seats stay and what is new stands on the way of a
knowledge message. -/
theorem act_learns (h : act K e l = .ok l') :
    (∀ f v, l'.known f v = 0) ∨ (SameSeats l l' ∧
      (Fades l l' ∨ ∃ i k, e = .command i (.msg (.knowledge k)) ∧ l.sy.phase = .looping ∧
        Learns k l l')) := by
  cases acts_of_act h with
  | nothing => exact .inr ⟨.refl l, .inl (.of_eq rfl)⟩
  | @setCommittee _ best =>
    rcases setCommittee_known best l.sy with heq | heq
    · rw [heq]
      exact .inr ⟨.refl l, .inl (.of_eq rfl)⟩
    · exact .inl fun f v => by rw [Local.known, heq]; rfl
  | quit => exact .inr ⟨⟨rfl, rfl⟩, .inl (.of_eq rfl)⟩
  | leave =>
    obtain ⟨hseats, hknown⟩ := leaveIf_knowledges l true
    exact .inr ⟨hseats, .inl (.of_eq hknown)⟩
  | finish =>
    refine .inr ?_
    unfold finish
    split <;> exact ⟨⟨rfl, rfl⟩, .inl (.of_eq rfl)⟩
  | @runs _ u b _ hloop hruns =>
    obtain ⟨hseats, hknown⟩ := leaveIf_knowledges u b
    refine .inr ⟨⟨hseats.names.trans hruns.frame.names,
      hseats.myself.trans hruns.frame.myself⟩, ?_⟩
    rcases hruns.learns with hfade | ⟨j, k, rfl, hlearn⟩
    · exact .inl (hfade.trans (.of_eq hknown))
    refine .inr ⟨j, k, rfl, hloop j _ rfl, hlearn.takes, ?_, ?_⟩
    · rw [hknown]
      exact hlearn.bits
    · rw [hknown]
      exact hlearn.seats

/-! ## A run -/

/-- All that the machine `i` knows is vouched for. -/
structure Sourced (es : List NodeEvent) (i : Nat) (sy : Syncer) : Prop where
  vouched : ∀ f v b, Has (sy.knowledges.knowledge f v) b → Vouches es i sy f v b
  seats : ∀ f v, Within (sy.knowledges.knowledge f v) allSeats

variable {es : List NodeEvent} {i : Nat}

theorem Vouches.mono {es' : List NodeEvent} {f v b : Seat} (h : Vouches es i l.sy f v b)
    (hes : ∀ e ∈ es, e ∈ es') (hseats : SameSeats l l') : Vouches es' i l'.sy f v b := by
  obtain ⟨k, hk, hfinder, p, q, hpq, hb, hv⟩ := h
  have hname : ∀ s, l'.sy.name s = l.sy.name s := fun s => by
    rw [name, name, hseats.names]
  have hsigned : ∀ p s, SignedAt l.sy k p s → SignedAt l'.sy k p s := fun p s hs => by
    rw [SignedAt, hseats.myself, hname]
    exact hs
  exact ⟨k, hes _ hk, by rw [hname]; exact hfinder, p, q, hpq, hsigned p b hb, hsigned q v hv⟩

/-- An attested event keeps the machine it happens to sourced. -/
theorem Sourced.act (h : Sourced es i l.sy) (hact : act K e l = .ok l')
    (htarget : e.target = some i)
    (hatt : ∀ k, e = .command i (.msg (.knowledge k)) → l.sy.phase = .looping →
      Takes l.sy k → l.sy.name (l.sy.member k.finder) = k.finder ∧
        ∀ p s, On k.k p s → s ≠ l.sy.myself → k.signers[p]? = some (some (l.sy.name s))) :
    Sourced (es ++ [e]) i l'.sy := by
  have hes : ∀ e' ∈ es, e' ∈ es ++ [e] := fun e' he' => mem_append_left [e] he'
  rcases act_learns hact with hzero | ⟨hseats, hfade | ⟨j, k, rfl, hloop, hlearn⟩⟩
  · refine ⟨fun f v b hb => ?_, fun f v => ?_⟩
    · exact absurd ((hzero f v) ▸ hb) (not_has_zero b)
    · show Within (l'.known f v) allSeats
      rw [hzero]
      exact within_zero _
  · exact ⟨fun f v b hb => (h.vouched f v b ((hfade f v).has hb)).mono hes hseats,
      fun f v => (hfade f v).trans (h.seats f v)⟩
  cases htarget
  obtain ⟨hfinder, hsigners⟩ := hatt k rfl hloop hlearn.takes
  refine ⟨fun f v b hb => ?_, hlearn.seats h.seats⟩
  rcases hlearn.bits f v b hb with hold | ⟨rfl, p, q, hpq, hp, hq⟩
  · exact (h.vouched f v b hold).mono hes hseats
  -- a place of another seat is not the last one, so the message has its signature
  have hsigned : ∀ p s, On (k.k ++ [l.sy.myself.no]) p s → SignedAt l.sy k p s := by
    refine fun p s hs => ⟨hs, fun hne => ?_⟩
    rcases hs.of_concat with hs | ⟨-, hs⟩
    · exact hsigners p s hs hne
    · rw [seatOf_no] at hs
      exact absurd (some.inj hs).symm hne
  have hnew : Vouches (es ++ [.command i (.msg (.knowledge k))]) i l.sy
      (l.sy.member k.finder) v b :=
    ⟨k, by simp, hfinder.symm, p, q, hpq, hsigned p b hp, hsigned q v hq⟩
  exact hnew.mono (fun _ => id) hseats

theorem Sourced.authentic {sy : Syncer} (h : Sourced es i sy) : Authentic es i sy := by
  constructor
  · intro f v b hb hv hhas
    obtain ⟨k, hk, hfinder, p, q, hpq, hp, hq⟩ := h.vouched f v b hhas
    have hon : ∀ p s, s ≠ sy.myself → On (k.k ++ [sy.myself.no]) p s → On k.k p s := by
      intro p s hne hs
      rcases hs.of_concat with hs | ⟨-, hs⟩
      · exact hs
      · rw [seatOf_no] at hs
        exact absurd (some.inj hs).symm hne
    exact ⟨k, hk, hfinder, p, q, hpq, hon p b hb hp.1, hp.2 hb, hon q v hv hq.1, hq.2 hv⟩
  · intro f hqualified
    simp only [Knowledgebase.qualified, decide_eq_true_eq] at hqualified
    rw [countP_eq_length_filter] at hqualified
    refine ⟨_, (nodup_finRange _).filter _, hqualified, fun v hv => ?_⟩
    have hcount := of_decide_eq_true (mem_filter.mp hv).2
    have hwithin := within_and (sy.knowledges.knowledge f v)
      (if f ≠ sy.myself then -1 else ~~~sy.knowledges.rejections)
    rw [countBits_of_within (hwithin.trans (h.seats f v)), countP_eq_length_filter] at hcount
    refine ⟨_, (nodup_finRange _).filter _, hcount, fun b hb => ?_⟩
    exact h.vouched f v b (hwithin.has (of_decide_eq_true (mem_filter.mp hb).2))

theorem sourced_step {n n' : Node} (h : ∀ i sy, n.syncers[i]? = some sy → Sourced es i sy)
    (hatt : Attested n e) (hstep : n.step K e = .ok n') :
    ∀ i sy, n'.syncers[i]? = some sy → Sourced (es ++ [e]) i sy := by
  have hold : ∀ i sy, n.syncers[i]? = some sy → Sourced (es ++ [e]) i sy := by
    intro i sy hi
    refine ⟨fun f v b hb => ?_, (h i sy hi).seats⟩
    exact ((h i sy hi).vouched f v b hb).mono (fun e' he' => mem_append_left [e] he')
      (SameSeats.refl (n.view sy))
  intro i sy' hi
  rcases Node.machine_cases K hstep hi with hi | ⟨height, rfl⟩ | ⟨sy, l, htarget, hsy, hact, rfl⟩
  · exact hold i sy' hi
  · exact ⟨fun f v b hb => absurd hb (not_has_zero b), fun f v => within_zero _⟩
  · exact (h i sy hsy).act hact htarget fun k he hloop htakes =>
      hatt i k sy he hsy hloop htakes

/-- **Knowledge is vouched for.** In a run in which every knowledge message that is taken is
attested, all that a machine knows rests on signatures of the members it is about. -/
theorem authentic_of_attested (K : Keys) (es : List NodeEvent) (n : Node)
    (hatt : ∀ done e rest u, es = done ++ e :: rest → Node.run K done = .ok u → Attested u e)
    (hrun : Node.run K es = .ok n) : ∀ i sy, n.syncers[i]? = some sy → Authentic es i sy := by
  have hinv : ∀ i sy, n.syncers[i]? = some sy → Sourced es i sy :=
    foldlM_induction_run
      (P := fun done (u : Node) => ∀ i sy, u.syncers[i]? = some sy → Sourced done i sy)
      (fun i sy hi => by simp [Node.start] at hi)
      (fun done e rest u u' hes hdone hu hstep =>
        sourced_step hu (hatt done e rest u hes hdone) hstep)
      hrun
  exact fun i sy hi => (hinv i sy hi).authentic

theorem sampleVote_authentic :
    ∃ n sy, Node.run Keys.sample (sampleVote 0 false 11) = .ok n ∧ n.syncers[0]? = some sy ∧
      sy.knowledges.qualified sy.myself Seat.zero = true ∧
      Authentic (sampleVote 0 false 11) 0 sy := by
  obtain ⟨n, hrun, sy, hsy, hqualified⟩ : Ends (Node.run Keys.sample (sampleVote 0 false 11))
      fun n => ∃ sy ∈ n.syncers[0]?, sy.knowledges.qualified sy.myself Seat.zero = true := by
    decide +kernel
  refine ⟨n, sy, hrun, hsy, hqualified, ?_⟩
  refine authentic_of_attested Keys.sample (sampleVote 0 false 11) n ?_ hrun 0 sy hsy
  -- one knowledge message comes in, signed by the two members it names
  have hready : Ends (Node.run Keys.sample ((sampleVote 0 false 11).take 3)) fun u =>
      ∀ sy ∈ u.syncers, sy.name Seat.zero = 1 ∧ sy.name ⟨1, by decide⟩ = 2 ∧
        sy.name (sy.member 1) = 1 := by
    decide +kernel
  rintro done e rest u hes hdone i k a he hi - -
  obtain ⟨j, rfl, hget⟩ := exists_take hes
  subst he
  match j with
  | 0 | 1 | 2 | 4 => cases hget
  | 3 =>
    cases hget
    obtain ⟨hfirst, hsecond, hfinder⟩ := Node.look hready hdone hi
    refine ⟨hfinder, fun p s hs _ => ?_⟩
    match p with
    | 0 =>
      have hs : some Seat.zero = some s := hs
      cases hs
      rw [hfirst]
      rfl
    | 1 =>
      have hs : some ⟨1, by decide⟩ = some s := hs
      cases hs
      rw [hsecond]
      rfl
    | p + 2 => cases hs
  | j + 5 => cases hget

/-- An outsider with the key `9` signs a message about a block of the first member, which names the
first two members. -/
def forgedRun : List NodeEvent :=
  [.create 5, .setCommittee 0 sampleCommittee,
    .command 0 (.msg (.knowledge ⟨1, 1, 11, [0, 1], [some 9, some 9]⟩))]

/-- Neither member has signed anything, but the node takes both to know the block, and the block to
be qualified. -/
theorem forged_knowledge :
    ∃ n sy, Node.run Keys.sample forgedRun = .ok n ∧ n.syncers[0]? = some sy ∧
      sy.knowledges.qualified sy.myself Seat.zero = true ∧ ¬Authentic forgedRun 0 sy := by
  have hends : Ends (Node.run Keys.sample forgedRun) fun n => ∃ sy ∈ n.syncers[0]?,
      sy.knowledges.qualified sy.myself Seat.zero = true ∧ sy.myself = ⟨2, by decide⟩ ∧
      sy.name Seat.zero = 1 ∧ Has (sy.knowledges.knowledge Seat.zero ⟨1, by decide⟩) Seat.zero := by
    decide +kernel
  obtain ⟨n, hrun, sy, hsy, hqualified, hmyself, hname, hknown⟩ := hends
  refine ⟨n, sy, hrun, hsy, hqualified, fun hauth => ?_⟩
  obtain ⟨k, hk, -, p, q, -, -, hsigner, -⟩ := hauth.signed Seat.zero ⟨1, by decide⟩ Seat.zero
    (by rw [hmyself]; decide) (by rw [hmyself]; decide) hknown
  have hk : k = ⟨1, 1, 11, [0, 1], [some 9, some 9]⟩ := by simpa [forgedRun] using hk
  subst hk
  rw [hname] at hsigner
  exact absurd (mem_of_getElem? hsigner) (by decide)

end Zent.Consensus
