import Zent.Consensus.Signing

/-!
# What an event does to a machine

A machine that was started has a seat for the node, and one that was not has signed nothing; every
event keeps this (`Seated`). An event is the run of one handler, the end of `run`, or a shift that
changes nothing about signatures.
-/

namespace Zent.Consensus

open List AList Syncer

variable {K : Keys} {l l' : Local}

/-! ## The committee of a machine -/

/-- A machine that was started has a seat for the node. -/
structure Seated (sy : Syncer) : Prop where
  idle : sy.phase = .idle → sy.sigGiven = none
  active : sy.phase ≠ .idle → sy.runnable = true ∨ sy.done = true
  name : sy.phase ≠ .idle → sy.name sy.myself = sy.me
  member : sy.phase ≠ .idle → sy.me ∈ sy.members

theorem Seated.create (h : Int32) : Seated (createSyncer h) :=
  ⟨fun _ => rfl, fun hb => absurd rfl hb, fun hb => absurd rfl hb, fun hb => absurd rfl hb⟩

/-- Nothing is signed before the machine starts, so a handler keeps it seated. -/
theorem Frame.seated (h : Frame l l') (hs : Seated l.sy) (hb : l.sy.phase ≠ .idle) :
    Seated l'.sy where
  idle := fun hidle => absurd (h.phase.symm.trans hidle) hb
  active := fun _ => (hs.active hb).imp h.runnable.trans h.done
  name := fun _ => by rw [h.myself, h.me, h.name, hs.name hb]
  member := fun _ => by rw [h.me, h.members]; exact hs.member hb

/-- The node itself has a seat. -/
def HasSeat (sy : Syncer) : Prop := sy.names.lookup sy.myself = some sy.me ∧ sy.me ∈ sy.members

/-- Seating changes the tables of the committee only; once the node has a seat it keeps it, as
every later seat is another one. -/
theorem foldl_sit (best : Snapshot) (seats : List Seat) :
    ∀ p : Syncer × Bool, seats.Nodup → (p.2 = true → p.1.myself ∉ seats ∧ HasSeat p.1) →
      ∃ me myself members names b, seats.foldl (sit best) p =
        ({ p.1 with me := me, myself := myself, members := members, names := names }, b) ∧
        (b = true → names.lookup myself = some me ∧ me ∈ members) := by
  induction seats with
  | nil =>
    intro p _ hp
    exact ⟨p.1.me, p.1.myself, p.1.members, p.1.names, p.2, rfl, fun hb => (hp hb).2⟩
  | cons who rest ih =>
    intro p hnodup hp
    obtain ⟨hwho, hrest⟩ := nodup_cons.mp hnodup
    rw [foldl_cons]
    cases hm : best.miner who with
    | none =>
      have hsit : sit best p who = p := by simp only [sit, hm]
      rw [hsit]
      refine ih p hrest fun hb => ?_
      exact ⟨fun hin => (hp hb).1 (mem_cons_of_mem _ hin), (hp hb).2⟩
    | some m =>
      obtain ⟨a, ours⟩ := m
      have hseat : (sit best p who).2 = true →
          (sit best p who).1.myself ∉ rest ∧ HasSeat (sit best p who).1 := by
        intro hb
        simp only [sit, hm] at hb ⊢
        cases ours with
        | true =>
          exact ⟨hwho, lookup_insert _, mem_insert _ |>.mpr (.inl rfl)⟩
        | false =>
          rw [Bool.or_false] at hb
          obtain ⟨hnot, hname, hmem⟩ := hp hb
          have hne : p.1.myself ≠ who := fun heq => hnot (by simp [heq])
          exact ⟨fun hin => hnot (mem_cons_of_mem _ hin),
            (lookup_insert_ne hne).trans hname, mem_insert _ |>.mpr (.inr hmem)⟩
      obtain ⟨me, myself, members, names, b, hfold, hb⟩ := ih _ hrest hseat
      refine ⟨me, myself, members, names, b, ?_, hb⟩
      rw [hfold]
      simp only [sit, hm]

/-- Whatever an event other than a handler does to a machine, it is not about signatures. -/
structure Shift (l l' : Local) : Prop where
  last : l'.last = l.last
  log : l'.log = l.log
  height : l'.sy.height = l.sy.height
  sigGiven : l'.sy.sigGiven = l.sy.sigGiven
  agreed : l'.sy.agreed = l.sy.agreed
  forest : l'.sy.forest = l.sy.forest
  signed : l'.sy.signed = l.sy.signed
  heap : l'.sy.heap = l.sy.heap
  names : l.sy.sigGiven ≠ none → l'.sy.names = l.sy.names
  members : l.sy.sigGiven ≠ none → l'.sy.members = l.sy.members

theorem Shift.refl (l : Local) : Shift l l :=
  ⟨rfl, rfl, rfl, rfl, rfl, rfl, rfl, rfl, fun _ => rfl, fun _ => rfl⟩

/-- The committee is set before anything is signed. -/
theorem setCommittee_spec (best : Snapshot) (hs : Seated l.sy) :
    Shift l { l with sy := l.sy.setCommittee best } ∧ Seated (l.sy.setCommittee best) := by
  by_cases hoff : l.sy.runnable ∨ l.sy.done ∨ l.sy.height ≠ best.height + 1
  · have hsame : l.sy.setCommittee best = l.sy := by simp only [setCommittee, if_pos hoff]
    rw [hsame]
    exact ⟨.refl l, hs⟩
  have hidle : l.sy.phase = .idle := by
    by_contra hb
    exact hoff ((hs.active hb).imp id .inl)
  have hg := hs.idle hidle
  obtain ⟨me, myself, members, names, b, hfold, hb⟩ :=
    foldl_sit best (finRange CommitteeSize) (l.sy, false) (nodup_finRange _)
      (by simp)
  simp only [setCommittee, if_neg hoff, hfold]
  cases b with
  | false =>
    refine ⟨⟨rfl, rfl, rfl, rfl, rfl, rfl, rfl, rfl, fun h => absurd hg h,
      fun h => absurd hg h⟩, ?_⟩
    exact ⟨fun _ => hg, fun h => absurd hidle h, fun h => absurd hidle h, fun h => absurd hidle h⟩
  | true =>
    obtain ⟨hname, hmem⟩ := hb rfl
    refine ⟨⟨rfl, rfl, rfl, rfl, rfl, rfl, rfl, rfl, fun h => absurd hg h,
      fun h => absurd hg h⟩, ?_⟩
    refine ⟨fun _ => hg, fun _ => .inl rfl, fun _ => ?_, fun _ => hmem⟩
    show (names.lookup myself).getD 0 = me
    rw [hname]
    rfl

/-! ## An event -/

/-- A handler of the machine runs, for the event `e`. -/
inductive Runs (K : Keys) (l : Local) : NodeEvent → Local → Prop
  | command {i : Nat} {cmd : Command} {u : Local} {b : Bool} :
      process K l cmd = .ok (u, b) → Runs K l (.command i cmd) u
  | tick {i : Nat} {t : Tick} {u : Local} : repeater K t l = .ok u → Runs K l (.tick i t) u
  | drain {i : Nat} {msg : MsgSignature} {u : Local} {b : Bool} :
      signature K l msg = .ok (u, b) → Runs K l (.drain i msg) u
  | recheck {i : Nat} {u : Local} : reckconsensus K l = .ok u → Runs K l (.recheck i) u

/-- A relation that holds across whatever a handler does. -/
structure Spans (R : Local → Local → Prop) : Prop where
  refl : ∀ l, R l l
  trans : ∀ {l l' l''}, R l l' → R l' l'' → R l l''
  mild : ∀ {l l'}, Mild l l' → R l l'
  sign : ∀ l m, R l (l.sign m)
  given : ∀ {l l' owner own}, Given owner own l l' → l'.known = l.known → R l l'
  refused : ∀ {l l' a f}, Refused a f l l' → l'.known = l.known → R l l'
  taken : ∀ {l l' a f msg}, Taken a f msg l l' → l'.known = l.known → R l l'
  count : ∀ l r a script, R l { l with sy := l.sy.collect r a script }
  plant : ∀ l t tree, R l { l with sy := l.sy.plant t tree }
  dress : ∀ l pick, R l { l with sy := dressAll pick l.sy }

namespace Spans

variable {R : Local → Local → Prop} {b : Bool}

theorem ckconsensus (hR : Spans R) {dest : Dest}
    (h : Consensus.ckconsensus K dest l = .ok (l', b)) : R l l' := by
  rcases ckconsensus_spec h with ⟨rfl, -⟩ | ⟨m, u, own, -, -, -, -, -, -, -, -, hgiven, hknown, rfl⟩
  · exact hR.refl _
  · exact hR.trans (hR.trans (hR.given hgiven hknown) (hR.sign u m)) (hR.mild (.send _ _ _))

theorem consensus (hR : Spans R) {msg : MsgConsensus}
    (h : Consensus.consensus K l msg = .ok (l', b)) (hg : l.sy.sigGiven = none) : R l l' := by
  have hcast : ∀ m, R l (castSignature K l msg m) := fun m =>
    hR.trans (hR.sign l m) (hR.mild (.send _ _ _))
  rcases consensus_spec h hg with rfl | ⟨m, -, ⟨-, rfl⟩ | ⟨-, u, hgiven, hknown, rfl⟩⟩
  · exact hR.refl _
  · exact hcast m
  refine hR.trans (hR.trans (hcast m) (hR.given hgiven hknown)) ?_
  rcases countSender_spec msg u with heq | ⟨r, -, -, heq⟩
  · rw [heq]
    exact hR.refl u
  · rw [heq]
    exact hR.count u r _ _

theorem signature (hR : Spans R) {msg : MsgSignature}
    (h : Consensus.signature K l msg = .ok (l', b)) : R l l' := by
  rcases signature_spec h with rfl | ⟨a, f, -, hknown, href | htak⟩
  · exact hR.refl _
  · exact hR.refused href hknown
  · exact hR.taken htak hknown

/-- **Such a relation holds across every handler**, but for that of a knowledge message. -/
theorem runs (hR : Spans R) {e : NodeEvent} (h : Runs K l e l') :
    R l l' ∨ ∃ i k, e = .command i (.msg (.knowledge k)) ∧ onKnowledge K l k = .ok l' := by
  cases h with
  | @command i cmd u b h =>
    rcases process_spec h with hq | ⟨t, -, ht⟩ | ⟨u, dest, c, hq, hck⟩ | ⟨k, rfl, hk⟩ |
      ⟨k, -, hg, -, hc⟩ | ⟨k, -, hs⟩
    · exact .inl (hR.mild hq)
    · rcases newTree_spec ht with hq | ⟨-, tree, -, rfl⟩
      · exact .inl (hR.mild hq)
      · exact .inl (hR.plant l t tree)
    · exact .inl (hR.trans (hR.mild hq) (hR.ckconsensus hck))
    · exact .inr ⟨i, k, rfl, hk⟩
    · exact .inl (hR.consensus hc hg)
    · exact .inl (hR.signature hs)
  | tick h =>
    rcases repeater_spec h with hq | ⟨d, rfl, hq | hck | ⟨-, m, -, hq⟩⟩
    · exact .inl (hR.mild hq)
    · exact .inl (hR.trans (hR.dress l _) (hR.mild hq))
    · exact .inl (hR.trans (hR.dress l _) (hR.ckconsensus hck))
    · exact .inl (hR.trans (hR.trans (hR.dress l _) (hR.sign _ m)) (hR.mild hq))
  | drain h => exact .inl (hR.signature h)
  | recheck h =>
    rcases reckconsensus_spec h with rfl | ⟨m, -, -, -, hq⟩
    · exact .inl (hR.refl _)
    · exact .inl (hR.trans (hR.sign l m) (hR.mild hq))

end Spans

/-- No handler touches the frame. -/
theorem Runs.frame {e : NodeEvent} (h : Runs K l e l') : Frame l l' := by
  have hspans : Spans Frame :=
    { refl := .refl
      trans := .trans
      mild := fun h => h.frame
      sign := fun l _ => { Frame.refl l with }
      given := fun h _ => h.frame
      refused := fun h _ => h.frame
      taken := fun h _ => h.frame
      count := fun l _ _ _ => { Frame.refl l with }
      plant := fun l _ _ => { Frame.refl l with }
      dress := fun l _ => { Frame.refl l with } }
  rcases hspans.runs h with hframe | ⟨i, k, -, hk⟩
  · exact hframe
  · exact (onKnowledge_quiet hk).frame

theorem leaveIf_shift (l : Local) (b : Bool) : Shift l (l.leaveIf b) := by
  unfold Local.leaveIf
  split
  · exact { Shift.refl l with }
  · exact .refl l

theorem leaveIf_seated {b : Bool} (hs : Seated l.sy) (hb : l.sy.phase ≠ .idle) :
    Seated (l.leaveIf b).sy := by
  unfold Local.leaveIf
  split
  · exact ⟨nofun, fun _ => hs.active hb, fun _ => hs.name hb, fun _ => hs.member hb⟩
  · exact hs

theorem finish_seated (hs : Seated l.sy) (hb : l.sy.phase ≠ .idle) : Seated (finish l).sy := by
  unfold finish
  split
  · exact ⟨nofun, fun _ => .inr rfl, fun _ => hs.name hb, fun _ => hs.member hb⟩
  · exact ⟨nofun, fun _ => .inr rfl, fun _ => hs.name hb, fun _ => hs.member hb⟩

/-- What an event can do to a machine: nothing, set the committee or a flag, leave the loop, end
`run`, or run a handler, after which the loop may be left. -/
inductive Acts (K : Keys) (l : Local) : NodeEvent → Local → Prop
  | nothing {e : NodeEvent} : Acts K l e l
  | setCommittee {i : Nat} {best : Snapshot} :
      Acts K l (.setCommittee i best) { l with sy := l.sy.setCommittee best }
  | quit {i : Nat} : Acts K l (.quit i) { l with sy := { l.sy with done := true } }
  | leave {i : Nat} (hb : l.sy.phase ≠ .idle) : Acts K l (.leave i) (l.leaveIf true)
  | finish {i : Nat} (hdrain : l.sy.phase = .draining) : Acts K l (.finish i) (finish l)
  | runs {e : NodeEvent} {u : Local} (b : Bool) (hb : l.sy.phase ≠ .idle)
      (hloop : ∀ i cmd, e = .command i cmd → l.sy.phase = .looping) (h : Runs K l e u) :
      Acts K l e (u.leaveIf b)

theorem acts_of_act {e : NodeEvent} (h : act K e l = .ok l') : Acts K l e l' := by
  cases e with
  | create height =>
    cases h
    exact .nothing
  | setCommittee i best =>
    cases h
    exact .setCommittee
  | command i cmd =>
    simp only [act] at h
    split at h
    · rename_i hloop
      obtain ⟨⟨u, b⟩, hproc, h⟩ := Go.bind_eq_ok.mp h
      cases h
      exact .runs b (by simp [hloop]) (fun _ _ _ => hloop) (.command hproc)
    · cases h
      exact .nothing
  | tick i t =>
    simp only [act] at h
    split at h
    · rename_i hloop
      exact .runs false (by simp [hloop]) nofun (.tick h)
    · cases h
      exact .nothing
  | quit i =>
    cases h
    exact .quit
  | leave i =>
    cases h
    by_cases hleave : l.sy.phase = .looping ∧ l.sy.done
    · rw [decide_eq_true hleave]
      exact .leave (by simp [hleave.1])
    · rw [decide_eq_false hleave]
      exact .nothing
  | drain i msg =>
    simp only [act] at h
    split at h
    · rename_i hdrain
      obtain ⟨⟨u, b⟩, hsig, h⟩ := Go.bind_eq_ok.mp h
      cases h
      exact .runs false (by simp [hdrain]) nofun (.drain hsig)
    · cases h
      exact .nothing
  | finish i =>
    simp only [act] at h
    split at h
    · rename_i hdrain
      cases h
      exact .finish hdrain
    · cases h
      exact .nothing
  | recheck i =>
    simp only [act] at h
    split at h
    · rename_i hloop
      exact .runs false (by simp [hloop]) nofun (.recheck h)
    · cases h
      exact .nothing

/-- What an event does to the machine it happens to: nothing about signatures, the end of `run`,
or what one of its handlers does. -/
theorem act_spec {e : NodeEvent} (h : act K e l = .ok l') (hs : Seated l.sy) :
    (Shift l l' ∧ Seated l'.sy) ∨ (l.sy.phase = .draining ∧ l' = finish l) ∨
    ∃ u, l.sy.phase ≠ .idle ∧ Runs K l e u ∧ Shift u l' ∧ Seated l'.sy := by
  cases acts_of_act h with
  | nothing => exact .inl ⟨.refl l, hs⟩
  | setCommittee => exact .inl (setCommittee_spec _ hs)
  | quit => exact .inl ⟨{ Shift.refl l with }, hs.idle, fun _ => .inr rfl, hs.name, hs.member⟩
  | leave hb => exact .inl ⟨leaveIf_shift l _, leaveIf_seated hs hb⟩
  | finish hdrain => exact .inr (.inl ⟨hdrain, rfl⟩)
  | @runs _ u b hb _ hrun =>
    exact .inr (.inr ⟨u, hb, hrun, leaveIf_shift u b,
      leaveIf_seated (hrun.frame.seated hs hb) (by rw [hrun.frame.phase]; exact hb)⟩)

end Zent.Consensus
