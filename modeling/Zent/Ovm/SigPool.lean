import Mathlib.Data.List.Perm.Basic

/-!
# The pool that verifies signatures

The goroutines of `VerifySigs` (`omega/ovm/contractexec.go`). The caller walks over the
inputs and queues jobs, a dispatcher starts one verifier per job as long as there are
tokens in `verifiers`, and the first value in `final` is the verdict. A verifier gives its
token back before it reports a failure, and the dispatcher looks at the tokens without the
mutex. A schedule in which it looks while a verifier is inside the mutex can therefore end
in `true` although a job failed.
-/

namespace Zent.Ovm

open List Option

/-- What the caller does while it walks over the inputs. -/
inductive Instr (J : Type) where
  /-- `if finalized { break }`, `toverify++` -/
  | count
  /-- `queue <- j` -/
  | push (j : J)
  /-- `final <- false` -/
  | refuse
  /-- a run-time panic -/
  | die
  deriving DecidableEq, Repr

/-- Where the goroutine that reads `queue` stands. -/
inductive Dispatcher (J : Type) where
  /-- at the `select` -/
  | select
  /-- has a job, `finalized` not read yet -/
  | received (j : J)
  /-- before `<-verifiers` -/
  | waiting (j : J)
  /-- the queue is closed and empty -/
  | drained
  /-- has read that `finalized` is not set, before `len(verifiers)` -/
  | looking
  /-- before `final <- true` -/
  | agreed
  | returned
  deriving DecidableEq, Repr

/-- Where the verifier that holds the mutex stands. -/
inductive Holder (J : Type) where
  /-- its token is back in `verifiers` -/
  | entered (j : J)
  /-- `false` is in `final`, `finalized` not set yet -/
  | reported
  deriving DecidableEq, Repr

/-- The state the goroutines share. -/
structure Pool (J : Type) where
  /-- what the walk over the inputs has still to do -/
  prog : List (Instr J)
  queue : List J
  closed : Bool
  allrun : Bool
  dispatcher : Dispatcher J
  /-- `len(verifiers)` -/
  verifiers : Nat
  /-- verifiers that have not got the mutex yet -/
  running : List J
  mtx : Option (Holder J)
  toverify : Int
  finalized : Bool
  final : List Bool
  deriving DecidableEq, Repr

/-- Whose turn it is. -/
inductive Act where
  | main
  | dispatcher
  /-- the verifier at this place of `running` gets the mutex -/
  | enter (n : Nat)
  /-- the verifier that holds the mutex goes on -/
  | report
  deriving DecidableEq, Repr

section

variable {J : Type}

/-- The pool before the first input. -/
def Pool.start (concurrency : Nat) (prog : List (Instr J)) : Pool J where
  prog := prog
  queue := []
  closed := false
  allrun := false
  dispatcher := .select
  verifiers := concurrency
  running := []
  mtx := none
  toverify := 0
  finalized := false
  final := []

variable (concurrency : Nat) (ok : J → Bool) (s : Pool J)

/-- `final <- b`; the channel has room for two. -/
def Pool.send (b : Bool) : Option (Pool J) :=
  if s.final.length < 2 then some { s with final := s.final ++ [b] } else none

/-- The caller. Where the walk is over it sets `allrun`, closes the queue and waits. -/
def Pool.main : Option (Pool J) :=
  match s.prog with
  | [] =>
    if s.allrun then
      if s.closed then none else some { s with closed := true }
    else some { s with allrun := true }
  | .count :: rest =>
    if s.finalized then some { s with prog := [] }
    else some { s with toverify := s.toverify + 1, prog := rest }
  | .push j :: rest =>
    if s.queue.length < concurrency then some { s with queue := s.queue ++ [j], prog := rest }
    else if concurrency = 0 then
      -- an unbuffered channel hands the job to a dispatcher that waits for it
      match s.dispatcher with
      | .select => some { s with dispatcher := .received j, prog := rest }
      | _ => none
    else none
  | .refuse :: _ => (s.send false).map fun s => { s with prog := [] }
  | .die :: _ => none

/-- The goroutine that reads `queue`. -/
def Pool.dispatch : Option (Pool J) :=
  match s.dispatcher with
  | .select =>
    match s.queue with
    | j :: rest => some { s with dispatcher := .received j, queue := rest }
    | [] => if s.closed then some { s with dispatcher := .drained } else none
  | .received j => some { s with dispatcher := if s.finalized then .select else .waiting j }
  | .waiting j =>
    match s.verifiers with
    | 0 => none
    | n + 1 =>
      some { s with verifiers := n, running := s.running ++ [j], dispatcher := .select }
  | .drained => some { s with dispatcher := if s.finalized then .returned else .looking }
  | .looking =>
    some { s with dispatcher := if s.verifiers = concurrency then .agreed else .returned }
  | .agreed => (s.send true).map fun s => { s with dispatcher := .returned }
  | .returned => none

/-- A verifier gets the mutex, and gives its token back unless the verdict is there. -/
def Pool.enter (n : Nat) (s : Pool J) : Option (Pool J) :=
  match s.mtx, s.running[n]? with
  | none, some j =>
    if s.finalized then some { s with running := s.running.eraseIdx n }
    else
      some { s with
        verifiers := s.verifiers + 1, running := s.running.eraseIdx n, mtx := some (.entered j) }
  | _, _ => none

/-- What the verifier that holds the mutex does with its result. -/
def Pool.report : Option (Pool J) :=
  match s.mtx with
  | none => none
  | some (.entered j) =>
    if ok j then
      (if s.allrun && s.toverify == 1 then s.send true else some s).map fun s =>
        { s with toverify := s.toverify - 1, mtx := none }
    else (s.send false).map fun s => { s with mtx := some .reported }
  | some .reported => some { s with finalized := true, mtx := none }

/-- One step of the pool; `none` where the goroutine whose turn it is cannot go on. -/
def Pool.step : Act → Option (Pool J)
  | .main => s.main concurrency
  | .dispatcher => s.dispatch concurrency
  | .enter n => s.enter n
  | .report => s.report ok

def Pool.run (sched : List Act) :
    Option (Pool J) :=
  sched.foldlM (Pool.step concurrency ok) s

/-- `res := <-final` -/
def Pool.verdict : Option Bool := if s.closed then s.final.head? else none

/-- The dispatcher does not look at the tokens while a verifier holds the mutex. -/
def Pool.undisturbed : Act → Bool
  | .dispatcher =>
    match s.dispatcher with
    | .looking => s.mtx.isNone
    | _ => true
  | _ => true

/-- All steps of a schedule are undisturbed. -/
def Pool.calm (concurrency : Nat) (ok : J → Bool) (s : Pool J) : List Act → Bool
  | [] => true
  | a :: sched =>
    s.undisturbed a &&
      match s.step concurrency ok a with
      | none => true
      | some s' => s'.calm concurrency ok sched

/-! ## What a step does -/

/-- The steps of the pool, each with what it changes. -/
inductive Pool.Moves (concurrency : Nat) (ok : J → Bool) (s : Pool J) : Act → Pool J → Prop where
  | ended (hprog : s.prog = []) (hallrun : s.allrun = false) :
    s.Moves concurrency ok .main { s with allrun := true }
  | close (hprog : s.prog = []) (hallrun : s.allrun = true) (hclosed : s.closed = false) :
    s.Moves concurrency ok .main { s with closed := true }
  | stop {rest : List (Instr J)} (hprog : s.prog = .count :: rest) (hfin : s.finalized = true) :
    s.Moves concurrency ok .main { s with prog := [] }
  | count {rest : List (Instr J)} (hprog : s.prog = .count :: rest) (hfin : s.finalized = false) :
    s.Moves concurrency ok .main { s with toverify := s.toverify + 1, prog := rest }
  | push {j : J} {rest : List (Instr J)} (hprog : s.prog = .push j :: rest) :
    s.Moves concurrency ok .main { s with queue := s.queue ++ [j], prog := rest }
  | hand {j : J} {rest : List (Instr J)} (hprog : s.prog = .push j :: rest)
      (hd : s.dispatcher = .select) :
    s.Moves concurrency ok .main { s with dispatcher := .received j, prog := rest }
  | refuse {rest : List (Instr J)} (hprog : s.prog = .refuse :: rest) :
    s.Moves concurrency ok .main { s with final := s.final ++ [false], prog := [] }
  | receive {j : J} {rest : List J} (hd : s.dispatcher = .select) (hqueue : s.queue = j :: rest) :
    s.Moves concurrency ok .dispatcher { s with dispatcher := .received j, queue := rest }
  | drain (hd : s.dispatcher = .select) (hqueue : s.queue = []) (hclosed : s.closed = true) :
    s.Moves concurrency ok .dispatcher { s with dispatcher := .drained }
  | drop {j : J} (hd : s.dispatcher = .received j) (hfin : s.finalized = true) :
    s.Moves concurrency ok .dispatcher { s with dispatcher := .select }
  | wait {j : J} (hd : s.dispatcher = .received j) (hfin : s.finalized = false) :
    s.Moves concurrency ok .dispatcher { s with dispatcher := .waiting j }
  | spawn {j : J} {n : Nat} (hd : s.dispatcher = .waiting j) (hn : s.verifiers = n + 1) :
    s.Moves concurrency ok .dispatcher
      { s with verifiers := n, running := s.running ++ [j], dispatcher := .select }
  | look (hd : s.dispatcher = .drained) (hfin : s.finalized = false) :
    s.Moves concurrency ok .dispatcher { s with dispatcher := .looking }
  | agree (hd : s.dispatcher = .looking) (hfull : s.verifiers = concurrency) :
    s.Moves concurrency ok .dispatcher { s with dispatcher := .agreed }
  | leave (hd : s.dispatcher = .drained ∧ s.finalized = true ∨
      s.dispatcher = .looking ∧ s.verifiers ≠ concurrency) :
    s.Moves concurrency ok .dispatcher { s with dispatcher := .returned }
  | answer (hd : s.dispatcher = .agreed) :
    s.Moves concurrency ok .dispatcher
      { s with final := s.final ++ [true], dispatcher := .returned }
  | discard {n : Nat} {j : J} (hmtx : s.mtx = none) (hn : s.running[n]? = some j)
      (hfin : s.finalized = true) :
    s.Moves concurrency ok (.enter n) { s with running := s.running.eraseIdx n }
  | enter {n : Nat} {j : J} (hmtx : s.mtx = none) (hn : s.running[n]? = some j)
      (hfin : s.finalized = false) :
    s.Moves concurrency ok (.enter n) { s with
      verifiers := s.verifiers + 1, running := s.running.eraseIdx n, mtx := some (.entered j) }
  | pass {j : J} (hmtx : s.mtx = some (.entered j)) (hok : ok j = true)
      (hmore : ¬ (s.allrun = true ∧ s.toverify = 1)) :
    s.Moves concurrency ok .report { s with toverify := s.toverify - 1, mtx := none }
  | last {j : J} (hmtx : s.mtx = some (.entered j)) (hok : ok j = true)
      (hlast : s.allrun = true ∧ s.toverify = 1) :
    s.Moves concurrency ok .report
      { s with final := s.final ++ [true], toverify := s.toverify - 1, mtx := none }
  | fail {j : J} (hmtx : s.mtx = some (.entered j)) :
    s.Moves concurrency ok .report { s with final := s.final ++ [false], mtx := some .reported }
  | finalize (hmtx : s.mtx = some .reported) :
    s.Moves concurrency ok .report { s with finalized := true, mtx := none }

section

variable {concurrency : Nat} {ok : J → Bool} {s s' : Pool J} {a : Act}

/-- A report that goes through has been put at the end of `final`. -/
theorem send_eq_some {b : Bool} {f : Pool J → Pool J} (h : (s.send b).map f = some s') :
    s' = f { s with final := s.final ++ [b] } := by
  obtain ⟨t, ht, rfl⟩ := map_eq_some_iff.mp h
  rw [Pool.send] at ht
  split at ht
  · rw [some_inj.mp ht]
  · cases ht

/-- **Every step is one of these moves.** Whatever the goroutine whose turn it is does is a
constructor, with the guards under which it comes to it. -/
theorem moves_of_step (hstep : s.step concurrency ok a = some s') :
    s.Moves concurrency ok a s' := by
  cases a with
  | main =>
    simp only [Pool.step, Pool.main] at hstep
    split at hstep
    case h_1 hprog =>
      split at hstep
      case isTrue hallrun =>
        split at hstep <;> cases hstep
        exact .close hprog hallrun (Bool.eq_false_iff.mpr ‹_›)
      case isFalse hallrun =>
        cases hstep
        exact .ended hprog (Bool.eq_false_iff.mpr hallrun)
    case h_2 hprog =>
      split at hstep
      case isTrue hfin =>
        cases hstep
        exact .stop hprog hfin
      case isFalse hfin =>
        cases hstep
        exact .count hprog (Bool.eq_false_iff.mpr hfin)
    case h_3 hprog =>
      split at hstep
      · cases hstep
        exact .push hprog
      split at hstep
      · split at hstep
        case h_1 hd =>
          cases hstep
          exact .hand hprog hd
        · cases hstep
      · cases hstep
    case h_4 hprog =>
      rw [send_eq_some hstep]
      exact .refuse hprog
    · cases hstep
  | dispatcher =>
    simp only [Pool.step, Pool.dispatch] at hstep
    split at hstep
    case h_1 hd =>
      split at hstep
      case h_1 hqueue =>
        cases hstep
        exact .receive hd hqueue
      case h_2 hqueue =>
        split at hstep <;> cases hstep
        exact .drain hd hqueue ‹_›
    case h_2 hd =>
      cases hstep
      split
      case isTrue hfin => exact .drop hd hfin
      case isFalse hfin => exact .wait hd (Bool.eq_false_iff.mpr hfin)
    case h_3 hd =>
      split at hstep <;> cases hstep
      exact .spawn hd ‹_›
    case h_4 hd =>
      cases hstep
      split
      case isTrue hfin => exact .leave (.inl ⟨hd, hfin⟩)
      case isFalse hfin => exact .look hd (Bool.eq_false_iff.mpr hfin)
    case h_5 hd =>
      cases hstep
      split
      case isTrue hfull => exact .agree hd hfull
      case isFalse hfull => exact .leave (.inr ⟨hd, hfull⟩)
    case h_6 hd =>
      rw [send_eq_some hstep]
      exact .answer hd
    · cases hstep
  | enter n =>
    simp only [Pool.step, Pool.enter] at hstep
    split at hstep
    case h_1 hmtx hn =>
      split at hstep
      case isTrue hfin =>
        cases hstep
        exact .discard hmtx hn hfin
      case isFalse hfin =>
        cases hstep
        exact .enter hmtx hn (Bool.eq_false_iff.mpr hfin)
    · cases hstep
  | report =>
    simp only [Pool.step, Pool.report] at hstep
    split at hstep
    · cases hstep
    case h_2 hmtx =>
      split at hstep
      case isTrue hok =>
        split at hstep
        case isTrue hlast =>
          rw [send_eq_some hstep]
          exact .last hmtx hok (by simpa using hlast)
        case isFalse hmore =>
          cases hstep
          exact .pass hmtx hok (by simpa using hmore)
      · rw [send_eq_some hstep]
        exact .fail hmtx
    case h_3 hmtx =>
      cases hstep
      exact .finalize hmtx

end

/-! ## Jobs -/

/-- The jobs a walk queues. -/
def pushed : List (Instr J) → List J
  | [] => []
  | .push j :: rest => j :: pushed rest
  | _ :: rest => pushed rest

/-- How many of its jobs a walk adds to `toverify`. -/
def counted : List (Instr J) → Nat
  | [] => 0
  | .count :: rest => counted rest + 1
  | _ :: rest => counted rest

theorem pushed_append (l l' : List (Instr J)) : pushed (l ++ l') = pushed l ++ pushed l' := by
  induction l with
  | nil => rfl
  | cons i l ih => cases i <;> simp [pushed, ih]

theorem counted_append (l l' : List (Instr J)) : counted (l ++ l') = counted l + counted l' := by
  induction l with
  | nil => simp [counted]
  | cons i l ih =>
    cases i with
    | count =>
      simp only [cons_append, counted, ih]
      omega
    | _ => simp only [cons_append, counted, ih]

/-- The job the dispatcher has in its hands. -/
def Dispatcher.held : Dispatcher J → List J
  | .received j => [j]
  | .waiting j => [j]
  | _ => []

/-- The job whose result the holder of the mutex has not reported yet. -/
def unreported : Option (Holder J) → List J
  | some (.entered j) => [j]
  | _ => []

/-- Jobs that are queued but not reported. -/
def Pool.busy (s : Pool J) : List J :=
  s.queue ++ (s.dispatcher.held ++ (s.running ++ unreported s.mtx))

theorem busy_entered {s : Pool J} {j : J} (hmtx : s.mtx = some (.entered j)) :
    s.busy.Perm (j :: (s.queue ++ (s.dispatcher.held ++ s.running))) := by
  simp only [Pool.busy, hmtx, unreported, ← append_assoc]
  exact perm_append_singleton j _

/-- The walk refuses nothing and does not panic. -/
def Clean (prog : List (Instr J)) : Prop := Instr.refuse ∉ prog ∧ Instr.die ∉ prog

/-- Nothing is refused and every job is good. -/
def Good (ok : J → Bool) (prog : List (Instr J)) : Prop :=
  Clean prog ∧ ∀ j ∈ pushed prog, ok j = true

/-- The queue has been seen closed and empty. -/
def Dispatcher.past : Dispatcher J → Bool
  | .select | .received _ | .waiting _ => false
  | _ => true

/-- The accounts of a walk: a job is good or busy, and `toverify` is ahead of the busy jobs by
what is counted and not queued. -/
structure Balanced (ok : J → Bool) (done : List (Instr J)) (toverify : Int) (busy : List J) :
    Prop where
  settled : ∀ j ∈ pushed done, ok j = true ∨ j ∈ busy
  owing : toverify + (pushed done).length = counted done + busy.length

variable {ok : J → Bool} {done : List (Instr J)} {toverify : Int} {busy busy' : List J} {j : J}

theorem Balanced.perm (h : Balanced ok done toverify busy) (hp : busy.Perm busy') :
    Balanced ok done toverify busy' where
  settled := fun j hj => (h.settled j hj).imp_right hp.mem_iff.mp
  owing := hp.length_eq ▸ h.owing

theorem Balanced.count (h : Balanced ok done toverify busy) :
    Balanced ok (done ++ [.count]) (toverify + 1) busy where
  settled := by simpa [pushed_append, pushed] using h.settled
  owing := by
    have := h.owing
    simp only [pushed_append, counted_append, pushed, counted, append_nil]
    omega

theorem Balanced.push (h : Balanced ok done toverify busy) :
    Balanced ok (done ++ [.push j]) toverify (j :: busy) where
  settled := by
    intro j' hj'
    simp only [pushed_append, pushed, mem_append, mem_singleton] at hj'
    rcases hj' with hj' | rfl
    · exact (h.settled j' hj').imp_right (mem_cons_of_mem j)
    · exact .inr mem_cons_self
  owing := by
    have := h.owing
    simp only [pushed_append, counted_append, pushed, counted, length_append,
      length_cons, length_nil]
    omega

theorem Balanced.report (h : Balanced ok done toverify (j :: busy)) (hj : ok j = true) :
    Balanced ok done (toverify - 1) busy where
  settled := by
    intro j' hj'
    rcases h.settled j' hj' with hok | hb
    · exact .inl hok
    · rcases mem_cons.mp hb with rfl | hb
      · exact .inl hj
      · exact .inr hb
  owing := by
    have := h.owing
    simp only [length_cons] at this
    omega

/-! ## Before the first report -/

/-- What holds while `final` is empty, where `done` is the part of the walk that is over. -/
structure Live (concurrency : Nat) (ok : J → Bool) (done : List (Instr J)) (s : Pool J) :
    Prop where
  silent : s.final = []
  unset : s.finalized = false
  inside : s.mtx ≠ some .reported
  clean : Clean done
  balanced : Balanced ok done s.toverify s.busy
  /-- a verifier that runs holds a token -/
  tokens : s.verifiers + s.running.length = concurrency
  ended : s.allrun = true → s.prog = []
  closing : s.closed = true → s.allrun = true
  past : s.dispatcher.past = true → s.closed = true ∧ s.queue = []
  agreed : s.dispatcher = .agreed → s.busy = []

variable {concurrency : Nat} {prog : List (Instr J)} {s s' : Pool J} {sched : List Act}

theorem live_start : Live concurrency ok [] (Pool.start concurrency prog) where
  silent := rfl
  unset := rfl
  inside := nofun
  clean := by simp [Clean]
  balanced := ⟨nofun, rfl⟩
  tokens := rfl
  ended := nofun
  closing := nofun
  past := nofun
  agreed := nofun

/-- Where a pool stands: the first report is a failure, or it is a success and the walk is
good, or there is none yet. -/
def Pool.Stands (concurrency : Nat) (ok : J → Bool) (prog : List (Instr J)) (s : Pool J) : Prop :=
  s.final.head? = some false ∨ (s.final.head? = some true ∧ Good ok prog) ∨
    ∃ done, prog = done ++ s.prog ∧ Live concurrency ok done s

theorem Clean.snoc {i : Instr J} (h : Clean done) (hr : i ≠ .refuse) (hd : i ≠ .die) :
    Clean (done ++ [i]) := by
  simp only [Clean, mem_append, mem_singleton, not_or]
  exact ⟨⟨h.1, hr.symm⟩, h.2, hd.symm⟩

/-- While the walk goes on, the dispatcher has not seen the end of the queue. -/
theorem Live.early (h : Live concurrency ok done s) (hprog : s.prog ≠ []) :
    s.dispatcher.past = false :=
  Bool.eq_false_iff.mpr fun hp => hprog (h.ended (h.closing (h.past hp).1))

/-- A walk is good where all that is busy is good. -/
theorem Live.good (h : Live concurrency ok done s) (hbusy : ∀ j ∈ s.busy, ok j = true) :
    Good ok done :=
  ⟨h.clean, fun j hj => (h.balanced.settled j hj).elim id (hbusy j)⟩

variable {a : Act}

/-- A step before the first report. The dispatcher comes to `agreed` with nothing busy: all
tokens are back, and no verifier is inside the mutex. A verifier announces success only where
its own job is the last busy one. -/
theorem Live.move (h : Live concurrency ok done s)
    (hall : counted (done ++ s.prog) = (pushed (done ++ s.prog)).length)
    (hcalm : s.undisturbed a = true) (hmove : s.Moves concurrency ok a s') :
    s'.Stands concurrency ok (done ++ s.prog) := by
  have hhead (b : Bool) : (s.final ++ [b]).head? = some b := by rw [h.silent]; rfl
  have hunset {P : Prop} (hfin : s.finalized = true) : P := by simp [h.unset] at hfin
  cases hmove with
  | ended hprog _ =>
    exact .inr (.inr ⟨done, rfl, { h with ended := fun _ => hprog, closing := fun _ => rfl }⟩)
  | close hprog hallrun _ =>
    exact .inr (.inr ⟨done, rfl, { h with
      closing := fun _ => hallrun, past := fun hp => ⟨rfl, (h.past hp).2⟩ }⟩)
  | stop _ hfin => exact hunset hfin
  | count hprog _ =>
    refine .inr (.inr ⟨done ++ [.count], by simp [hprog], { h with
      clean := h.clean.snoc (by simp) (by simp)
      balanced := h.balanced.count
      ended := fun ho => ?_ }⟩)
    simp [h.ended ho] at hprog
  | @push j rest hprog =>
    have hearly := h.early (by simp [hprog])
    refine .inr (.inr ⟨done ++ [.push j], by simp [hprog], { h with
      clean := h.clean.snoc (by simp) (by simp)
      balanced := h.balanced.push.perm ?_
      ended := fun ho => by simp [h.ended ho] at hprog
      past := fun hp => by simp [hearly] at hp
      agreed := fun ha => ?_ }⟩)
    · simp only [Pool.busy, append_assoc, singleton_append]
      exact perm_middle.symm
    · simp only at ha
      simp [ha, Dispatcher.past] at hearly
  | @hand j rest hprog hd =>
    refine .inr (.inr ⟨done ++ [.push j], by simp [hprog], { h with
      clean := h.clean.snoc (by simp) (by simp)
      balanced := h.balanced.push.perm ?_
      ended := fun ho => by simp [h.ended ho] at hprog
      past := nofun
      agreed := nofun }⟩)
    simp only [Pool.busy, hd, Dispatcher.held, nil_append, singleton_append]
    exact perm_middle.symm
  | refuse _ => exact .inl (hhead false)
  | receive hd hqueue =>
    refine .inr (.inr ⟨done, rfl, { h with
      balanced := h.balanced.perm ?_, past := nofun, agreed := nofun }⟩)
    simp only [Pool.busy, hqueue, hd, Dispatcher.held, nil_append, cons_append]
    exact perm_middle.symm
  | drain hd hqueue hclosed =>
    refine .inr (.inr ⟨done, rfl, { h with
      balanced := h.balanced.perm ?_, past := fun _ => ⟨hclosed, hqueue⟩, agreed := nofun }⟩)
    simp [Pool.busy, hd, Dispatcher.held]
  | drop _ hfin => exact hunset hfin
  | wait hd _ =>
    refine .inr (.inr ⟨done, rfl, { h with
      balanced := h.balanced.perm ?_, past := nofun, agreed := nofun }⟩)
    simp [Pool.busy, hd, Dispatcher.held]
  | spawn hd hn =>
    have htokens := h.tokens
    refine .inr (.inr ⟨done, rfl, { h with
      balanced := h.balanced.perm ?_
      tokens := by simp only [length_append, length_singleton]; omega
      past := nofun
      agreed := nofun }⟩)
    simp only [Pool.busy, hd, Dispatcher.held, nil_append, append_assoc, singleton_append]
    exact List.Perm.append_left _ perm_middle.symm
  | look hd _ =>
    have hpast := h.past (by simp [hd, Dispatcher.past])
    refine .inr (.inr ⟨done, rfl, { h with
      balanced := h.balanced.perm ?_, past := fun _ => hpast, agreed := nofun }⟩)
    simp [Pool.busy, hd, Dispatcher.held]
  | agree hd hfull =>
    have hpast := h.past (by simp [hd, Dispatcher.past])
    have hmtx : s.mtx = none := by simpa [Pool.undisturbed, hd] using hcalm
    have hrunning : s.running = [] := by
      have := h.tokens
      exact length_eq_zero_iff.mp (by omega)
    refine .inr (.inr ⟨done, rfl, { h with
      balanced := h.balanced.perm ?_, past := fun _ => hpast, agreed := fun _ => ?_ }⟩)
    · simp [Pool.busy, hd, Dispatcher.held]
    · simp [Pool.busy, hpast.2, hrunning, hmtx, Dispatcher.held, unreported]
  | leave hd =>
    obtain ⟨hd, -⟩ := hd.resolve_left fun hd => hunset hd.2
    have hpast := h.past (by simp [hd, Dispatcher.past])
    refine .inr (.inr ⟨done, rfl, { h with
      balanced := h.balanced.perm ?_, past := fun _ => hpast, agreed := nofun }⟩)
    simp [Pool.busy, hd, Dispatcher.held]
  | answer hd =>
    have hover := h.ended (h.closing (h.past (by simp [hd, Dispatcher.past])).1)
    refine .inr (.inl ⟨hhead true, ?_⟩)
    rw [hover, append_nil]
    exact h.good (by simp [h.agreed hd])
  | discard _ _ hfin => exact hunset hfin
  | @enter n j hmtx hn _ =>
    obtain ⟨hlt, hj⟩ := List.getElem?_eq_some_iff.mp hn
    have hrunning : s.running.Perm (j :: s.running.eraseIdx n) := by
      rw [← hj]
      exact (getElem_cons_eraseIdx_perm hlt).symm
    have hlen := hrunning.length_eq
    simp only [length_cons] at hlen
    have hbusy : s.busy.Perm
        (s.queue ++ (s.dispatcher.held ++ (s.running.eraseIdx n ++ [j]))) := by
      simp only [Pool.busy, hmtx, unreported, append_nil]
      refine List.Perm.append_left _ (List.Perm.append_left _ (hrunning.trans ?_))
      exact (perm_append_singleton j _).symm
    have htokens := h.tokens
    refine .inr (.inr ⟨done, rfl, { h with
      inside := by simp
      balanced := h.balanced.perm hbusy
      tokens := by simp only; omega
      agreed := fun ha => ?_ }⟩)
    have := hbusy.length_eq
    simp [h.agreed ha] at this
  | @pass j hmtx hok _ =>
    have hbusy := busy_entered hmtx
    refine .inr (.inr ⟨done, rfl, { h with
      inside := by simp
      balanced := ((h.balanced.perm hbusy).report hok).perm ?_
      agreed := fun ha => ?_ }⟩)
    · simp [Pool.busy, unreported]
    · have := hbusy.length_eq
      simp [h.agreed ha] at this
  | @last j hmtx hok hlast =>
    have hover := h.ended hlast.1
    rw [hover, append_nil] at hall ⊢
    refine .inr (.inl ⟨hhead true, h.good fun j' hj' => ?_⟩)
    have hone : s.busy.length = 1 := by
      have := h.balanced.owing
      omega
    have hbusy := busy_entered hmtx
    have hnil : s.queue ++ (s.dispatcher.held ++ s.running) = [] := by
      have := hbusy.length_eq
      rw [hone, length_cons] at this
      exact length_eq_zero_iff.mp (by omega)
    rw [hnil] at hbusy
    rw [mem_singleton.mp (hbusy.mem_iff.mp hj')]
    exact hok
  | fail _ => exact .inl (hhead false)
  | finalize hmtx => exact absurd hmtx h.inside

/-! ## Runs -/

/-- What is in `final` stays. -/
theorem step_final (hstep : s.step concurrency ok a = some s') : s.final <+: s'.final := by
  cases moves_of_step hstep <;> first | exact prefix_rfl | exact prefix_append _ _

theorem Pool.Stands.step (h : s.Stands concurrency ok prog)
    (hall : counted prog = (pushed prog).length) (hcalm : s.undisturbed a = true)
    (hstep : s.step concurrency ok a = some s') : s'.Stands concurrency ok prog := by
  have hkeep {b : Bool} (hb : s.final.head? = some b) : s'.final.head? = some b := by
    obtain ⟨l, hl⟩ := step_final hstep
    rw [← hl]
    cases hf : s.final with
    | nil => simp [hf] at hb
    | cons c rest => simpa [hf] using hb
  rcases h with hfalse | ⟨htrue, hgood⟩ | ⟨done, rfl, h⟩
  · exact .inl (hkeep hfalse)
  · exact .inr (.inl ⟨hkeep htrue, hgood⟩)
  · exact h.move hall hcalm (moves_of_step hstep)

theorem Pool.run_cons : s.run concurrency ok (a :: sched) = some s' ↔
    ∃ t, s.step concurrency ok a = some t ∧ t.run concurrency ok sched = some s' := by
  rw [Pool.run, foldlM_cons, bind_eq_bind, bind_eq_some_iff]
  rfl

theorem Pool.Stands.run (h : s.Stands concurrency ok prog)
    (hall : counted prog = (pushed prog).length) (hcalm : s.calm concurrency ok sched = true)
    (hrun : s.run concurrency ok sched = some s') : s'.Stands concurrency ok prog := by
  induction sched generalizing s with
  | nil =>
    cases hrun
    exact h
  | cons a sched ih =>
    obtain ⟨t, ht, hrun⟩ := Pool.run_cons.mp hrun
    simp only [Pool.calm, ht, Bool.and_eq_true] at hcalm
    exact ih (h.step hall hcalm.1 ht) hcalm.2 hrun

/-- In a calm run with all jobs counted, the verdict `true` means a good walk. -/
theorem verdict_true (hall : counted prog = (pushed prog).length)
    (hcalm : (Pool.start concurrency prog).calm concurrency ok sched = true)
    (hrun : (Pool.start concurrency prog).run concurrency ok sched = some s)
    (hverdict : s.verdict = some true) : Good ok prog := by
  have hstart : (Pool.start concurrency prog).Stands concurrency ok prog :=
    .inr (.inr ⟨[], rfl, live_start⟩)
  have hhead : s.final.head? = some true := by
    simp only [Pool.verdict] at hverdict
    split at hverdict
    · exact hverdict
    · cases hverdict
  rcases hstart.run hall hcalm hrun with hfalse | ⟨-, hgood⟩ | ⟨done, -, h⟩
  · simp [hhead] at hfalse
  · exact hgood
  · simp [h.silent] at hhead

/-- A single bad job and the verdict `true`: the dispatcher looks at the tokens between
`verifiers <- true` and `final <- false`. -/
example : ((Pool.start 1 [.count, .push ()]).run 1 (fun _ => false)
    [.main, .main, .main, .main, .dispatcher, .dispatcher, .dispatcher, .enter 0,
      .dispatcher, .dispatcher, .dispatcher, .dispatcher]).bind Pool.verdict = some true := by
  decide

/-- Without a race: a job that is not counted makes `toverify` run ahead, and the verdict does
not wait for the bad job. -/
example : ((Pool.start 2 [.push 0, .count, .push 1, .count, .push 2]).run 2 (fun j => j != 2)
    [.main, .dispatcher, .dispatcher, .dispatcher, .main, .main, .main, .main, .main, .main,
      .dispatcher, .dispatcher, .dispatcher, .enter 0, .report, .enter 0, .report]).bind
        Pool.verdict = some true := by
  decide

/-! ## Nothing to do -/

/-- There is nothing to do, and nothing has been refused. -/
structure Pool.Idle (s : Pool J) : Prop where
  prog : s.prog = []
  busy : s.busy = []
  mtx : s.mtx = none
  final : ∀ b ∈ s.final, b = true

theorem Pool.Idle.step (h : s.Idle) (hstep : s.step concurrency ok a = some s') : s'.Idle := by
  obtain ⟨hprog, hbusy, hmtx, hfinal⟩ := h
  have hparts := hbusy
  simp only [Pool.busy, append_eq_nil_iff] at hparts
  obtain ⟨hqueue, hheld, hrunning, -⟩ := hparts
  -- the caller has nothing to do but to close the queue, and the dispatcher nothing but to agree
  cases moves_of_step hstep with
  | ended _ _ | close _ _ _ => exact ⟨hprog, hbusy, hmtx, hfinal⟩
  | drain _ _ _ | look _ _ | agree _ _ | leave _ =>
    exact ⟨hprog, by simp [Pool.busy, hqueue, hrunning, hmtx, unreported, Dispatcher.held], hmtx,
      hfinal⟩
  | answer _ =>
    refine ⟨hprog, by simp [Pool.busy, hqueue, hrunning, hmtx, unreported, Dispatcher.held],
      hmtx, ?_⟩
    simpa [or_imp, forall_and] using hfinal
  | _ => simp_all [Dispatcher.held]

theorem Pool.Idle.run (h : s.Idle) (hrun : s.run concurrency ok sched = some s') : s'.Idle := by
  induction sched generalizing s with
  | nil =>
    cases hrun
    exact h
  | cons a sched ih =>
    obtain ⟨t, ht, hrun⟩ := Pool.run_cons.mp hrun
    exact ih (h.step ht) hrun

/-- A pool with nothing to do never refuses. -/
theorem verdict_idle (h : s.Idle) (hrun : s.run concurrency ok sched = some s') :
    s'.verdict ≠ some false := by
  intro hverdict
  unfold Pool.verdict at hverdict
  split at hverdict
  · exact absurd ((h.run hrun).final _ (mem_of_head? hverdict)) (by simp)
  · cases hverdict

end

end Zent.Ovm
