import Mathlib.Algebra.Ring.Nat
import Zent.Ovm.SigPool

/-!
# Does the pool always answer?

A verifier that fails sets `finalized`, and those that come after it keep their tokens. The
dispatcher may then wait for a token that never comes, with the queue full behind it. A caller
that has looked at `finalized` just before is left at `queue <- j` and never gets to read the
verdict. And checks of monitoring rights are queued without being counted.
-/

namespace Zent.Ovm

open Pool List Bool

/-- What `VerifySigs` puts into the queue. -/
inductive Check (J : Type) where
  | signature (j : J)
  /-- of a right under monitoring -/
  | monitor (j : J)
  deriving DecidableEq, Repr

section

variable {J : Type}

def Check.job : Check J → J
  | .signature j => j
  | .monitor j => j

/-- Only checks of signatures are counted. -/
def Check.instrs : Check J → List (Instr J)
  | .signature j => [.count, .push j]
  | .monitor j => [.push j]

/-- The caller queues the checks, and may then refuse an input. -/
def walkOf (checks : List (Check J)) (refused : Bool) : List (Instr J) :=
  checks.flatMap Check.instrs ++ if refused then [.refuse] else []

/-- `finalized` is not set while the caller is between its look at it and the queue. -/
def Pool.settled (s : Pool J) : Act → Bool
  | .report =>
    match s.mtx, s.prog with
    | some .reported, .push _ :: _ => false
    | _, _ => true
  | _ => true

/-- All steps of a schedule are settled. -/
def Pool.firm (concurrency : Nat) (ok : J → Bool) (s : Pool J) : List Act → Bool
  | [] => true
  | a :: sched =>
    s.settled a &&
      match s.step concurrency ok a with
      | none => true
      | some s' => s'.firm concurrency ok sched

/-! ## Work -/

def Instr.work : Instr J → Nat
  | .push _ => 7
  | _ => 1

def Dispatcher.work : Dispatcher J → Nat
  | .received _ => 9
  | .waiting _ => 8
  | .select => 4
  | .drained => 3
  | .looking => 2
  | .agreed => 1
  | .returned => 0

def holderWork : Option (Holder J) → Nat
  | none => 0
  | some (.entered _) => 2
  | some .reported => 1

/-- What the goroutines have still to do. -/
def Pool.work (s : Pool J) : Nat :=
  (s.prog.map Instr.work).sum + 6 * s.queue.length + s.dispatcher.work + 3 * s.running.length +
    holderWork s.mtx + (!s.allrun).toNat + (!s.closed).toNat

variable {ok : J → Bool} {concurrency : Nat} {s s' : Pool J} {a : Act}

/-- **Every step uses up work**, so all runs end. -/
theorem step_work (hstep : s.step concurrency ok a = some s') : s'.work < s.work := by
  cases moves_of_step hstep with
  | discard hmtx hn _ | enter hmtx hn _ =>
    have hlen := length_eraseIdx_of_lt (List.getElem?_eq_some_iff.mp hn).1
    have hlt := (List.getElem?_eq_some_iff.mp hn).1
    simp only [work, hmtx, hlen, holderWork]
    omega
  | leave hd => rcases hd with ⟨hd, -⟩ | ⟨hd, -⟩ <;> simp [work, hd, Dispatcher.work]
  | _ => simp_all [work, Instr.work, Dispatcher.work, holderWork] <;> omega

/-- **All runs end**: none is longer than the work at its start. -/
theorem length_le_work {sched : List Act} (hrun : s.run concurrency ok sched = some s') :
    sched.length ≤ s.work := by
  induction sched generalizing s with
  | nil => exact Nat.zero_le _
  | cons a sched ih =>
    obtain ⟨t, ht, hrun⟩ := run_cons.mp hrun
    have hrest := ih hrun
    have hwork := step_work ht
    rw [length_cons]
    omega

/-! ## The first report -/

variable {done prog : List (Instr J)}

/-- Where all jobs are counted, `toverify` is the number of busy ones once the walk is over. -/
theorem Live.toverify_eq (h : Live concurrency ok done s)
    (hall : counted done = (pushed done).length) : s.toverify = s.busy.length := by
  have := h.balanced.owing
  omega

section

variable (hmove : s.Moves concurrency ok a s')

include hmove

/-- The report `true` comes when nothing is left to do. -/
theorem Live.idle (h : Live concurrency ok done s)
    (hall : counted (done ++ s.prog) = (pushed (done ++ s.prog)).length)
    (htrue : s'.final.head? = some true) : s'.Idle := by
  have hsilent := h.silent
  cases hmove with
  | answer hd =>
    have hbusy := h.agreed hd
    have hmtx : s.mtx = none := by
      simp only [busy, append_eq_nil_iff] at hbusy
      cases hm : s.mtx with
      | none => rfl
      | some holder =>
        cases holder with
        | entered j => simp [hm, unreported] at hbusy
        | reported => exact absurd hm h.inside
    refine ⟨h.ended (h.closing (h.past (by simp [hd, Dispatcher.past])).1), ?_, hmtx,
      by simp [hsilent]⟩
    simpa [busy, hd, Dispatcher.held] using hbusy
  | last hmtx _ hlast =>
    have hover := h.ended hlast.1
    rw [hover, append_nil] at hall
    have hlen := h.toverify_eq hall
    refine ⟨hover, length_eq_zero_iff.mp ?_, rfl, by simp [hsilent]⟩
    rw [(busy_entered hmtx).length_eq, hlast.2, length_cons] at hlen
    simp only [busy, unreported, append_nil]
    omega
  | _ => simp [hsilent] at htrue

/-- A dispatcher that has gone without a word leaves a job behind. -/
theorem Live.leaves (h : Live concurrency ok done s)
    (hall : counted (done ++ s.prog) = (pushed (done ++ s.prog)).length)
    (hgone : s.dispatcher = .returned → s.toverify ≠ 0)
    (hsilent : s'.final = []) : s'.dispatcher = .returned → s'.toverify ≠ 0 := by
  have hclosed (hp : s.dispatcher.past = true) := h.closing (h.past hp).1
  intro hd
  cases hmove with
  | ended _ _ | close _ _ _ | discard _ _ _ | enter _ _ _ => exact hgone hd
  | stop _ hfin => simp [h.unset] at hfin
  | count hprog _ | push hprog =>
    simp only at hd
    simp [h.ended (hclosed (by simp [hd, Dispatcher.past]))] at hprog
  | leave hleft =>
    obtain ⟨hlook, hne⟩ := hleft.resolve_left fun hl => by simp [h.unset] at hl
    rw [h.ended (hclosed (by simp [hlook, Dispatcher.past])), append_nil] at hall
    have hlen := h.toverify_eq hall
    have htokens := h.tokens
    simp only [busy, length_append] at hlen
    simp only
    omega
  | pass hmtx _ hmore =>
    simp only at hd ⊢
    have hone : s.toverify ≠ 1 := fun hone => hmore ⟨hclosed (by simp [hd, Dispatcher.past]), hone⟩
    omega
  | finalize hmtx => exact absurd hmtx h.inside
  | refuse _ | answer _ | last _ _ _ | fail _ => simp at hsilent
  | _ => cases hd

/-! ## Runs -/

/-- A failure has been reported while the walk goes on. -/
structure Pool.Halting (s : Pool J) : Prop where
  one : s.final.length = 1
  open_ : s.allrun = false ∧ s.closed = false
  early : s.dispatcher.past = false
  /-- `finalized` is about to be set, or it is set and the caller will look at it -/
  stopping : s.mtx = some .reported ∨
    s.finalized = true ∧ s.mtx = none ∧ ∀ j, s.prog.head? ≠ some (.push j)

theorem Pool.Halting.move (h : s.Halting) (hsettled : s.settled a = true)
    (hprog : s'.prog ≠ []) : s'.Halting := by
  obtain ⟨hone, ⟨hallrun, hclosed⟩, hearly, hstop⟩ := h
  cases hmove with
  | ended hp _ | close hp _ _ => exact absurd hp hprog
  | stop _ _ | refuse _ => exact absurd rfl hprog
  | count _ hfin =>
    refine ⟨hone, ⟨hallrun, hclosed⟩, hearly, hstop.imp_right fun hf => ?_⟩
    simp [hf.1] at hfin
  | @push j _ hp =>
    exact ⟨hone, ⟨hallrun, hclosed⟩, hearly,
      .inl (hstop.resolve_right fun hf => hf.2.2 j (by rw [hp]; rfl))⟩
  | @hand j _ hp _ =>
    exact ⟨hone, ⟨hallrun, hclosed⟩, rfl,
      .inl (hstop.resolve_right fun hf => hf.2.2 j (by rw [hp]; rfl))⟩
  | receive _ _ | drop _ _ | wait _ _ | spawn _ _ =>
    exact ⟨hone, ⟨hallrun, hclosed⟩, rfl, hstop⟩
  | discard hmtx _ _ => exact ⟨hone, ⟨hallrun, hclosed⟩, hearly, hstop⟩
  | finalize hmtx =>
    refine ⟨hone, ⟨hallrun, hclosed⟩, hearly, .inr ⟨rfl, rfl, fun j hj => ?_⟩⟩
    obtain ⟨rest, hp⟩ := head?_eq_some_iff.mp hj
    simp only at hp
    simp [settled, hmtx, hp] at hsettled
  | leave hd => rcases hd with ⟨hd, -⟩ | ⟨hd, -⟩ <;> simp [hd, Dispatcher.past] at hearly
  | _ => simp_all [Dispatcher.past]

/-- What holds along the runs considered: nothing is reported yet and all accounts balance, or a
report is there and the walk over or about to be. -/
structure Pool.Fine (concurrency : Nat) (ok : J → Bool) (prog : List (Instr J)) (s : Pool J) :
    Prop where
  suffix : s.prog <:+ prog
  silent : s.final = [] → ∃ done, prog = done ++ s.prog ∧ Live concurrency ok done s ∧
    (s.dispatcher = .returned → s.toverify ≠ 0)
  halting : s.final ≠ [] → s.prog ≠ [] → s.Halting
  idle : s.final.head? = some true → s.Idle

theorem suffix_of_move : s'.prog <:+ s.prog := by
  cases hmove with
  | stop _ _ | refuse _ => exact nil_suffix
  | count hprog _ | push hprog | hand hprog _ =>
    rw [hprog]
    exact suffix_cons _ _
  | _ => exact suffix_rfl

end

theorem fine_start : (start concurrency prog).Fine concurrency ok prog where
  suffix := suffix_rfl
  silent := fun _ => ⟨[], rfl, live_start, nofun⟩
  halting := fun h => absurd rfl h
  idle := nofun

theorem Pool.Fine.step (h : s.Fine concurrency ok prog) (hall : counted prog = (pushed prog).length)
    (hcalm : s.undisturbed a = true) (hsettled : s.settled a = true)
    (hstep : s.step concurrency ok a = some s') : s'.Fine concurrency ok prog := by
  have hmove := moves_of_step hstep
  have hsuffix := suffix_of_move hmove
  have hopen (hprog : s'.prog ≠ []) : s.prog ≠ [] := fun hnil => hprog (by
    rwa [hnil, suffix_nil] at hsuffix)
  have hsuffix' := hsuffix.trans h.suffix
  obtain ⟨l, hl⟩ := step_final hstep
  by_cases hs : s.final = []
  · obtain ⟨done, rfl, hlive, hgone⟩ := h.silent hs
    refine ⟨hsuffix', fun hsilent => ?_, fun hsent hprog => ?_, hlive.idle hmove hall⟩
    · have hstands := hlive.move hall hcalm hmove
      obtain ⟨done', hdone, hlive'⟩ : ∃ done', done ++ s.prog = done' ++ s'.prog ∧
          Live concurrency ok done' s' := by simpa [Pool.Stands, hsilent] using hstands
      exact ⟨done', hdone, hlive', hlive.leaves hmove hall hgone hsilent⟩
    · have hearly := hlive.early (hopen hprog)
      have hallrun : s.allrun = false :=
        eq_false_iff.mpr fun ho => hopen hprog (hlive.ended ho)
      have hclosed : s.closed = false :=
        eq_false_iff.mpr fun hc => by simp [hlive.closing hc] at hallrun
      cases hmove with
      | fail _ => exact ⟨by simp [hs], ⟨hallrun, hclosed⟩, hearly, .inl rfl⟩
      | refuse _ => exact absurd rfl hprog
      | answer hd => simp [hd, Dispatcher.past] at hearly
      | last _ _ hlast => simp [hallrun] at hlast
      | _ => exact absurd hs hsent
  · have hkeep : s'.final.head? = s.final.head? := by
      obtain ⟨b, rest, hb⟩ := exists_cons_of_ne_nil hs
      rw [← hl, hb]
      rfl
    refine ⟨hsuffix', fun hsilent => ?_, fun _ hprog => ?_, fun htrue => ?_⟩
    · simp [hs, hsilent] at hl
    · exact (h.halting hs (hopen hprog)).move hmove hsettled hprog
    · exact (h.idle (hkeep ▸ htrue)).step hstep

theorem Pool.Fine.run {sched : List Act} (h : s.Fine concurrency ok prog)
    (hall : counted prog = (pushed prog).length) (hcalm : s.calm concurrency ok sched = true)
    (hfirm : s.firm concurrency ok sched = true) (hrun : s.run concurrency ok sched = some s') :
    s'.Fine concurrency ok prog := by
  induction sched generalizing s with
  | nil =>
    cases hrun
    exact h
  | cons a sched ih =>
    obtain ⟨t, ht, hrun⟩ := run_cons.mp hrun
    simp only [calm, ht, and_eq_true] at hcalm
    simp only [firm, ht, and_eq_true] at hfirm
    exact ih (h.step hall hcalm.1 hfirm.1 ht) hcalm.2 hfirm.2 hrun

/-- A verifier inside the mutex can go on as long as nothing is reported. -/
theorem Live.unheld (h : Live concurrency ok done s) (hreport : s.report ok = none) :
    s.mtx = none := by
  have hroom : s.final.length < 2 := by simp [h.silent]
  cases hmtx : s.mtx with
  | none => rfl
  | some holder =>
    cases holder with
    | reported => exact absurd hmtx h.inside
    | entered j =>
      simp only [report, hmtx, send, hroom, if_true, Option.map_some] at hreport
      (repeat' split at hreport) <;> cases hreport

/-- A verifier that runs can get the mutex if no one has it. -/
theorem running_eq_nil (hmtx : s.mtx = none) (henter : s.enter 0 = none) : s.running = [] := by
  cases hrunning : s.running with
  | nil => rfl
  | cons j rest =>
    simp only [enter, hmtx, hrunning, getElem?_cons_zero] at henter
    split at henter <;> cases henter

/-- **The goroutines come to rest only where the verdict is there.** A fine pool in which nobody can
take a step has answered. -/
theorem Pool.Fine.answers (h : s.Fine concurrency ok prog) (hc : 1 ≤ concurrency)
    (hall : counted prog = (pushed prog).length) (hdie : Instr.die ∉ prog)
    (hstuck : ∀ a, s.step concurrency ok a = none) : s.verdict ≠ none := by
  have hmain : s.main concurrency = none := hstuck .main
  have hdispatch : s.dispatch concurrency = none := hstuck .dispatcher
  have henter : s.enter 0 = none := hstuck (.enter 0)
  have hreport : s.report ok = none := hstuck .report
  unfold main at hmain
  split at hmain
  case h_1 hprog =>
    obtain ⟨hallrun, hclosed⟩ : s.allrun = true ∧ s.closed = true := by
      (repeat' split at hmain) <;> simp_all
    have hsent : s.final ≠ [] := by
      intro hsilent
      obtain ⟨done, rfl, hlive, hgone⟩ := h.silent hsilent
      have hmtx := hlive.unheld hreport
      have hrunning := running_eq_nil hmtx henter
      have htokens := hlive.tokens
      obtain ⟨n, hn⟩ : ∃ n, s.verifiers = n + 1 := by
        rw [hrunning, length_nil] at htokens
        exact ⟨s.verifiers - 1, by omega⟩
      cases hd : s.dispatcher with
      | select =>
        simp only [dispatch, hd, hclosed] at hdispatch
        split at hdispatch <;> cases hdispatch
      | returned =>
        -- it has left a job behind, but no one has it
        have hqueue := (hlive.past (by simp [hd, Dispatcher.past])).2
        rw [hprog, append_nil] at hall
        refine hgone hd ((hlive.toverify_eq hall).trans ?_)
        simp [busy, hqueue, hrunning, hmtx, hd, Dispatcher.held, unreported]
      | _ => simp [dispatch, send, hd, hn, hsilent] at hdispatch
    simpa [verdict, hclosed] using hsent
  · split at hmain <;> cases hmain
  case h_3 j rest hprog =>
    have hopen : s.prog ≠ [] := by simp [hprog]
    have hqueue : s.queue ≠ [] := by
      intro hnil
      rw [if_pos (by rw [hnil]; exact hc)] at hmain
      cases hmain
    have hwaits (hpast : s.dispatcher.past = false) : s.verifiers = 0 := by
      obtain ⟨j', rest', hq⟩ := exists_cons_of_ne_nil hqueue
      cases hv : s.verifiers with
      | zero => rfl
      | succ n => cases hd : s.dispatcher <;> simp_all [dispatch, Dispatcher.past]
    by_cases hsilent : s.final = []
    · obtain ⟨done, rfl, hlive, -⟩ := h.silent hsilent
      have hrunning := running_eq_nil (hlive.unheld hreport) henter
      have htokens := hlive.tokens
      rw [hwaits (hlive.early hopen), hrunning, length_nil] at htokens
      omega
    · obtain ⟨-, -, -, hmtx | hstop⟩ := h.halting hsilent hopen
      · simp [report, hmtx] at hreport
      · exact absurd (by rw [hprog]; rfl) (hstop.2.2 j)
  case h_4 hprog =>
    have hroom : s.final.length < 2 := by
      by_cases hsilent : s.final = []
      · simp [hsilent]
      · simp [(h.halting hsilent (by simp [hprog])).one]
    simp [send, hroom] at hmain
  case h_5 hprog => exact absurd (h.suffix.subset (by simp [hprog])) hdie

/-! ## The checker -/

/-- What the pool is for: if the verdict of a run is `true`, every check has been run and is good;
and runs end, with a verdict. -/
structure Answers (concurrency : Nat) (ok : J → Bool) (checks : List (Check J)) (refused : Bool)
    (sched : List Act) (s : Pool J) : Prop where
  good : s.verdict = some true → refused = false ∧ ∀ x ∈ checks, ok x.job = true
  complete : s.verdict = some true → s.prog = [] ∧ s.busy = []
  ends : sched.length ≤ (start concurrency (walkOf checks refused)).work
  returns : (∀ a, s.step concurrency ok a = none) → s.verdict ≠ none

variable {checks : List (Check J)} {refused : Bool}

theorem pushed_walkOf : pushed (walkOf checks refused) = checks.map Check.job := by
  have htail : pushed (if refused then [Instr.refuse] else []) = ([] : List J) := by
    cases refused <;> rfl
  rw [walkOf, pushed_append, htail, append_nil]
  induction checks with
  | nil => rfl
  | cons x checks ih =>
    rw [flatMap_cons, pushed_append, ih]
    cases x <;> rfl

theorem counted_walkOf (hsig : ∀ j, Check.monitor j ∉ checks) :
    counted (walkOf checks refused) = checks.length := by
  have htail : counted (if refused then [Instr.refuse] else [] : List (Instr J)) = 0 := by
    cases refused <;> rfl
  rw [walkOf, counted_append, htail, Nat.add_zero]
  induction checks with
  | nil => rfl
  | cons x checks ih =>
    rw [flatMap_cons, counted_append, ih fun j hj => hsig j (mem_cons_of_mem _ hj)]
    cases x with
    | signature j => simp [Check.instrs, counted, Nat.add_comm]
    | monitor j => exact absurd mem_cons_self (hsig j)

theorem refuse_mem_walkOf (h : Instr.refuse ∉ walkOf checks refused) : refused = false := by
  cases refused with
  | false => rfl
  | true => exact absurd (mem_append_right _ mem_cons_self) h

theorem die_not_mem_walkOf : Instr.die ∉ walkOf checks refused := by
  intro h
  rcases mem_append.mp h with h | h
  · obtain ⟨x, -, hx⟩ := mem_flatMap.mp h
    cases x <;> simp [Check.instrs] at hx
  · cases refused <;> simp at h

/-- **Signatures are checked and the call returns**, in every run in which the dispatcher does not
look at the tokens while a verifier is inside the mutex, and `finalized` is not set while the
caller is on its way to the queue. -/
theorem pool_answers {sched : List Act} (hc : 1 ≤ concurrency)
    (hsig : ∀ j, Check.monitor j ∉ checks)
    (hcalm : (start concurrency (walkOf checks refused)).calm concurrency ok sched = true)
    (hfirm : (start concurrency (walkOf checks refused)).firm concurrency ok sched = true)
    (hrun : (start concurrency (walkOf checks refused)).run concurrency ok sched = some s) :
    Answers concurrency ok checks refused sched s := by
  have hall : counted (walkOf checks refused) = (pushed (walkOf checks refused)).length := by
    rw [counted_walkOf hsig, pushed_walkOf, length_map]
  have hfine := fine_start.run hall hcalm hfirm hrun
  refine ⟨fun htrue => ?_, fun htrue => ?_, length_le_work hrun,
    hfine.answers hc hall die_not_mem_walkOf⟩
  · obtain ⟨hclean, hgood⟩ := verdict_true hall hcalm hrun htrue
    refine ⟨refuse_mem_walkOf hclean.1, fun x hx => hgood _ ?_⟩
    rw [pushed_walkOf]
    exact mem_map_of_mem hx
  · have hidle := hfine.idle (by
      rw [verdict] at htrue
      split at htrue
      · exact htrue
      · cases htrue)
    exact ⟨hidle.prog, hidle.busy⟩

/-- Two signatures are queued, and the verifiers run one after the other. -/
def twoChecks : List Act :=
  List.replicate 6 .main ++ List.replicate 6 .dispatcher ++
    [.enter 0, .report, .enter 0, .report, .report]

/-- The second of the signatures is bad, and the verdict says so. -/
theorem twoChecks_answers : ∃ s : Pool Nat,
    (start 2 (walkOf [.signature 0, .signature 1] false)).run 2 (· == 0) twoChecks = some s ∧
      s.verdict = some false ∧
      Answers 2 (· == 0) [.signature 0, .signature 1] false twoChecks s :=
  ⟨_, rfl, rfl, pool_answers (by decide) (by simp) (by decide) (by decide) rfl⟩

/-- A single bad signature passes: the dispatcher looks at the tokens between `verifiers <- true`
and `final <- false`. And of five signatures, the first of them bad, the call does not return:
the dispatcher waits for a token, and the caller for the dispatcher. -/
theorem pool_not_answers :
    (∃ s : Pool Nat, (start 1 (walkOf [.signature 0] false)).run 1 (fun j => j != 0)
      [.main, .main, .main, .main, .dispatcher, .dispatcher, .dispatcher, .enter 0, .dispatcher,
        .dispatcher, .dispatcher, .dispatcher] = some s ∧ s.verdict = some true) ∧
    ∃ s : Pool Nat,
      (start 1 (walkOf ((List.range 5).map Check.signature) false)).run 1 (fun j => j != 0)
        [.main, .main, .dispatcher, .dispatcher, .dispatcher, .main, .main, .dispatcher,
          .dispatcher, .main, .main, .main, .enter 0, .dispatcher, .dispatcher, .dispatcher,
          .main, .main, .report, .report, .enter 0] = some s ∧
      s.verdict = none ∧ ∀ a, s.step 1 (fun j => j != 0) a = none := by
  refine ⟨⟨_, rfl, rfl⟩, _, rfl, rfl, fun a => ?_⟩
  cases a <;> rfl

end

end Zent.Ovm
