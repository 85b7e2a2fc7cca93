import Zent.Minerchain.Reorg

/-!
# When an exchange of the miner chain is all or nothing

The exchange detaches everything before it attaches the blocks that passed, however few they
are, and the undo hands the lists over in the orders they were built in: the nodes that were
attached come lowest first, where the detach loop wants the tip first.

* `undo_fst_eq_iff`: the undo brings the old chain back only when at most one block was
  attached, over a tip that was not detached or over a single detached block.
-/

namespace Zent.Minerchain

open Go Branch List

variable {env : MinerEnv} {best fork : MinerNode} {detach attach blocks : List MinerNode}

/-! ## One block on or off -/

theorem connectBlock_child (best : MinerNode) (x : Header) :
    connectBlock env best (x :: best) = (env.putConnected (x :: best)).map fun _ => x :: best := by
  rw [connectBlock, throwIf, if_neg fun hn => hn.2 rfl]
  cases env.putConnected (x :: best) <;> rfl

theorem disconnectBlock_tip (n : MinerNode) :
    disconnectBlock env n n = (env.putDisconnected n).map fun _ => n.parent := by
  rw [disconnectBlock, throwIf, if_neg fun hn => hn rfl]
  cases env.putDisconnected n <;> rfl

theorem disconnectBlock_of_ne (env : MinerEnv) {n : MinerNode} (h : n ≠ best) :
    ∃ e, disconnectBlock env best n = .error e := by
  rw [disconnectBlock, throwIf, if_pos h]
  exact ⟨_, rfl⟩

/-! ## The loops -/

variable {l : List MinerNode}

theorem detachAll_of_ok (hl : Descends best l) (hok : ∀ n ∈ l, env.putDisconnected n = .ok ()) :
    detachAll env best l = (drain best l, none) := by
  induction l generalizing best with
  | nil => rfl
  | cons n l ih =>
    obtain ⟨rfl, ⟨x, hx⟩, hl⟩ := hl
    obtain ⟨hn, hrest⟩ := forall_mem_cons.mp hok
    rw [detachAll, if_neg (by rw [hx]; exact cons_ne_nil _ _), disconnectBlock_tip, hn]
    exact ih hl hrest

theorem detachAll_of_failed (hl : Descends best l)
    (hfail : ¬∀ n ∈ l, env.putDisconnected n = .ok ()) :
    (∃ e, (detachAll env best l).2 = some e) ∧ height (detachAll env best l).1 ≤ height best ∧
      ((∃ e, env.putDisconnected best = .error e) → (detachAll env best l).1 = best) ∧
      (env.putDisconnected best = .ok () → height (detachAll env best l).1 < height best) := by
  induction l generalizing best with
  | nil => exact absurd nofun hfail
  | cons n l ih =>
    obtain ⟨rfl, ⟨x, hx⟩, hl⟩ := hl
    have hheight : height n = height n.parent + 1 := by rw [hx]; rfl
    rw [detachAll, if_neg (by rw [hx]; exact cons_ne_nil _ _), disconnectBlock_tip]
    cases hn : env.putDisconnected n with
    | error e => exact ⟨⟨e, rfl⟩, le_rfl, fun _ => rfl, fun h => nomatch h⟩
    | ok u =>
      have hrest : ¬∀ m ∈ l, env.putDisconnected m = .ok () := fun h =>
        hfail (forall_mem_cons.mpr ⟨hn, h⟩)
      obtain ⟨herr, hle, -, -⟩ := ih hl hrest
      simp only [Except.map]
      refine ⟨herr, by omega, ?_, fun _ => by omega⟩
      rintro ⟨e, he⟩
      cases he

theorem attachAll_of_ok (hl : Extends best l) (hok : ∀ n ∈ l, env.putConnected n = .ok ()) :
    attachAll env best l = (lead best l, none) := by
  induction l generalizing best with
  | nil => rfl
  | cons n l ih =>
    obtain ⟨⟨x, rfl⟩, hl⟩ := hl
    obtain ⟨hn, hrest⟩ := forall_mem_cons.mp hok
    rw [attachAll, connectBlock_child, hn]
    exact ih hl hrest

/-- A failed attach loop stops with some of its blocks on, none exactly when the first fails. -/
theorem attachAll_of_failed (hl : Extends best l) (hfail : ¬∀ n ∈ l, env.putConnected n = .ok ()) :
    (∃ e, (attachAll env best l).2 = some e) ∧
      ∃ on, on <+: l ∧ (attachAll env best l).1 = lead best on ∧
        (on = [] ↔ ∃ n ∈ l.head?, ∃ e, env.putConnected n = .error e) := by
  induction l generalizing best with
  | nil => exact absurd nofun hfail
  | cons n l ih =>
    obtain ⟨⟨x, rfl⟩, hl⟩ := hl
    rw [attachAll, connectBlock_child]
    cases hn : env.putConnected (x :: best) with
    | error e =>
      exact ⟨⟨e, rfl⟩, [], List.nil_prefix, rfl, iff_of_true rfl ⟨_, rfl, e, hn⟩⟩
    | ok u =>
      have hrest : ¬∀ m ∈ l, env.putConnected m = .ok () := fun h =>
        hfail (forall_mem_cons.mpr ⟨hn, h⟩)
      obtain ⟨herr, on, hon, hlead, -⟩ := ih hl hrest
      refine ⟨herr, (x :: best) :: on, prefix_cons_inj _ |>.mpr hon, hlead,
        iff_of_false (cons_ne_nil _ _) ?_⟩
      rintro ⟨m, hm, e, he⟩
      cases hm
      rw [hn] at he
      cases he

/-! ## The check phase -/

/-- The checks of a block on its parent. -/
def passes (env : MinerEnv) (n : MinerNode) : Bool :=
  env.checkV2 n n.parent && env.checkProofOfWork n

theorem validBlocks_eq_ok (hl : Extends best l) (h : validBlocks env best l = .ok blocks) :
    blocks <+: l ∧ (∀ n ∈ blocks, env.fetchBlock n = .ok () ∧ passes env n = true) := by
  induction l generalizing best blocks with
  | nil =>
    cases h
    exact ⟨prefix_refl _, nofun⟩
  | cons n l ih =>
    obtain ⟨⟨x, rfl⟩, hl⟩ := hl
    obtain ⟨u, hfetch, h⟩ := of_bind h
    split at h
    case isFalse =>
      cases h
      exact ⟨List.nil_prefix, fun n hn => nomatch hn⟩
    rename_i hpass
    obtain ⟨rest, hrest, h⟩ := of_bind h
    cases h
    obtain ⟨hpre, hall⟩ := ih hl hrest
    exact ⟨prefix_cons_inj _ |>.mpr hpre, forall_mem_cons.mpr ⟨⟨hfetch, hpass⟩, hall⟩⟩

theorem forM_fetch_eq_ok (hl : ∀ n ∈ l, n ≠ []) {u : Unit} :
    (l.forM fun n => if n = [] then .ok () else env.fetchBlock n) = .ok u ↔
      ∀ n ∈ l, env.fetchBlock n = .ok () := by
  rw [forM_eq_ok]
  refine forall₂_congr fun n hn => ?_
  rw [if_neg (hl n hn)]

theorem checkPhase_eq_ok (hs : SideBranch best fork detach attach)
    (h : checkPhase env best detach attach = .ok blocks) :
    blocks <+: attach ∧ (∀ n ∈ blocks, env.fetchBlock n = .ok () ∧ passes env n = true) ∧
      ∀ n ∈ detach, env.fetchBlock n = .ok () := by
  obtain ⟨_, -, h⟩ := of_bind h
  obtain ⟨_, hfetch, h⟩ := of_bind h
  rw [hs.drains] at h
  obtain ⟨hpre, hall⟩ := validBlocks_eq_ok hs.grows h
  exact ⟨hpre, hall, (forM_fetch_eq_ok hs.descends.ne_nil).mp hfetch⟩

/-! ## The undo -/

theorem reorganizeChain_of_error {e : ChainError} (hne : ¬(detach = [] ∧ attach = []))
    (h : checkPhase env best detach attach = .error e) :
    reorganizeChain env best detach attach = (best, some e) := by
  rw [reorganizeChain, if_neg hne, h]

/-- The exchange is refused when its detach list does not start at the tip. -/
theorem reorganizeChain_of_head_ne {n : MinerNode} (h : n ≠ best) :
    (reorganizeChain env best (n :: l) attach).1 = best := by
  rw [reorganizeChain, if_neg fun hnil => cons_ne_nil n l hnil.1, checkPhase, checkLists,
    head?_cons, getLast?_cons]
  simp [throwIf, h, bind, Except.bind]

/-- The exchange is refused when its lists do not meet in one fork. -/
theorem reorganizeChain_of_fork_ne {a last : MinerNode} (hlast : (best :: l).getLast? = some last)
    (h : a.parent ≠ last.parent) :
    (reorganizeChain env best (best :: l) (a :: attach)).1 = best := by
  rw [reorganizeChain, if_neg fun hnil => cons_ne_nil _ _ hnil.1, checkPhase, checkLists,
    head?_cons, hlast]
  simp [throwIf, h, bind, Except.bind]

variable {x : Header}

/-- The detach loop on nodes in ascending order takes the first one off and stops. -/
theorem detachAll_ascending (hl : Extends (x :: fork) l) :
    (detachAll env (x :: fork) ((x :: fork) :: l)).1 =
      if env.putDisconnected (x :: fork) = .ok () then fork else x :: fork := by
  rw [detachAll, if_neg (cons_ne_nil _ _), disconnectBlock_tip]
  cases hput : env.putDisconnected (x :: fork) with
  | error e => simp [Except.map]
  | ok u =>
    simp only [Except.map, if_true, parent_cons]
    cases l with
    | nil => rfl
    | cons n l =>
      obtain ⟨⟨y, rfl⟩, -⟩ := hl
      have hne : y :: x :: fork ≠ fork := fun h =>
        absurd (congrArg length h) (by simp only [length_cons]; omega)
      obtain ⟨e, he⟩ := disconnectBlock_of_ne env hne
      rw [detachAll, if_neg (cons_ne_nil _ _), he]

/-- With nothing to attach, the exchange is its detach loop. -/
theorem reorganizeChain_nil_fst (hne : detach ≠ [])
    (h : checkPhase env best detach attach = .ok []) :
    (reorganizeChain env best detach attach).1 = (detachAll env best detach).1 := by
  rw [reorganizeChain, if_neg fun hnil => hne hnil.1, h]
  rcases hd : detachAll env best detach with ⟨best', _ | e⟩
  · rfl
  · rfl

/-- With nothing detached, the undo has only to take one block off. -/
theorem undo_of_nil (hl : Extends (x :: fork) l) :
    (reorganizeChain env (x :: fork) ((x :: fork) :: l) []).1 = fork ↔
      (∀ n ∈ (x :: fork) :: l, env.fetchBlock n = .ok ()) ∧
        env.putDisconnected (x :: fork) = .ok () := by
  have hne : x :: fork ≠ fork := cons_ne_self x fork
  have hcons : (x :: fork) :: l ≠ [] := cons_ne_nil _ _
  have hnodes : ∀ n ∈ (x :: fork) :: l, n ≠ [] :=
    forall_mem_cons.mpr ⟨cons_ne_nil _ _, hl.ne_nil⟩
  have hphase : checkPhase env (x :: fork) ((x :: fork) :: l) [] =
      (((x :: fork) :: l).forM fun n => if n = [] then .ok () else env.fetchBlock n).map
        fun _ => [] := by
    rw [checkPhase, checkLists, head?_cons, getLast?_cons]
    simp [throwIf, bind, Except.bind, pure, Except.pure, validBlocks, Except.map]
  cases hforM : ((x :: fork) :: l).forM fun n => if n = [] then .ok () else env.fetchBlock n with
  | error e =>
    rw [hforM] at hphase
    rw [reorganizeChain_of_error (fun hnil => hcons hnil.1) hphase]
    refine iff_of_false hne fun h => ?_
    rw [(forM_fetch_eq_ok (u := ()) hnodes).mpr h.1] at hforM
    cases hforM
  | ok u =>
    have hfetch := (forM_fetch_eq_ok hnodes).mp hforM
    rw [hforM] at hphase
    rw [reorganizeChain_nil_fst hcons hphase, detachAll_ascending hl]
    split
    case isTrue hput => exact iff_of_true rfl ⟨hfetch, hput⟩
    case isFalse hput => exact iff_of_false hne fun h => hput h.2

/-- The lists of an undo meet in one fork only when each has one node. -/
theorem undo_fork_iff {m : List MinerNode}
    (hs : SideBranch best fork (best :: m) ((x :: fork) :: l)) {last : MinerNode}
    (hlast : ((x :: fork) :: l).getLast? = some last) :
    best.parent = last.parent ↔ m = [] ∧ l = [] := by
  obtain ⟨-, ⟨y, hy⟩, -⟩ := hs.descends
  have hheight := hs.height_tip
  have hbest : height best = height best.parent + 1 := by rw [hy]; rfl
  rw [length_cons] at hheight
  induction l using reverseRecOn with
  | nil =>
    obtain rfl : x :: fork = last := by simpa using hlast
    rw [parent_cons, and_iff_left rfl, ← length_eq_zero_iff]
    refine ⟨fun h => ?_, fun h => ?_⟩
    · rw [h] at hbest
      omega
    · rw [length_eq_zero_iff.mp h] at hs
      exact hs.drains
  | append_singleton l n =>
    obtain rfl : n = last := by
      rw [← cons_append, getLast?_concat] at hlast
      exact Option.some.inj hlast
    obtain ⟨hl, ⟨z, hz⟩, -⟩ := (extends_append _ l [n]).mp hs.grows.2
    refine iff_of_false (fun h => ?_) fun h => append_ne_nil_of_right_ne_nil l (by simp) h.2
    -- the first attached node would be below the old tip
    have hsuffix : x :: fork <:+ best.parent := by
      rw [h, hz]
      exact hl.suffix_lead
    exact hs.off _ rfl (hsuffix.trans (tail_suffix best))

/-- With one block detached and one attached, the undo is an exchange of its own. -/
theorem undo_of_one {y : Header} (hfetchNew : env.fetchBlock (x :: fork) = .ok ())
    (hfetchOld : env.fetchBlock (y :: fork) = .ok ()) (hne : x :: fork ≠ y :: fork) :
    (reorganizeChain env (x :: fork) [x :: fork] [y :: fork]).1 = y :: fork ↔
      env.putDisconnected (x :: fork) = .ok () ∧ env.putConnected (y :: fork) = .ok () ∧
        passes env (y :: fork) = true := by
  have hfork : fork ≠ y :: fork := (cons_ne_self y fork).symm
  have hphase : checkPhase env (x :: fork) [x :: fork] [y :: fork] =
      .ok (if passes env (y :: fork) then [y :: fork] else []) := by
    simp only [checkPhase, checkLists, head?_cons, getLast?_singleton, throwIf,
      ne_eq, not_true_eq_false, if_false, parent_cons, List.forM, hfetchNew, validBlocks, hfetchOld,
      drain, cons_ne_nil]
    rcases hpass : passes env (y :: fork) with _ | _
    all_goals
      rw [passes, parent_cons] at hpass
      simp [bind, Except.bind, pure, Except.pure, hpass]
  rw [reorganizeChain, if_neg (by simp), hphase]
  simp only [detachAll, cons_ne_nil, if_false, disconnectBlock_tip]
  cases hoff : env.putDisconnected (x :: fork) with
  | error e => simp [Except.map, hne]
  | ok u =>
    simp only [Except.map, parent_cons, true_and]
    cases hpass : passes env (y :: fork) with
    | false => simp [attachAll, hfork]
    | true =>
      simp only [if_true, attachAll, connectBlock_child]
      cases hon : env.putConnected (y :: fork) with
      | error e => simp [Except.map, hfork]
      | ok u => simp [Except.map]

/-- Whether the undo brings the old chain back. -/
def Undoable (env : MinerEnv) (best : MinerNode) (detach attach blocks : List MinerNode) : Prop :=
  (detach = [] ∧ blocks = []) ∨
    (detach = [] ∧ blocks.length = 1 ∧ (∀ n ∈ attach, env.fetchBlock n = .ok ()) ∧
      ∀ n ∈ blocks, env.putDisconnected n = .ok ()) ∨
    (detach = [best] ∧ attach.length = 1 ∧ blocks = attach ∧
      (∀ n ∈ blocks, env.putDisconnected n = .ok ()) ∧ env.putConnected best = .ok () ∧
      passes env best = true)

theorem undo_single_iff (hs : SideBranch best fork detach ((x :: fork) :: l))
    (hnew : env.fetchBlock (x :: fork) = .ok ()) (hold : ∀ n ∈ detach, env.fetchBlock n = .ok ()) :
    (reorganizeChain env (x :: fork) ((x :: fork) :: l) detach).1 = best ↔
      Undoable env best detach ((x :: fork) :: l) [x :: fork] := by
  have hprefix : [x :: fork] <+: (x :: fork) :: l := prefix_append [x :: fork] l
  have hlead : x :: fork ≠ best := (hs.of_isPrefix hprefix).lead_ne (cons_ne_nil _ _)
  obtain ⟨-, hl⟩ := hs.grows
  cases detach with
  | nil =>
    have hfork : fork = best := hs.drains.symm
    subst hfork
    rw [undo_of_nil hl]
    simp [Undoable]
  | cons n m =>
    obtain ⟨rfl, ⟨y, hy⟩, -⟩ := hs.descends
    by_cases hone : m = [] ∧ l = []
    · obtain ⟨rfl, rfl⟩ := hone
      have hparent : n.parent = fork := hs.drains
      rw [hparent] at hy
      subst hy
      rw [undo_of_one hnew (hold _ (mem_singleton_self _)) hlead]
      simp [Undoable]
    have hforks := mt (undo_fork_iff hs getLast?_cons).mp hone
    rw [reorganizeChain_of_fork_ne getLast?_cons hforks]
    refine iff_of_false hlead ?_
    rintro (⟨h, -⟩ | ⟨h, -⟩ | ⟨h, hlen, -⟩)
    · cases h
    · cases h
    · exact hone ⟨(cons.inj h).2, by simpa using hlen⟩

/-- **The undo.** Called with the lists exchanged, it restores the old chain in just the cases
of `Undoable`. -/
theorem undo_fst_eq_iff (hs : SideBranch best fork detach attach) (hne : attach ≠ [])
    (hblocks : blocks <+: attach) (hnew : ∀ n ∈ blocks, env.fetchBlock n = .ok ())
    (hold : ∀ n ∈ detach, env.fetchBlock n = .ok ()) :
    (reorganizeChain env (lead fork blocks) attach detach).1 = best ↔
      Undoable env best detach attach blocks := by
  have hlead := (hs.of_isPrefix hblocks).lead_ne
  obtain ⟨a, l, rfl⟩ := exists_cons_of_ne_nil hne
  obtain ⟨⟨x, rfl⟩, hl⟩ := hs.grows
  rcases blocks with _ | ⟨b, _ | ⟨c, rest⟩⟩
  · -- nothing came on: the tip is the fork, and the call is refused
    rw [lead_nil, reorganizeChain_of_head_ne (cons_ne_self x fork)]
    have hopen : Undoable env best detach ((x :: fork) :: l) [] ↔ detach = [] := by
      simp [Undoable]
    rw [hopen, hs.fork_eq_tip_iff]
  · -- one block came on
    obtain ⟨rfl, -⟩ := cons_prefix_cons.mp hblocks
    exact undo_single_iff hs (hnew _ (mem_singleton_self _)) hold
  · -- two or more: the first of them is not the tip
    obtain ⟨rfl, -⟩ := cons_prefix_cons.mp hblocks
    have hgrows := (hs.grows.of_isPrefix hblocks).height_lead
    have hfirst : x :: fork ≠ lead fork ((x :: fork) :: c :: rest) := fun h => by
      rw [← h, height_cons, length_cons, length_cons] at hgrows
      omega
    rw [reorganizeChain_of_head_ne hfirst]
    refine iff_of_false (hlead (cons_ne_nil _ _)) ?_
    rintro (⟨-, h⟩ | ⟨-, h, -⟩ | ⟨-, hlen, h, -⟩)
    · cases h
    · simp at h
    · rw [← h] at hlen
      simp at hlen

/-! ## The lists -/

theorem collectAttach_isPrefix {node newtip : MinerNode}
    (h : collectAttach env best fork node = .ok (attach, newtip)) : attach <+: above fork node := by
  have hrun := foldlM_induction (P := fun (done : List MinerNode) (acc : List MinerNode × MinerNode)
    => acc.1 <+: done.reverse) (prefix_refl _) ?_ h
  · rwa [reverse_reverse] at hrun
  -- the walk goes down: each node is put in front of what was collected above it
  intro done n acc acc' hacc hstep
  rw [reverse_append, reverse_singleton, singleton_append]
  rw [collectStep] at hstep
  split at hstep
  · split at hstep
    · cases hstep
    · cases hstep
      exact prefix_cons_inj n |>.mpr List.nil_prefix
  · cases hstep
    exact prefix_cons_inj n |>.mpr hacc

theorem matchChains_detach (l : Lists) : (matchChains env best fork l).detach = l.detach := by
  rw [matchChains]
  split
  · split <;> rfl
  · rfl

theorem matchChains_attach (l : Lists) : (matchChains env best fork l).attach <+: l.attach := by
  rw [matchChains]
  split
  case h_1 hx _ =>
    split
    · exact prefix_refl _
    · rw [hx]
      exact List.take_prefix _ _
  · exact prefix_refl _

theorem getReorganizeNodes_sideBranch {node : MinerNode} {l : Lists}
    (h : getReorganizeNodes env best node = l) (hne : l.attach ≠ []) :
    SideBranch best (findFork best node) l.detach l.attach := by
  rw [getReorganizeNodes] at h
  split at h
  · cases h
    exact absurd rfl hne
  simp only at h
  split at h
  · cases h
    exact absurd rfl hne
  rename_i attach newtip hcollect
  split at h
  · cases h
    exact absurd rfl hne
  cases h
  rw [matchChains_detach]
  exact .of_findFork (findFork_suffix_node best node) (suffix_refl _)
    ((matchChains_attach _).trans (collectAttach_isPrefix hcollect))

/-! ## All or nothing -/

/-- The promise: the best chain is the old one, or a higher one of which every node that was not
on the old chain passes its checks and is not known to be invalid; with an error it is the old
one. A block that extends the tip has been checked before. -/
def AllOrNothing (env : MinerEnv) (best node : MinerNode) (flags : Flags)
    (r : MinerNode × Bool × Option ChainError) : Prop :=
  (r.1 = best ∨ height best < height r.1 ∧
    (¬onTip env best node flags → ∀ n ∈ above (findFork best r.1) r.1,
      passes env n = true ∧ env.knownInvalid n = false)) ∧
    (r.2.2 ≠ none → r.1 = best)

/-- What follows an exchange that went through: the transaction chain follows and the new chain
is longer and free of invalid nodes, or it does not and the undo succeeds; an exchange of nothing
is never wrong. -/
def SoundOutcome (env : MinerEnv) (best : MinerNode) (l : Lists) (blocks : List MinerNode) : Prop :=
  match env.reorganizeTx l.txDetach l.txAttach with
  | none => (l.detach = [] ∧ blocks = []) ∨
      (l.detach.length < blocks.length ∧ ∀ n ∈ blocks, env.knownInvalid n = false)
  | some _ => Undoable env best l.detach l.attach blocks

/-- The exchanges that keep the promise, by what the check phase lets through: the first database
step already fails, or all of them succeed and the outcome is sound. -/
def SoundExchange (env : MinerEnv) (best : MinerNode) (l : Lists) : Prop :=
  ∀ blocks, checkPhase env best l.detach l.attach = .ok blocks →
    (l.detach ≠ [] ∧ ∃ e, env.putDisconnected best = .error e) ∨
      (l.detach = [] ∧ ∃ n ∈ blocks.head?, ∃ e, env.putConnected n = .error e) ∨
      ((∀ n ∈ l.detach, env.putDisconnected n = .ok ()) ∧
        (∀ n ∈ blocks, env.putConnected n = .ok ()) ∧ SoundOutcome env best l blocks)

/-- The result of the exchange and of what the transaction chain makes of it. -/
def exchange (env : MinerEnv) (best : MinerNode) (l : Lists) :
    MinerNode × Bool × Option ChainError :=
  match reorganizeChain env best l.detach l.attach with
  | (best', some e) => (best', false, some e)
  | (best', none) =>
    match env.reorganizeTx l.txDetach l.txAttach with
    | some e => ((reorganizeChain env best' l.attach l.detach).1, false, some e)
    | none => (best', true, none)

variable {node : MinerNode} {flags : Flags} {l : Lists}

/-- With an error, the promise is that the old chain is there. -/
theorem allOrNothing_of_error {best' : MinerNode} {on : Bool} {e : ChainError} :
    AllOrNothing env best node flags (best', on, some e) ↔ best' = best := by
  simp only [AllOrNothing, ne_eq, reduceCtorEq, not_false_eq_true, true_imp_iff]
  exact ⟨fun h => h.2, fun h => ⟨.inl h, h⟩⟩

/-- After an exchange without an error, the promise is a matter of lengths and marks. -/
theorem allOrNothing_of_lead (hs : SideBranch best fork detach attach)
    (hside : ¬onTip env best node flags) (hblocks : blocks <+: attach)
    (hpass : ∀ n ∈ blocks, passes env n = true) :
    AllOrNothing env best node flags (lead fork blocks, true, none) ↔
      (detach = [] ∧ blocks = []) ∨
        (detach.length < blocks.length ∧ ∀ n ∈ blocks, env.knownInvalid n = false) := by
  have hs' := hs.of_isPrefix hblocks
  have hheight := hs.height_tip
  have hlead := hs'.grows.height_lead
  have hlt : height best < height (lead fork blocks) ↔ detach.length < blocks.length := by omega
  have hnodes : (∀ n ∈ above (findFork best (lead fork blocks)) (lead fork blocks),
      passes env n = true ∧ env.knownInvalid n = false) ↔
      ∀ n ∈ blocks, env.knownInvalid n = false := by
    rw [hs'.findFork_lead, above_lead hs'.grows]
    exact forall₂_congr fun n hn => and_iff_right (hpass n hn)
  simp only [AllOrNothing, hside, not_false_eq_true, true_imp_iff, hs'.lead_eq_tip_iff, hlt, hnodes,
    ne_eq, not_true_eq_false, false_imp_iff, and_true]

section

variable (hs : SideBranch best fork l.detach l.attach) (hne : l.attach ≠ [])

include hs hne

section

variable (hphase : checkPhase env best l.detach l.attach = .ok blocks)

include hphase

/-- A detach loop that stops early is harmless only at its first step. -/
theorem exchange_of_detach_failed (hoff : ¬∀ n ∈ l.detach, env.putDisconnected n = .ok ()) :
    AllOrNothing env best node flags (exchange env best l) ↔
      ∃ e, env.putDisconnected best = .error e := by
  obtain ⟨⟨e, he⟩, -, hfirst, hlow⟩ := detachAll_of_failed hs.descends hoff
  have hexchange : exchange env best l = ((detachAll env best l.detach).1, false, some e) := by
    rw [exchange, reorganizeChain, if_neg fun h => hne h.2, hphase]
    rcases hd : detachAll env best l.detach with ⟨b, err⟩
    rw [hd] at he
    cases he
    rfl
  rw [hexchange, allOrNothing_of_error]
  cases hput : env.putDisconnected best with
  | error e' => exact iff_of_true (hfirst ⟨e', hput⟩) ⟨e', rfl⟩
  | ok u =>
    refine iff_of_false (fun h => ?_) fun ⟨e', he'⟩ => nomatch he'
    have := hlow hput
    rw [h] at this
    exact lt_irrefl _ this

/-- An attach loop that stops early is harmless only at its first step, over a chain from which
nothing was detached. -/
theorem exchange_of_attach_failed (hblocks : blocks <+: l.attach)
    (hoff : ∀ n ∈ l.detach, env.putDisconnected n = .ok ())
    (hon : ¬∀ n ∈ blocks, env.putConnected n = .ok ()) :
    AllOrNothing env best node flags (exchange env best l) ↔
      l.detach = [] ∧ ∃ n ∈ blocks.head?, ∃ e, env.putConnected n = .error e := by
  obtain ⟨⟨e, he⟩, on, hpre, hlead, hnil⟩ := attachAll_of_failed (hs.grows.of_isPrefix hblocks) hon
  have hexchange : exchange env best l = (lead fork on, false, some e) := by
    rw [exchange, reorganizeChain, if_neg fun h => hne h.2, hphase]
    simp only [detachAll_of_ok hs.descends hoff, hs.drains]
    rcases hd : attachAll env fork blocks with ⟨b, err⟩
    rw [hd] at he hlead
    cases he
    rw [← hlead]
  have hs' := hs.of_isPrefix (hpre.trans hblocks)
  rw [hexchange, allOrNothing_of_error, ← hnil, hs'.lead_eq_tip_iff]

/-- An exchange that goes through is judged by its outcome. -/
theorem exchange_of_ok (hside : ¬onTip env best node flags)
    (hoff : ∀ n ∈ l.detach, env.putDisconnected n = .ok ())
    (hon : ∀ n ∈ blocks, env.putConnected n = .ok ()) :
    AllOrNothing env best node flags (exchange env best l) ↔ SoundOutcome env best l blocks := by
  obtain ⟨hblocks, hall, hold⟩ := checkPhase_eq_ok hs hphase
  have hthrough : reorganizeChain env best l.detach l.attach = (lead fork blocks, none) := by
    rw [reorganizeChain, if_neg fun h => hne h.2, hphase]
    simp only [detachAll_of_ok hs.descends hoff, hs.drains]
    exact attachAll_of_ok (hs.grows.of_isPrefix hblocks) hon
  rw [exchange, hthrough, SoundOutcome]
  cases env.reorganizeTx l.txDetach l.txAttach with
  | none => exact allOrNothing_of_lead hs hside hblocks fun n hn => (hall n hn).2
  | some e =>
    exact allOrNothing_of_error.trans
      (undo_fst_eq_iff hs hne hblocks (fun n hn => (hall n hn).1) hold)

end

theorem exchange_allOrNothing_iff (hside : ¬onTip env best node flags) :
    AllOrNothing env best node flags (exchange env best l) ↔ SoundExchange env best l := by
  cases hphase : checkPhase env best l.detach l.attach with
  | error e =>
    have hexchange : exchange env best l = (best, false, some e) := by
      rw [exchange, reorganizeChain_of_error (fun h => hne h.2) hphase]
    rw [hexchange]
    refine iff_of_true (allOrNothing_of_error.mpr rfl) fun blocks h => ?_
    rw [hphase] at h
    cases h
  | ok blocks =>
    have hblocks := (checkPhase_eq_ok hs hphase).1
    simp only [SoundExchange, hphase, Except.ok.injEq, forall_eq']
    by_cases hoff : ∀ n ∈ l.detach, env.putDisconnected n = .ok ()
    · -- the tip is the first of the nodes to detach
      have hbest : ¬(l.detach ≠ [] ∧ ∃ e, env.putDisconnected best = .error e) := by
        rintro ⟨hd, e, he⟩
        obtain ⟨n, m, hnm⟩ := exists_cons_of_ne_nil hd
        have hn : best = n := by
          have := hs.descends
          rw [hnm] at this
          exact this.1.symm
        rw [hn, hoff n (by rw [hnm]; exact mem_cons_self)] at he
        cases he
      by_cases hon : ∀ n ∈ blocks, env.putConnected n = .ok ()
      · have hhead : ¬∃ n ∈ blocks.head?, ∃ e, env.putConnected n = .error e := by
          rintro ⟨n, hn, e, he⟩
          rw [hon n (mem_of_mem_head? hn)] at he
          cases he
        rw [exchange_of_ok hs hne hphase hside hoff hon]
        simp only [hbest, hhead, and_false, false_or]
        exact ⟨fun h => ⟨hoff, hon, h⟩, fun h => h.2.2⟩
      · rw [exchange_of_attach_failed hs hne hphase hblocks hoff hon]
        simp only [hbest, hon, false_and, and_false, false_or, or_false]
    · rw [exchange_of_detach_failed hs hne hphase hoff]
      have hd : l.detach ≠ [] := fun h => hoff (by rw [h]; exact fun n hn => nomatch hn)
      simp only [hd, hoff, ne_eq, not_false_eq_true, true_and, false_and, or_false]

end

/-- The situations in which a call keeps the promise. -/
def Sound (env : MinerEnv) (best node : MinerNode) (flags : Flags) : Prop :=
  onTip env best node flags ∨ flags.noReorg = true ∨ height node ≤ height best ∨
    (getReorganizeNodes env best node).attach = [] ∨
    SoundExchange env best (getReorganizeNodes env best node)

/-- **When a miner-chain reorganisation is all or nothing.** For every tree of miner blocks, new
node, and every answer of the checks, the database and the transaction chain: the promise is kept
exactly in the sound situations. -/
theorem connectBestChain_allOrNothing_iff (env : MinerEnv) (best node : MinerNode) (flags : Flags) :
    AllOrNothing env best node flags (connectBestChain env best node flags) ↔
      Sound env best node flags := by
  have hold : ∀ on, AllOrNothing env best node flags (best, on, none) := fun on =>
    ⟨.inl rfl, fun _ => rfl⟩
  rw [connectBestChain]
  split
  case isTrue htip =>
    refine iff_of_true ?_ (.inl htip)
    split
    · exact allOrNothing_of_error.mpr rfl
    rename_i best' hconnect
    obtain ⟨_, -, hconnect⟩ := of_bind hconnect
    obtain ⟨_, -, hconnect⟩ := of_bind hconnect
    cases hconnect
    refine ⟨?_, fun h => absurd rfl h⟩
    obtain rfl : node.parent = best := htip.2.1
    cases node with
    | nil => exact .inl rfl
    | cons x b => exact .inr ⟨Nat.lt_succ_self _, fun hside => absurd htip hside⟩
  case isFalse hside =>
    split
    case isTrue hno => exact iff_of_true (hold _) (.inr (.inl hno))
    rename_i hno
    split
    case isTrue hlow => exact iff_of_true (hold _) (.inr (.inr (.inl hlow)))
    rename_i hhigh
    rw [Sound, or_iff_right hside, or_iff_right hno, or_iff_right hhigh]
    generalize hl : getReorganizeNodes env best node = l
    simp only
    split
    case isTrue hnil =>
      exact iff_of_true (hold _) (.inl (length_eq_zero_iff.mp hnil))
    rename_i hne
    replace hne : l.attach ≠ [] := fun hnil => hne (length_eq_zero_iff.mpr hnil)
    rw [or_iff_right hne]
    exact exchange_allOrNothing_iff (getReorganizeNodes_sideBranch hl hne) hne hside

/-! ## An exchange that is not undone, and one that loses the tip -/

/-- Everything passes, and no miner block asks for another transaction chain. -/
def MinerEnv.permissive : MinerEnv where
  genesis := ⟨0, 0, 0⟩
  isSVP := false
  knownInvalid _ := false
  fetchBlock _ := .ok ()
  checkV2 _ _ := true
  checkProofOfWork _ := true
  putConnected _ := .ok ()
  putDisconnected _ := .ok ()
  checkCollateral _ := true
  sameChain _ _ := true
  mainChainHasBlock _ := true
  lastRotation := 0
  sideChain _ := ([], [])
  hasTxBlock _ := true
  reorganizeTx _ _ := none

/-- A miner block told apart by its hash. -/
def minerBlock (hash : Hash) : Header := ⟨hash, 7, 0⟩

/-- The transaction chain cannot follow. -/
def stuckTxEnv : MinerEnv where
  __ := MinerEnv.permissive
  reorganizeTx _ _ := some (errText "attach block failed to pass consistency check")

/-- Block 3 has no proof of work. -/
def weakBlockEnv : MinerEnv where
  __ := MinerEnv.permissive
  checkProofOfWork n := n.head?.map Header.hash ≠ some 3

/-- The best chain is genesis, block 1, block 2; the new node is block 4 on block 3 on block 1.
If the transaction chain cannot follow, the new chain stays although an error is returned; if
block 3 fails its proof of work, the tip is lost and success is reported. -/
theorem exchange_not_undone_and_tip_lost :
    let best : MinerNode := [minerBlock 2, minerBlock 1]
    let node : MinerNode := [minerBlock 4, minerBlock 3, minerBlock 1]
    let flags : Flags := ⟨false, false⟩
    connectBestChain stuckTxEnv best node flags =
        (node, false, some (errText "attach block failed to pass consistency check")) ∧
      ¬AllOrNothing stuckTxEnv best node flags (connectBestChain stuckTxEnv best node flags) ∧
      connectBestChain weakBlockEnv best node flags = ([minerBlock 1], true, none) ∧
      ¬AllOrNothing weakBlockEnv best node flags
        (connectBestChain weakBlockEnv best node flags) := by
  intro best node flags
  refine ⟨by decide +kernel, fun h => ?_, by decide +kernel, fun h => ?_⟩
  · exact absurd (h.2 (by decide +kernel)) (by decide +kernel)
  · rcases h.1 with h | ⟨h, -⟩
    · exact absurd h (by decide +kernel)
    · exact absurd h (by decide +kernel)

end Zent.Minerchain
