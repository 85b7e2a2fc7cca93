import Zent.Blockchain.Reorg

/-!
# When a reorganisation keeps the best chain

`doReorganizeChain` tries the side branch first, on scratch views, and then replays the
exchange on the stored chain: all the detached blocks go before the first attached one comes.
The two runs of `ReorganizeChain` amount to one decision, the `Plan`: to leave the chain alone,
or to replay a part of the blocks that passed.

The plan compares the two lengths only when a block was skipped. A block that merely fails a
check leaves a short list of valid blocks, which is replayed over a longer best chain.
-/

namespace Zent

open Go Branch List Except Nat

variable {S : Type} {env : ChainEnv S} {st st' : ChainState S} {fork : Node}
  {detach attach : List Node} {n : Node} {l : List Node} {s : Scratch S} {valid : List Node}

/-! ## The loops of the replay -/

/-- The steps with which a block leaves the chain answer, each on the views that the one before
has left: its outputs and its journal are read, its parent is read, and the change is stored. -/
def Removes (env : ChainEnv S) (views : S) (n : Node) (stored : S) : Prop :=
  ∃ fetched undone, env.fetchInputUtxos views n = .ok fetched ∧
    env.disconnectTransactions fetched n = .ok undone ∧ env.fetchBlock n.parent = .ok () ∧
    env.putDisconnected undone n = .ok stored

/-- In addition, the contracts are rolled back. -/
def ComesOff (env : ChainEnv S) (views : S) (n : Node) (views' : S) : Prop :=
  ∃ stored, Removes env views n stored ∧ env.rollback stored n = .ok views'

/-- A block has signatures enough, and the steps with which it comes onto the chain answer. -/
def GoesOn (env : ChainEnv S) (views : S) (n : Node) (views' : S) : Prop :=
  ¬(n.nonce < 0 ∧ n.signers.length + 1 ≤ CommitteeSigs) ∧
    ∃ fetched run spent, env.fetchInputUtxos views n = .ok fetched ∧
      env.execContracts fetched n = .ok run ∧ env.connectTransactions run n = .ok spent ∧
      env.putConnected spent n = .ok views'

/-- One block after the other has an answer. -/
inductive Answers (step : S → Node → S → Prop) : S → List Node → S → Prop where
  | nil (views : S) : Answers step views [] views
  | cons {views views' views'' : S} {n : Node} {l : List Node} : step views n views' →
    Answers step views' l views'' → Answers step views (n :: l) views''

theorem answers_cons {step : S → Node → S → Prop} {views views'' : S} :
    Answers step views (n :: l) views'' ↔
      ∃ views', step views n views' ∧ Answers step views' l views'' := by
  constructor
  · rintro (_ | ⟨hn, hl⟩)
    exact ⟨_, hn, hl⟩
  · rintro ⟨views', hn, hl⟩
    exact .cons hn hl

theorem connectBlock_eq_ok {views : S} (h : connectBlock env st n views = .ok st') :
    st'.tip = n ∧ n.parent = st.tip := by
  simp only [connectBlock, bind_eq_ok, throwIf_eq_ok, not_not] at h
  obtain ⟨_, -, _, hparent, _, -, h⟩ := h
  cases h
  exact ⟨rfl, hparent⟩

theorem putOn_eq_ok (h : putOn env st n = .ok st') : st'.tip = n ∧ n.parent = st.tip := by
  simp only [putOn, bind_eq_ok] at h
  obtain ⟨_, -, _, -, _, -, h⟩ := h
  exact connectBlock_eq_ok h

/-- A child of the tip goes on exactly when its steps answer. -/
theorem putOn_iff {x : NodeData} {stored : S} :
    GoesOn env st.stored (x :: st.tip) stored ↔
      ∃ st', putOn env st (x :: st.tip) = .ok st' ∧ st'.stored = stored := by
  simp only [GoesOn, putOn, connectBlock, bind_eq_ok, throwIf_eq_ok]
  constructor
  · rintro ⟨hsigs, a, b, c, ha, hb, hc, hput⟩
    exact ⟨_, ⟨a, ha, b, hb, c, hc, (), hsigs, (), fun h => h rfl, _, hput, rfl⟩, rfl⟩
  · rintro ⟨_, ⟨a, ha, b, hb, c, hc, _, hsigs, _, -, _, hput, h⟩, rfl⟩
    cases h
    exact ⟨hsigs, a, b, c, ha, hb, hc, hput⟩

theorem takeOff_eq_ok (h : takeOff env st n = .ok st') : n = st.tip ∧ st'.tip = n.parent := by
  simp only [takeOff, disconnectBlock, bind_eq_ok, throwIf_eq_ok, not_not] at h
  obtain ⟨_, -, _, -, _, htip, _, -, _, -, h⟩ := h
  cases h
  exact ⟨htip, rfl⟩

/-- The tip comes off exactly when its steps answer. -/
theorem takeOff_iff {stored : S} : Removes env st.stored st.tip stored ↔
    ∃ st', takeOff env st st.tip = .ok st' ∧ st'.stored = stored := by
  simp only [Removes, takeOff, disconnectBlock, bind_eq_ok, throwIf_eq_ok]
  constructor
  · rintro ⟨a, b, ha, hb, hparent, hput⟩
    exact ⟨_, ⟨a, ha, b, hb, (), fun h => h rfl, (), hparent, _, hput, rfl⟩, rfl⟩
  · rintro ⟨_, ⟨a, ha, b, hb, _, -, _, hparent, _, hput, h⟩, rfl⟩
    cases h
    exact ⟨a, b, ha, hb, hparent, hput⟩

theorem attachAll_count_le (env : ChainEnv S) (st : ChainState S) (blocks : List Node) :
    (attachAll env st blocks).2.1 ≤ blocks.length := by
  induction blocks generalizing st with
  | nil => exact le_rfl
  | cons n l ih =>
    rw [attachAll]
    split
    · exact zero_le _
    case h_2 st' _ => exact succ_le_succ (ih st')

theorem attachAll_tip (st : ChainState S) (blocks : List Node) :
    (attachAll env st blocks).1.tip =
      lead st.tip (blocks.take (attachAll env st blocks).2.1) := by
  induction blocks generalizing st with
  | nil => rfl
  | cons n l ih =>
    rw [attachAll]
    split
    · rfl
    case h_2 st' hput => rw [ih st', take_succ_cons, lead_cons, (putOn_eq_ok hput).1]

/-- The blocks attached are at least `k` exactly when the first `k` go on without an error. -/
theorem le_attachAll_count_iff (k : Nat) (st : ChainState S) (blocks : List Node) :
    k ≤ (attachAll env st blocks).2.1 ↔
      k ≤ blocks.length ∧ (attachAll env st (blocks.take k)).2.2 = none := by
  induction blocks generalizing st k with
  | nil => simp [attachAll]
  | cons n l ih =>
    cases k with
    | zero => simp [attachAll]
    | succ k =>
      rw [take_succ_cons, attachAll, attachAll]
      cases hput : putOn env st n with
      | error e => simp
      | ok st' =>
        have := ih k st'
        simp only [length_cons, Nat.add_le_add_iff_right]
        exact this

theorem detachAll_cons_of_error {e : ChainError} (hn : n ≠ []) (h : takeOff env st n = .error e) :
    detachAll env st (n :: l) = (st, some e) := by
  rw [detachAll, if_neg hn, h]

theorem detachAll_height_le : ∀ (st : ChainState S) (l : List Node), Descends st.tip l →
    height (detachAll env st l).1.tip ≤ height st.tip
  | st, [], _ => le_rfl
  | st, n :: l, ⟨htip, ⟨x, hx⟩, hl⟩ => by
    have hlower : height n.parent ≤ height st.tip := by
      rw [← htip, hx, height_cons]
      exact le_succ _
    rw [detachAll, if_neg (by rw [hx]; exact cons_ne_nil _ _)]
    split
    · exact le_rfl
    rename_i st' hoff
    have htip' : st'.tip = n.parent := (takeOff_eq_ok hoff).2
    split
    · rw [htip']; exact hlower
    case h_2 stored _ =>
      rw [← htip'] at hl hlower
      exact (detachAll_height_le { st' with stored } l hl).trans hlower

/-- Once the first node is off, the chain is lower, whatever stops the loop. -/
theorem detachAll_lowers (hdesc : Descends st.tip (n :: l)) (hoff : takeOff env st n = .ok st') :
    height (detachAll env st (n :: l)).1.tip < height st.tip := by
  obtain ⟨htip, ⟨x, hx⟩, hl⟩ := hdesc
  have htip' : st'.tip = n.parent := (takeOff_eq_ok hoff).2
  have hlower : height st'.tip < height st.tip := by
    rw [htip', ← htip, hx, height_cons, parent_cons]
    exact lt_succ_self _
  rw [detachAll, if_neg (by rw [hx]; exact cons_ne_nil _ _), hoff]
  simp only
  split
  · exact hlower
  case h_2 stored _ =>
    rw [← htip'] at hl
    exact (detachAll_height_le { st' with stored } l hl).trans_lt hlower

theorem detachAll_tip : ∀ (st : ChainState S) (l : List Node), Descends st.tip l →
    (detachAll env st l).2 = none → (detachAll env st l).1.tip = drain st.tip l
  | st, [], _, _ => rfl
  | st, n :: l, ⟨_, ⟨x, hx⟩, hl⟩, h => by
    rw [detachAll, if_neg (by rw [hx]; exact cons_ne_nil _ _)] at h ⊢
    split at h
    · cases h
    rename_i st' hoff
    split at h
    · cases h
    rename_i stored hroll
    have htip' : st'.tip = n.parent := (takeOff_eq_ok hoff).2
    rw [← htip'] at hl
    rw [detachAll_tip { st' with stored } l hl h, htip']
    rfl

/-- The detach loop goes through exactly when every block has its answers. -/
theorem answers_detachAll_iff : ∀ (st : ChainState S) {l : List Node} {views : S},
    Descends st.tip l → (Answers (ComesOff env) st.stored l views ↔
      (detachAll env st l).2 = none ∧ (detachAll env st l).1.stored = views)
  | st, [], views, _ => by
    refine ⟨fun h => ?_, fun ⟨_, h⟩ => h ▸ .nil _⟩
    cases h
    exact ⟨rfl, rfl⟩
  | st, n :: l, views, ⟨htip, ⟨x, hx⟩, hl⟩ => by
    rw [answers_cons, detachAll, if_neg (by rw [hx]; exact cons_ne_nil _ _)]
    simp only [ComesOff, htip, takeOff_iff]
    cases hoff : takeOff env st st.tip with
    | error e => simp
    | ok st' =>
      have htip' : st'.tip = n.parent := htip ▸ (takeOff_eq_ok hoff).2
      cases hroll : env.rollback st'.stored st.tip with
      | error e => simp [hroll]
      | ok stored =>
        rw [← htip'] at hl
        simpa [hroll] using answers_detachAll_iff { st' with stored } hl

/-- So does the attach loop. -/
theorem answers_attachAll_iff : ∀ {st : ChainState S} {l : List Node}, Extends st.tip l →
    ((∃ views, Answers (GoesOn env) st.stored l views) ↔ (attachAll env st l).2.2 = none)
  | st, [], _ => iff_of_true ⟨_, .nil _⟩ rfl
  | st, n :: l, ⟨⟨x, hx⟩, hl⟩ => by
    subst hx
    simp only [answers_cons, putOn_iff, attachAll]
    cases hput : putOn env st (x :: st.tip) with
    | error e => simp
    | ok st' =>
      rw [← (putOn_eq_ok hput).1] at hl
      simpa using answers_attachAll_iff hl

/-! ## The loop of the check phase -/

theorem attachLoop_isPrefix (env : ChainEnv S) (s : Scratch S) (l : List Node) :
    (attachLoop env s l).1 <+: l := by
  induction l generalizing s with
  | nil => exact prefix_refl _
  | cons n l ih =>
    rw [attachLoop]
    split
    · exact List.nil_prefix
    case h_2 s' _ => exact prefix_cons_inj n |>.mpr (ih s')

theorem attachLoop_length_lt {stop : Stop} (h : (attachLoop env s l).2 = some stop) :
    (attachLoop env s l).1.length < l.length := by
  induction l generalizing s with
  | nil => cases h
  | cons n l ih =>
    rw [attachLoop] at h ⊢
    split at h
    · exact succ_pos _
    case h_2 s' _ => exact succ_lt_succ (ih h)

/-- Blocks that passed pass again when nothing follows them. -/
theorem attachLoop_of_valid (h : valid <+: (attachLoop env s l).1) :
    attachLoop env s valid = (valid, none) := by
  induction l generalizing s valid with
  | nil =>
    rw [prefix_nil.mp h]
    rfl
  | cons n l ih =>
    cases valid with
    | nil => rfl
    | cons m valid =>
      rw [attachLoop] at h
      split at h
      · exact absurd (prefix_nil.mp h) (cons_ne_nil _ _)
      rename_i s' hstep
      obtain ⟨rfl, hvalid⟩ := cons_prefix_cons.mp h
      rw [attachLoop, hstep]
      simp only [ih hvalid]

/-! ## The two lists of a side branch -/

theorem checkLists_eq_none (hs : SideBranch st.tip fork detach attach) :
    checkLists st.tip detach attach = none := by
  cases detach with
  | nil => rfl
  | cons n l =>
    obtain ⟨hlast0, hlastp⟩ := hs.getLast_parent _ getLast?_cons
    rw [hs.descends.1] at hlast0 hlastp
    rw [checkLists, head?_cons, getLast?_cons]
    simp only [hs.descends.1, ne_eq, not_true_eq_false, if_false]
    cases attach with
    | nil => rfl
    | cons a l' =>
      obtain ⟨⟨x, rfl⟩, -⟩ := hs.grows
      simp [hlast0, hlastp]

/-- Cutting a branch below its missing rotations stays between the fork and the node. -/
theorem cutMissing_between (env : ChainEnv S) {node : Node} (hnode : fork <:+ node) :
    fork <:+ cutMissing env fork node ∧ cutMissing env fork node <:+ node := by
  refine List.foldlRecOn (motive := fun top => fork <:+ top ∧ top <:+ node) _ _
    ⟨hnode, suffix_refl _⟩ fun top htop p hp => ?_
  obtain ⟨hfork, hp⟩ := mem_above hnode p (mem_reverse.mp hp)
  split
  · exact ⟨hfork, (tail_suffix p).trans hp⟩
  · exact htop

theorem collect_eq_takeWhile (invalid : Node → Bool) (l : List Node) :
    l.reverse.foldl (fun l n => if invalid n then [] else n :: l) [] =
      l.takeWhile fun n => !invalid n := by
  rw [foldl_reverse]
  induction l with
  | nil => rfl
  | cons n l ih =>
    rw [foldr_cons, ih, takeWhile_cons]
    cases invalid n <;> rfl

theorem getReorganizeNodes_sideBranch {tip node : Node}
    (h : getReorganizeNodes env tip node = .ok (detach, attach)) (hne : attach ≠ []) :
    SideBranch tip (findFork tip node) detach attach := by
  have hempty : (([] : List Node), ([] : List Node)) ≠ (detach, attach) := fun he =>
    hne (Prod.mk.inj he).2.symm
  rw [getReorganizeNodes] at h
  split at h
  · exact absurd (ok.inj h) hempty
  split at h
  · cases h
  simp only at h
  split at h
  · exact absurd (ok.inj h) hempty
  split at h
  · exact absurd (ok.inj h) hempty
  obtain ⟨hcutFork, hcutNode⟩ := cutMissing_between env (findFork_suffix_node tip node)
  rw [collect_eq_takeWhile] at h
  obtain ⟨rfl, rfl⟩ := Prod.mk.inj (ok.inj h)
  exact .of_findFork hcutFork hcutNode (List.takeWhile_prefix _)

/-! ## The decision -/

/-- The nodes of the side branch that pass all the checks, in a row from the fork. -/
def validPrefix (env : ChainEnv S) (st : ChainState S) (detach attach : List Node) : List Node :=
  match checkDetach env st detach with
  | .error _ => []
  | .ok s => (attachLoop env s attach).1

/-- What the runs of `ReorganizeChain` come to. -/
inductive Plan where
  | keep
  | exchange (blocks : List Node)

/-- The decision on the outcome of the check phase. Only a block beyond the miner tip makes the
source compare the lengths and keep the chain; an abort costs the last valid block, as the second
run goes one block less far. -/
def Plan.of (detach valid : List Node) : Option Stop → Plan
  | some (.abort _) => if valid = [] then .keep else .exchange valid.dropLast
  | some .beyondMinerTip => if valid.length ≤ detach.length then .keep else .exchange valid
  | _ => .exchange valid

def plan (env : ChainEnv S) (st : ChainState S) (detach attach : List Node) : Plan :=
  match checkDetach env st detach with
  | .error _ => .keep
  | .ok s => .of detach (attachLoop env s attach).1 (attachLoop env s attach).2

/-- The chain when the plan has been carried out. -/
def carryOut (env : ChainEnv S) (st : ChainState S) (detach : List Node) : Plan → ChainState S
  | .keep => st
  | .exchange blocks => (replay env st detach blocks blocks).state

theorem replay_state (attach attach' blocks : List Node) :
    (replay env st detach attach blocks).state = (replay env st detach attach' blocks).state := by
  unfold replay
  split <;> rfl

variable {blocks : List Node} {err : Option ChainError} {attach : List Node}

theorem replay_of_detached (h : (detachAll env st detach).2 = none) :
    replay env st detach attach blocks =
      ⟨(attachAll env (detachAll env st detach).1 blocks).1, attach, detach.length,
        (attachAll env (detachAll env st detach).1 blocks).2.1,
        (attachAll env (detachAll env st detach).1 blocks).2.2⟩ := by
  unfold replay
  split
  case h_1 heq => rw [heq] at h; cases h
  case h_2 heq => rw [heq]

theorem replay_of_failed {e : ChainError} (h : (detachAll env st detach).2 = some e) :
    replay env st detach attach blocks = ⟨(detachAll env st detach).1, attach, 0, 0, some e⟩ := by
  unfold replay
  split
  case h_1 heq =>
    rw [heq] at h ⊢
    cases h
    rfl
  case h_2 heq => rw [heq] at h; cases h

/-- A run leaves the chain alone or replays some first part of its attach list. -/
theorem doReorganizeChain_state (env : ChainEnv S) (st : ChainState S) (detach attach : List Node) :
    (doReorganizeChain env st detach attach).state = st ∨
      ∃ blocks, blocks <+: attach ∧
        (doReorganizeChain env st detach attach).state =
          carryOut env st detach (.exchange blocks) := by
  rw [doReorganizeChain]
  split
  · exact .inl rfl
  split
  · exact .inl rfl
  split
  · exact .inl rfl
  rename_i s _
  simp only [settle]
  split
  · exact .inl rfl
  split
  · exact .inl rfl
  · exact .inr ⟨_, attachLoop_isPrefix env s attach, replay_state _ _ _⟩

theorem reorganizeChain_fst (env : ChainEnv S) (st : ChainState S) (detach attach : List Node) :
    (reorganizeChain env st detach attach).1 =
      let r := doReorganizeChain env st detach attach
      if r.detachable ≠ detach.length ∨ r.attachable = r.attach.length ∨ r.attachable = 0 then
        r.state
      else (doReorganizeChain env r.state detach (r.attach.take (r.attachable - 1))).state := by
  rw [reorganizeChain]
  simp only
  split
  case isTrue hd => rw [if_pos (.inl hd)]
  rename_i hd
  split
  case isTrue ha => rw [if_pos (.inr ha)]
  case isFalse ha => rw [if_neg (not_or.mpr ⟨hd, ha⟩)]

section

variable (hs : SideBranch st.tip fork detach attach)

include hs

/-- A run on blocks that passed before replays just these. -/
theorem doReorganizeChain_of_valid (hdet : checkDetach env st detach = .ok s)
    (hvalid : valid <+: (attachLoop env s attach).1) :
    (doReorganizeChain env st detach valid).state =
      carryOut env st detach (.exchange valid) := by
  have hlists :=
    checkLists_eq_none (hs.of_isPrefix (hvalid.trans (attachLoop_isPrefix env s attach)))
  rw [doReorganizeChain]
  split
  case isTrue hnil =>
    rw [hnil.1, hnil.2]
    rfl
  · rw [hlists, hdet]
    simp only [attachLoop_of_valid hvalid]
    rfl

section

variable (hdet : (detachAll env st detach).2 = none)

include hdet

/-- The tip when the detach loop went through and the blocks came on as far as they did. -/
theorem replay_tip (blocks : List Node) :
    (attachAll env (detachAll env st detach).1 blocks).1.tip =
      lead fork (blocks.take (attachAll env (detachAll env st detach).1 blocks).2.1) := by
  rw [attachAll_tip, detachAll_tip st detach hs.descends hdet, hs.drains]

/-- A replay that attached something does not end at the old tip. -/
theorem replay_tip_ne (hblocks : blocks <+: attach)
    (hpos : (attachAll env (detachAll env st detach).1 blocks).2.1 ≠ 0) :
    (attachAll env (detachAll env st detach).1 blocks).1.tip ≠ st.tip := by
  have htake := (List.take_prefix (attachAll env (detachAll env st detach).1 blocks).2.1
    blocks).trans hblocks
  have hs' := hs.of_isPrefix htake
  rw [replay_tip hs hdet]
  refine hs'.lead_ne fun hnil => ?_
  have hle := attachAll_count_le env (detachAll env st detach).1 blocks
  rw [take_eq_nil_iff] at hnil
  rcases hnil with hnil | hnil
  · exact hpos hnil
  · have hlen : blocks.length = 0 := by rw [hnil]; rfl
    omega

/-- **The second run after a replay changes nothing.** The tip has moved: its tests refuse the
detach list, and with nothing to detach the first block no longer extends the chain. -/
theorem doReorganizeChain_of_replayed {frac : List Node} (hblocks : blocks <+: attach)
    (hfrac : frac <+: attach) (hpos : (attachAll env (detachAll env st detach).1 blocks).2.1 ≠ 0) :
    (doReorganizeChain env (attachAll env (detachAll env st detach).1 blocks).1 detach frac).state =
      (attachAll env (detachAll env st detach).1 blocks).1 := by
  have hne := replay_tip_ne hs hdet hblocks hpos
  generalize (attachAll env (detachAll env st detach).1 blocks).1 = moved at hne ⊢
  cases detach with
  | cons n l =>
    have hn : n ≠ moved.tip := fun h => hne (h.symm.trans hs.descends.1)
    rw [doReorganizeChain, if_neg (fun h => cons_ne_nil n l h.1), checkLists,
      head?_cons, getLast?_cons]
    simp only [if_pos hn]
  | nil =>
    rcases doReorganizeChain_state env moved [] frac with h | ⟨ys, hys, h⟩
    · exact h
    rw [h]
    cases ys with
    | nil => rfl
    | cons n ys =>
      -- the first block to attach is a child of the old tip
      obtain ⟨⟨x, rfl⟩, -⟩ := hs.grows.of_isPrefix (hys.trans hfrac)
      have hfork : fork = st.tip := hs.drains.symm
      cases hput : putOn env moved (x :: fork) with
      | ok st' => exact absurd ((putOn_eq_ok hput).2.symm.trans hfork) hne
      | error e => simp only [carryOut, replay, detachAll, attachAll, hput]

end

/-- Past the tests of the lists, a run is settled by the outcome of the check phase. -/
theorem doReorganizeChain_eq_settle (hne : attach ≠ [])
    (hdet : checkDetach env st detach = .ok s) :
    doReorganizeChain env st detach attach =
      settle env st detach attach (attachLoop env s attach).1 (attachLoop env s attach).2 := by
  rw [doReorganizeChain, if_neg fun h => hne h.2, checkLists_eq_none hs, hdet]

theorem reorganizeChain_of_replay {left : List Node}
    (hdo : doReorganizeChain env st detach attach = replay env st detach left valid)
    (hleft : left <+: attach) (hvalid : valid <+: attach) :
    (reorganizeChain env st detach attach).1 = carryOut env st detach (.exchange valid) := by
  rw [reorganizeChain_fst, hdo, carryOut, replay_state valid left valid]
  simp only
  split
  · rfl
  rename_i hcount
  obtain ⟨-, -, hpos⟩ := not_or.mp hcount |>.imp_right not_or.mp
  cases hdet : (detachAll env st detach).2 with
  | some e => exact absurd (by rw [replay_of_failed hdet]) hpos
  | none =>
    rw [replay_of_detached hdet] at hpos ⊢
    exact doReorganizeChain_of_replayed hs hdet hvalid ((List.take_prefix _ _).trans hleft) hpos

theorem reorganizeChain_of_settle {stop : Option Stop}
    (hdo : doReorganizeChain env st detach attach = settle env st detach attach valid stop)
    (hpre : valid <+: attach) (hlt : ∀ r, stop = some r → valid.length < attach.length)
    (hrun : ∀ l, l <+: valid →
      (doReorganizeChain env st detach l).state = carryOut env st detach (.exchange l)) :
    (reorganizeChain env st detach attach).1 =
      carryOut env st detach (.of detach valid stop) := by
  rcases stop with _ | (e | _ | _ | e)
  · -- every block passed
    exact reorganizeChain_of_replay hs hdo (prefix_refl _) hpre
  · -- the run returned at the first block it could not read or rotate to
    have hcount : valid.length ≠ attach.length := (hlt _ rfl).ne
    rw [reorganizeChain_fst, hdo]
    simp only [settle, Plan.of, ne_eq, not_true_eq_false, false_or, hcount, length_eq_zero_iff]
    split
    · rfl
    have htake : attach.take (valid.length - 1) = valid.dropLast := by
      obtain ⟨r, rfl⟩ := hpre
      rw [take_append_of_le_length (sub_le _ _), dropLast_eq_take]
    rw [htake, hrun _ (List.dropLast_prefix valid)]
  · -- the signer test: the skipped block counts, so a refusal is followed by a second run
    by_cases hlen : valid.length ≤ detach.length
    · have hrefuse : doReorganizeChain env st detach attach = ⟨st, valid, detach.length,
          valid.length + 1, some (errText "attach block failed to pass consistency check")⟩ :=
        hdo.trans (if_pos ⟨rfl, hlen⟩)
      rw [reorganizeChain_fst, hrefuse]
      simp [hrun valid (prefix_refl _), Plan.of]
    · exact reorganizeChain_of_replay hs (hdo.trans (if_neg fun h => hlen h.2)) hpre hpre
  · -- beyond the miner tip: a refusal is final
    by_cases hlen : valid.length ≤ detach.length
    · have hrefuse : doReorganizeChain env st detach attach = ⟨st, valid, detach.length,
          valid.length, some (errText "attach block failed to pass consistency check")⟩ :=
        hdo.trans (if_pos ⟨rfl, hlen⟩)
      rw [reorganizeChain_fst, hrefuse, Plan.of, if_pos hlen]
      exact if_pos (.inr (.inl rfl))
    · rw [Plan.of, if_neg hlen]
      exact reorganizeChain_of_replay hs (hdo.trans (if_neg fun h => hlen h.2)) hpre hpre
  · -- a failed check only ends the loop
    exact reorganizeChain_of_replay hs hdo (prefix_refl _) hpre

/-- **The two runs come to the plan.** Whether a second run follows, and on which blocks, is decided
by the counts of the first; the chain afterwards is what the plan on the outcome of the check phase
says. -/
theorem reorganizeChain_state (hne : attach ≠ []) :
    (reorganizeChain env st detach attach).1 =
      carryOut env st detach (plan env st detach attach) := by
  rw [plan]
  cases hdet : checkDetach env st detach with
  | error e =>
    have hdo : doReorganizeChain env st detach attach = ⟨st, attach, 0, 0, some e⟩ := by
      rw [doReorganizeChain, if_neg fun h => hne h.2, checkLists_eq_none hs, hdet]
    rw [reorganizeChain_fst, hdo]
    exact if_pos (.inr (.inr rfl))
  | ok s =>
    exact reorganizeChain_of_settle hs (doReorganizeChain_eq_settle hs hne hdet)
      (attachLoop_isPrefix env s attach) (fun _ hstop => attachLoop_length_lt hstop)
      fun _ hvalid => doReorganizeChain_of_valid hs hdet hvalid

end

/-! ## Keeping the best chain -/

/-- The promise: the best chain does not become lower, and a side branch whose valid part is not
higher changes neither the chain nor the snapshot nor the stored views. -/
def KeepsBest (env : ChainEnv S) (st : ChainState S) (node : Node) (flags : Flags)
    (after : ChainState S) : Prop :=
  height st.tip ≤ height after.tip ∧
    (¬onTip env st node flags →
      ∀ detach attach, getReorganizeNodes env st.tip node = .ok (detach, attach) →
        height (findFork st.tip node) + (validPrefix env st detach attach).length ≤
          height st.tip →
        after = st)

/-- The exchange does no harm: there is nothing to detach, the plan keeps the chain, a step fails
with which the tip would leave it, or more blocks pass than are detached, the plan has as many,
and the fetches, contracts and database steps of all these blocks answer in turn. -/
def HarmlessExchange (env : ChainEnv S) (st : ChainState S) (detach attach : List Node) : Prop :=
  detach = [] ∨ plan env st detach attach = .keep ∨ (¬∃ views, Removes env st.stored st.tip views) ∨
    ∃ blocks, plan env st detach attach = .exchange blocks ∧
      detach.length < (validPrefix env st detach attach).length ∧ detach.length ≤ blocks.length ∧
      ∃ views views', Answers (ComesOff env) st.stored detach views ∧
        Answers (GoesOn env) views (blocks.take detach.length) views'

/-- The situations in which the promise is kept. -/
def Harmless (env : ChainEnv S) (st : ChainState S) (node : Node) (flags : Flags) : Prop :=
  onTip env st node flags ∨ height node ≤ height st.tip ∨
    ∃ detach attach, getReorganizeNodes env st.tip node = .ok (detach, attach) ∧
      (attach = [] ∨ HarmlessExchange env st detach attach)

theorem plan_blocks_isPrefix (h : plan env st detach attach = .exchange blocks) :
    blocks <+: validPrefix env st detach attach := by
  unfold plan at h
  unfold validPrefix
  cases hdet : checkDetach env st detach with
  | error e =>
    rw [hdet] at h
    cases h
  | ok s =>
    simp only [hdet] at h ⊢
    unfold Plan.of at h
    split at h
    · split at h
      · cases h
      · cases h
        exact List.dropLast_prefix _
    · split at h
      · cases h
      · cases h
        exact prefix_refl _
    · cases h
      exact prefix_refl _

theorem validPrefix_isPrefix (env : ChainEnv S) (st : ChainState S) (detach attach : List Node) :
    validPrefix env st detach attach <+: attach := by
  unfold validPrefix
  split
  · exact List.nil_prefix
  · exact attachLoop_isPrefix env _ attach

/-- With nothing to detach, blocks can only be added. -/
theorem exchange_of_nil (env : ChainEnv S) (hs : SideBranch st.tip fork [] attach)
    (hblocks : blocks <+: attach) :
    height st.tip ≤ height (carryOut env st [] (.exchange blocks)).tip ∧
      (blocks = [] → carryOut env st [] (.exchange blocks) = st) := by
  have hfork : fork = st.tip := hs.drains.symm
  have htip : (carryOut env st [] (.exchange blocks)).tip =
      lead fork (blocks.take (attachAll env st blocks).2.1) := replay_tip hs rfl blocks
  refine ⟨?_, fun h => by rw [h]; rfl⟩
  have hgrows := hs.grows.of_isPrefix ((List.take_prefix (attachAll env st blocks).2.1 blocks).trans
    hblocks)
  rw [htip, hgrows.height_lead, hfork]
  exact le_add_right _ _

/-- When the detach loop goes through, the promise is a matter of the two lengths. -/
theorem exchange_of_detached (hs : SideBranch st.tip fork detach attach) (hd : detach ≠ [])
    (hdet : (detachAll env st detach).2 = none) (hblocks : blocks <+: attach) :
    carryOut env st detach (.exchange blocks) ≠ st ∧
      (height st.tip ≤ height (carryOut env st detach (.exchange blocks)).tip ↔
        detach.length ≤ (attachAll env (detachAll env st detach).1 blocks).2.1) := by
  have hstate : carryOut env st detach (.exchange blocks) =
      (attachAll env (detachAll env st detach).1 blocks).1 := by
    rw [carryOut, replay_of_detached hdet]
  have hcount := attachAll_count_le env (detachAll env st detach).1 blocks
  have hgrows := hs.grows.of_isPrefix
    ((List.take_prefix (attachAll env (detachAll env st detach).1 blocks).2.1 blocks).trans hblocks)
  have htip := hs.height_tip
  have hpos : 0 < detach.length := length_pos_iff.mpr hd
  have hheight : height (carryOut env st detach (.exchange blocks)).tip =
      height fork + (attachAll env (detachAll env st detach).1 blocks).2.1 := by
    rw [hstate, replay_tip hs hdet, hgrows.height_lead, length_take, min_eq_left hcount]
  refine ⟨fun h => ?_, by rw [hheight, htip]; omega⟩
  by_cases hzero : (attachAll env (detachAll env st detach).1 blocks).2.1 = 0
  · rw [h] at hheight
    omega
  · rw [hstate] at h
    exact replay_tip_ne hs hdet hblocks hzero (congrArg ChainState.tip h)

/-- **The exchange keeps the best chain exactly when it is harmless.** A replay that has taken the
tip off must bring as many blocks back, and more than that must have passed the checks. -/
theorem exchange_keeps_iff (hs : SideBranch st.tip fork detach attach) :
    (height st.tip ≤ height (carryOut env st detach (plan env st detach attach)).tip ∧
      (height fork + (validPrefix env st detach attach).length ≤ height st.tip →
        carryOut env st detach (plan env st detach attach) = st)) ↔
      HarmlessExchange env st detach attach := by
  have htip := hs.height_tip
  cases hplan : plan env st detach attach with
  | keep => exact iff_of_true ⟨le_rfl, fun _ => rfl⟩ (.inr (.inl hplan))
  | exchange blocks =>
    have hvalid := plan_blocks_isPrefix hplan
    have hblocks := hvalid.trans (validPrefix_isPrefix env st detach attach)
    cases detach with
    | nil =>
      obtain ⟨hheight, hidle⟩ := exchange_of_nil env hs hblocks
      refine iff_of_true ⟨hheight, fun hle => hidle ?_⟩ (.inl rfl)
      have hlen := hvalid.length_le
      rw [htip, length_nil] at hle
      exact length_eq_zero_iff.mp (by omega)
    | cons n l =>
      have hn : n = st.tip := hs.descends.1
      have hn0 : n ≠ [] := by
        obtain ⟨x, hx⟩ := hs.descends.2.1
        rw [hx]
        exact cons_ne_nil _ _
      cases hoff : takeOff env st n with
      | error e =>
        have hidle : carryOut env st (n :: l) (.exchange blocks) = st := by
          rw [carryOut, replay_of_failed (by rw [detachAll_cons_of_error hn0 hoff]),
            detachAll_cons_of_error hn0 hoff]
        rw [hidle]
        refine iff_of_true ⟨le_rfl, fun _ => rfl⟩ (.inr (.inr (.inl ?_)))
        rintro ⟨_, h⟩
        obtain ⟨_, h, -⟩ := takeOff_iff.mp h
        rw [← hn, hoff] at h
        cases h
      | ok st' =>
        have hoff' : ∃ views, Removes env st.stored st.tip views :=
          ⟨_, takeOff_iff.mpr ⟨st', hn ▸ hoff, rfl⟩⟩
        simp only [HarmlessExchange, hplan, hoff', reduceCtorEq, not_true_eq_false, false_or,
          Plan.exchange.injEq, exists_eq_left', answers_detachAll_iff st hs.descends]
        cases hdet : (detachAll env st (n :: l)).2 with
        | some e =>
          have hlow := detachAll_lowers hs.descends hoff
          rw [carryOut, replay_of_failed hdet]
          simp only [reduceCtorEq, false_and, and_false, exists_false, iff_false]
          omega
        | none =>
          obtain ⟨hne, hheight⟩ := exchange_of_detached hs (cons_ne_nil n l) hdet hblocks
          rw [hheight, htip, Nat.add_le_add_iff_left]
          have hgrows :
              Extends (detachAll env st (n :: l)).1.tip (blocks.take (n :: l).length) := by
            rw [detachAll_tip st _ hs.descends hdet, hs.drains]
            exact hs.grows.of_isPrefix ((List.take_prefix _ _).trans hblocks)
          simp only [hne, imp_false, not_le, true_and, exists_and_left, exists_eq_left',
            answers_attachAll_iff hgrows, ← le_attachAll_count_iff]
          exact and_comm

/-- A block on the tip leaves the chain as it is, or is connected. -/
theorem extendChain_eq_ok {flags : Flags} {on : Bool}
    (h : extendChain env st n flags = .ok (st', on, err)) :
    st' = st ∨ flags.noConnect = false ∧ ∃ views, connectBlock env st n views = .ok st' := by
  unfold extendChain at h
  split at h
  · cases h
  split at h
  · cases h
    exact .inl rfl
  split at h
  · cases h
    exact .inl rfl
  rename_i hconnect
  simp only at h
  split at h
  · cases h
    exact .inl rfl
  rename_i hput
  cases h
  obtain ⟨views, -, hput⟩ := of_bind hput
  exact .inr ⟨Bool.eq_false_iff.mpr hconnect, views, hput⟩

theorem extendChain_height {flags : Flags} {on : Bool}
    (h : extendChain env st n flags = .ok (st', on, err)) : height st.tip ≤ height st'.tip := by
  rcases extendChain_eq_ok h with rfl | ⟨-, views, hconnect⟩
  · exact le_rfl
  · obtain ⟨htip, hparent⟩ := connectBlock_eq_ok hconnect
    rw [htip, ← hparent]
    exact (tail_suffix n).length_le

/-- **When the best chain is kept.** For every block tree, best chain, new node and every answer
of the checks: a call of `connectBestChain` that returns keeps the promise exactly in the
harmless situations. -/
theorem connectBestChain_keeps_iff {node : Node} {flags : Flags} {on : Bool}
    {err : Option ChainError} (h : connectBestChain env st node flags = .ok (st', on, err)) :
    KeepsBest env st node flags st' ↔ Harmless env st node flags := by
  unfold connectBestChain at h
  split at h
  case isTrue htip =>
    exact iff_of_true ⟨extendChain_height h, fun hside => absurd htip hside⟩ (.inl htip)
  rename_i hside
  split at h
  case isTrue hlow =>
    cases h
    exact iff_of_true ⟨le_rfl, fun _ _ _ _ _ => rfl⟩ (.inr (.inl hlow))
  rename_i hhigh
  obtain ⟨⟨detach, attach⟩, hnodes, h⟩ := of_bind h
  simp only [KeepsBest, Harmless, hside, hhigh, hnodes, ok.injEq, Prod.mk.injEq, and_imp,
    forall_apply_eq_imp_iff, forall_eq', not_false_eq_true, forall_const, ↓existsAndEq, and_true,
    exists_eq_left', false_or]
  simp only at h
  split at h
  case isTrue hnil =>
    cases h
    exact iff_of_true ⟨le_rfl, fun _ => rfl⟩ (.inl (length_eq_zero_iff.mp hnil))
  rename_i hne
  replace hne : attach ≠ [] := fun hnil => hne (length_eq_zero_iff.mpr hnil)
  split at h
  · cases h
  have hs := getReorganizeNodes_sideBranch hnodes hne
  have hst : st' = (reorganizeChain env st detach attach).1 := by cases h; rfl
  rw [hst, reorganizeChain_state hs hne, exchange_keeps_iff hs]
  simp [hne]

/-! ## A tip lost to one invalid block -/

/-- Every check passes, but for the proof of work of block 3. -/
def brokenBranchEnv : ChainEnv Unit where
  __ := ChainEnv.permissive
  checkProofOfWork n _ :=
    if n.hash = 3 then .error (errText "Insufficient number of Miner signatures.")
    else .ok false

def plainBlock (hash : Hash) : NodeData := signedBlock hash []

/-- The best chain is genesis, block 1 and block 2. -/
def twoBlocks : ChainState Unit :=
  let tip : Node := [plainBlock 2, plainBlock 1]
  ⟨tip, ⟨tip, 1, 3, 5⟩, ()⟩

/-- The new node: block 4 on block 3 on block 1. -/
def brokenBranch : Node := [plainBlock 4, plainBlock 3, plainBlock 1]

/-- A side branch of three blocks whose second block is invalid takes the tip off the best chain
and puts nothing in its place; the call even reports success. -/
theorem brokenBranch_loses_tip :
    connectBestChain brokenBranchEnv twoBlocks brokenBranch ⟨false, false⟩ =
        .ok (⟨[plainBlock 1], ⟨[plainBlock 1], 1, 2, 5⟩, ()⟩, true, none) ∧
      ¬KeepsBest brokenBranchEnv twoBlocks brokenBranch ⟨false, false⟩
        ⟨[plainBlock 1], ⟨[plainBlock 1], 1, 2, 5⟩, ()⟩ :=
  ⟨by decide +kernel, fun h => absurd h.1 (by decide)⟩

theorem brokenBranch_keeps_iff :
    KeepsBest brokenBranchEnv twoBlocks brokenBranch ⟨false, false⟩
        ⟨[plainBlock 1], ⟨[plainBlock 1], 1, 2, 5⟩, ()⟩ ↔
      Harmless brokenBranchEnv twoBlocks brokenBranch ⟨false, false⟩ :=
  connectBestChain_keeps_iff (show connectBestChain _ _ _ _ = .ok (_, true, none) by decide +kernel)

end Zent
