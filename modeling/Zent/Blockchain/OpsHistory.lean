import Zent.Blockchain.Collaterals
import Zent.Minerchain.WaitingList
import Zent.Blockchain.UnExecOps

/-!
# Instructions over a history of the chain

`connectBlock` executes the instructions of the miner blocks that a block brings in, and
`disconnectBlock` undoes them. A rotation block carries the height of its miner block in the nonce;
for a POW block the heights come from `LastRotation`, which is not the same before and after it.
-/

namespace Zent

open Go List Option Except Int32

/-- The decoding of instructions and of parameters. -/
structure OpsCodec where
  unmarshal : Bytes → Unmarshalled
  json : ParamsJson
  seeds : SeedsJson json

/-- The miner chain by height. -/
structure MinerView where
  byHeight : MinerIndex
  height_eq : ∀ {h blk}, byHeight h = some blk → blk.height = h

/-- The node that executes instructions now. -/
abbrev OpsCodec.env (codec : OpsCodec) (view : MinerView) : OpsEnv :=
  ⟨codec.unmarshal, codec.json, view.byHeight, view.height_eq⟩

/-- A call, by the height of the miner block. -/
inductive Call where
  | exec (height : Int32)
  | unExec (height : Int32)
  deriving DecidableEq

/-- The map of chains, and the calls that have been made. -/
structure OpsTrace where
  chains : FOCMap
  calls : List Call

section

variable (codec : OpsCodec) (view : MinerView)

/-- `BlockByHeight`, then `ExecOps`, which reads the block. -/
def execAt (height : Int32) (t : OpsTrace) : Result OpsTrace :=
  match view.byHeight height with
  | none => crash
  | some mrb => do
    let s ← execOps (codec.env view) mrb height.toUInt32 t.chains
    .ok ⟨s.chains, t.calls ++ [.exec height]⟩

/-- `BlockByHeight`, then `UnExecOps` if there is a block. -/
def unExecAt (height : Int32) (t : OpsTrace) : Result OpsTrace :=
  match view.byHeight height with
  | none => .ok t
  | some mrb => do
    let chains ← unExecOps (codec.env view) codec.seeds mrb t.chains
    .ok ⟨chains, t.calls ++ [.unExec height]⟩

/-- The part of `connectBlock` on instructions; the snapshot still has the rotation before the
block. -/
def connectOps (nonce : Int32) (lastRotation : UInt32) (t : OpsTrace) : Result OpsTrace :=
  if nonce < -MINER_RORATE_FREQ then execAt codec view (-(MINER_RORATE_FREQ + nonce)) t
  else if nonce > 0 then do
    let rot := lastRotation.toInt32
    let t ← if (view.byHeight (rot - 1)).isSome then execAt codec view (rot - 1) t else .ok t
    execAt codec view rot t
  else .ok t

/-- The part of `disconnectBlock` on instructions; the snapshot still has the rotation of the
block. -/
def disconnectOps (nonce : Int32) (lastRotation : UInt32) (t : OpsTrace) : Result OpsTrace :=
  if nonce < -MINER_RORATE_FREQ then unExecAt codec view (-(MINER_RORATE_FREQ + nonce)) t
  else if nonce > 0 then
    let rot := lastRotation.toInt32
    if (view.byHeight rot).isNone then .ok t
    else do
      let t ← unExecAt codec view rot t
      unExecAt codec view (rot - 1) t
  else .ok t

end

/-! ## Runs -/

/-- The best chain with the map of chains, beside the miner chain. -/
structure OpsState where
  node : Node
  miners : MinerView
  lastRotation : UInt32
  trace : OpsTrace
  /-- the maps as they were before each block of the chain was connected -/
  before : List FOCMap

/-- What can happen: a block is connected or disconnected, or the miner chain changes. -/
inductive OpsChange where
  | connect (x : NodeData)
  | disconnect
  | mine (miners : MinerView)

def OpsState.apply (codec : OpsCodec) (st : OpsState) : OpsChange → Result OpsState
  | .connect x => do
    let trace ← connectOps codec st.miners x.nonce st.lastRotation st.trace
    return ⟨x :: st.node, st.miners, rotationAfter (x :: st.node) st.lastRotation, trace,
      st.trace.chains :: st.before⟩
  | .disconnect =>
    match st.node with
    | [] => fail (assertText "Genesis can not be disconnected")
    | x :: p => do
      let trace ← disconnectOps codec st.miners x.nonce st.lastRotation st.trace
      return ⟨p, st.miners, rotationBefore (x :: p) st.lastRotation, trace, st.before.tail⟩
  | .mine miners => .ok { st with miners }

/-- A block that is connected follows the rules, and the miner chain keeps the blocks up to the
rotation. -/
def OpsChange.Valid (g : Int32) (st : OpsState) : OpsChange → Prop
  | .connect x => AcceptedChain g (x :: st.node)
  | .disconnect => True
  | .mine miners => ∀ height, height ≤ st.lastRotation.toInt32 →
      miners.byHeight height = st.miners.byHeight height

/-- **Careful changes.** No POW block is connected, and the miner block of a rotation block that is
disconnected does not touch what was in the map before it. -/
def OpsChange.Careful (codec : OpsCodec) (st : OpsState) : OpsChange → Prop
  | .connect x => x.isPow = false
  | .disconnect => ∀ x p m ms mrb, st.node = x :: p → st.before = m :: ms → x.isRotation = true →
      st.miners.byHeight st.lastRotation.toInt32 = some mrb →
      UndoClean (codec.env st.miners) mrb m st.trace.chains
  | .mine _ => True

/-- The node at genesis. -/
def OpsState.init (miners : MinerView) (chains : FOCMap) : OpsState :=
  ⟨[], miners, 0, ⟨chains, []⟩, []⟩

/-- The states that are reached by changes that `allowed` admits. -/
inductive OpsRun (codec : OpsCodec) (allowed : OpsState → OpsChange → Prop) (s₀ : OpsState) :
    OpsState → Prop where
  | start : OpsRun codec allowed s₀ s₀
  | change {st st' : OpsState} {e : OpsChange} : OpsRun codec allowed s₀ st → allowed st e →
    st.apply codec e = .ok st' → OpsRun codec allowed s₀ st'

/-- **The instructions executed are those of the miner blocks up to `LastRotation`**, each once. -/
def OpsState.InEffect (st : OpsState) : Prop :=
  ∀ height : Int32, if 1 ≤ height.toInt ∧ height.toInt ≤ st.lastRotation.toNat
    then st.trace.calls.count (.exec height) = st.trace.calls.count (.unExec height) + 1
    else st.trace.calls.count (.exec height) ≤ st.trace.calls.count (.unExec height)

/-- **Undoing the last block restores the map** as it was before the block. -/
def OpsState.UndoRestores (codec : OpsCodec) (st : OpsState) : Prop :=
  ∀ m ms, st.before = m :: ms →
    ∃ st', st.apply codec .disconnect = .ok st' ∧ Restores m st'.trace.chains

/-! ## One block -/

variable {codec : OpsCodec} {view view' : MinerView} {g : Int32} {x : NodeData} {p : Node}
  {m cur cur' : FOCMap} {ms : List FOCMap} {t : OpsTrace} {st st' : OpsState} {last : UInt32}

section

variable (h : AcceptedChain g (x :: p)) (hx : x.isRotation = true)

include h hx

/-- The nonce of a rotation block gives the height of its miner block. -/
theorem AcceptedChain.neg_add_nonce :
    -(MINER_RORATE_FREQ + x.nonce) = Int32.ofInt (rot (x :: p)) := by
  rw [Int32.add_comm, h.neg_nonce hx]

theorem AcceptedChain.nonce_lt : x.nonce < -MINER_RORATE_FREQ := by
  rw [lt_iff_toInt_lt, toInt_freq, h.toInt_nonce hx, h.rot_rotation hx]
  omega

theorem connectOps_rotation :
    connectOps codec view x.nonce last t = execAt codec view (ofInt (rot (x :: p))) t := by
  rw [connectOps, if_pos (h.nonce_lt hx), h.neg_add_nonce hx]

theorem disconnectOps_rotation :
    disconnectOps codec view x.nonce last t =
      unExecAt codec view (ofInt (rot (x :: p))) t := by
  rw [disconnectOps, if_pos (h.nonce_lt hx), h.neg_add_nonce hx]

end

theorem AcceptedChain.toInt_rot (h : AcceptedChain g p) : (ofInt (rot p)).toInt = rot p := by
  have hlt := h.rot_lt
  exact toInt_ofInt_of_le (by omega) (by omega)

theorem nonce_of_isSeries (hx : x.isSeries = true) :
    ¬ x.nonce < -MINER_RORATE_FREQ ∧ ¬ x.nonce > 0 := by
  obtain ⟨hlow, hhigh⟩ := isSeries_iff.mp hx
  rw [lt_iff_toInt_lt, toInt_freq, gt_iff_lt, lt_iff_toInt_lt, toInt_zero]
  omega

theorem connectOps_series (hx : x.isSeries = true) :
    connectOps codec view x.nonce last t = .ok t := by
  obtain ⟨hlow, hhigh⟩ := nonce_of_isSeries hx
  rw [connectOps, if_neg hlow, if_neg hhigh]

theorem disconnectOps_series (hx : x.isSeries = true) :
    disconnectOps codec view x.nonce last t = .ok t := by
  obtain ⟨hlow, hhigh⟩ := nonce_of_isSeries hx
  rw [disconnectOps, if_neg hlow, if_neg hhigh]

/-! ## The maps along the chain -/

/-- Each block of the chain made the next map from the one before it. -/
inductive Stacked (codec : OpsCodec) (view : MinerView) : Node → FOCMap → List FOCMap → Prop where
  | genesis {m : FOCMap} : (m.lookup ROOT).isSome → Stacked codec view [] m []
  | series {x : NodeData} {p : Node} {m cur : FOCMap} {ms : List FOCMap} :
    Stacked codec view p m ms → x.isSeries = true → Restores m cur →
    Stacked codec view (x :: p) cur (m :: ms)
  | rotation {x : NodeData} {p : Node} {m cur : FOCMap} {ms : List FOCMap}
    {mrb : MingingRightBlock} : Stacked codec view p m ms → x.isRotation = true →
    view.byHeight (ofInt (rot (x :: p))) = some mrb →
    Built (codec.env view) mrb m cur → Stacked codec view (x :: p) cur (m :: ms)

theorem Stacked.root (h : Stacked codec view p cur ms) : (cur.lookup ROOT).isSome := by
  induction h with
  | genesis hroot => exact hroot
  | series _ _ hsame ih =>
    rw [hsame ROOT]
    exact ih
  | rotation _ _ _ hbuilt ih =>
    obtain ⟨d, hd⟩ := isSome_iff_exists.mp ih
    obtain ⟨d', hd', -⟩ := hbuilt.kept ROOT d hd
    exact isSome_of_mem hd'

theorem Stacked.restores (h : Stacked codec view p cur ms) (hsame : Restores cur cur') :
    Stacked codec view p cur' ms := by
  cases h with
  | genesis hroot => exact .genesis (hsame ROOT ▸ hroot)
  | series htail hx hcur => exact .series htail hx fun id => (hsame id).trans (hcur id)
  | rotation htail hx hmrb hbuilt => exact .rotation htail hx hmrb (hbuilt.restores hsame)

/-- Only the miner blocks up to the rotation matter. -/
theorem Stacked.congr (h : Stacked codec view p cur ms) (haccepted : AcceptedChain g p)
    (hsame : ∀ height, height ≤ ofInt (rot p) →
      view'.byHeight height = view.byHeight height) : Stacked codec view' p cur ms := by
  induction h with
  | genesis hroot => exact .genesis hroot
  | series _ hx hcur ih =>
    refine .series (ih haccepted.tail fun height hle => hsame height ?_) hx hcur
    rw [haccepted.rot_series hx]
    exact hle
  | @rotation x p m cur ms mrb _ hx hmrb hbuilt ih =>
    have hup : ofInt (rot p) ≤ ofInt (rot (x :: p)) := by
      rw [le_iff_toInt_le, haccepted.tail.toInt_rot, haccepted.toInt_rot, haccepted.rot_rotation hx]
      omega
    refine .rotation (ih haccepted.tail fun height hle => hsame height (Int32.le_trans hle hup))
      hx ?_ ⟨hbuilt.kept, hbuilt.added⟩
    rw [hsame _ (Int32.le_refl _), hmrb]

/-! ## Runs without POW blocks -/

/-- What holds in a careful run. -/
structure OpsState.Sound (codec : OpsCodec) (g : Int32) (st : OpsState) : Prop where
  accepted : AcceptedChain g st.node
  last : st.lastRotation = rotation st.node
  stacked : Stacked codec st.miners st.node st.trace.chains st.before
  calls : ∀ height : Int32, st.trace.calls.count (.exec height) =
    st.trace.calls.count (.unExec height) +
      if 1 ≤ height.toInt ∧ height.toInt ≤ rot st.node then 1 else 0

theorem OpsState.Sound.inEffect (h : st.Sound codec g) : st.InEffect := by
  intro height
  have hcalls := h.calls height
  rw [h.last, ← rot]
  split at hcalls
  case isTrue hin => rw [if_pos hin, hcalls]
  case isFalse hout =>
    rw [if_neg hout, hcalls]
    exact Nat.le_refl _

theorem OpsState.init_sound (miners : MinerView) {chains : FOCMap}
    (hroot : (chains.lookup ROOT).isSome) : (OpsState.init miners chains).Sound codec g where
  accepted := .genesis
  last := rfl
  stacked := .genesis hroot
  calls height := by
    rw [if_neg]
    · rfl
    · rintro ⟨hlow, hhigh⟩
      have hzero : rot (OpsState.init miners chains).node = 0 := rfl
      omega

theorem count_snoc (calls : List Call) (c c' : Call) :
    (calls ++ [c]).count c' = calls.count c' + if c = c' then 1 else 0 := by
  simp [count_append, count_singleton]

/-- The heights in effect after a rotation block. -/
theorem rot_range_succ (h : AcceptedChain g (x :: p)) (hx : x.isRotation = true) (height : Int32) :
    (if 1 ≤ height.toInt ∧ height.toInt ≤ rot (x :: p) then 1 else 0) =
      (if 1 ≤ height.toInt ∧ height.toInt ≤ rot p then 1 else 0) +
        if ofInt (rot (x :: p)) = height then 1 else 0 := by
  have hrot := h.rot_rotation hx
  have htop : ofInt (rot (x :: p)) = height ↔ (rot (x :: p) : Int) = height.toInt := by
    rw [← toInt_inj, h.toInt_rot]
  simp only [htop]
  split_ifs <;> omega

theorem OpsState.Sound.connect (h : st.Sound codec g) (hx : x.isPow = false)
    (hvalid : AcceptedChain g (x :: st.node))
    (happly : st.apply codec (.connect x) = .ok st') : st'.Sound codec g := by
  obtain ⟨t, ht, happly⟩ := of_bind happly
  obtain rfl := ok.inj happly
  have hlast : rotationAfter (x :: st.node) st.lastRotation = rotation (x :: st.node) := by
    rw [h.last]
    exact rotationAfter_accepted hvalid
  rcases kind_cases x with hpow | hrotation | hseries
  · rw [hx] at hpow
    cases hpow
  · rw [connectOps_rotation hvalid hrotation, execAt] at ht
    split at ht
    · cases ht
    rename_i mrb hmrb
    obtain ⟨s, hs, ht⟩ := of_bind ht
    cases ht
    refine ⟨hvalid, hlast, .rotation h.stacked hrotation hmrb (execOps_built hs), fun height => ?_⟩
    simp only [count_snoc, Call.exec.injEq, reduceCtorEq, if_false, Nat.add_zero]
    rw [h.calls height, rot_range_succ hvalid hrotation, Nat.add_assoc]
  · rw [connectOps_series hseries] at ht
    cases ht
    refine ⟨hvalid, hlast, .series h.stacked hseries Restores.refl, fun height => ?_⟩
    rw [hvalid.rot_series hseries]
    exact h.calls height

theorem OpsState.Sound.disconnect (h : st.Sound codec g)
    (hclean : OpsChange.Careful codec st .disconnect) (hnode : st.node = x :: p) :
    ∃ m ms st', st.before = m :: ms ∧ st.apply codec .disconnect = .ok st' ∧
      Restores m st'.trace.chains ∧ st'.Sound codec g := by
  obtain ⟨node, miners, lastRotation, trace, before⟩ := st
  obtain rfl := hnode
  obtain ⟨haccepted, hlast, hstacked, hcalls⟩ := h
  dsimp only at haccepted hlast hstacked hcalls
  have hback : rotationBefore (x :: p) lastRotation = rotation p := by
    rw [hlast]
    exact rotationBefore_cons (nonce_ne_zero haccepted)
  cases hstacked with
  | @series _ _ m _ ms htail hx hcur =>
    refine ⟨m, ms, ⟨p, miners, _, trace, ms⟩, rfl, ?_, hcur, haccepted.tail, hback,
      htail.restores hcur, fun height => ?_⟩
    · rw [OpsState.apply]
      dsimp only
      rw [disconnectOps_series hx]
      rfl
    · rw [hcalls height, haccepted.rot_series hx]
  | @rotation _ _ m _ ms mrb htail hx hmrb hbuilt =>
    have hheight : lastRotation.toInt32 = ofInt (rot (x :: p)) := by
      rw [hlast, toInt32_eq_ofInt, ← rot]
    obtain ⟨u, hu, hrestores⟩ := unExecOps_restores codec.seeds
      (hclean x p m ms mrb rfl rfl hx (hheight ▸ hmrb)) hbuilt htail.root
    refine ⟨m, ms, ⟨p, miners, _, ⟨u, trace.calls ++ [.unExec (ofInt (rot (x :: p)))]⟩, ms⟩,
      rfl, ?_, hrestores, haccepted.tail, hback, htail.restores hrestores, fun height => ?_⟩
    · rw [OpsState.apply]
      dsimp only
      rw [disconnectOps_rotation haccepted hx, unExecAt, hmrb]
      dsimp only
      rw [hu]
      rfl
    · have hcall := hcalls height
      rw [rot_range_succ haccepted hx] at hcall
      simp only [count_snoc, Call.unExec.injEq, reduceCtorEq, if_false, Nat.add_zero]
      rw [hcall]
      omega

theorem OpsState.Sound.apply {e : OpsChange} (h : st.Sound codec g) (hvalid : e.Valid g st)
    (hcareful : e.Careful codec st) (happly : st.apply codec e = .ok st') : st'.Sound codec g := by
  cases e with
  | connect x => exact h.connect hcareful hvalid happly
  | disconnect =>
    rcases hnode : st.node with _ | ⟨x, p⟩
    · rw [OpsState.apply, hnode] at happly
      cases happly
    · obtain ⟨-, -, st'', -, happly', -, hsound⟩ := h.disconnect hcareful hnode
      obtain rfl := ok.inj (happly.symm.trans happly')
      exact hsound
  | mine miners =>
    obtain rfl := ok.inj happly
    refine ⟨h.accepted, h.last, h.stacked.congr h.accepted fun height hle => hvalid height ?_,
      h.calls⟩
    rw [h.last, toInt32_eq_ofInt, ← rot]
    exact hle

theorem OpsRun.sound {s₀ : OpsState}
    (hrun : OpsRun codec (fun st e => e.Valid g st ∧ e.Careful codec st) s₀ st)
    (h : s₀.Sound codec g) : st.Sound codec g := by
  induction hrun with
  | start => exact h
  | change _ hallowed happly ih => exact ih.apply hallowed.1 hallowed.2 happly

/-- **Instructions are executed once.** In a run in which no POW block is connected and every block
that is disconnected is undone cleanly, the instructions in effect are those of the miner blocks up
to `LastRotation`, and undoing the last block, if that is clean, restores the map. -/
theorem executedOnce (codec : OpsCodec) (g : Int32) (miners : MinerView) (chains : FOCMap)
    (hroot : (chains.lookup ROOT).isSome) (st : OpsState)
    (hrun : OpsRun codec (fun st e => e.Valid g st ∧ e.Careful codec st)
      (OpsState.init miners chains) st) :
    st.InEffect ∧ (OpsChange.Careful codec st .disconnect → st.UndoRestores codec) := by
  have hsound := hrun.sound (OpsState.init_sound miners hroot)
  refine ⟨hsound.inEffect, fun hcareful m ms hbefore => ?_⟩
  have hnode : ∃ x p, st.node = x :: p := by
    have hstacked := hsound.stacked
    rw [hbefore] at hstacked
    generalize st.node = node at hstacked
    cases hstacked with
    | series => exact ⟨_, _, rfl⟩
    | rotation => exact ⟨_, _, rfl⟩
  obtain ⟨x, p, hnode⟩ := hnode
  obtain ⟨m', ms', st', hbefore', happly, hrestores, -⟩ := hsound.disconnect hcareful hnode
  rw [hbefore, List.cons.injEq] at hbefore'
  exact ⟨st', happly, hbefore'.1 ▸ hrestores⟩

/-! ## Two histories -/

/-- All data is about the root chain, and its parameters have no seeds. -/
def rootCodec : OpsCodec where
  unmarshal _ := .object fun cd => { cd with magic := 7, chainID := ROOT, dns := "h" }
  json := ⟨fun _ => [], fun _ _ => none, fun _ => true, nofun⟩
  seeds := ⟨fun _ _ => "[]", fun _ _ => rfl⟩

def rootOnly : FOCMap :=
  AList.singleton ROOT { ChainDescriptor.zero with magic := 7, chainID := ROOT }

/-- A miner block with an instruction. -/
def minerBlock (code : UInt8) (height : Int32) : MingingRightBlock :=
  { MingingRightBlock.zero with height, instructions := [⟨code, []⟩] }

/-- Three miner blocks, as many as a POW block needs. -/
def shortView (code : UInt8) : MinerView where
  byHeight h := if 0 ≤ h ∧ h ≤ 2 then some (minerBlock code h) else none
  height_eq := by
    intro h blk hblk
    split at hblk <;> cases hblk
    rfl

/-- The first rotation block. -/
def rotationBlock : NodeData := ⟨1, -21, [], 1, 0⟩

theorem accepted_rotationBlock : AcceptedChain (-19) [rotationBlock] := by
  refine .block .genesis (.inr ⟨by decide, ?_⟩) (by decide)
  exact ⟨by decide, fun _ => by decide, by decide⟩

/-- Its miner block asks for the chain that is there already. -/
theorem undoClean_minerBlock (cur : FOCMap) :
    UndoClean (rootCodec.env (shortView AddChain)) (minerBlock AddChain 1) rootOnly cur where
  read _ _ _ := nofun
  chains op _ id d hnames _ := by
    obtain ⟨-, cd, hread, rfl⟩ := hnames
    exact .inl (some_inj.mp hread ▸ rfl)
  hosts op hop id hnames := by
    rw [mem_singleton.mp hop] at hnames
    exact absurd hnames.1 addChain_ne_addDns
  seeds done op rest _ _ hsplit hcode _ _ := by
    have hop : op ∈ (minerBlock AddChain 1).instructions :=
      hsplit ▸ mem_append_right done mem_cons_self
    rw [mem_singleton.mp hop] at hcode
    exact absurd hcode addChain_ne_addDns

theorem executedOnce_rotation : ∃ st : OpsState,
    st.trace.calls = [.exec 1] ∧ st.lastRotation = 1 ∧ st.InEffect ∧ st.UndoRestores rootCodec := by
  have hsome : ∃ st : OpsState, (OpsState.init (shortView AddChain) rootOnly).apply rootCodec
      (.connect rotationBlock) = .ok st ∧ st.trace.calls = [.exec 1] ∧ st.lastRotation = 1 ∧
      st.miners = shortView AddChain ∧ st.before = [rootOnly] := ⟨_, rfl, rfl, rfl, rfl, rfl⟩
  obtain ⟨st, happly, hcalls, hlast, hminers, hbefore⟩ := hsome
  obtain ⟨hin, hundo⟩ := executedOnce rootCodec (-19) (shortView AddChain) rootOnly rfl st
    (.change (e := .connect rotationBlock) .start ⟨accepted_rotationBlock, rfl⟩ happly)
  refine ⟨st, hcalls, hlast, hin, hundo ?_⟩
  intro x p m ms mrb _ hm _ hmrb
  rw [hbefore] at hm
  obtain ⟨rfl, -⟩ := List.cons.inj hm
  rw [hminers, hlast] at hmrb
  obtain rfl : minerBlock AddChain 1 = mrb := some_inj.mp hmrb
  rw [hminers]
  exact undoClean_minerBlock _

/-- **A POW block executes the miner blocks of before**, and **a host that was never added is
removed together with all the parameters.** -/
theorem powBlock_not_inEffect :
    (∃ st, OpsRun rootCodec (fun st e => e.Valid 1 st) (OpsState.init (shortView AddChain) rootOnly)
      st ∧ ¬ st.InEffect) ∧
    ∃ s u, execOps (rootCodec.env (shortView AddDns)) (minerBlock AddDns 1) 1 rootOnly = .ok s ∧
      unExecOps (rootCodec.env (shortView AddDns)) rootCodec.seeds (minerBlock AddDns 1) s.chains =
        .ok u ∧ ¬ Restores rootOnly u := by
  refine ⟨⟨_, .change (e := .connect (powBlock 1)) .start ?_ rfl, ?_⟩, _, _, rfl, rfl, ?_⟩
  · exact .block .genesis (.inl (by decide)) (by decide)
  · intro h
    exact absurd (h 1) (by decide)
  · intro h
    exact absurd (h ROOT) (by decide)

end Zent
