import Zent.Blockchain.ReorgSafety
import Zent.Blockchain.SignedBlocks

/-!
# Signed blocks along the life of the chain

The check of a signed block relies on the number `LastRotation` that the chain keeps with its
tip. It is written when a block is connected, from the nonce of the block, and when a block is
disconnected, from the old number.

* `Reached` are the states of the chain that connecting checked blocks and disconnecting tips
  leads to; `Reached.wellRotated` shows the number kept to be the rotation of the tip in all of
  them.
-/

namespace Zent

open Go List Int32 Node

variable {S : Type} {x : NodeData}

/-! ## The states of the chain -/

theorem series_cases (p : Int32) : (0 < p ∨ p ≤ -MINER_RORATE_FREQ) ∨
    p = -(MINER_RORATE_FREQ - 1) ∨ (p ≤ 0 ∧ -(MINER_RORATE_FREQ - 1) < p) := by
  have hfreq : (-MINER_RORATE_FREQ).toInt = -20 := rfl
  have hlast : (-(MINER_RORATE_FREQ - 1)).toInt = -19 := rfl
  rw [← toInt_inj]
  simp only [lt_iff_toInt_lt, le_iff_toInt_le, hfreq, hlast, toInt_zero]
  omega

/-- The next nonce of a series is above that of a rotation block and below zero. -/
theorem toInt_sub_one_of_goesOn {p : Int32} (hle : p ≤ 0) (hgt : -(MINER_RORATE_FREQ - 1) < p) :
    (p - 1).toInt = p.toInt - 1 ∧ -20 < p.toInt - 1 ∧ p.toInt - 1 < 0 := by
  have hlast : (-(MINER_RORATE_FREQ - 1)).toInt = -19 := rfl
  rw [le_iff_toInt_le, toInt_zero] at hle
  rw [lt_iff_toInt_lt, hlast] at hgt
  rw [toInt_sub, toInt_one, Int.bmod_def]
  omega

/-- A rotation block comes only after the last block of a series, and names the next rotation. -/
theorem nonce_of_rotates {pnonce nonce : Int32} {r : UInt32}
    (h : checkSeries pnonce nonce r = .ok ()) (hrot : nonce ≤ -MINER_RORATE_FREQ) :
    nonce = -(r + 1 + MINER_RORATE_FREQ.toUInt32).toInt32 := by
  obtain ⟨hstarts, hrotates, hgoesOn⟩ := checkSeries_eq_ok h
  rcases series_cases pnonce with hp | hp | ⟨hle, hgt⟩
  · rw [hstarts hp] at hrot
    exact absurd hrot (by decide)
  · exact hrotates hp
  have hfreq : (-MINER_RORATE_FREQ).toInt = -20 := rfl
  obtain ⟨heq, hlow, -⟩ := toInt_sub_one_of_goesOn hle hgt
  rw [hgoesOn hle hgt, le_iff_toInt_le, hfreq] at hrot
  omega

theorem InSeries.toInt_neg {pnonce nonce : Int32} {r : Int} (h : InSeries pnonce nonce r)
    (hr : 0 ≤ r) : nonce.toInt < 0 := by
  rcases series_cases pnonce with hp | hp | ⟨hle, hgt⟩
  · rw [h.starts hp]
    decide
  · have hfreq : MINER_RORATE_FREQ.toInt = 20 := rfl
    rw [h.rotates hp, hfreq]
    omega
  · obtain ⟨heq, -, hneg⟩ := toInt_sub_one_of_goesOn hle hgt
    rw [h.goesOn hle hgt, heq]
    exact hneg

/-- The rotation stored when a block is connected is that of the block. -/
theorem rotationAfter_cons {p : Node} (h : x.nonce ≤ -MINER_RORATE_FREQ →
      x.nonce = -(rotation p + 1 + MINER_RORATE_FREQ.toUInt32).toInt32) :
    rotationAfter (x :: p) (rotation p) = rotation (x :: p) := by
  rw [rotation_cons, rotationAfter, advance]
  split
  · rfl
  split
  case isTrue hrot =>
    rw [show nonce (x :: p) = _ from h hrot, Int32.neg_neg, toUInt32_sub, UInt32.toUInt32_toInt32]
    exact add_sub_cancel_right _ _
  · exact (add_zero _).symm

/-- The rotation stored when a block is disconnected is that of its parent. -/
theorem rotationBefore_cons {p : Node} (h : x.nonce ≠ 0) :
    rotationBefore (x :: p) (rotation (x :: p)) = rotation p := by
  rw [rotation_cons, rotationBefore, advance]
  by_cases hpos : nonce (x :: p) > 0
  · rw [if_pos (Int32.le_of_lt hpos), if_pos hpos]
    exact add_sub_cancel_right _ _
  have hneg : ¬nonce (x :: p) ≥ 0 :=
    fun hge => h (Int32.le_antisymm (Int32.not_lt.mp hpos) hge)
  rw [if_neg hneg, if_neg hpos]
  split
  · exact add_sub_cancel_right _ _
  · exact add_zero _

/-- The states of the chain. Every block is checked against its parent before it is connected,
possibly in an earlier state and with another miner chain; the state stored beside the chain may
change on its own. -/
inductive Reached : ChainState S → Prop where
  | genesis (numTxns totalTxns : UInt64) (stored : S) :
    Reached ⟨[], ⟨[], numTxns, totalTxns, 0⟩, stored⟩
  | connect {st st' before : ChainState S} {env : ChainEnv S} {pow : PowEnv S}
    {block : SignedBlock} {x : NodeData} {flags : BehaviorFlags} {scripts : List Bytes}
    {views : S} :
    Reached st → Reached before →
    checkProofOfWork pow before block (some st.tip) flags = .ok scripts → x.nonce = block.nonce →
    connectBlock env st (x :: st.tip) views = .ok st' → Reached st'
  | disconnect {st st' : ChainState S} {env : ChainEnv S} {views : S} :
    Reached st → st.tip ≠ [] → disconnectBlock env st st.tip views = .ok st' → Reached st'
  | store {st : ChainState S} (stored : S) : Reached st → Reached { st with stored }

variable {st : ChainState S} {st' : ChainState S}

theorem WellRotated.connect {before : ChainState S} {env : ChainEnv S} {pow : PowEnv S}
    {block : SignedBlock} {flags : BehaviorFlags} {scripts : List Bytes} {views : S}
    (hst : WellRotated st) (hbefore : WellRotated before)
    (hcheck : checkProofOfWork pow before block (some st.tip) flags = .ok scripts)
    (hx : x.nonce = block.nonce) (h : connectBlock env st (x :: st.tip) views = .ok st') :
    WellRotated st' := by
  have hsigned : x.nonce ≤ 0 → Approved pow block st.tip (rotation st.tip) scripts := fun hle =>
    checkProofOfWork_signed hbefore (hx ▸ hle) hcheck
  obtain ⟨_, -, h⟩ := of_bind h
  obtain ⟨_, -, h⟩ := of_bind h
  obtain ⟨stored, -, h⟩ := of_bind h
  cases h
  refine ⟨rfl, ?_, ?_⟩
  · rw [hst.last]
    refine rotationAfter_cons fun hrot => ?_
    have happ := hsigned (Int32.le_trans hrot (by decide))
    rw [hx] at hrot ⊢
    exact nonce_of_rotates happ.series hrot
  · refine forall_mem_cons.mpr ⟨fun hzero => ?_, hst.nonzero⟩
    have hle : x.nonce ≤ 0 := hzero ▸ Int32.le_refl 0
    have hneg := ((hsigned hle).inSeries (hx ▸ hle)).toInt_neg (Int.natCast_nonneg _)
    rw [← hx, hzero] at hneg
    exact absurd hneg (by decide)

theorem WellRotated.disconnect {env : ChainEnv S} {views : S} (hst : WellRotated st)
    (hne : st.tip ≠ []) (h : disconnectBlock env st st.tip views = .ok st') :
    WellRotated st' := by
  obtain ⟨x, p, htip⟩ := exists_cons_of_ne_nil hne
  obtain ⟨_, -, h⟩ := of_bind h
  obtain ⟨_, -, h⟩ := of_bind h
  obtain ⟨stored, -, h⟩ := of_bind h
  cases h
  have hnonzero := forall_mem_cons.mp (htip ▸ hst.nonzero)
  refine ⟨rfl, ?_, ?_⟩
  · rw [hst.last, htip]
    exact rotationBefore_cons hnonzero.1
  · rw [htip]
    exact hnonzero.2

/-- **The number kept with the tip is its rotation** in every state of the chain. -/
theorem Reached.wellRotated (h : Reached st) : WellRotated st := by
  induction h with
  | genesis => exact ⟨rfl, rfl, fun x hx => nomatch hx⟩
  | connect _ _ hcheck hx hconnect ihst ihbefore => exact ihst.connect ihbefore hcheck hx hconnect
  | disconnect _ hne hdisconnect ih => exact ih.disconnect hne hdisconnect
  | store _ _ ih => exact ⟨ih.node, ih.last, ih.nonzero⟩

/-! ## The reorganisation stays among these states -/

section Reorganisation

open Branch

variable {env : ChainEnv S} {st st' : ChainState S} {err : Option ChainError}

/-- What the check phase asks for is the check above, made in the state of the chain. -/
def Consults (env : ChainEnv S) (st : ChainState S) : Prop :=
  ∀ n parent, env.checkProofOfWork n parent = .ok false →
    ∃ (pow : PowEnv S) (block : SignedBlock) (flags : BehaviorFlags) (scripts : List Bytes),
      n.nonce = block.nonce ∧ checkProofOfWork pow st block (some parent) flags = .ok scripts

/-- Each block of a row has passed the check on the one before. -/
def PassInRow (env : ChainEnv S) (base : Node) (l : List Node) : Prop :=
  IsChain (fun p n => env.checkProofOfWork n p = .ok false) (base :: l)

variable {n : Node} {detach : List Node} {before : ChainState S}

theorem attachStep_pass {s s' : Scratch S} (h : attachStep env s n = .ok s') :
    env.checkProofOfWork n s.newBest = .ok false ∧ s'.newBest = n := by
  simp only [attachStep, checkAttach, bind_eq_ok, mapError_eq_ok, throwIf_eq_ok] at h
  obtain ⟨_, -, _, -, _, -, w, -, _, -, mkorphan, hpow, _, horphan, _, -, h⟩ := h
  cases h
  rw [Bool.eq_false_iff.mpr horphan] at hpow
  exact ⟨hpow, rfl⟩

/-- The blocks that pass the check phase pass in a row. -/
theorem attachLoop_passInRow (s : Scratch S) (l : List Node) :
    PassInRow env s.newBest (attachLoop env s l).1 := by
  induction l generalizing s with
  | nil => exact isChain_singleton _
  | cons n l ih =>
    rw [attachLoop]
    split
    · exact isChain_singleton _
    case h_2 s' hstep =>
      obtain ⟨hpass, hnew⟩ := attachStep_pass hstep
      exact isChain_cons_cons.mpr ⟨hpass, hnew ▸ ih s'⟩

theorem drain_concat (tip : Node) (l : List Node) : drain tip (l ++ [n]) = parent n := by
  induction l generalizing tip with
  | nil => rfl
  | cons m l ih => exact ih (parent m)

/-- The check phase starts to attach at the fork. -/
theorem checkDetach_newBest {s : Scratch S} (hdesc : Descends st.tip detach)
    (h : checkDetach env st detach = .ok s) : s.newBest = drain st.tip detach := by
  obtain ⟨t, hrun, h⟩ := of_bind h
  cases h
  show t.newBest = drain st.tip detach
  refine foldlM_induction_run (P := fun done u => u.newBest = drain st.tip done) rfl ?_ hrun
  intro done n rest u u' hl _ _ hstep
  have hn : n ≠ [] := hdesc.ne_nil n (hl ▸ mem_append_right done mem_cons_self)
  simp only [detachStep, if_neg hn, bind_eq_ok] at hstep
  obtain ⟨_, -, _, -, _, -, _, -, hstep⟩ := hstep
  cases hstep
  exact (drain_concat _ done).symm

variable (hst : Reached st)

include hst

theorem Reached.detachAll (l : List Node) : Reached (detachAll env st l).1 := by
  induction l generalizing st with
  | nil => exact hst
  | cons n l ih =>
    rw [Zent.detachAll]
    split
    · exact ih hst
    rename_i hn
    split
    · exact hst
    rename_i st' hoff
    have hst' : Reached st' := by
      obtain rfl := (takeOff_eq_ok hoff).1
      simp only [takeOff, bind_eq_ok] at hoff
      obtain ⟨_, -, views, -, hoff⟩ := hoff
      exact hst.disconnect hn hoff
    split
    · exact hst'
    case h_2 stored _ => exact ih (hst'.store stored)

/-- A block that passed on the tip in some state of the chain is connected. -/
theorem Reached.connectBlock {views : S} (hbefore : Reached before)
    (hc : Consults env before) (hn : n ≠ []) (hpass : env.checkProofOfWork n st.tip = .ok false)
    (h : connectBlock env st n views = .ok st') : Reached st' := by
  obtain ⟨x, p, rfl⟩ := exists_cons_of_ne_nil hn
  obtain rfl : p = st.tip := (connectBlock_eq_ok h).2
  obtain ⟨pow, block, flags, scripts, hnonce, hcheck⟩ := hc _ _ hpass
  exact hst.connect hbefore hcheck hnonce h

theorem Reached.attachAll {l : List Node} (hbefore : Reached before)
    (hc : Consults env before) (hne : ∀ n ∈ l, n ≠ []) (hpass : PassInRow env st.tip l) :
    Reached (attachAll env st l).1 := by
  induction l generalizing st with
  | nil => exact hst
  | cons n l ih =>
    rw [Zent.attachAll]
    split
    · exact hst
    rename_i st' hput
    have htip := (putOn_eq_ok hput).1
    simp only [putOn, bind_eq_ok] at hput
    obtain ⟨_, -, _, -, views, -, hput⟩ := hput
    obtain ⟨hpass, hrest⟩ := isChain_cons_cons.mp hpass
    refine ih (hst.connectBlock hbefore hc (hne n mem_cons_self) hpass hput)
      (fun m hm => hne m (mem_cons_of_mem n hm)) ?_
    rw [htip]
    exact hrest

theorem Reached.reorganizeChain {fork : Node} {attach : List Node}
    (hc : Consults env st) (hs : SideBranch st.tip fork detach attach) (hne : attach ≠ []) :
    Reached (reorganizeChain env st detach attach).1 := by
  rw [reorganizeChain_state hs hne]
  cases hplan : plan env st detach attach with
  | keep => exact hst
  | exchange blocks =>
    have hvalid := plan_blocks_isPrefix hplan
    have hpass : PassInRow env fork blocks := by
      refine IsChain.prefix ?_ ((prefix_cons_inj fork).mpr hvalid)
      rw [validPrefix]
      split
      · exact isChain_singleton _
      case h_2 s hdet =>
        rw [← hs.drains, ← checkDetach_newBest hs.descends hdet]
        exact attachLoop_passInRow s attach
    have hblocks := hvalid.trans (validPrefix_isPrefix env st detach attach)
    rw [carryOut]
    cases hdet : (Zent.detachAll env st detach).2 with
    | some e =>
      rw [replay_of_failed hdet]
      exact hst.detachAll detach
    | none =>
      rw [replay_of_detached hdet]
      refine (hst.detachAll detach).attachAll hst hc (hs.of_isPrefix hblocks).grows.ne_nil ?_
      rw [detachAll_tip st detach hs.descends hdet, hs.drains]
      exact hpass

theorem Reached.extendChain {flags : Flags} {on : Bool} (hc : Consults env st) (hn : n ≠ [])
    (hpass : flags.noConnect = false → env.checkProofOfWork n st.tip = .ok false)
    (h : extendChain env st n flags = .ok (st', on, err)) : Reached st' := by
  rcases extendChain_eq_ok h with rfl | ⟨hconnect, views, hput⟩
  · exact hst
  · exact hst.connectBlock hst hc hn (hpass hconnect) hput

omit hst in
/-- **The choice of the best chain leads from state to state.** A block that extends the tip has
been checked before the call, unless it is only tried (`noConnect`); those of a side branch are
checked in the call. Whatever the call does, also when it ends half way in an error, the number
kept with the tip remains its rotation. -/
theorem reached_connectBestChain {env : ChainEnv S} {st st' : ChainState S} {node : Node}
    {flags : Flags} {on : Bool} {err : Option ChainError} (hst : Reached st)
    (hc : Consults env st) (hn : node ≠ [])
    (hpass : node.parent = st.tip → flags.noConnect = false →
      env.checkProofOfWork node st.tip = .ok false)
    (h : connectBestChain env st node flags = .ok (st', on, err)) : Reached st' := by
  rw [connectBestChain] at h
  split at h
  case isTrue htip => exact hst.extendChain hc hn (hpass htip.1) h
  split at h
  · cases h
    exact hst
  obtain ⟨⟨detach, attach⟩, hnodes, h⟩ := of_bind h
  simp only at h
  split at h
  · cases h
    exact hst
  rename_i hne
  replace hne : attach ≠ [] := fun hnil => hne (length_eq_zero_iff.mpr hnil)
  split at h
  · cases h
  · have hst' : st' = (Zent.reorganizeChain env st detach attach).1 := by cases h; rfl
    rw [hst']
    exact hst.reorganizeChain hc (getReorganizeNodes_sideBranch hnodes hne) hne

end Reorganisation

/-- **Signed blocks have a quorum and their place.** In every state of the chain and on every
parent, a block with non-positive nonce that passes the check carries signatures of at least
`CommitteeSigs` different miners of the committee at the parent over its height and hash. Each
script it is left with, but the first, is by another member of that committee. Its nonce is the
one for its place in the series. -/
theorem signed_block_quorum {env : PowEnv S} {st : ChainState S} {block : SignedBlock}
    {parent : Node} {flags : BehaviorFlags} {scripts : List Bytes} (hst : Reached st)
    (hnonce : block.nonce ≤ 0)
    (h : checkProofOfWork env st block (some parent) flags = .ok scripts) :
    let hash := makeMinerSigHash env.sigs block.height block.hash
    (∃ members : List Address, members.Nodup ∧ CommitteeSigs ≤ members.length ∧
      ∀ m ∈ members, InCommittee env (rotation parent) m ∧
        ∃ script ∈ block.scripts.drop 1, verifySigScript env.sigs script hash = .ok m) ∧
    (∃ members : List Address, members.Nodup ∧
      (∀ m ∈ members, InCommittee env (rotation parent) m) ∧
      List.Forall₂ (fun script m => verifySigScript env.sigs script hash = .ok m)
        (scripts.drop 1) members) ∧
    InSeries (env.nonce parent) block.nonce (rotation parent).toNat := by
  have happ := checkProofOfWork_signed hst.wellRotated hnonce h
  obtain ⟨members, hnodup, -, hmem, hsigned⟩ := happ.signers
  exact ⟨happ.quorum, ⟨members, hnodup, hmem, hsigned⟩, happ.inSeries hnonce⟩

/-- The committee is no larger than the number of its heights. -/
theorem exists_committee (env : PowEnv S) (r : UInt32) : ∃ l : List Address,
    l.length ≤ CommitteeSize ∧ ∀ m, InCommittee env r m → m ∈ l := by
  refine ⟨(range CommitteeSize).filterMap fun i : Nat =>
    (env.blockByHeight (ofInt (r.toNat - i))).map (·.miner),
    (length_filterMap_le _ _).trans_eq length_range, ?_⟩
  rintro m ⟨h, hlow, hhigh, blk, hblk, rfl⟩
  refine mem_filterMap.mpr ⟨(r.toNat - h).toNat, mem_range.mpr (by omega), ?_⟩
  rw [Int.toNat_of_nonneg (by omega), Int.sub_sub_self, hblk]
  rfl

/-- **Two signed blocks on one parent have a signer in common**, whatever the states in which they
were checked: a fork of signed blocks names a member of the committee that has signed both. -/
theorem signedBlocks_share_signer {env : PowEnv S} {st st' : ChainState S}
    {block block' : SignedBlock} {parent : Node} {flags flags' : BehaviorFlags}
    {scripts scripts' : List Bytes} (hst : Reached st) (hst' : Reached st')
    (hnonce : block.nonce ≤ 0) (hnonce' : block'.nonce ≤ 0)
    (h : checkProofOfWork env st block (some parent) flags = .ok scripts)
    (h' : checkProofOfWork env st' block' (some parent) flags' = .ok scripts') :
    ∃ m, InCommittee env (rotation parent) m ∧ ∀ b ∈ [block, block'],
      ∃ script ∈ b.scripts.drop 1,
        verifySigScript env.sigs script (makeMinerSigHash env.sigs b.height b.hash) = .ok m := by
  obtain ⟨l, hl, hcommittee⟩ := exists_committee env (rotation parent)
  obtain ⟨q, hq, hcount, hmem⟩ := (checkProofOfWork_signed hst.wellRotated hnonce h).quorum
  obtain ⟨q', hq', hcount', hmem'⟩ := (checkProofOfWork_signed hst'.wellRotated hnonce' h').quorum
  by_contra hnone
  -- without a common signer the committee has four members
  have hdisjoint : q.Disjoint q' := fun m hm hm' => hnone ⟨m, (hmem m hm).1,
    forall_mem_cons.mpr ⟨(hmem m hm).2, forall_mem_singleton.mpr (hmem' m hm').2⟩⟩
  have hsub : q ++ q' ⊆ l := append_subset.mpr
    ⟨fun m hm => hcommittee m (hmem m hm).1, fun m hm => hcommittee m (hmem' m hm).1⟩
  have hlen := ((hq.append hq' hdisjoint).subperm hsub).length_le
  rw [length_append] at hlen
  simp only [CommitteeSize, CommitteeSigs] at hl hcount hcount'
  omega

/-! ## A block with a stranger's signature -/

/-- Keys are told apart by their first byte; a signature is the sum of the signed bytes. -/
def SigScheme.toy : SigScheme where
  parsePubKey k := k.head?.map fun b => BitVec.ofNat 160 b.toNat
  parseSignature s := s.length == 1
  verify _ s hash := s == hash
  doubleHashB b := [b.foldl (· + ·) 0]

/-- The block of the miner chain at height `h` is by miner `h + 1`. -/
def PowEnv.toy : PowEnv Unit where
  toChainEnv := { ChainEnv.permissive with
    blockByHeight := fun h =>
      if h < 0 then none else some ⟨BitVec.ofNat 160 (h.toInt.toNat + 1), 0⟩ }
  blockByHeight_neg _ h := if_pos h
  bits _ := 0x1d00ffff
  sigs := .toy
  powLimit := 2 ^ 240
  genesisHash := 0
  genesisNonce := 1

def genesisState : ChainState Unit := ⟨[], ⟨[], 1, 1, 0⟩, ()⟩

/-- A POW block told apart by its hash. -/
def powBlock (hash : Hash) : NodeData := ⟨hash, 1, [], 1, 0⟩

/-- The chain of one POW block. -/
def powState : ChainState Unit := ⟨[powBlock 1], ⟨[powBlock 1], 1, 2, 2⟩, ()⟩

theorem reached_powState : Reached powState := by
  have hcheck : checkProofOfWork .toy genesisState ⟨1, 1, 1, [], []⟩ (some []) 0 = .ok [] := by
    decide +kernel
  have hconnect : connectBlock .permissive genesisState [powBlock 1] () = .ok powState := rfl
  have hgenesis : Reached genesisState := .genesis 1 1 ()
  exact hgenesis.connect hgenesis hcheck rfl hconnect

/-- A node that lets in the POW blocks 2 and 3. -/
def ChainEnv.twoBlocks : ChainEnv Unit where
  checkProofOfWork n p :=
    if n = powBlock 2 :: powState.tip ∧ p = powState.tip ∨ n = powBlock 3 :: p ∧
      p = powBlock 2 :: powState.tip then .ok false else .error (errText "")
  __ := ChainEnv.permissive

/-- The blocks 2 and 3 are attached in one call. -/
theorem twoBlocks_reached : ∃ st : ChainState Unit, st.tip.height = 3 ∧ Reached st := by
  let tip : Node := powBlock 3 :: powBlock 2 :: powState.tip
  have hconnect : connectBestChain .twoBlocks powState tip ⟨false, false⟩ =
      .ok (⟨tip, ⟨tip, 1, 4, 6⟩, ()⟩, true, none) := by decide +kernel
  refine ⟨_, rfl, reached_connectBestChain reached_powState ?_ (by decide) (by decide) hconnect⟩
  intro n p h
  refine ⟨.toy, ⟨1, 1, 1, [], []⟩, 0, [], ?_⟩
  simp only [ChainEnv.twoBlocks] at h
  split at h
  case isTrue hnew => rcases hnew with ⟨rfl, rfl⟩ | ⟨rfl, rfl⟩ <;> decide +kernel
  · cases h

/-- A block of height 2 on another POW block, paying the miners 1, 2 and 3, with the signatures of
1, of a stranger and of 2. -/
def strangersBlock : SignedBlock where
  hash := 5
  nonce := -1
  height := 2
  scripts := [] :: [1, 9, 2].map fun a =>
    a :: List.replicate 32 0 ++ makeMinerSigHash .toy 2 5
  txOut := [1, 2, 3].map fun a => ⟨⟨FeeCoinTyp, some (.numToken 5), none⟩,
    0 :: List.replicate 19 0 ++ [a]⟩

theorem strangersBlock_check :
    checkProofOfWork .toy powState strangersBlock (some [powBlock 2]) 0 =
      .ok (strangersBlock.scripts.eraseIdx 2) := by
  decide +kernel

/-- The rotation is found over the fork at genesis, and the stranger's script is taken out. -/
theorem strangersBlock_quorum :
    (∃ members : List Address, members.Nodup ∧ CommitteeSigs ≤ members.length ∧
      ∀ m ∈ members, InCommittee .toy 2 m ∧ ∃ script ∈ strangersBlock.scripts.drop 1,
        verifySigScript .toy script (makeMinerSigHash .toy 2 5) = .ok m) ∧
    (∃ members : List Address, members.Nodup ∧ (∀ m ∈ members, InCommittee .toy 2 m) ∧
      List.Forall₂ (fun script m =>
          verifySigScript .toy script (makeMinerSigHash .toy 2 5) = .ok m)
        ((strangersBlock.scripts.eraseIdx 2).drop 1) members) ∧
    InSeries 1 (-1) 2 := by
  obtain ⟨hquorum, hkept, hseries⟩ :=
    signed_block_quorum reached_powState (by decide) strangersBlock_check
  exact ⟨hquorum, hkept, hseries⟩

/-- Another block on the same parent, with the signatures of 2 and 3. -/
def rivalBlock : SignedBlock where
  hash := 6
  scripts := [] :: [2, 3].map fun a => a :: List.replicate 32 0 ++ makeMinerSigHash .toy 2 6
  __ := strangersBlock

theorem rivalBlock_signer : ∃ m, InCommittee .toy 2 m ∧ ∀ b ∈ [strangersBlock, rivalBlock],
    ∃ script ∈ b.scripts.drop 1,
      verifySigScript .toy script (makeMinerSigHash .toy b.height b.hash) = .ok m := by
  have hcheck : checkProofOfWork .toy powState rivalBlock (some [powBlock 2]) 0 =
      .ok rivalBlock.scripts := by decide +kernel
  obtain ⟨m, hm, hsigned⟩ := signedBlocks_share_signer reached_powState reached_powState
    (by decide) (by decide) strangersBlock_check hcheck
  exact ⟨m, hm, hsigned⟩

end Zent
