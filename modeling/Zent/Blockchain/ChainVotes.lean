import Zent.Blockchain.ExecOps

/-!
# The majority behind a new chain

`ExecOps` is meant to enter a chain or a host only when 75 of the last 100 miner blocks ask for it.
Since it counts instructions, one block that repeats an instruction is as good as 75 blocks.
-/

namespace Zent

open Go List Int32 Nat

variable {env : OpsEnv} {block : MingingRightBlock} {height : UInt32} {chains : FOCMap}
  {op : Instruction} {cd : ChainDescriptor} {s : ExecState} {n : Nat} {done : List Instruction}

/-- The miner blocks that end at a height. -/
def pool (env : OpsEnv) (n : Nat) (top : Int32) : List MingingRightBlock :=
  ((range n).map fun i => top - ofNat i).filterMap env.blockByHeight

/-- The block carries a matching instruction. -/
def carries (env : OpsEnv) (op : Instruction) (cd : ChainDescriptor) (blk : MingingRightBlock) :
    Bool :=
  blk.instructions.any (matching env op cd)

/-- The blocks of the pool that carry a matching instruction. -/
def carriers (env : OpsEnv) (height : UInt32) (op : Instruction) (cd : ChainDescriptor) :
    Finset MingingRightBlock :=
  ((pool env NewChainPool height.toInt32).filter (carries env op cd)).toFinset

/-- **A real majority**: whenever the map changes, enough blocks carry a matching instruction. -/
def Majority (env : OpsEnv) (block : MingingRightBlock) (height : UInt32) (chains : FOCMap) :
    Prop :=
  ∀ done op cd before blk, AddsAt env block height chains done op cd before blk →
    NewChainConsensus ≤ (carriers env height op cd).card

/-- Where an instruction would change the map, and there are enough matching instructions in the
blocks polled first, they stand in enough blocks. -/
def RealVotes (env : OpsEnv) (block : MingingRightBlock) (height : UInt32) (chains : FOCMap) :
    Prop :=
  ∀ done op cd s blocks rest, Reaches env block height chains done op cd s →
    Addable env s.chains op.instCode cd →
    polled env NewChainPool height.toInt32 = blocks ++ rest →
    (∀ op2 ∈ blocks.flatMap (·.instructions), Readable env op op2) →
    NewChainConsensus ≤ (blocks.flatMap (·.instructions)).countP (matching env op cd) →
    NewChainConsensus ≤ (carriers env height op cd).card

/-- An instruction that would change the map does so when the votes suffice. -/
theorem addsAt_of_votes {blocks rest : List MingingRightBlock}
    (hreach : Reaches env block height chains done op cd s)
    (hadd : Addable env s.chains op.instCode cd)
    (hpolled : polled env NewChainPool height.toInt32 = blocks ++ rest)
    (hvotes : votes env op cd blocks = .ok n) (hn : NewChainConsensus ≤ n) :
    ∃ before blk, AddsAt env block height chains done op cd before blk := by
  -- the first block with which the votes suffice
  obtain ⟨before, blk, after, k, k', rfl, hk, hlt, hcount, hle⟩ :=
    foldlM_crossing (P := fun k => NewChainConsensus ≤ k) (by decide) hn hvotes
  obtain ⟨s', hs'⟩ := hadd.applyInst
  refine ⟨before, blk, s, ⟨k, s⟩, ⟨k', s'⟩, after ++ rest, hreach, ?_,
    poll_below hk (Nat.lt_of_not_le hlt), pollStep_eq_ok.mpr ⟨hcount, .inr ⟨hle, hs'⟩⟩, ?_⟩
  · rw [hpolled, append_assoc, cons_append]
  · rcases applyInst_cases hs' with ⟨-, hnot⟩ | ⟨-, hchanges, -⟩
    · exact absurd hadd hnot
    · exact hchanges

/-- **When changes have a majority behind them.** Whenever the map changes, enough blocks carry a
matching instruction, and no instruction is applied twice, exactly where enough matching
instructions among the blocks polled first always stand in enough blocks. -/
theorem consensus_iff (env : OpsEnv) (block : MingingRightBlock) (height : UInt32)
    (chains : FOCMap) :
    (Majority env block height chains ∧ AppliedOnce env block height chains) ↔
      RealVotes env block height chains := by
  constructor
  · rintro ⟨hmajority, -⟩ done op cd s blocks rest hreach hadd hpolled hread hn
    obtain ⟨before, blk, hat⟩ :=
      addsAt_of_votes hreach hadd hpolled (votes_eq_ok.mpr ⟨hread, rfl⟩) hn
    exact hmajority done op cd before blk hat
  · refine fun hreal => ⟨?_, appliedOnce env block height chains⟩
    rintro done op cd before blk ⟨s, p, p', rest, hreach, hpolled, hp, hstep, hchanges⟩
    obtain ⟨hle, hadd, -⟩ := pollStep_changes hstep hchanges
    obtain ⟨-, hsame | hinMap⟩ := poll_run hp
    · have hp' : (before ++ [blk]).foldlM (pollStep env op cd) ⟨0, s⟩ = .ok p' := by
        rw [foldlM_append_eq_ok]
        refine ⟨p, hp, ?_⟩
        rw [foldlM_cons, hstep]
        rfl
      obtain ⟨hread, hcount⟩ := votes_eq_ok.mp (poll_run hp').1
      refine hreal done op cd s (before ++ [blk]) rest hreach (hsame ▸ hadd) ?_ hread (hcount ▸ hle)
      rw [hpolled, append_assoc, singleton_append]
    · exact absurd hadd hinMap.not_addable

/-! ## Blocks that do not repeat themselves -/

theorem pool_succ (env : OpsEnv) (i : Nat) (top : Int32) :
    pool env (i + 1) top = (env.blockByHeight top).toList ++ pool env i (top - 1) := by
  have hshift : ((range i).map succ).map (fun k => top - ofNat k) =
      (range i).map fun k => top - 1 - ofNat k := by
    rw [map_map]
    refine map_congr_left fun k _ => ?_
    show top - ofNat (k + 1) = top - 1 - ofNat k
    rw [ofNat_add]
    grind
  have htop : top - Int32.ofNat 0 = top := Int32.sub_zero top
  rw [pool, range_succ_eq_map, map_cons, hshift, htop, filterMap_cons]
  cases env.blockByHeight top <;> rfl

/-- The blocks polled are the first of the pool. -/
theorem polled_prefix_pool : ∀ (i : Nat) (top : Int32), polled env i top <+: pool env i top
  | 0, _ => List.nil_prefix
  | i + 1, top => by
    rw [pool_succ, polled]
    split
    · exact List.nil_prefix
    rename_i blk hblk
    rw [hblk]
    split
    · exact List.nil_prefix
    · exact (prefix_cons_inj blk).mpr (polled_prefix_pool i (top - 1))

theorem nodup_pool (env : OpsEnv) (top : Int32) : (pool env NewChainPool top).Nodup := by
  refine List.Nodup.filterMap ?_ (List.Nodup.map_on ?_ nodup_range)
  · intro h h' blk hblk hblk'
    exact (env.height_eq hblk).symm.trans (env.height_eq hblk')
  · intro i hi j hj heq
    have hi : i < 100 := mem_range.mp hi
    have hj : j < 100 := mem_range.mp hj
    have hint := congrArg Int32.toInt ((Int32.sub_right_inj top).mp heq)
    rw [Int32.toInt_ofNat_of_lt (by omega), Int32.toInt_ofNat_of_lt (by omega)] at hint
    exact Int.natCast_inj.mp hint

/-- Blocks with at most one matching instruction each have as many as there are carriers. -/
theorem countP_eq_length {blocks : List MingingRightBlock}
    (h : ∀ blk ∈ blocks, blk.instructions.countP (matching env op cd) ≤ 1) :
    (blocks.flatMap (·.instructions)).countP (matching env op cd) =
      (blocks.filter (carries env op cd)).length := by
  induction blocks with
  | nil => rfl
  | cons blk blocks ih =>
    obtain ⟨hblk, hblocks⟩ := forall_mem_cons.mp h
    rw [flatMap_cons, countP_append, ih hblocks]
    cases hany : carries env op cd blk with
    | false =>
      rw [filter_cons_of_neg (Bool.eq_false_iff.mp hany),
        countP_eq_zero.mpr (any_eq_false.mp hany), zero_add]
    | true =>
      rw [filter_cons_of_pos hany, length_cons,
        le_antisymm hblk (countP_pos_iff.mpr (any_eq_true.mp hany)), add_comm]

/-- **Where no polled block repeats an instruction, votes are blocks.** If each of them has at most
one instruction that matches one of the block with the descriptor read from it, then matching
instructions enough stand in blocks enough. -/
theorem realVotes_of_single
    (h : ∀ op ∈ block.instructions, ∀ m cd, prepare env block m op = some cd →
      ∀ blk ∈ polled env NewChainPool height.toInt32,
        blk.instructions.countP (matching env op cd) ≤ 1) : RealVotes env block height chains := by
  intro done op cd s blocks rest hreach _ hpolled _ hn
  obtain ⟨after, hnext⟩ := hreach.next
  have hmem : op ∈ block.instructions :=
    hnext ▸ mem_append_right done mem_cons_self
  have hprefix : blocks <+: pool env NewChainPool height.toInt32 :=
    (hpolled ▸ prefix_append blocks rest).trans (polled_prefix_pool _ _)
  have hcount := countP_eq_length fun blk hblk => h op hmem s.chains cd hreach.proposed blk
    (hpolled ▸ mem_append_left rest hblk)
  have hsub := hprefix.sublist.filter (carries env op cd)
  have hcard := toFinset_card_of_nodup ((nodup_pool env height.toInt32).filter (carries env op cd))
  calc NewChainConsensus ≤ (blocks.flatMap (·.instructions)).countP (matching env op cd) := hn
    _ = _ := hcount
    _ ≤ _ := hsub.length_le
    _ = (carriers env height op cd).card := hcard.symm

/-! ## One block is enough -/

/-- The instruction to add the host `"h"` to the root chain. -/
def addHost : Instruction := ⟨AddDns, []⟩

/-- A miner block that repeats it. -/
def loneBlock : MingingRightBlock := ⟨0, 5, 0, 0, none, [], replicate 75 addHost⟩

/-- A node with one miner block. The parameters of a chain are the letters of its hosts. -/
def loneEnv : OpsEnv where
  unmarshal _ := .object fun cd => { cd with magic := 7, chainID := ROOT, dns := "h" }
  json := {
    dnsSeeds := fun params => params.toList.map String.singleton
    addSeed := fun params host =>
      match host.toList with
      | [c] => some (params.push c)
      | _ => none
    valid := fun _ => true
    dnsSeeds_addSeed := by
      intro params host params' h
      split at h <;> cases h
      case h_1 c hc =>
        have hhost : String.singleton c = host := by
          rw [← String.toList_inj, String.toList_singleton, hc]
        rw [String.toList_push, map_append, map_singleton, hhost] }
  blockByHeight h := if h = 5 then some loneBlock else none
  height_eq := by
    intro h blk hblk
    split at hblk <;> cases hblk
    case isTrue heq => exact heq.symm

/-- A map with the root chain. -/
def rootChains : FOCMap :=
  AList.singleton ROOT { ChainDescriptor.zero with magic := 7, chainID := ROOT }

/-- **One block makes the map change**, as it repeats its instruction 75 times. -/
theorem loneBlock_not_majority :
    ¬ (Majority loneEnv loneBlock 5 rootChains ∧ AppliedOnce loneEnv loneBlock 5 rootChains) := by
  rintro ⟨hmajority, -⟩
  have hreach : Reaches loneEnv loneBlock 5 rootChains [] addHost
      { newDescriptor with magic := 7, chainID := ROOT, dns := "h", height := 5 }
      ⟨rootChains, false⟩ :=
    ⟨⟨replicate 74 addHost, rfl⟩, rfl, rfl⟩
  have hadd : DnsAddable loneEnv.json rootChains
      { newDescriptor with magic := 7, chainID := ROOT, dns := "h", height := 5 } :=
    ⟨_, rfl, by decide, rfl⟩
  obtain ⟨before, blk, hat⟩ := addsAt_of_votes hreach (.inl ⟨rfl, hadd⟩)
    (by decide +kernel : polled loneEnv NewChainPool (5 : UInt32).toInt32 = [loneBlock] ++ [])
    (votes_eq_ok.mpr ⟨fun _ _ _ _ => nofun, rfl⟩) (by decide +kernel)
  exact absurd (hmajority _ _ _ _ _ hat) (by decide +kernel)

/-- A node with a hundred miner blocks that ask for the host once each. -/
def votersEnv : OpsEnv where
  blockByHeight h := if 0 < h ∧ h ≤ 100 then some ⟨0, h, 0, 0, none, [], [addHost]⟩ else none
  height_eq := by
    intro h blk hblk
    split at hblk <;> cases hblk
    rfl
  __ := loneEnv

theorem voters_realVotes :
    RealVotes votersEnv ⟨0, 100, 0, 0, none, [], [addHost]⟩ 100 rootChains := by
  refine realVotes_of_single fun op _ _ cd _ blk hblk => ?_
  obtain ⟨h, -, hblk⟩ := mem_filterMap.mp ((polled_prefix_pool _ _).subset hblk)
  simp only [votersEnv] at hblk
  split at hblk <;> cases hblk
  exact countP_le_length

end Zent
