import Zent.Chainmap.FOCMap
import Zent.Wire.MingingRight

/-!
# The instructions of a miner block

`ExecOps` of `btcd/blockchain/chain.go` polls the miner blocks that end at a height about each
instruction of a block, and enters the chain or the host into the map of chains when enough agree.
It counts instructions, not blocks.
-/

namespace Zent

open Go

/-- the blocks polled -/
def NewChainPool : Nat := 100

/-- the votes required -/
def NewChainConsensus : Nat := 75

def AddChain : UInt8 := 1

def AddDns : UInt8 := 2

/-- What `json.Unmarshal` makes of the data of an instruction. -/
inductive Unmarshalled where
  | error
  | null
  /-- an object, with what it writes into a descriptor -/
  | object (set : ChainDescriptor → ChainDescriptor)

/-- What `ExecOps` asks the rest of the node. -/
structure OpsEnv where
  unmarshal : Bytes → Unmarshalled
  json : ParamsJson
  /-- `BlockByHeight` of the miner chain -/
  blockByHeight : Int32 → Option MingingRightBlock
  /-- a block is given its height when it is loaded -/
  height_eq : ∀ {h blk}, blockByHeight h = some blk → blk.height = h

/-- What the loop over the instructions carries. -/
structure ExecState where
  chains : FOCMap
  /-- a chain has been added, and the node restarts -/
  terminating : Bool

/-- What the polling loop carries. -/
structure Poll where
  agreed : Nat
  exec : ExecState

variable (env : OpsEnv) (block : MingingRightBlock) (height : UInt32) (chains : FOCMap)
  (op : Instruction) (cd : ChainDescriptor) {blk blk' : MingingRightBlock} {op2 : Instruction}
  {cd' : ChainDescriptor} {s s' : ExecState} {p p' : Poll} {n n' : Nat}
  {done done' : List Instruction} {before before' : List MingingRightBlock}

/-- the descriptor that the data is read into -/
def newDescriptor : ChainDescriptor :=
  { ChainDescriptor.zero with version := 0x10000, legacy := false, final := 21 }

/-- `json.Unmarshal(op.InstData, cd)`; a `null` leaves `cd` as it is. -/
def readDescriptor : Option ChainDescriptor :=
  match env.unmarshal op.instData with
  | .error => none
  | .null => some newDescriptor
  | .object set => some (set newDescriptor)

/-- An instruction that the map of chains rules out is passed over. -/
def eligible (code : UInt8) (cd : ChainDescriptor) : Bool :=
  if code = AddDns then (chains.lookup cd.chainID).any fun d => d.magic = cd.magic
  else if code = AddChain then (chains.lookup cd.chainID).isNone
  else true

/-- The descriptor that the miner blocks are polled about. -/
def prepare :
    Option ChainDescriptor :=
  match readDescriptor env op with
  | none => none
  | some cd =>
    if eligible chains op.instCode cd then
      some { cd with mrChain := cd.mrGenesis ≠ "", height := block.height.toUInt32 }
    else none

/-- The descriptor in an instruction of a polled block agrees with the proposal. -/
def agrees (code : UInt8) (meta2 cd : ChainDescriptor) : Bool :=
  if code = AddDns then meta2.magic = cd.magic ∧ meta2.chainID = cd.chainID ∧ meta2.dns = cd.dns
  else if code = AddChain then meta2.isMatch cd
  else false

/-- One instruction of a polled block. The `break` after `agreed++` leaves the `switch` only. -/
def countInst (agreed : Nat)
    (op2 : Instruction) : Result Nat :=
  if op.instCode ≠ op2.instCode then .ok agreed
  else
    match env.unmarshal op2.instData with
    | .error => .ok agreed
    -- `meta2` is a nil pointer now, and is read in both cases of the `switch`
    | .null => if op2.instCode = AddDns ∨ op2.instCode = AddChain then crash else .ok agreed
    | .object set =>
      if agrees op2.instCode (set ChainDescriptor.zero) cd then .ok (agreed + 1) else .ok agreed

/-- The instructions of a polled block. -/
def countBlock (agreed : Nat)
    (blk : MingingRightBlock) : Result Nat :=
  blk.instructions.foldlM (countInst env op cd) agreed

/-- The instruction is executed. -/
def applyInst (code : UInt8) (cd : ChainDescriptor) (s : ExecState) :
    Result ExecState :=
  if code = AddDns then do
    let (chains, _) ← addDns env.json s.chains cd
    .ok { s with chains := chains }
  else if code = AddChain then do
    let (chains, added) ← addChain env.json s.chains cd
    .ok { chains := chains, terminating := s.terminating || added }
  else .ok s

/-- One polled block, and the test after it. -/
def pollStep (p : Poll)
    (blk : MingingRightBlock) : Result Poll := do
  let agreed ← countBlock env op cd p.agreed blk
  if NewChainConsensus ≤ agreed then
    let exec ← applyInst env op.instCode cd p.exec
    .ok { agreed := agreed, exec := exec }
  else .ok { p with agreed := agreed }

/-- The polling loop, down from `top`. -/
def pollLoop (env : OpsEnv) (op : Instruction) (cd : ChainDescriptor) :
    Nat → Int32 → Poll → Result Poll
  | 0, _, p => .ok p
  | i + 1, top, p =>
    match env.blockByHeight top with
    | none => .ok p
    | some blk =>
      if top - 1 = 0 then .ok p
      else do
        let p' ← pollStep env op cd p blk
        pollLoop env op cd i (top - 1) p'

/-- One instruction of the block. -/
def execOp (s : ExecState)
    (op : Instruction) : Result ExecState :=
  match prepare env block s.chains op with
  | none => .ok s
  | some cd => do
    let p ← pollLoop env op cd NewChainPool height.toInt32 { agreed := 0, exec := s }
    .ok p.exec

/-- `ExecOps`; the node restarts if the result is `terminating`. -/
def execOps :
    Result ExecState :=
  block.instructions.foldlM (execOp env block height) { chains := chains, terminating := false }

/-! ## One instruction -/

/-- `applyInst` would change the map. -/
def Addable (code : UInt8) (cd : ChainDescriptor) : Prop :=
  (code = AddDns ∧ DnsAddable env.json chains cd) ∨
    (code = AddChain ∧ ChainAddable env.json chains cd)

/-- The map holds what the instruction would add. -/
def InMap (code : UInt8) (cd : ChainDescriptor) : Prop :=
  (code = AddDns ∧ HasSeed env.json chains cd) ∨
    (code = AddChain ∧ (chains.lookup cd.chainID).isSome)

theorem addChain_ne_addDns : AddChain ≠ AddDns := by decide

variable {env block height chains op cd} {code : UInt8}

theorem InMap.grows {chains' : FOCMap} (h : InMap env chains code cd)
    (hg : Grows env.json chains chains') : InMap env chains' code cd := by
  rcases h with ⟨hcode, hseed⟩ | ⟨hcode, hsome⟩
  · exact .inl ⟨hcode, hseed.grows hg⟩
  · obtain ⟨d, hd⟩ := Option.isSome_iff_exists.mp hsome
    obtain ⟨d', hd', -⟩ := hg _ d hd
    exact .inr ⟨hcode, Option.isSome_of_mem hd'⟩

theorem InMap.not_addable (h : InMap env chains code cd) : ¬ Addable env chains code cd := by
  rintro (⟨hcode, hadd⟩ | ⟨hcode, hadd⟩)
  · rcases h with ⟨-, hseed⟩ | ⟨hcode', -⟩
    · exact hseed.not_addable hadd
    · exact addChain_ne_addDns (hcode'.symm.trans hcode)
  · rcases h with ⟨hcode', -⟩ | ⟨-, hsome⟩
    · exact addChain_ne_addDns (hcode.symm.trans hcode')
    · rw [hadd.absent] at hsome
      cases hsome

/-- **What executing an instruction does**: nothing, or what it asks for is entered. -/
theorem applyInst_cases (h : applyInst env code cd s = .ok s') :
    (s'.chains = s.chains ∧ ¬ Addable env s.chains code cd) ∨
    (Addable env s.chains code cd ∧ Changes s.chains s'.chains ∧ InMap env s'.chains code cd ∧
      Grows env.json s.chains s'.chains) := by
  rw [applyInst] at h
  split at h
  case isTrue hdns =>
    obtain ⟨⟨m, b⟩, hadd, h⟩ := of_bind h
    cases h
    rcases addDns_cases hadd with ⟨hsame, hnot⟩ | ⟨haddable, hchanges, hseed, hgrows⟩
    · refine .inl ⟨hsame, ?_⟩
      rintro (⟨-, haddable⟩ | ⟨hchain, -⟩)
      · exact hnot haddable
      · exact addChain_ne_addDns (hchain.symm.trans hdns)
    · exact .inr ⟨.inl ⟨hdns, haddable⟩, hchanges, .inl ⟨hdns, hseed⟩, hgrows⟩
  case isFalse hdns =>
    split at h
    case isTrue hchain =>
      obtain ⟨⟨m, b⟩, hadd, h⟩ := of_bind h
      cases h
      rcases addChain_cases hadd with ⟨hsame, hnot⟩ | ⟨haddable, hchanges, hsome, hgrows⟩
      · refine .inl ⟨hsame, ?_⟩
        rintro (⟨hcode, -⟩ | ⟨-, haddable⟩)
        · exact hdns hcode
        · exact hnot haddable
      · exact .inr ⟨.inr ⟨hchain, haddable⟩, hchanges, .inr ⟨hchain, hsome⟩, hgrows⟩
    case isFalse hchain =>
      cases h
      refine .inl ⟨rfl, ?_⟩
      rintro (⟨hcode, -⟩ | ⟨hcode, -⟩)
      · exact hdns hcode
      · exact hchain hcode

theorem Addable.applyInst (h : Addable env s.chains code cd) :
    ∃ s', applyInst env code cd s = .ok s' := by
  rcases h with ⟨rfl, hadd⟩ | ⟨rfl, hadd⟩
  · obtain ⟨m, hm⟩ := hadd.addDns
    rw [Zent.applyInst, if_pos rfl, hm]
    exact ⟨_, rfl⟩
  · rw [Zent.applyInst, if_neg addChain_ne_addDns, if_pos rfl, hadd.addChain]
    exact ⟨_, rfl⟩

theorem prepare_unique {chains' : FOCMap} (h : prepare env block chains op = some cd)
    (h' : prepare env block chains' op = some cd') : cd = cd' := by
  rw [prepare] at h h'
  split at h
  · cases h
  rename_i read hread
  rw [hread] at h'
  dsimp only at h'
  split at h <;> cases h
  split at h' <;> cases h'
  rfl

/-! ## Polling -/

/-- An instruction of a polled block that counts as a vote. -/
def matching (env : OpsEnv) (op : Instruction) (cd : ChainDescriptor) (op2 : Instruction) : Bool :=
  op.instCode = op2.instCode &&
    match env.unmarshal op2.instData with
    | .object set => agrees op2.instCode (set ChainDescriptor.zero) cd
    | _ => false

/-- An instruction of a polled block that is read without a nil dereference. -/
def Readable (env : OpsEnv) (op op2 : Instruction) : Prop :=
  op.instCode = op2.instCode → op2.instCode = AddDns ∨ op2.instCode = AddChain →
    env.unmarshal op2.instData ≠ .null

theorem countInst_eq_ok : countInst env op cd n op2 = .ok n' ↔
    Readable env op op2 ∧ n' = n + if matching env op cd op2 then 1 else 0 := by
  have hok : ∀ {R : Prop} {k : Nat}, R → ((.ok k : Result Nat) = .ok n' ↔ R ∧ n' = k) := by
    intro R k hR
    rw [Except.ok.injEq, eq_comm, and_iff_right hR]
  rw [countInst, matching, Readable]
  split
  case isTrue hne =>
    rw [decide_eq_false hne]
    exact hok fun heq => absurd heq hne
  rename_i heq
  rw [decide_eq_true (not_not.mp heq), Bool.true_and]
  cases hdata : env.unmarshal op2.instData with
  | error => exact hok fun _ _ => nofun
  | null =>
    dsimp only
    split
    case isTrue hcode =>
      exact ⟨nofun, fun h => absurd rfl (h.1 (not_not.mp heq) hcode)⟩
    case isFalse hcode => exact hok fun _ hcode' => absurd hcode' hcode
  | object set =>
    dsimp only
    split
    case isTrue => exact hok fun _ _ => nofun
    case isFalse => exact hok fun _ _ => nofun

theorem countInsts_eq_ok {insts : List Instruction} :
    insts.foldlM (countInst env op cd) n = .ok n' ↔
      (∀ op2 ∈ insts, Readable env op op2) ∧ n' = n + insts.countP (matching env op cd) :=
  foldlM_countP (C := Readable env op) (p := matching env op cd) fun _ _ _ => countInst_eq_ok

/-- The votes of the blocks polled so far. -/
def votes (env : OpsEnv) (op : Instruction) (cd : ChainDescriptor)
    (blocks : List MingingRightBlock) : Result Nat :=
  blocks.foldlM (countBlock env op cd) 0

/-- The votes are the matching instructions, each as often as it occurs. -/
theorem votes_eq_ok {blocks : List MingingRightBlock} : votes env op cd blocks = .ok n ↔
    (∀ op2 ∈ blocks.flatMap (·.instructions), Readable env op op2) ∧
      n = (blocks.flatMap (·.instructions)).countP (matching env op cd) := by
  have hloop : votes env op cd blocks =
      (blocks.flatMap (·.instructions)).foldlM (countInst env op cd) 0 := foldlM_flatMap.symm
  rw [hloop, countInsts_eq_ok, Nat.zero_add]

theorem pollStep_eq_ok : pollStep env op cd p blk = .ok p' ↔
    countBlock env op cd p.agreed blk = .ok p'.agreed ∧
    ((p'.agreed < NewChainConsensus ∧ p'.exec = p.exec) ∨
      (NewChainConsensus ≤ p'.agreed ∧ applyInst env op.instCode cd p.exec = .ok p'.exec)) := by
  rw [pollStep, bind_eq_ok]
  constructor
  · rintro ⟨n, hn, h⟩
    split at h
    case isTrue hle =>
      obtain ⟨e, he, h⟩ := of_bind h
      cases h
      exact ⟨hn, .inr ⟨hle, he⟩⟩
    case isFalse hlt =>
      cases h
      exact ⟨hn, .inl ⟨Nat.lt_of_not_le hlt, rfl⟩⟩
  · rintro ⟨hn, ⟨hlt, hexec⟩ | ⟨hle, happly⟩⟩
    · refine ⟨p'.agreed, hn, ?_⟩
      rw [if_neg (Nat.not_le_of_lt hlt), ← hexec]
    · refine ⟨p'.agreed, hn, ?_⟩
      rw [if_pos hle, happly]
      rfl

theorem Grows.pollStep (h : pollStep env op cd p blk = .ok p') :
    Grows env.json p.exec.chains p'.exec.chains := by
  rcases (pollStep_eq_ok.mp h).2 with ⟨-, hsame⟩ | ⟨-, happly⟩
  · rw [hsame]
    exact Grows.refl
  rcases applyInst_cases happly with ⟨hsame, -⟩ | ⟨-, -, -, hgrows⟩
  · rw [hsame]
    exact Grows.refl
  · exact hgrows

theorem pollStep_changes (h : pollStep env op cd p blk = .ok p')
    (hchanges : Changes p.exec.chains p'.exec.chains) :
    NewChainConsensus ≤ p'.agreed ∧ Addable env p.exec.chains op.instCode cd ∧
      InMap env p'.exec.chains op.instCode cd := by
  rcases (pollStep_eq_ok.mp h).2 with ⟨-, hsame⟩ | ⟨hle, happly⟩
  · rw [hsame] at hchanges
    exact absurd hchanges not_changes_self
  rcases applyInst_cases happly with ⟨hsame, -⟩ | ⟨hadd, -, hinMap, -⟩
  · rw [hsame] at hchanges
    exact absurd hchanges not_changes_self
  · exact ⟨hle, hadd, hinMap⟩

/-- The blocks that the polling loop reaches. It does not reach the first block of the chain. -/
def polled (env : OpsEnv) : Nat → Int32 → List MingingRightBlock
  | 0, _ => []
  | i + 1, top =>
    match env.blockByHeight top with
    | none => []
    | some blk => if top - 1 = 0 then [] else blk :: polled env i (top - 1)

theorem pollLoop_eq : ∀ (i : Nat) (top : Int32) (p : Poll),
    pollLoop env op cd i top p = (polled env i top).foldlM (pollStep env op cd) p
  | 0, _, _ => rfl
  | i + 1, top, p => by
    rw [pollLoop, polled]
    split
    · rfl
    split
    · rfl
    · exact congrArg _ (funext fun p' => pollLoop_eq i (top - 1) p')

/-- What a poll has done after some blocks: it has counted their votes, and the map is as before or
has got what the instruction asks for. -/
theorem poll_run (h : before.foldlM (pollStep env op cd) ⟨0, s⟩ = .ok p) :
    votes env op cd before = .ok p.agreed ∧
    (p.exec.chains = s.chains ∨ InMap env p.exec.chains op.instCode cd) := by
  refine foldlM_induction (P := fun done (q : Poll) => votes env op cd done = .ok q.agreed ∧
    (q.exec.chains = s.chains ∨ InMap env q.exec.chains op.instCode cd)) ⟨rfl, .inl rfl⟩ ?_ h
  rintro done blk q q' ⟨hvotes, hmap⟩ hstep
  obtain ⟨hcount, hexec⟩ := pollStep_eq_ok.mp hstep
  constructor
  · rw [votes, foldlM_append_eq_ok]
    refine ⟨q.agreed, hvotes, ?_⟩
    rw [List.foldlM_cons, hcount]
    rfl
  · rcases hexec with ⟨-, hsame⟩ | ⟨-, happly⟩
    · rw [hsame]
      exact hmap
    rcases applyInst_cases happly with ⟨hsame, -⟩ | ⟨-, -, hinMap, -⟩
    · rw [hsame]
      exact hmap
    · exact .inr hinMap

/-- Below the threshold the poll only counts. -/
theorem poll_below (h : votes env op cd before = .ok n) (hn : n < NewChainConsensus) :
    before.foldlM (pollStep env op cd) ⟨0, s⟩ = .ok ⟨n, s⟩ := by
  refine foldlM_induction (P := fun done k => k < NewChainConsensus →
    done.foldlM (pollStep env op cd) ⟨0, s⟩ = .ok ⟨k, s⟩) (fun _ => rfl) ?_ h hn
  intro done blk k k' hdone hcount hk'
  rw [foldlM_append_eq_ok]
  have hle : k ≤ k' := (countInsts_eq_ok.mp hcount).2 ▸ Nat.le_add_right _ _
  refine ⟨_, hdone (hle.trans_lt hk'), ?_⟩
  have hstep : pollStep env op cd ⟨k, s⟩ blk = .ok ⟨k', s⟩ :=
    pollStep_eq_ok.mpr ⟨hcount, .inl ⟨hk', rfl⟩⟩
  rw [List.foldlM_cons, hstep]
  rfl

theorem Grows.poll (h : before.foldlM (Zent.pollStep env op cd) p = .ok p') :
    Grows env.json p.exec.chains p'.exec.chains :=
  foldlM_induction (P := fun _ (q : Poll) => Grows env.json p.exec.chains q.exec.chains) Grows.refl
    (fun _ _ _ _ hgrows hstep => hgrows.trans (Grows.pollStep hstep)) h

/-! ## The run over the block -/

/-- An instruction is left, or the miner blocks are polled about it. -/
theorem execOp_cases (h : execOp env block height s op = .ok s') :
    (prepare env block s.chains op = none ∧ s' = s) ∨
    ∃ cd p, prepare env block s.chains op = some cd ∧
      (polled env NewChainPool height.toInt32).foldlM (pollStep env op cd) ⟨0, s⟩ = .ok p ∧
      s' = p.exec := by
  rw [execOp] at h
  split at h
  case h_1 hnone =>
    cases h
    exact .inl ⟨hnone, rfl⟩
  rename_i cd hcd
  obtain ⟨p, hp, h⟩ := of_bind h
  cases h
  rw [pollLoop_eq] at hp
  exact .inr ⟨cd, p, hcd, hp, rfl⟩

theorem Grows.execOp (h : execOp env block height s op = .ok s') :
    Grows env.json s.chains s'.chains := by
  rcases execOp_cases h with ⟨-, rfl⟩ | ⟨cd, p, -, hp, rfl⟩
  · exact Grows.refl
  · exact Grows.poll hp

theorem Grows.execRun (h : done.foldlM (Zent.execOp env block height) s = .ok s') :
    Grows env.json s.chains s'.chains :=
  foldlM_induction (P := fun _ (u : ExecState) => Grows env.json s.chains u.chains) Grows.refl
    (fun _ _ _ _ hgrows hstep => hgrows.trans (Grows.execOp hstep)) h

/-- The run comes to an instruction in the state `s`, and polls the miner blocks about `cd`. -/
structure Reaches (env : OpsEnv) (block : MingingRightBlock) (height : UInt32) (chains : FOCMap)
    (done : List Instruction) (op : Instruction) (cd : ChainDescriptor) (s : ExecState) : Prop where
  next : ∃ rest, block.instructions = done ++ op :: rest
  run : done.foldlM (execOp env block height) ⟨chains, false⟩ = .ok s
  proposed : prepare env block s.chains op = some cd

/-- **The map changes** after the block `blk` has been polled about the instruction `op`. -/
def AddsAt (env : OpsEnv) (block : MingingRightBlock) (height : UInt32) (chains : FOCMap)
    (done : List Instruction) (op : Instruction) (cd : ChainDescriptor)
    (before : List MingingRightBlock) (blk : MingingRightBlock) : Prop :=
  ∃ s p p' rest, Reaches env block height chains done op cd s ∧
    polled env NewChainPool height.toInt32 = before ++ blk :: rest ∧
    before.foldlM (pollStep env op cd) ⟨0, s⟩ = .ok p ∧ pollStep env op cd p blk = .ok p' ∧
    Changes p.exec.chains p'.exec.chains

/-- Once a polled block has made the map change, the map holds what the instruction asks for. -/
theorem inMap_after {after : List MingingRightBlock} {q : Poll}
    (hp : before.foldlM (pollStep env op cd) ⟨0, s⟩ = .ok p)
    (hstep : pollStep env op cd p blk = .ok p') (hchanges : Changes p.exec.chains p'.exec.chains)
    (h : (before ++ blk :: after).foldlM (pollStep env op cd) ⟨0, s⟩ = .ok q) :
    InMap env q.exec.chains op.instCode cd := by
  obtain ⟨p₁, hp₁, h⟩ := foldlM_append_eq_ok.mp h
  rw [hp] at hp₁
  cases hp₁
  rw [List.foldlM_cons, hstep] at h
  exact (pollStep_changes hstep hchanges).2.2.grows (Grows.poll h)

/-- An instruction that has changed the map does not do so again later. -/
theorem AddsAt.not_after (h : AddsAt env block height chains done op cd before blk)
    (h' : AddsAt env block height chains done' op cd' before' blk') :
    (¬ ∃ mid, done' = done ++ op :: mid) ∧
      (done = done' → ¬ ∃ after, before' = before ++ blk :: after) := by
  obtain ⟨s, p, p₁, rest, hreach, hpolled, hp, hstep, hchanges⟩ := h
  obtain ⟨s', p', p₁', rest', hreach', hpolled', hp', hstep', hchanges'⟩ := h'
  have hcd := prepare_unique hreach.proposed hreach'.proposed
  subst hcd
  have hnot := fun hin => InMap.not_addable hin (pollStep_changes hstep' hchanges').2.1
  constructor
  · rintro ⟨mid, rfl⟩
    obtain ⟨s₁, hs₁, hrun⟩ := foldlM_append_eq_ok.mp hreach'.run
    rw [hreach.run] at hs₁
    cases hs₁
    rw [List.foldlM_cons, bind_eq_ok] at hrun
    obtain ⟨s₂, hexec, hrun⟩ := hrun
    rcases execOp_cases hexec with ⟨hnone, -⟩ | ⟨cd', q, hcd', hq, rfl⟩
    · rw [hreach.proposed] at hnone
      cases hnone
    rw [hreach.proposed] at hcd'
    cases hcd'
    rw [hpolled] at hq
    have hin := inMap_after hp hstep hchanges hq
    exact hnot ((hin.grows (Grows.execRun hrun)).grows (Grows.poll hp'))
  · rintro rfl ⟨after, rfl⟩
    have hs := hreach.run.symm.trans hreach'.run
    cases hs
    exact hnot (inMap_after hp hstep hchanges hp')

/-- No instruction changes the map twice: not at two polled blocks, and not where the block repeats
it. -/
def AppliedOnce (env : OpsEnv) (block : MingingRightBlock) (height : UInt32) (chains : FOCMap) :
    Prop :=
  ∀ done done' op cd cd' before before' blk blk',
    AddsAt env block height chains done op cd before blk →
    AddsAt env block height chains done' op cd' before' blk' → done = done' ∧ before = before'

/-- **No instruction changes the map twice**, though the poll goes on after it has been applied. -/
theorem appliedOnce (env : OpsEnv) (block : MingingRightBlock) (height : UInt32)
    (chains : FOCMap) : AppliedOnce env block height chains := by
  intro done done' op cd cd' before before' blk blk' h h'
  obtain ⟨hnot, hnotPoll⟩ := h.not_after h'
  obtain ⟨hnot', hnotPoll'⟩ := h'.not_after h
  obtain ⟨s, p, p₁, rest, hreach, hpolled, -⟩ := h
  obtain ⟨s', p', p₁', rest', hreach', hpolled', -⟩ := h'
  obtain ⟨r, hr⟩ := hreach.next
  obtain ⟨r', hr'⟩ := hreach'.next
  rcases split_cases hr hr' with ⟨rfl, -⟩ | hlater | hlater
  · rcases split_cases hpolled hpolled' with ⟨rfl, -⟩ | hlater | hlater
    · exact ⟨rfl, rfl⟩
    · exact absurd hlater (hnotPoll rfl)
    · exact absurd hlater (hnotPoll' rfl)
  · exact absurd hlater hnot
  · exact absurd hlater hnot'

end Zent
