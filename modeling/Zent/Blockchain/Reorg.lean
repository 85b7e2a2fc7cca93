import Zent.Blockchain.Error
import Zent.Chain.Branch

/-!
# The reorganisation of the transaction chain

A block that does not extend the best chain may still belong to a higher branch.
`connectBestChain` then collects the nodes to detach and to attach, tries the exchange on
scratch views (`checkDetach`, `attachLoop`), and replays it on the stored chain (`replay`).
While it walks the side branch it carries the committee, a window of `CommitteeSize` optional
miners that shifts at every rotation.

* What reads blocks, views or the miner chain is a field of `ChainEnv`, with an arbitrary
  answer; the lists, counters, windows, decisions and texts are those of the source.
* `check` is always true in the source's calls and is no argument here.
-/

namespace Zent

open Branch

open Go

/-- The number of members of a committee. -/
def CommitteeSize : Nat := 3

/-- The signatures a signed block needs. -/
def CommitteeSigs : Nat := 2

/-- The rotation upon a POW block. -/
def POWRotate : UInt32 := 2

/-- The committee rotates every so many blocks. -/
def MINER_RORATE_FREQ : Int32 := 20

/-- The first 20 bytes of a script, filled up with zeros. -/
def addressOf (s : Bytes) : Address :=
  let bytes := (s ++ List.replicate 20 0).take 20
  BitVec.ofNat 160 (bytes.foldl (fun n (b : UInt8) => 256 * n + b.toNat) 0)

/-- What the chain rules read of a block of the transaction chain. -/
structure NodeData where
  hash : Hash
  /-- positive for a POW block, at most `-MINER_RORATE_FREQ` for a rotation block -/
  nonce : Int32
  /-- the signers: the key hashes of the coinbase's signature scripts after the first -/
  signers : List Address
  numTxns : UInt64
  contractExec : UInt32
  deriving DecidableEq, Repr

/-- A node of the block index; genesis is the empty branch. -/
abbrev Node := Branch NodeData

namespace Node

/-- `n.Data.GetNonce()`; the rules below never ask for the nonce of genesis. -/
def nonce : Node → Int32
  | [] => 0
  | x :: _ => x.nonce

def signers : Node → List Address
  | [] => []
  | x :: _ => x.signers

def hash : Node → Hash
  | [] => zerohash
  | x :: _ => x.hash

def numTxns : Node → UInt64
  | [] => 1
  | x :: _ => x.numTxns

def contractExec : Node → UInt32
  | [] => 0
  | x :: _ => x.contractExec

/-- By how many places a block moves the committee on. -/
def advance (n : Node) : Nat :=
  if n.nonce > 0 then POWRotate.toNat
  else if n.nonce ≤ -MINER_RORATE_FREQ then 1
  else 0

end Node

/-- The part of a miner block the committee rules read. -/
structure MinerBlock where
  miner : Address
  contractExec : UInt32
  deriving DecidableEq, Repr

/-- The snapshot of the best block; `node` stands for its hash, height and median time. -/
structure BestState where
  node : Node
  numTxns : UInt64
  totalTxns : UInt64
  lastRotation : UInt32
  deriving DecidableEq, Repr

/-- The best chain, its snapshot, and the views stored in the database. -/
structure ChainState (S : Type) where
  tip : Node
  snapshot : BestState
  stored : S
  deriving DecidableEq, Repr

/-- What the reorganisation asks of the rest of the node. The functions on views return the
changed views or the error that ends the step. -/
structure ChainEnv (S : Type) where
  /-- `Miners.BlockByHeight`, on the best miner chain -/
  blockByHeight : Int32 → Option MinerBlock
  /-- `Miners.Tip().Height()` -/
  minerHeight : Int32
  /-- `Miners.Tip().MsgBlock().BestBlock` -/
  protect : Hash
  /-- whether `CheckCollateral` of a miner block passes at a best node -/
  checkCollateral : MinerBlock → Node → Bool
  knownInvalid : Node → Bool
  knownValid : Node → Bool
  /-- `Index.Cutoff` -/
  cutoff : Nat
  isSVP : Bool
  mainNet : Bool
  contractExecLimit : UInt32
  /-- `dbFetchBlockByNode` -/
  fetchBlock : Node → Except ChainError Unit
  fetchInputUtxos : S → Node → Except ChainError S
  /-- reads the spend journal and undoes the block's transactions -/
  disconnectTransactions : S → Node → Except ChainError S
  connectTransactions : S → Node → Except ChainError S
  checkConnectBlock : S → Node → Except ChainError S
  /-- on success, whether the block is to be kept as an orphan -/
  checkProofOfWork : Node → Node → Except ChainError Bool
  /-- runs the contracts of the block and compares their results -/
  execContracts : S → Node → Except ChainError S
  /-- the database transaction of `connectBlock` -/
  putConnected : S → Node → Except ChainError S
  /-- the database transaction of `disconnectBlock` -/
  putDisconnected : S → Node → Except ChainError S
  /-- `Vm.Rollback` -/
  rollback : S → Node → Except ChainError S

/-- `fmt.Errorf` without arguments -/
def errText (s : String) : ChainError := .errorf ⟨s, []⟩

/-- `AssertError` without arguments -/
def assertText (s : String) : ChainError := .assertError ⟨s, []⟩

variable {S : Type} (env : ChainEnv S) (st : ChainState S) (n : Node)

/-! ## One block on or off the best chain -/

/-- The rotation after a block is connected. -/
def rotationAfter (rotation : UInt32) : UInt32 :=
  if n.nonce > 0 then rotation + POWRotate
  else if n.nonce ≤ -MINER_RORATE_FREQ then (-n.nonce - MINER_RORATE_FREQ).toUInt32
  else rotation

/-- The rotation after a block is disconnected. -/
def rotationBefore (rotation : UInt32) : UInt32 :=
  if n.nonce ≥ 0 then rotation - POWRotate
  else if n.nonce ≤ -MINER_RORATE_FREQ then rotation - 1
  else rotation

/-- Connects a block to the end of the best chain and stores the views that hold its effects. -/
def connectBlock (views : S) : Except ChainError (ChainState S) := do
  throwIf (n.nonce < 0 ∧ n.signers.length + 1 ≤ CommitteeSigs)
    (errText "insifficient signatures")
  throwIf (n.parent ≠ st.tip)
    (assertText "connectBlock must be called with a block that extends the main chain")
  let stored ← env.putConnected views n
  return {
    tip := n
    snapshot := {
      node := n
      numTxns := n.numTxns
      totalTxns := st.snapshot.totalTxns + n.numTxns
      lastRotation := rotationAfter n st.snapshot.lastRotation }
    stored }

/-- Takes the tip off the best chain. -/
def disconnectBlock (views : S) :
    Except ChainError (ChainState S) := do
  throwIf (n ≠ st.tip)
    (assertText "disconnectBlock must be called with the block at the end of the main chain")
  env.fetchBlock n.parent
  let stored ← env.putDisconnected views n
  return {
    tip := n.parent
    snapshot := {
      node := n.parent
      numTxns := Node.numTxns n.parent
      totalTxns := st.snapshot.totalTxns - n.numTxns
      lastRotation := rotationBefore n st.snapshot.lastRotation }
    stored }

/-! ## The committee of a side branch -/

/-- Whether all signers belong to the committee: a signer is matched by a member whose
address differs from it, as `bytes.Compare` is compared with `!= 0`. -/
def signedBy (signers : List Address) (miners : List (Option Address)) : Bool :=
  signers.all fun signer => miners.any fun sig =>
    match sig with
    | some m => signer ≠ m
    | none => false

/-- The member a miner block makes: its miner, if the collateral check passes. -/
def memberAt (newBest : Node) (h : Int32) : Option Address :=
  match env.blockByHeight h with
  | some blk => if env.checkCollateral blk newBest then some blk.miner else none
  | none => none

/-- The committee at the fork point. -/
def initMiners (rotate : UInt32) (newBest : Node) : List (Option Address) :=
  (List.range CommitteeSize).map fun i =>
    memberAt env newBest (rotate.toInt32 - Int32.ofNat CommitteeSize + Int32.ofNat i + 1)

/-- The window while it is shifted: the next place to fill and the rotation reached. -/
structure Window where
  miners : List (Option Address)
  slot : Nat
  rotate : UInt32
  deriving DecidableEq, Repr

/-- One round of the loop that fills the places freed by a shift. A miner without collateral
empties the place and leaves it to the next round; a height the miner chain does not have
leaves the place as it is. -/
def admitMiner (newBest : Node) (shift : Nat) (w : Window) : Except ChainError Window :=
  let rotate := w.rotate + 1
  match env.blockByHeight rotate.toInt32 with
  | some blk =>
    if env.checkCollateral blk newBest then
      .ok ⟨w.miners.set w.slot (some blk.miner), w.slot + 1, rotate⟩
    else .ok ⟨w.miners.set w.slot none, w.slot, rotate⟩
  | none =>
    if shift = 1 then .error (errText "Incorrect rotation")
    else .ok ⟨w.miners, w.slot + 1, rotate⟩

/-- Moves the members down by `shift` places; the places left behind keep their old members
until the loop fills them. -/
def shiftMiners (newBest : Node) (shift : Nat) (miners : List (Option Address))
    (rotate : UInt32) : Except ChainError Window :=
  let moved := miners.drop shift ++ miners.drop (CommitteeSize - shift)
  (List.range shift).foldlM (fun w _ => admitMiner env newBest shift w)
    ⟨moved, CommitteeSize - shift, rotate⟩

/-! ## The check phase -/

/-- The scratch state of the check phase. -/
structure Scratch (S : Type) where
  views : S
  rotate : UInt32
  newBest : Node
  miners : List (Option Address)

/-- One node off the scratch views. -/
def detachStep (s : Scratch S) (n : Node) : Except ChainError (Scratch S) :=
  -- the genesis block is never removed
  if n = [] then .ok s
  else do
    throwIf (n.hash = env.protect) (errText "Try to detach protected node")
    env.fetchBlock n
    let views ← env.fetchInputUtxos s.views n
    let views ← env.disconnectTransactions views n
    return { s with views, rotate := s.rotate - UInt32.ofNat n.advance, newBest := n.parent }

/-- Why the attach loop of the check phase ends before its list does. -/
inductive Stop where
  /-- the block cannot be read, or its rotation has no miner block: the function returns -/
  | abort (err : ChainError)
  /-- the signer test skips the block and those after it -/
  | unsigned
  /-- a POW block would rotate past the miner chain: skipped with those after it -/
  | beyondMinerTip
  /-- a check of the block fails, or it waits as an orphan -/
  | rejected (err : Option ChainError)
  deriving DecidableEq, Repr

/-- Whether the rest of the attach list is dropped. -/
def Stop.skips : Option Stop → Bool
  | some .unsigned | some .beyondMinerTip => true
  | _ => false

/-- The attach list after the loop: a skipped block leaves it with all that follow. -/
def Stop.remaining (stop : Option Stop) (valid attach : List Node) : List Node :=
  if Stop.skips stop then valid else attach

/-- The blocks counted as attachable: one that fails the signer test is, although it is
skipped. -/
def Stop.count (stop : Option Stop) (valid : List Node) : Nat :=
  if stop = some .unsigned then valid.length + 1 else valid.length

/-- The committee and the rotation after a block; one that does not rotate leaves both. -/
def nextWindow (s : Scratch S) (n : Node) : Except ChainError Window :=
  if n.advance > 0 then shiftMiners env s.newBest n.advance s.miners s.rotate
  else .ok ⟨s.miners, 0, s.rotate⟩

/-- What a block goes through after the signer test: the bound of the miner chain, the shift of
the committee, the block's own checks, and its effects on the scratch views. -/
def checkAttach (s : Scratch S) (n : Node) : Except Stop (Scratch S) := do
  throwIf (n.nonce > 0 ∧ s.rotate + POWRotate > env.minerHeight.toUInt32) .beyondMinerTip
  let w ← (nextWindow env s n).mapError .abort
  let views ← (env.checkConnectBlock s.views n).mapError (.rejected ∘ some)
  let mkorphan ← (env.checkProofOfWork n s.newBest).mapError (.rejected ∘ some)
  throwIf mkorphan (.rejected none)
  let views ← (env.connectTransactions views n).mapError (.rejected ∘ some)
  return { views, rotate := w.rotate, newBest := n, miners := w.miners }

/-- One node onto the scratch views. -/
def attachStep (s : Scratch S) (n : Node) : Except Stop (Scratch S) := do
  (env.fetchBlock n).mapError .abort
  throwIf (!signedBy n.signers s.miners) .unsigned
  checkAttach env s n

/-- The nodes that pass, and why the loop ended before the list did. -/
def attachLoop : Scratch S → List Node → List Node × Option Stop
  | _, [] => ([], none)
  | s, n :: l =>
    match attachStep env s n with
    | .error stop => ([], some stop)
    | .ok s' => ((attachLoop s' l).1.cons n, (attachLoop s' l).2)

/-- The scratch state at the fork point. -/
def checkDetach (detach : List Node) : Except ChainError (Scratch S) := do
  let s ← detach.foldlM (detachStep env) ⟨st.stored, st.snapshot.lastRotation, st.tip, []⟩
  return { s with miners := initMiners env s.rotate s.newBest }

/-! ## The replay -/

/-- A tip off the stored chain. -/
def takeOff : Except ChainError (ChainState S) := do
  let views ← env.fetchInputUtxos st.stored n
  let views ← env.disconnectTransactions views n
  disconnectBlock env st n views

/-- The detach loop. The contract state is rolled back after the block has left the chain, so
an error there comes too late to keep the block. -/
def detachAll : ChainState S → List Node → ChainState S × Option ChainError
  | st, [] => (st, none)
  | st, n :: l =>
    if n = [] then detachAll st l
    else match takeOff env st n with
      | .error e => (st, some e)
      | .ok st' =>
        match env.rollback st'.stored n with
        | .error e => (st', some e)
        | .ok stored => detachAll { st' with stored } l

/-- A block onto the stored chain. -/
def putOn : Except ChainError (ChainState S) := do
  let views ← env.fetchInputUtxos st.stored n
  let views ← env.execContracts views n
  let views ← env.connectTransactions views n
  connectBlock env st n views

/-- The attach loop: the chain reached, the number of blocks attached and the error that
stopped it. -/
def attachAll : ChainState S → List Node → ChainState S × Nat × Option ChainError
  | st, [] => (st, 0, none)
  | st, n :: l =>
    match putOn env st n with
    | .error e => (st, 0, some e)
    | .ok st' => ((attachAll st' l).1, (attachAll st' l).2.1 + 1, (attachAll st' l).2.2)

/-- What `doReorganizeChain` leaves: the chain, the caller's attach list, and its results. -/
structure Reorganized (S : Type) where
  state : ChainState S
  attach : List Node
  detachable : Nat
  attachable : Nat
  err : Option ChainError

/-- The destructive half: all the nodes to detach go, then the checked blocks come. -/
def replay (detach attach blocks : List Node) : Reorganized S :=
  match detachAll env st detach with
  | (st', some e) => ⟨st', attach, 0, 0, some e⟩
  | (st', none) =>
    let (st'', attachable, err) := attachAll env st' blocks
    ⟨st'', attach, detach.length, attachable, err⟩

/-- The tests of the two lists against the best chain; an early return without an error is
`some none`. -/
def checkLists (tip : Node) (detach attach : List Node) : Option (Option ChainError) :=
  match detach.head?, detach.getLast?, attach.head? with
  | some first, some last, a =>
    if first ≠ tip then
      some (some (.assertError ⟨"reorganize nodes to detach are not for the current best chain " ++
        "-- first detach node %v, current chain %v", [.hash first.hash, .hash tip.hash]⟩))
    else match a with
      | none => none
      | some a =>
        if a = [] ∨ last = [] then some none
        else if a.parent ≠ last.parent then
          some (some (.assertError ⟨"reorganize nodes do not have the same fork point -- first " ++
            "attach parent %v, last detach parent %v",
            [.hash (Node.hash a.parent), .hash (Node.hash last.parent)]⟩))
        else none
  | _, _, _ => none

/-- What follows the check phase: the return at an abort, the refusal when skipped blocks leave
too short a list, or the replay. -/
def settle (detach attach valid : List Node) (stop : Option Stop) :
    Reorganized S :=
  match stop with
  | some (.abort e) => ⟨st, attach, detach.length, valid.length, some e⟩
  | stop =>
    let attach := Stop.remaining stop valid attach
    if Stop.skips stop ∧ attach.length ≤ detach.length then
      ⟨st, attach, detach.length, Stop.count stop valid,
        some (errText "attach block failed to pass consistency check")⟩
    else replay env st detach attach valid

def doReorganizeChain (detach attach : List Node) : Reorganized S :=
  if detach = [] ∧ attach = [] then ⟨st, attach, 0, 0, none⟩
  else match checkLists st.tip detach attach with
    | some err => ⟨st, attach, 0, 0, err⟩
    | none =>
      match checkDetach env st detach with
      | .error e => ⟨st, attach, 0, 0, some e⟩
      | .ok s =>
        let (valid, stop) := attachLoop env s attach
        settle env st detach attach valid stop

/-- `ReorganizeChain`: when not all of the attach list went on, a second run is made with the
nodes before the last one counted. -/
def reorganizeChain (detach attach : List Node) :
    ChainState S × Option ChainError :=
  let r := doReorganizeChain env st detach attach
  if r.detachable ≠ detach.length then (r.state, r.err)
  else if r.attachable = r.attach.length ∨ r.attachable = 0 then (r.state, r.err)
  else
    let r' := doReorganizeChain env r.state detach (r.attach.take (r.attachable - 1))
    (r'.state, r'.err)

/-! ## The choice of the best chain -/

/-- A rotation block whose miner block is not on the miner chain. -/
def missingRotation (p : Node) : Bool :=
  p.nonce ≤ -MINER_RORATE_FREQ ∧ env.blockByHeight (-p.nonce - MINER_RORATE_FREQ) = none

/-- The walk from the new node down to the fork, moving the end of the branch below every block
that misses its rotation. -/
def cutMissing (forkNode node : Node) : Node :=
  (above forkNode node).reverse.foldl
    (fun node p => if missingRotation env p then p.parent else node) node

/-- The nodes to detach, tip first, and to attach, lowest first. A block known to be invalid
clears what was collected above it. -/
def getReorganizeNodes (tip node : Node) : Result (List Node × List Node) :=
  if env.knownInvalid node.parent then .ok ([], [])
  -- there is no fork node at or below the cutoff
  else if node.height ≤ env.cutoff then crash
  else
    let forkNode := findFork tip node
    if forkNode.height ≤ env.cutoff then .ok ([], [])
    else
      let node := cutMissing env forkNode node
      if node = forkNode then .ok ([], [])
      else
        let attachNodes := (above forkNode node).reverse.foldl
          (fun l n => if env.knownInvalid n then [] else n :: l) []
        .ok ((above forkNode tip).reverse, attachNodes)

/-- The behaviour flags that reach the choice of the best chain. -/
structure Flags where
  fastAdd : Bool
  noConnect : Bool
  deriving DecidableEq, Repr

/-- Whether a block on the tip fits the miner chain: its rotation is known, and its signers are
of the committee, collateral or not. -/
def consistent (nocon : Bool) : Bool :=
  if n.nonce ≤ -MINER_RORATE_FREQ ∧ -n.nonce - MINER_RORATE_FREQ > env.minerHeight then false
  else if n.nonce > 0 then true
  else
    let committee := (List.range CommitteeSize).map fun i =>
      env.blockByHeight (st.snapshot.lastRotation.toInt32 - Int32.ofNat i)
    if committee.any (·.isNone) then false
    else nocon || n.signers.all fun snr => (committee.filterMap id).any (·.miner == snr)

/-- The contract steps a block may take, set by the miner block in charge. -/
def contractLimit (mb : MinerBlock) : UInt32 :=
  if mb.contractExec = 0 then env.contractExecLimit else mb.contractExec

/-- The views with the effects of a block on the tip; a block added fast is not checked. -/
def viewsWith (fastAdd : Bool) : Except ChainError S :=
  if fastAdd then do
    let views ← env.fetchInputUtxos st.stored n
    env.connectTransactions views n
  else env.checkConnectBlock st.stored n

/-- The block extends the best chain: the checks, then `connectBlock`. -/
def extendChain (flags : Flags) :
    Result (ChainState S × Bool × Option ChainError) :=
  match env.blockByHeight st.snapshot.lastRotation.toInt32 with
  | none => crash
  | some mb =>
    if !env.isSVP ∧ n.contractExec > contractLimit env mb ∧ env.mainNet then
      .ok (st, false, some (.ruleError .errExcessContractExec
        ⟨"Contract execution steps exceeds block limit in %v", [.hash n.hash]⟩))
    else if flags.noConnect then .ok (st, true, none)
    else
      let views := viewsWith env st n (flags.fastAdd || env.knownValid n)
      match views >>= connectBlock env st n with
      | .error e => .ok (st, false, some e)
      | .ok st' => .ok (st', true, none)

/-- Whether the block is handled as an extension of the best chain. Its parent is known. -/
def onTip (flags : Flags) : Prop :=
  n.parent = st.tip ∧ consistent env st n flags.noConnect

instance (st : ChainState S) (n : Node) (flags : Flags) : Decidable (onTip env st n flags) :=
  inferInstanceAs (Decidable (_ ∧ _))

/-- `connectBestChain`: the chain afterwards, whether the block came onto it, and the error. -/
def connectBestChain (node : Node) (flags : Flags) :
    Result (ChainState S × Bool × Option ChainError) := do
  if onTip env st node flags then extendChain env st node flags
  else if node.height ≤ st.tip.height then return (st, false, none)
  else
    let (detachNodes, attachNodes) ← getReorganizeNodes env st.tip node
    if attachNodes.length = 0 then return (st, false, none)
    else if detachNodes.length > 100000 then crash
    else
      let (st', err) := reorganizeChain env st detachNodes attachNodes
      return (st', err.isNone, err)

/-! ## A permissive node -/

/-- Every check passes and no view holds anything; all miner blocks are by miner 7. -/
def ChainEnv.permissive : ChainEnv Unit where
  blockByHeight _ := some ⟨7, 0⟩
  minerHeight := 10
  protect := 0
  checkCollateral _ _ := true
  knownInvalid _ := false
  knownValid _ := false
  cutoff := 0
  isSVP := false
  mainNet := false
  contractExecLimit := 10000
  fetchBlock _ := .ok ()
  fetchInputUtxos _ _ := .ok ()
  disconnectTransactions _ _ := .ok ()
  connectTransactions _ _ := .ok ()
  checkConnectBlock _ _ := .ok ()
  checkProofOfWork _ _ := .ok false
  execContracts _ _ := .ok ()
  putConnected _ _ := .ok ()
  putDisconnected _ _ := .ok ()
  rollback _ _ := .ok ()

/-- A signed block told apart by its hash. -/
def signedBlock (hash : Hash) (signers : List Address) : NodeData := ⟨hash, -1, signers, 1, 0⟩

end Zent
