import Zent.Blockchain.Reorg

/-!
# The reorganisation of the miner chain

A miner block names the best block of the transaction chain its miner knew, so a miner chain
that wins over another one may call for another transaction chain as well. `connectBestChain`
collects four lists: the miner nodes to detach and to attach, and the transaction nodes to
detach and to attach. The miner chain is exchanged first; if the transaction chain then cannot
follow, the same function is called once more to undo the exchange.

* `getReorganizeNodes`: the lists. The walk along the transaction branch (`matchTx`) carries the
  committee of that branch and drops what does not fit, of either chain.
-/

namespace Zent.Minerchain

open Int32

open Branch

/-- What the rules read of a miner block. -/
structure Header where
  hash : Hash
  miner : Address
  /-- the block of the transaction chain it builds on -/
  bestBlock : Hash
  deriving DecidableEq, Repr

/-- A node of the miner chain; genesis is the empty branch. -/
abbrev MinerNode := Branch Header

/-- What the miner chain asks of the rest of the node. -/
structure MinerEnv where
  genesis : Header
  isSVP : Bool
  knownInvalid : MinerNode → Bool
  /-- `dbFetchBlockByNode` -/
  fetchBlock : MinerNode → Except ChainError Unit
  /-- whether `checkV2` of a block passes on a best node -/
  checkV2 : MinerNode → MinerNode → Bool
  /-- whether `checkProofOfWork` returns nil -/
  checkProofOfWork : MinerNode → Bool
  /-- the rule warnings, the index flush and the database transaction of `connectBlock` -/
  putConnected : MinerNode → Except ChainError Unit
  /-- the reads and the database transaction of `disconnectBlock` -/
  putDisconnected : MinerNode → Except ChainError Unit
  /-- whether `CheckCollateral` of a miner block passes at its own best block -/
  checkCollateral : Header → Bool
  /-- `blockChain.SameChain` -/
  sameChain : Hash → Hash → Bool
  /-- `blockChain.MainChainHasBlock` -/
  mainChainHasBlock : Hash → Bool
  /-- `blockChain.BestSnapshot().LastRotation` -/
  lastRotation : UInt32
  /-- `blockChain.GetReorganizeSideChain`: transaction nodes to detach and to attach -/
  sideChain : Hash → List Node × List Node
  /-- whether the transaction block of a node can be read -/
  hasTxBlock : Node → Bool
  /-- the error of `blockChain.ReorganizeChain` -/
  reorganizeTx : List Node → List Node → Option ChainError

variable (env : MinerEnv) (best : MinerNode)

/-- `NodetoHeader` -/
def header : MinerNode → Header
  | [] => env.genesis
  | x :: _ => x

/-! ## The lists -/

/-- A node that may not be attached, or builds on another transaction chain than its parent. -/
def breaksChain (n : MinerNode) : Bool :=
  env.knownInvalid n || !env.sameChain (header env n).bestBlock (header env n.parent).bestBlock

/-- One step of the walk down from the new node. A breaking node clears the list and is pushed
all the same; when its parent is not above the best chain, the walk ends without a result. -/
def collectStep (acc : List MinerNode × MinerNode) (n : MinerNode) :
    Except Unit (List MinerNode × MinerNode) :=
  if breaksChain env n then
    if n.parent.height ≤ best.height then .error () else .ok ([n], n.parent)
  else .ok (n :: acc.1, acc.2)

/-- The nodes to attach, lowest first, and the node whose best block the transaction chain is to
follow. -/
def collectAttach (best fork node : MinerNode) : Except Unit (List MinerNode × MinerNode) :=
  (above fork node).reverse.foldlM (collectStep env best) ([], node)

/-- The member a miner block makes of the committee of a transaction branch. -/
def memberOf (h : Header) : Option Address :=
  if env.isSVP || env.checkCollateral h then some h.miner else none

/-- `BlockByHeight` on the best miner chain. -/
def blockByHeight (h : Int32) : Option Header :=
  if h < 0 then none else (nodeByHeight best h.toInt.toNat).map (header env)

/-- `TotalRotate` -/
def totalRotate (l : List Node) : Int32 := l.foldl (fun s n => s + ofNat n.advance) 0

/-- The committee at the fork of the transaction chain. -/
def initMiners (rotate : Int32) : List (Option Address) :=
  (List.range CommitteeSize).map fun i =>
    (blockByHeight env best (rotate - ofNat CommitteeSize + ofNat i + 1)).bind
      (memberOf env)

/-- The nodes of the new miner chain that the rotation has already reached take their places in
the committee; `p` starts at the fork and then follows the attach list, its first node left
out. -/
def preload (rotate : Int32) :
    MinerNode → List MinerNode → List (Option Address) → List MinerNode × List (Option Address)
  | _, [], miners => ([], miners)
  | p, x :: xs, miners =>
    let h := ofNat p.height
    if rotate ≥ h then
      let miners :=
        if h > rotate - ofNat CommitteeSize then
          miners.set (h - (rotate - ofNat CommitteeSize + 1)).toInt.toNat
            (memberOf env (header env p))
        else miners
      preload rotate (xs.headD p) xs miners
    else (x :: xs, miners)

/-- `SignedBy`: a POW block passes; of others the signers are tested. -/
def txSignedBy (y : Node) (miners : List (Option Address)) : Bool :=
  y.nonce > 0 || (env.hasTxBlock y && signedBy y.signers miners)

/-- `SideChainContains` -/
def sideChainContains (z : Node) (hash : Hash) : Bool :=
  z.tails.any fun n => Node.hash n = hash

/-- The loop that fills the places freed by a shift with the next nodes of the new miner
chain. -/
def rotateIn : Nat → Nat → List MinerNode → List (Option Address) →
    List MinerNode × List (Option Address)
  | 0, _, x, miners => (x, miners)
  | _ + 1, _, [], miners => ([], miners)
  | k + 1, j, n :: xs, miners =>
    let miners := miners.set j (memberOf env (header env n))
    if xs = [] then ([], miners) else rotateIn k (j + 1) xs miners

/-- How many transaction nodes are dropped when the new miner chain is used up: all from the
first rotation block or badly signed one. -/
def txLeft (y : List Node) (miners : List (Option Address)) : Nat :=
  (y.dropWhile fun t => t.advance ≠ 1 && txSignedBy env t miners).length

/-- The walk along the transaction nodes to attach: how many nodes are dropped from the end of
the miner list and of the transaction list. The rest of the miner list goes as soon as one of
its nodes builds on a block outside the transaction branch. -/
def matchTx (z : Node) :
    List MinerNode → List Node → List (Option Address) → Bool → Nat × Nat
  | _, [], _, _ => (0, 0)
  | [], y :: ys, miners, _ => (0, txLeft env (y :: ys) miners)
  | n :: xs, y :: ys, miners, contain =>
    let contain := contain || sideChainContains z (header env n).bestBlock
    if !contain then ((n :: xs).length, txLeft env (y :: ys) miners)
    else if !txSignedBy env y miners then (0, (y :: ys).length)
    else if y.advance > 0 then
      let moved := miners.drop y.advance ++ miners.drop (CommitteeSize - y.advance)
      let (x, miners) := rotateIn env y.advance (CommitteeSize - y.advance) (n :: xs) moved
      matchTx z x ys miners false
    else matchTx z (n :: xs) ys miners contain

/-- The four lists of an exchange. -/
structure Lists where
  detach : List MinerNode
  attach : List MinerNode
  txDetach : List Node
  txAttach : List Node

def Lists.none : Lists := ⟨[], [], [], []⟩

/-- The part of `getReorganizeNodes` that matches the two chains. -/
def matchChains (best fork : MinerNode) (l : Lists) : Lists :=
  match l.attach, l.txAttach with
  | x :: xs, y :: ys =>
    if l.detach.length = 0 ∧ x.height = fork.height + 1 ∧ x.parent = fork then l
    else
      let rotate := env.lastRotation.toInt32 - totalRotate l.txDetach
      let (x', miners) := preload env rotate fork (x :: xs) (initMiners env best rotate)
      let (dropped, txDropped) :=
        matchTx env ((y :: ys).getLast (by simp)) x' (y :: ys) miners false
      { l with
        attach := (x :: xs).take ((x :: xs).length - dropped)
        txAttach := (y :: ys).take ((y :: ys).length - txDropped) }
  | _, _ => l

/-- The nodes to detach, tip first, and to attach, lowest first, on both chains. -/
def getReorganizeNodes (best node : MinerNode) : Lists :=
  if env.knownInvalid node.parent then Lists.none
  else
    let forkNode := findFork best node
    match collectAttach env best forkNode node with
    | .error _ => Lists.none
    | .ok (attachNodes, newtip) =>
      let detachNodes := (above forkNode best).reverse
      if detachNodes.length ≥ attachNodes.length then Lists.none
      else
        let (txDetach, txAttach) := env.sideChain (header env newtip).bestBlock
        matchChains env best forkNode ⟨detachNodes, attachNodes, txDetach, txAttach⟩

/-! ## The exchange -/

/-- The tests of the two lists against the best chain. -/
def checkLists (detach attach : List MinerNode) : Except ChainError Unit :=
  match detach.head?, detach.getLast?, attach.head? with
  | some first, some last, a => do
    Go.throwIf (first ≠ best)
      (.assertError ⟨"reorganize nodes to detach are not for the current best chain -- first " ++
        "detach node %v, current chain %v",
        [.hash (header env first).hash, .hash (header env best).hash]⟩)
    match a with
    | none => return ()
    | some a =>
      Go.throwIf (a.parent ≠ last.parent)
        (.assertError ⟨"reorganize nodes do not have the same fork point -- first attach parent " ++
          "%v, last detach parent %v",
          [.hash (header env a.parent).hash, .hash (header env last.parent).hash]⟩)
  | _, _, _ => return ()

/-- The blocks to attach that pass, in a row from the fork; a block that cannot be read ends the
call, one that fails a check only ends the loop. -/
def validBlocks : MinerNode → List MinerNode → Except ChainError (List MinerNode)
  | _, [] => .ok []
  | newBest, n :: l => do
    env.fetchBlock n
    if env.checkV2 n newBest && env.checkProofOfWork n then
      return n :: (← validBlocks n l)
    else return []

/-- The check phase: everything to detach is read, then the blocks to attach are checked. -/
def checkPhase (detach attach : List MinerNode) :
    Except ChainError (List MinerNode) := do
  checkLists env best detach attach
  detach.forM fun n => if n = [] then .ok () else env.fetchBlock n
  validBlocks env (drain best detach) attach

/-- Connects a block to the end of the best miner chain. -/
def connectBlock (best n : MinerNode) : Except ChainError MinerNode := do
  Go.throwIf (n.height ≠ 0 ∧ n.parent ≠ best)
    (assertText "connectBlock must be called with a block that extends the main chain")
  env.putConnected n
  return n

/-- Takes the tip off the best miner chain. -/
def disconnectBlock (best n : MinerNode) : Except ChainError MinerNode := do
  Go.throwIf (n ≠ best)
    (assertText "disconnectBlock must be called with the block at the end of the main chain")
  env.putDisconnected n
  return n.parent

/-- The detach loop: the best node reached and the error that stopped it. -/
def detachAll : MinerNode → List MinerNode → MinerNode × Option ChainError
  | best, [] => (best, none)
  | best, n :: l =>
    -- the genesis block is never removed
    if n = [] then detachAll best l
    else match disconnectBlock env best n with
      | .error e => (best, some e)
      | .ok best' => detachAll best' l

/-- The attach loop. -/
def attachAll : MinerNode → List MinerNode → MinerNode × Option ChainError
  | best, [] => (best, none)
  | best, n :: l =>
    match connectBlock env best n with
    | .error e => (best, some e)
    | .ok best' => attachAll best' l

/-- The exchange: all the nodes to detach go, then the checked blocks come. -/
def reorganizeChain (detach attach : List MinerNode) :
    MinerNode × Option ChainError :=
  if detach = [] ∧ attach = [] then (best, none)
  else match checkPhase env best detach attach with
    | .error e => (best, some e)
    | .ok blocks =>
      match detachAll env best detach with
      | (best', some e) => (best', some e)
      | (best', none) => attachAll env best' blocks

/-- The behaviour flags that reach the choice of the best chain. -/
structure Flags where
  sideChain : Bool
  noReorg : Bool
  deriving DecidableEq, Repr

/-- Whether the block is handled as an extension of the best chain. Its parent is known. -/
def onTip (best node : MinerNode) (flags : Flags) : Prop :=
  !flags.sideChain ∧ node.parent = best ∧
    env.sameChain (header env node).bestBlock (header env node.parent).bestBlock ∧
    env.mainChainHasBlock (header env node).bestBlock

instance (best node : MinerNode) (flags : Flags) : Decidable (onTip env best node flags) :=
  inferInstanceAs (Decidable (_ ∧ _))

/-- `connectBestChain`: the best miner node afterwards, whether the block came onto the chain,
and the error. When the transaction chain cannot follow, the exchange is called with the two
lists exchanged, and what that call returns is not looked at. -/
def connectBestChain (best node : MinerNode) (flags : Flags) :
    MinerNode × Bool × Option ChainError :=
  if onTip env best node flags then
    match connectBlock env best node with
    | .error e => (best, false, some e)
    | .ok best' => (best', true, none)
  else if flags.noReorg then (best, false, none)
  else if node.height ≤ best.height then (best, false, none)
  else
    let l := getReorganizeNodes env best node
    if l.attach.length = 0 then (best, false, none)
    else match reorganizeChain env best l.detach l.attach with
      | (best', some e) => (best', false, some e)
      | (best', none) =>
        match env.reorganizeTx l.txDetach l.txAttach with
        | some e => ((reorganizeChain env best' l.attach l.detach).1, false, some e)
        | none => (best', true, none)

end Zent.Minerchain
