import Zent.Go.Tally
import Zent.Consensus.Knowledge

/-!
# The consensus machine of one height

A `Syncer` collects the blocks of the committee (`forest`), agrees to one of them (`agreed`),
gives it its signature (`sigGiven`) and gathers the signatures of the others in the block itself.

* Blocks are shared by reference: a tree holds a place in the `heap` of block objects, so that a
  signature appended through one tree is seen through another.
* Handlers take and return the machine, the height last signed (which all machines of a node
  share) and the log of what the node did (`Local`).
* What the network layer does is in the log only: `Event.send` with the message and its
  destination. Pull requests and messages to the own queue are left out; every message can
  arrive at any time anyway.
-/

namespace Zent.Consensus

/-- The signature scheme and the keys of the node. A signature script starts with 33 bytes of
public key. -/
structure Keys where
  /-- the hash of the public key a script starts with, if it parses -/
  keyOf : Bytes → Option Address
  /-- whether the rest of the script is a signature under that key for the height and block hash
  (`MakeMinerSigHash`) -/
  verifies : Bytes → Int32 → Hash → Bool
  /-- whether the node has the private key of an address (`GetPrivKey`) -/
  hasKey : Address → Bool
  /-- the script with the node's own signature -/
  sign : Address → Int32 → Hash → Bytes
  keyOf_sign : ∀ a h m, hasKey a = true → keyOf (sign a h m) = some a
  verifies_sign : ∀ a h m, hasKey a = true → verifies (sign a h m) h m = true

/-! ## State -/

/-- A block while it is being signed: its hash, which does not cover the signature scripts of the
coinbase, and these scripts. -/
structure Block where
  hash : Hash
  scripts : List Bytes
  deriving DecidableEq, Repr

/-- A proposed block; without its body it is naked. -/
structure Tree where
  creator : Address
  fees : UInt64
  hash : Hash
  block : Option Nat
  know : Option MsgKnowledge
  deriving DecidableEq, Repr

/-- Where the goroutine of a machine (`run`) is: not started, in its loop, draining the queue
after the loop, or returned. -/
inductive Phase where
  | idle
  | looping
  | draining
  | returned
  deriving DecidableEq, Repr

structure Syncer where
  height : Int32
  runnable : Bool := false
  done : Bool := false
  phase : Phase := .idle
  members : Go.Map Address Seat := ∅
  names : Go.Map Seat Address := ∅
  me : Address := 0
  myself : Seat := .zero
  malice : List Address := []
  /-- who has asked to be a candidate and was not released -/
  asked : Seat → Option MsgCandidate := fun _ => none
  /-- who has agreed to our candidacy -/
  agrees : List Seat := []
  /-- whom we have agreed to -/
  agreed : Option Seat := none
  /-- to whom we have given our signature -/
  sigGiven : Option Seat := none
  forest : Go.Map Address Tree := ∅
  /-- whose signatures have been counted -/
  signed : List Address := []
  knowledges : Knowledgebase := .create
  heap : List Block := []

/-- `CreateSyncer` -/
def createSyncer (h : Int32) : Syncer := { height := h }

namespace Syncer

variable (sy : Syncer)

/-- `Members[a]`; an absent key reads as `0`. -/
def member (a : Address) : Seat := (sy.members.lookup a).getD .zero

/-- `Names[s]`; an absent key reads as the zero address. -/
def name (s : Seat) : Address := (sy.names.lookup s).getD 0

/-- `Names[i]` for any number. -/
def nameAt (i : Int32) : Address :=
  match seatOf i with
  | some s => sy.name s
  | none => 0

/-- `forest[a].hash`, a nil dereference if there is no such tree. -/
def treeHash (a : Address) : Comp Hash :=
  match sy.forest.lookup a with
  | some t => .ok t.hash
  | none => Go.crash

/-- The body of the tree of `a`, if there is a tree and it has one. -/
def blockOf (a : Address) : Option Nat := sy.forest.lookup a >>= Tree.block

/-- Whether the block of `left` is to be preferred. -/
def better (left right : Int32) : Bool :=
  match sy.forest.lookup (sy.nameAt left) with
  | none => false
  | some l =>
    match sy.forest.lookup (sy.nameAt right) with
    | none => true
    | some r => r.fees < l.fees || (l.fees = r.fees && left < right)

/-- The seat of the tree to be preferred among those with a body. -/
def best : Option Seat :=
  (sy.forest.entries.foldl (fun (seld : Option (Address × Tree)) e =>
    match seld with
    | none => if e.2.block.isSome then some (e.1, e.2) else none
    | some (s, t) =>
      if e.2.block.isSome ∧ (t.fees < e.2.fees ∨
          (e.2.fees = t.fees ∧ (sy.member e.1).no < (sy.member s).no)) then some (e.1, e.2)
      else seld) none).map fun p => sy.member p.1

/-- Cut the scripts of a block object down to the first: the second one held the name of the
miner. -/
def truncate (r : Nat) : Comp Syncer := do
  let b ← Go.index sy.heap r
  let first ← Go.slice b.scripts 0 1
  return { sy with heap := sy.heap.set r { b with scripts := first } }

/-- Append a signature to a block object and count it for `a`. -/
def collect (r : Nat) (a : Address) (script : Bytes) : Syncer :=
  { sy with
    heap := sy.heap.modify r fun b => { b with scripts := b.scripts ++ [script] }
    signed := sy.signed.insert a }

end Syncer

/-! ## What a node does -/

inductive Msg where
  | knowledge (k : MsgKnowledge)
  | candidate (k : MsgCandidate)
  | candidateResp (k : MsgCandidateResp)
  | release (k : MsgRelease)
  | consensus (k : MsgConsensus)
  | signature (k : MsgSignature)
  deriving DecidableEq, Repr

/-- `miner.Broadcast`, `CommitteeCastMG` and `CommitteeMsgMG`. -/
inductive Dest where
  | everyone
  | committee
  | only (a : Address)
  deriving DecidableEq, Repr

inductive Event where
  /-- the key of `key` signed a height and a block hash -/
  | sign (key : Address) (height : Int32) (m : Hash)
  | send (dest : Dest) (msg : Msg)
  /-- `NewConsusBlock`, with the committee and the height of the machine -/
  | publish (members : List Address) (height : Int32) (b : Block)
  deriving DecidableEq, Repr

/-- What the code of one machine works on. -/
structure Local where
  /-- `lastSignedBlock` -/
  last : Int32
  sy : Syncer
  /-- newest first -/
  log : List Event

namespace Local

def send (l : Local) (d : Dest) (m : Msg) : Local := { l with log := .send d m :: l.log }

/-- Sign the block hash `m` with the own key. -/
def sign (l : Local) (m : Hash) : Local :=
  { l with log := .sign l.sy.me l.sy.height m :: l.log }

@[simp] theorem send_sy (l : Local) (d : Dest) (m : Msg) : (l.send d m).sy = l.sy := rfl

@[simp] theorem sign_sy (l : Local) (m : Hash) : (l.sign m).sy = l.sy := rfl

@[simp] theorem foldl_send_sy (m : Msg) (seats : List Seat) :
    ∀ l : Local, (seats.foldl (fun l s => l.send (.only (l.sy.name s)) m) l).sy = l.sy := by
  induction seats with
  | nil => exact fun _ => rfl
  | cons s rest ih => exact fun l => ih (l.send _ m)

/-- `UpdateLastWritten` -/
def updateLastWritten (l : Local) : Local × Bool :=
  if l.last < l.sy.height then ({ l with last := l.sy.height }, true) else (l, false)

theorem updateLastWritten_sy (l : Local) : l.updateLastWritten.1.sy = l.sy := by
  unfold updateLastWritten
  split <;> rfl

end Local

end Zent.Consensus
