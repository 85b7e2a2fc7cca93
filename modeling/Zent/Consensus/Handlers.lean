import Zent.Consensus.Syncer

/-!
# The message handlers of the consensus machine

`process` handles a command from the queue of a running machine, `repeater` a tick of its clock.

* The first section is the vote: candidacy, consent and release. It never touches a signature.
* The second is the signing: `consensus`, `ckconsensus` and `signature` are the only handlers
  that give the node's signature away or count one.
-/

namespace Zent.Consensus

open Function List

variable (K : Keys) (l : Local) (sy : Syncer)

/-- What the verification of a message signed by ourselves yields. -/
def ownSigner : Option Address := if K.hasKey sy.me then some sy.me else none

/-- Send a message that needs the own key. -/
def Local.sendSigned (d : Dest) (m : Msg) : Local :=
  if K.hasKey l.sy.me then l.send d m else l

@[simp] theorem Local.sendSigned_sy (d : Dest) (m : Msg) :
    (l.sendSigned K d m).sy = l.sy := by
  unfold Local.sendSigned
  split <;> rfl

/-! ## The vote -/

/-- `AddK` with the own key -/
def addK (msg : MsgKnowledge) : MsgKnowledge :=
  if K.hasKey sy.me then
    { msg with k := msg.k ++ [sy.myself.no], signers := msg.signers ++ [some sy.me] }
  else msg

/-- Whether a message came over at least one other seat and last over ours. -/
def endsWithMe (k : List Int32) : Bool :=
  2 ≤ k.length ∧ k.getLast? = some sy.myself.no

def newKnowledgeMsg : Comp MsgKnowledge := do
  let m ← sy.treeHash (sy.name sy.myself)
  return addK K sy ⟨sy.name sy.myself, sy.name sy.myself, m, [], []⟩

def makeRelease (better : Int32) : Comp MsgRelease := do
  let m ← if better ≠ -1 then sy.treeHash (sy.nameAt better) else .ok zerohash
  return ⟨better, sy.me, m, ownSigner K sy⟩

/-- The best of the qualified candidates that have asked, or ourselves. -/
def bestAsked : Seat :=
  (finRange CommitteeSize).foldl (fun better i =>
    if (sy.asked i).isSome ∧ i ≠ better ∧ sy.better i.no better.no ∧
        sy.knowledges.qualified sy.myself i then i
    else better) sy.myself

/-- Announce the own candidacy, if nobody better has asked. -/
def candidacy : Comp (Local × Bool) :=
  if (l.sy.agreed ≠ some l.sy.myself ∧ l.sy.agreed ≠ none) ∨
      ¬l.sy.knowledges.qualified l.sy.myself l.sy.myself then .ok (l, false)
  else if bestAsked l.sy ≠ l.sy.myself then .ok (l, false)
  else do
    let m ← l.sy.treeHash l.sy.me
    let sy := { l.sy with
      agreed := some l.sy.myself
      agrees := l.sy.agrees.insert l.sy.myself
      knowledges := l.sy.knowledges.rejected none }
    return ({ l with sy }.sendSigned K .committee (.candidate ⟨sy.me, m, some sy.me⟩), true)

/-- Consent to `b` after the own candidacy is given up. -/
def consentTo (b : Seat) : Comp Local :=
  if (l.sy.asked b).isSome ∧ b ≠ l.sy.myself then do
    let m ← l.sy.treeHash (l.sy.name b)
    let l := l.sendSigned K (.only (l.sy.name b))
      (.candidateResp ⟨.cnst, b.no, l.sy.me, m, some l.sy.me⟩)
    return { l with sy := { l.sy with
      agreed := some b, asked := update l.sy.asked b none } }
  else .ok l

/-- Give up the own candidacy for a better one; tells whether it was given up. -/
def yield (better : Int32) (l : Local) : Comp (Local × Bool) :=
  if better ≠ seatNo l.sy.agreed ∧ l.sy.better better (seatNo l.sy.agreed) then do
    let rls ← makeRelease K l.sy better
    let l := (l.sy.agrees.filter (· ≠ l.sy.myself)).foldl
      (fun l r => l.send (.only (l.sy.name r)) (.release rls)) l
    let l := { l with sy := { l.sy with
      agrees := [], agreed := none, knowledges := l.sy.knowledges.rejected none } }
    let b ← place better
    let l ← consentTo K l b
    return (l, true)
  else .ok (l, false)

/-- The last steps of `Candidate`: consent to the candidate, or name the one agreed to. -/
def answer (msg : MsgCandidate) (fmp : Seat) (l : Local) : Comp Local :=
  let sy := { l.sy with asked := update l.sy.asked fmp none }
  if sy.agreed = none ∨ sy.agreed = some fmp then
    .ok ({ l with sy := { sy with agreed := some fmp } }.sendSigned K (.only (sy.name fmp))
      (.candidateResp ⟨.cnst, fmp.no, sy.me, msg.m, some sy.me⟩))
  else do
    let m ← sy.treeHash (sy.nameAt (seatNo sy.agreed))
    return { l with sy }.sendSigned K (.only (sy.name fmp))
      (.candidateResp ⟨.rjct, seatNo sy.agreed, sy.me, m, some sy.me⟩)

/-- A candidate that asks after the signature was given: it is refused, unless it is the one. -/
def refuse (msg : MsgCandidate) (fmp : Seat) (l : Local) : Local :=
  if l.sy.sigGiven ≠ some fmp then
    if K.hasKey l.sy.me then
      { l with sy := { l.sy with asked := update l.sy.asked fmp none } }.send
        (.only (l.sy.name fmp)) (.candidateResp ⟨.rjct, -1, l.sy.me, msg.m, some l.sy.me⟩)
    else { l with sy := { l.sy with asked := update l.sy.asked fmp (some msg) } }
  else { l with sy := { l.sy with asked := update l.sy.asked fmp none } }

/-- `Candidate` -/
def candidate (msg : MsgCandidate) : Comp Local :=
  match l.sy.members.lookup msg.f with
  | none => .ok l
  | some fmp =>
    if ¬l.sy.runnable then .ok l
    else if l.sy.sigGiven ≠ none then .ok (refuse K msg fmp l)
    else
      let l := { l with sy := { l.sy with
        asked := update l.sy.asked fmp (some msg) } }
      if l.sy.blockOf msg.f = none ∨ ¬l.sy.knowledges.qualified l.sy.myself fmp then .ok l
      else if l.sy.agreed = some l.sy.myself then do
        let (l, yielded) ← yield K fmp.no l
        if yielded then return l else answer K msg fmp l
      else answer K msg fmp l

/-- `Release` -/
def release (msg : MsgRelease) : Comp Local :=
  if msg.sender ∈ l.sy.signed then .ok l
  else
    let w := l.sy.member msg.sender
    let sy : Syncer := { l.sy with
      asked := update l.sy.asked w none
      agrees := l.sy.agrees.erase w
      forest := l.sy.forest.erase msg.sender
      knowledges := l.sy.knowledges.forget w }
    if sy.agreed = some w then do
      let (l, _) ← candidacy K { l with sy := { sy with agreed := none } }
      return l
    else .ok { l with sy }

/-- Take the own candidacy back when too many have rejected it. -/
def giveUp (sender : Address) : Comp Local :=
  if l.sy.knowledges.insufficient then do
    let rls ← makeRelease K l.sy (seatNo l.sy.agreed)
    return { l with sy := { l.sy with
      agreed := none, agrees := [], knowledges := l.sy.knowledges.rejected none } }.send
        (.only sender) (.release rls)
  else .ok l

/-- A rejection of the own candidacy. -/
def rejection (msg : MsgCandidateResp) : Comp Local :=
  let l := { l with sy := { l.sy with
    knowledges := l.sy.knowledges.rejected (some (l.sy.member msg.sender)) } }
  if msg.better = -1 then giveUp K l msg.sender
  else if l.sy.blockOf (l.sy.nameAt msg.better) = none then .ok l
  else do
    let (l, yielded) ← yield K msg.better l
    if yielded then giveUp K l msg.sender
    else do
      -- the source sends this reminder to the node itself
      let m ← l.sy.treeHash l.sy.me
      return l.sendSigned K (.only l.sy.me) (.candidate ⟨l.sy.me, m, some l.sy.me⟩)

/-! ## Signing -/

/-- Parse and verify a signature script. -/
def checkScript (s : Bytes) (h : Int32) (m : Hash) : Comp Bool :=
  if s.length < PubKeyBytesLenCompressed then Go.crash
  else .ok ((K.keyOf s).isSome && K.verifies s h m)

/-- Give the own signature to the one agreed to, whose block is that of `owner`; tells whether
the height of the machine is above the one last signed. -/
def giveSignature (owner : Address) (own : Bytes) (l : Local) : Comp (Local × Bool) :=
  let (l, fresh) := l.updateLastWritten
  if ¬fresh ∧ l.sy.sigGiven ≠ l.sy.agreed then .ok (l, false)
  else
    let sy := { l.sy with sigGiven := l.sy.agreed }
    match sy.blockOf owner with
    | none => .ok ({ l with sy }, true)
    | some r => do
      let sy ← sy.truncate r
      return ({ l with sy := sy.collect r sy.me own }, true)

/-- Sign the own block once enough have agreed to it. -/
def ckconsensus (dest : Dest) (l : Local) : Comp (Local × Bool) :=
  if l.sy.agreed ≠ some l.sy.myself ∨ l.sy.agrees.length < CommitteeSigs then .ok (l, false)
  else if l.sy.blockOf l.sy.me = none then .ok (l, false)
  else if K.hasKey l.sy.me ∧ l.sy.sigGiven = none then do
    let m ← l.sy.treeHash l.sy.me
    let own := K.sign l.sy.me l.sy.height m
    let (l, given) ← giveSignature l.sy.me own l
    return if given then ((l.sign m).send dest (.consensus ⟨l.sy.me, m, own⟩), true)
      else (l, false)
  else .ok (l, false)

/-- Sign the own block again; the source has no call of it. -/
def reckconsensus : Comp Local :=
  if l.sy.agreed ≠ some l.sy.myself ∨ l.sy.sigGiven ≠ some l.sy.myself ∨
      l.sy.agrees.length + 1 < CommitteeSigs then .ok l
  else if l.sy.blockOf l.sy.me = none ∨ l.sy.me ∉ l.sy.signed ∨ ¬K.hasKey l.sy.me then .ok l
  else do
    let m ← l.sy.treeHash l.sy.me
    return (l.sign m).send .committee
      (.consensus ⟨l.sy.me, m, K.sign l.sy.me l.sy.height m⟩)

/-- Count the signature of an announcement; tells whether the block has enough. -/
def countSender (msg : MsgConsensus) (l : Local) : Local × Bool :=
  match l.sy.blockOf msg.sender with
  | none => (l, false)
  | some r =>
    if msg.sender ∈ l.sy.signed then (l, false)
    else
      let sy := l.sy.collect r msg.sender msg.signature
      ({ l with sy }, CommitteeSigs < ((sy.heap[r]?.map Block.scripts).getD []).length)

/-- `Consensus`: the member agreed to announces that its block is agreed on. The own signature is
made and cast first, the height last signed is looked at after that. -/
def consensus (msg : MsgConsensus) : Comp (Local × Bool) :=
  if l.sy.agreed ≠ some (l.sy.member msg.sender) then .ok (l, false)
  else do
    let m ← l.sy.treeHash msg.sender
    let valid ← checkScript K msg.signature l.sy.height m
    if ¬valid ∨ ¬K.hasKey l.sy.me then return (l, false)
    else
      let own := K.sign l.sy.me l.sy.height m
      let l := (l.sign m).send .committee (.signature ⟨msg.sender, l.sy.me, msg.m, own⟩)
      if l.sy.sigGiven = none then do
        let (l, given) ← giveSignature msg.sender own l
        return if given then countSender msg l else (l, false)
      else return countSender msg l

/-- The seat whose block a signature is for, as far as the forest has it. -/
def signedTree (msg : MsgSignature) : Option Seat :=
  match sy.forest.lookup msg.owner with
  | none => none
  | some f => if msg.m = f.hash ∧ f.block.isSome then some (sy.member msg.owner) else none

/-- A dereference of the body of a tree. -/
def deref (block : Option Nat) : Comp Nat :=
  match block with
  | some r => .ok r
  | none => Go.crash

/-- The first signature for a block takes the name of the miner out. -/
def makeRoom (block : Option Nat) : Comp Syncer :=
  if sy.sigGiven = none then do
    let r ← deref block
    sy.truncate r
  else .ok sy

/-- Count a signature that verifies, for the agreed seat `a` with the tree `f`. -/
def takeSignature (a : Seat) (f : Tree) (msg : MsgSignature) (l : Local) :
    Comp (Local × Bool) := do
  let sy ← makeRoom l.sy f.block
  let (l, fresh) := { l with sy }.updateLastWritten
  if ¬fresh ∧ l.sy.sigGiven ≠ some a then return (l, false)
  else do
    let r ← deref f.block
    let sy := { l.sy with sigGiven := some a }.collect r msg.sender msg.signature
    return ({ l with sy }, CommitteeSigs ≤ sy.signed.length)

/-- `Signature`: the sender is the one the message claims. -/
def signature (msg : MsgSignature) : Comp (Local × Bool) :=
  match l.sy.agreed with
  | none => .ok (l, false)
  | some a =>
    match l.sy.forest.lookup (l.sy.name a) with
    | none => .ok (l, false)
    | some f =>
      if msg.m ≠ f.hash then .ok (l, false)
      else if msg.sender ∈ l.sy.signed then .ok (l, CommitteeSigs ≤ l.sy.signed.length)
      else if signedTree l.sy msg ≠ some a then .ok (l, false)
      else do
        let valid ← checkScript K msg.signature l.sy.height msg.m
        if ¬valid then return (l, false) else takeSignature a f msg l

/-! ## Commands -/

/-- The signatures of a knowledge message, one for each seat it went through. -/
def checkSigners : List Int32 → List (Option Address) → Comp Bool
  | [], _ => .ok true
  | _ :: _, [] => Go.crash
  | _ :: _, none :: _ => .ok false
  | _ :: k, some _ :: signers => checkSigners k signers

/-- Whether `finder` may take part. -/
def admits (finder : Address) : Bool :=
  sy.runnable && !sy.done && finder ∉ sy.malice && finder ∈ sy.members

/-- `validateMsg`, for a message with a block hash: it has to be the one registered for the
finder, and is registered if there is none. -/
def register (finder : Address) (m : Hash) : Syncer × Bool :=
  match sy.forest.lookup finder with
  | none => ({ sy with forest := sy.forest.insert finder ⟨finder, 0, m, none, none⟩ }, true)
  | some t => (sy, t.hash = m)

/-- Keep the message that went through the most seats. -/
def keepKnow (k : MsgKnowledge) : Syncer :=
  match sy.forest.lookup k.finder with
  | none => sy
  | some t =>
    if (t.know.map fun k' => decide (k'.k.length < k.k.length)).getD true then
      { sy with forest := sy.forest.insert k.finder { t with know := some k } }
    else sy

/-- The loop of `ProcKnowledge` that passes a message on to the seat `i`. -/
def passOn (msg lmg : MsgKnowledge) (tosend : Bool) (mp : Seat) (ng : Int64) (l : Local)
    (i : Seat) : Comp Local :=
  if i = l.sy.myself then .ok l
  else do
    let imp ← improve msg.k i
    return if tosend ∧ lmg.k.length < 3 * CommitteeSize ∧
        (ng &&& bit i ≠ 0 ∨ imp ∨ l.sy.knowledges.knowledge mp i = 0) then
      l.send (.only (l.sy.name i)) (.knowledge lmg)
    else l

/-- Tell the finder about our own block, in case it is a late comer. -/
def introduce (mp : Seat) (l : Local) : Comp Local :=
  if l.sy.name l.sy.myself ∈ l.sy.forest ∧ mp ≠ l.sy.myself ∧
      l.sy.knowledges.knowledge l.sy.myself mp &&& bit l.sy.myself = 0 then do
    let k ← newKnowledgeMsg K l.sy
    return l.send (.only (l.sy.name mp)) (.knowledge k)
  else .ok l

/-- `ProcKnowledge` -/
def procKnowledge (msg : MsgKnowledge) : Comp Local :=
  match l.sy.members.lookup msg.finder, l.sy.members.lookup msg.sender with
  | some mp, some _ => do
    let tosend := !endsWithMe l.sy msg.k && K.hasKey l.sy.me
    let lmg := if tosend then { addK K l.sy msg with sender := l.sy.me } else msg
    let (kb, ng, _) ← l.sy.knowledges.gain mp lmg.k
    let l ← (finRange CommitteeSize).foldlM (passOn msg lmg tosend mp ng)
      { l with sy := { l.sy with knowledges := kb } }
    introduce K mp l
  | _, _ => .ok l

/-- The reset of a block in `process`. It is never reached: the message has been validated, so its
hash is the registered one. -/
def resetTree (k : MsgKnowledge) : Syncer :=
  let w := sy.member k.finder
  let sy : Syncer := { sy with
    forest := sy.forest.insert k.finder ⟨k.finder, 0, k.m, none, none⟩
    knowledges := sy.knowledges.forget w }
  if sy.agreed = some w then
    { sy with agreed := none, sigGiven := none, agrees := [], signed := [] }
  else sy

def onKnowledge (k : MsgKnowledge) : Comp Local :=
  if l.sy.sigGiven ≠ none ∨ ¬admits l.sy k.finder then .ok l
  else do
    let verified ← checkSigners k.k k.signers
    if ¬verified then return l
    else
      let (sy, valid) := register l.sy k.finder k.m
      if ¬valid then return { l with sy }
      else do
        let m ← sy.treeHash k.finder
        let sy := if m ≠ k.m then resetTree sy k else sy
        let l ← procKnowledge K { l with sy := keepKnow sy k } k
        let (l, _) ← candidacy K l
        return l

def onCandidate (k : MsgCandidate) : Comp Local :=
  if (∃ s ∈ l.sy.sigGiven, l.sy.name s ≠ k.f) ∨ ¬admits l.sy k.f ∨ k.signer ≠ some k.f then .ok l
  else
    let (sy, valid) := register l.sy k.f k.m
    if ¬valid then .ok { l with sy }
    else if sy.blockOf k.f = none then
      .ok { l with sy := { sy with
        asked := update sy.asked (sy.member k.f) (some k) } }
    else candidate K { l with sy } k

/-- `candidateResp`, for a message that is taken. -/
def candidateResp (k : MsgCandidateResp) : Comp Local :=
  match k.reply with
  | .cnst =>
    if l.sy.agreed = some l.sy.myself then do
      let (l, _) ← ckconsensus K .committee
        { l with sy := { l.sy with agrees := l.sy.agrees.insert (l.sy.member k.sender) } }
      return l
    else do
      let rls ← makeRelease K l.sy (seatNo l.sy.agreed)
      return l.send (.only k.sender) (.release rls)
  | .rjct => if l.sy.agreed = some l.sy.myself then rejection K l k else .ok l
  | .other => .ok l

def onCandidateResp (k : MsgCandidateResp) : Comp Local :=
  if l.sy.sigGiven ≠ none ∨ ¬admits l.sy k.sender ∨ k.signer ≠ some k.sender then .ok l
  else candidateResp K l k

def onRelease (k : MsgRelease) : Comp Local :=
  if l.sy.sigGiven ≠ none ∨ ¬admits l.sy k.sender ∨ k.signer ≠ some k.sender then .ok l
  else release K l k

def onConsensus (k : MsgConsensus) : Comp (Local × Bool) :=
  if l.sy.sigGiven ≠ none ∨ ¬admits l.sy k.sender then .ok (l, false) else consensus K l k

/-- What `BlockInit` lets into the queue: a block that has not been signed yet, so that its coinbase
has the two scripts it was made with, with any creator and fees. -/
structure Mined where
  creator : Address
  fees : UInt64
  block : Block
  unsigned : block.scripts.length = CommitteeSigs

/-- The body of a proposal comes into the heap. -/
def Syncer.plant (t : Mined) (tree : Tree) : Syncer :=
  let tree := { tree with block := some sy.heap.length, fees := t.fees }
  { sy with heap := sy.heap ++ [t.block], forest := sy.forest.insert t.creator tree }

/-- The end of the handling of a new tree: the own block is announced to the own queue. -/
def announce (creator : Address) (sy : Syncer) : Comp Local :=
  if creator = sy.me then do
    let _ ← newKnowledgeMsg K sy
    return { l with sy }
  else .ok { l with sy }

/-- A new tree. One for a naked tree is not compared with the hash registered. -/
def newTree (t : Mined) : Comp Local :=
  if l.sy.sigGiven ≠ none ∨ ¬admits l.sy t.creator then .ok l
  else
    match l.sy.forest.lookup t.creator with
    | none => announce K l t.creator (l.sy.plant t ⟨t.creator, t.fees, t.block.hash, none, none⟩)
    | some tree =>
      if tree.block = none then announce K l t.creator (l.sy.plant t tree)
      else if tree.hash ≠ zerohash ∧ t.block.hash ≠ tree.hash then
        if l.sy.me = t.creator then .ok l
        else announce K l t.creator { l.sy with
          malice := l.sy.malice.insert t.creator
          forest := l.sy.forest.erase t.creator
          knowledges := l.sy.knowledges.malice (l.sy.member t.creator) }
      else announce K l t.creator l.sy

inductive Command where
  | debug
  | tree (t : Mined)
  | msg (m : Msg)

/-- A command from the queue; tells whether the loop is left. -/
def process (cmd : Command) : Comp (Local × Bool) :=
  if ¬l.sy.runnable ∨ l.sy.done then .ok (l, true)
  else
    match cmd with
    | .debug => .ok (l, false)
    | .tree t => do return (← newTree K l t, false)
    | .msg (.knowledge k) => do return (← onKnowledge K l k, false)
    | .msg (.candidate k) => do return (← onCandidate K l k, false)
    | .msg (.candidateResp k) => do return (← onCandidateResp K l k, false)
    | .msg (.release k) => do return (← onRelease K l k, false)
    | .msg (.consensus k) => onConsensus K l k
    | .msg (.signature k) => signature K l k

/-! ## Ticks -/

/-- What a tick finds: the order of a map iteration, as the tree it meets first for a hash, who
is connected, and whether the queue has room. -/
structure Tick where
  pick : Hash → Address
  connected : Address → Bool
  room : Bool

/-- A tree with the hash `h` and a body. -/
def Tree.fits (h : Hash) (t : Tree) : Bool := t.hash = h ∧ t.block ≠ none

/-- `rtrees[h]` -/
def rtree (pick : Hash → Address) (sy : Syncer) (h : Hash) : Option Tree :=
  match (sy.forest.lookup (pick h)).filter (Tree.fits h) with
  | some t => some t
  | none => (sy.forest.entries.map Sigma.snd).find? (Tree.fits h)

/-- Give a naked tree the body of another tree with its hash. -/
def dress (pick : Hash → Address) (sy : Syncer) (t : Tree) : Tree :=
  match t.block, rtree pick sy t.hash with
  | none, some s => { t with block := s.block, fees := s.fees }
  | _, _ => t

def dressAll (pick : Hash → Address) (sy : Syncer) : Syncer :=
  let dressed := sy.forest.entries.map fun e => (e.1, dress pick sy e.2)
  { sy with forest := Go.putAll sy.forest dressed }

/-- The best of those that have asked and are better than ourselves, or ourselves. -/
def bestRival : Seat :=
  (finRange CommitteeSize).foldl (fun best i =>
    if (sy.asked i).isSome ∧ i ≠ sy.myself ∧ sy.better i.no sy.myself.no ∧
        sy.better i.no best.no then i
    else best) sy.myself

/-- Give the own candidacy up for a rival's, or repeat it. Tells whether the tick goes on. -/
def repeatCandidacy : Comp (Local × Bool) :=
  let best := bestRival l.sy
  if best ≠ l.sy.myself then do
    let r ← makeRelease K l.sy (seatNo l.sy.agreed)
    let l := l.send .everyone (.release r)
    return ({ l with sy := { l.sy with
      agrees := [], agreed := none, asked := update l.sy.asked best none } }, true)
  else do
    let m ← l.sy.treeHash l.sy.me
    return (l.sendSigned K .everyone (.candidate ⟨l.sy.me, m, some l.sy.me⟩), K.hasKey l.sy.me)

/-- Agree to the best of those that have asked. -/
def agreeToBest (connected : Address → Bool) (l : Local) : Local :=
  match l.sy.best with
  | none => l
  | some best =>
    if best ≠ l.sy.myself ∧ (l.sy.asked best).isSome ∧
        l.sy.knowledges.qualified l.sy.myself best ∧ connected (l.sy.name best) then
      { l with sy := { l.sy with
        agreed := some best, asked := update l.sy.asked best none } }
    else l

/-- The signature is made again and sent again. -/
def repeatSignature : Comp (Local × Bool) :=
  if ¬K.hasKey l.sy.me then .ok (l, false)
  else do
    let owner := l.sy.nameAt (seatNo l.sy.agreed)
    let m ← l.sy.treeHash owner
    return ((l.sign m).send .everyone
      (.signature ⟨owner, l.sy.me, m, K.sign l.sy.me l.sy.height m⟩), true)

/-- The vote part of a tick. Tells whether the tick goes on. -/
def repeatVote (connected : Address → Bool) (l : Local) : Comp (Local × Bool) :=
  if l.sy.sigGiven ≠ none then repeatSignature K l
  else do
    let (l, decided) ← ckconsensus K .everyone l
    if decided then return (l, false)
    else if l.sy.agreed = some l.sy.myself then repeatCandidacy K l
    else
      match l.sy.agreed with
      | some a => do
        let m ← l.sy.treeHash (l.sy.name a)
        return (l.sendSigned K .everyone
          (.candidateResp ⟨.cnst, a.no, l.sy.me, m, some l.sy.me⟩), K.hasKey l.sy.me)
      | none => return (agreeToBest connected l, true)

/-- Send what is known of the block of `s` to those that do not know all of it. Tells whether the
tick goes on. -/
def relay (s : Seat) : Comp (Local × Bool) :=
  match l.sy.forest.lookup (l.sy.name s) with
  | none => .ok (l, true)
  | some t =>
    match t.know with
    | none => .ok (l, true)
    | some k =>
      if ¬endsWithMe l.sy k.k ∧ ¬K.hasKey l.sy.me then .ok (l, false)
      else
        let lmg := if endsWithMe l.sy k.k then k else { addK K l.sy k with sender := l.sy.me }
        let l := { l with sy := { l.sy with
          forest := l.sy.forest.insert (l.sy.name s) { t with know := some lmg } } }
        let kp := l.sy.knowledges.knowledge s
        let all := (finRange CommitteeSize).foldl (fun all i => all ||| kp i) 0
        .ok (((finRange CommitteeSize).filter fun i => kp i ≠ all ∧ i ≠ l.sy.myself).foldl
          (fun l i => l.send (.only (l.sy.name i)) (.knowledge lmg)) l, true)

/-- Tell everyone about the own block. -/
def shareOwn (room : Bool) (l : Local) : Comp Local :=
  if l.sy.me ∈ l.sy.forest ∧ room then do
    let k ← newKnowledgeMsg K l.sy
    return l.send .everyone (.knowledge k)
  else .ok l

/-- The knowledge part of a tick. -/
def repeatKnowledge (room : Bool) (l : Local) : Comp Local := do
  let l ← shareOwn K room l
  let (l, _) ← (finRange CommitteeSize).foldlM
    (fun (p : Local × Bool) s => if p.2 then relay K p.1 s else .ok p) (l, true)
  return l

/-- `repeater` -/
def repeater (t : Tick) (l : Local) : Comp Local :=
  if ¬l.sy.runnable ∨ l.sy.done then .ok l
  else if l.sy.agreed ≠ none ∧ CommitteeSigs ≤ l.sy.signed.length then
    .ok { l with sy := { l.sy with done := true } }
  else do
    let (l, more) ← repeatVote K t.connected { l with sy := dressAll t.pick l.sy }
    if more then repeatKnowledge K t.room l else return l

end Zent.Consensus
