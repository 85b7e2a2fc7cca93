import Mathlib.Algebra.Ring.Nat
import Mathlib.Data.Fintype.Basic
import Mathlib.Data.List.FinRange
import Zent.Blockchain.Reorg

/-!
# Consensus messages and the knowledge base

The committee of a height settles on one of the blocks its members propose. Members tell each
other which blocks they know of (`MsgKnowledge`), the owner of the best known block asks for the
others' consent (`MsgCandidate`, `MsgCandidateResp`, `MsgRelease`), and the block is signed
(`MsgConsensus`, `MsgSignature`).

* A place in the committee is a `Seat`. The source keeps it in an `int32`, with `-1` for nobody;
  here nobody is `none`, and a number from a message becomes a seat by `place`, which panics
  where the array access of the source does.
* A message that is signed as a whole carries what the verification of its signature yields: the
  hash of the key it verifies under, if any. The signatures that end up in a block stay bytes.
* `Knowledgebase` holds who is known to know whose block; `qualified` asks that a block is widely
  enough known.
-/

namespace Zent.Consensus

/-- A computation of the consensus code: it returns a value or panics. -/
abbrev Comp (α : Type) := Go.Outcome Empty α

/-- A place in the committee. -/
abbrev Seat := Fin CommitteeSize

/-- What an absent key of a map to seats reads as. -/
def Seat.zero : Seat := ⟨0, by decide⟩

/-- A seat as the source numbers it. -/
def Seat.no (s : Seat) : Int32 := Int32.ofNat s.val

/-- The number of a seat, or `-1`. -/
def seatNo : Option Seat → Int32
  | none => -1
  | some s => s.no

/-- The seat with a number, if there is one. -/
def seatOf (i : Int32) : Option Seat :=
  if h : 0 ≤ i ∧ i.toInt.toNat < CommitteeSize then some ⟨i.toInt.toNat, h.2⟩ else none

/-- The access of an array of `CommitteeSize` entries at `i`. -/
def place (i : Int32) : Comp Seat :=
  match seatOf i with
  | some s => .ok s
  | none => Go.crash

/-! ## Messages

The height of a message picks the machine that handles it and is left out here. -/

/-- `sender` is the field `From`. -/
structure MsgKnowledge where
  finder : Address
  sender : Address
  m : Hash
  /-- the seats the message went through -/
  k : List Int32
  /-- for each signature, the key hash it verifies under -/
  signers : List (Option Address)
  deriving DecidableEq, Repr

/-- `f` is the candidate. -/
structure MsgCandidate where
  f : Address
  m : Hash
  signer : Option Address
  deriving DecidableEq, Repr

/-- The field `Reply`: "cnst", "rjct", or any other text. -/
inductive Reply where
  | cnst
  | rjct
  | other
  deriving DecidableEq, Repr

structure MsgCandidateResp where
  reply : Reply
  better : Int32
  sender : Address
  m : Hash
  signer : Option Address
  deriving DecidableEq, Repr

structure MsgRelease where
  better : Int32
  sender : Address
  m : Hash
  signer : Option Address
  deriving DecidableEq, Repr

structure MsgConsensus where
  sender : Address
  m : Hash
  /-- a compressed public key, followed by a signature -/
  signature : Bytes
  deriving DecidableEq, Repr

/-- `owner` is the field `For`: the member whose block is signed. -/
structure MsgSignature where
  owner : Address
  sender : Address
  m : Hash
  signature : Bytes
  deriving DecidableEq, Repr

/-! ## The knowledge base -/

/-- Bit `b` of `knowledge f v` says that `b` is known to have known the block of `f` when `v` was
told. -/
structure Knowledgebase where
  knowledge : Seat → Seat → Int64
  /-- who has rejected our candidacy -/
  rejections : Int64

/-- `1 << v` -/
def bit (v : Seat) : Int64 := Int64.ofNat (2 ^ v.val)

/-- The number of bits set in a nibble. -/
def mapping16 : List Nat := [0, 1, 1, 2, 1, 2, 2, 3, 1, 2, 2, 3, 2, 3, 3, 4]

/-- The bits set in a word, counted nibble by nibble. -/
def countBits (x : Int64) : Nat :=
  ((List.range 16).map fun k => mapping16.getD ((x.toBitVec >>> (4 * k)) &&& 0xF#64).toNat 0).sum

namespace Knowledgebase

variable (kb : Knowledgebase)

/-- `CreateKnowledge` -/
def create : Knowledgebase := ⟨fun _ _ => 0, 0⟩

def malice (c : Seat) : Knowledgebase :=
  { kb with knowledge := Function.update kb.knowledge c fun _ => 0 }

/-- The loops of `Release` and of the reset of a block: what is known of the block of `w`, what
`w` has been told, and that `w` knows anything. -/
def forget (w : Seat) : Knowledgebase :=
  { kb with knowledge := fun i j =>
      if i = w ∨ j = w then 0 else kb.knowledge i j &&& ~~~(bit w) }

def rejected (who : Option Seat) : Knowledgebase :=
  match who with
  | none => { kb with rejections := 0 }
  | some w => { kb with rejections := kb.rejections ||| bit w }

/-- Too few are left to reach the quorum. The loop shifts the sign in, so it counts no end of
rejections in a negative word. -/
def insufficient : Bool :=
  kb.rejections < 0 ∨ CommitteeSize - countBits kb.rejections < CommitteeSigs

def qualified (myself who : Seat) : Bool :=
  let rej : Int64 := if who ≠ myself then -1 else ~~~kb.rejections
  CommitteeSigs ≤ (List.finRange CommitteeSize).countP fun i =>
    CommitteeSigs ≤ countBits (kb.knowledge who i &&& rej)

/-- `Knowledge[mp][v] |= c` -/
def learn (mp v : Seat) (c : Int64) : Knowledgebase :=
  { kb with knowledge := fun i j =>
      if i = mp ∧ j = v then kb.knowledge i j ||| c else kb.knowledge i j }

/-- Each seat on the way learns who has been before it. Returns the seats that gained by it, and
all the seats. -/
def gain (mp : Seat) (k : List Int32) :
    Comp (Knowledgebase × Int64 × Int64) := do
  let (kb, ng, c) ← k.foldlM (fun (s : Knowledgebase × Int64 × Int64) viewer => do
    let v ← place viewer
    let (kb, ng, c) := s
    let c := c ||| bit v
    return if kb.knowledge mp v &&& c ≠ c then (kb.learn mp v c, ng ||| bit v, c)
      else (kb, ng, c)) (kb, 0, 0)
  let ng ← k.foldlM (fun (ng : Int64) viewer => do
    let v ← place viewer
    return if kb.knowledge mp v &&& c ≠ c then ng ||| bit v else ng) ng
  return (kb, ng, c)

end Knowledgebase

/-- Whether some seat on the way has not heard of all the others. -/
def improve (k : List Int32) (dest : Seat) : Comp Bool := do
  let (newknowledge, c) ← k.foldlM (fun (s : (Seat → Int64) × Int64) viewer => do
    let v ← place viewer
    let c := s.2 ||| bit v
    return (Function.update s.1 v c, c)) (fun _ => 0, 0)
  let c := c ||| bit dest
  return (List.finRange CommitteeSize).any fun i =>
    newknowledge i &&& c ≠ 0 && newknowledge i ≠ c

end Zent.Consensus
