import Zent.Go.Returns
import Zent.Consensus.Handlers

/-!
# A node and its runs

A node has any number of consensus machines, of any heights: the source keeps one for each height
in a table, drops it when the chain passes the height and makes a new one when a message for the
height comes in, while the goroutine of the dropped one may still be in its loop. All of them
share the height last signed.

* `NodeEvent` is what can happen to a node; `step` its effect, `run` a list of events from the
  start.
* A run ends with a panic of any machine, as the process does.
-/

namespace Zent.Consensus

open List Option

/-- What `setCommittee` reads of the chain: the height of the best block and, for each seat, the
miner of its miner block and whether that is the node itself. -/
structure Snapshot where
  height : Int32
  miner : Seat → Option (Address × Bool)

namespace Syncer

/-- Seat the miner of one miner block. -/
def sit (best : Snapshot) (p : Syncer × Bool) (who : Seat) : Syncer × Bool :=
  match best.miner who with
  | none => p
  | some (a, ours) =>
    ({ p.1 with
      me := if ours then a else p.1.me
      myself := if ours then who else p.1.myself
      members := p.1.members.insert a who
      names := p.1.names.insert who a }, p.2 || ours)

/-- Start the machine if its height is next and the node sits in the committee. What an earlier
call has put into the tables stays there. -/
def setCommittee (best : Snapshot) (sy : Syncer) : Syncer :=
  if sy.runnable ∨ sy.done ∨ sy.height ≠ best.height + 1 then sy
  else
    let (sy, isIn) := (List.finRange CommitteeSize).foldl (sit best) (sy, false)
    let sy := { sy with knowledges := .create }
    if isIn then { sy with runnable := true, phase := .looping } else sy

/-- The block `run` publishes at its end. -/
def conclusion (sy : Syncer) : Option Block :=
  match sy.sigGiven with
  | none => none
  | some s =>
    ((sy.blockOf (sy.name s)).bind fun r => sy.heap[r]?).filter fun b =>
      sy.runnable ∧ CommitteeSigs < b.scripts.length

end Syncer

/-- The end of `run`. -/
def finish (l : Local) : Local :=
  let sy := { l.sy with done := true, runnable := false, phase := .returned }
  match l.sy.conclusion with
  | none => { l with sy }
  | some b => { l with sy, log := .publish l.sy.members.keys l.sy.height b :: l.log }

structure Node where
  /-- `lastSignedBlock` -/
  last : Int32
  syncers : List Syncer
  log : List Event

/-- A node after its start. -/
def Node.start : Node := ⟨0, [], []⟩

/-- What happens to a node; the number is the machine it happens to. -/
inductive NodeEvent where
  | create (h : Int32)
  | setCommittee (i : Nat) (best : Snapshot)
  /-- the loop takes a command from the queue -/
  | command (i : Nat) (cmd : Command)
  /-- the clock of the loop ticks -/
  | tick (i : Nat) (t : Tick)
  /-- the chain has passed the height -/
  | quit (i : Nat)
  /-- the loop sees that the machine is done -/
  | leave (i : Nat)
  /-- a signature is taken from the queue after the loop -/
  | drain (i : Nat) (msg : MsgSignature)
  | finish (i : Nat)
  /-- a call of `reckconsensus`, which the source does not make -/
  | recheck (i : Nat)

variable (K : Keys)

/-- Leave the loop if told to. -/
def Local.leaveIf (l : Local) (b : Bool) : Local :=
  if b then { l with sy := { l.sy with phase := .draining } } else l

/-- What an event does to the machine it happens to. -/
def act (e : NodeEvent) (l : Local) : Comp Local :=
  match e with
  | .create _ => .ok l
  | .setCommittee _ best => .ok { l with sy := l.sy.setCommittee best }
  | .command _ cmd =>
    if l.sy.phase = .looping then do
      let (l, b) ← process K l cmd
      return l.leaveIf b
    else .ok l
  | .tick _ t => if l.sy.phase = .looping then repeater K t l else .ok l
  | .quit _ => .ok { l with sy := { l.sy with done := true } }
  | .leave _ => .ok (l.leaveIf (l.sy.phase = .looping ∧ l.sy.done))
  | .drain _ msg =>
    if l.sy.phase = .draining then do
      let (l, _) ← signature K l msg
      return l
    else .ok l
  | .finish _ => .ok (if l.sy.phase = .draining then finish l else l)
  | .recheck _ => if l.sy.phase = .looping then reckconsensus K l else .ok l

/-- The machine an event happens to. -/
def NodeEvent.target : NodeEvent → Option Nat
  | .create _ => none
  | .setCommittee i _ | .command i _ | .tick i _ | .quit i | .leave i | .drain i _ | .finish i
  | .recheck i => some i

namespace Node

/-- The view of one machine. -/
def view (n : Node) (sy : Syncer) : Local := ⟨n.last, sy, n.log⟩

def step (n : Node) (e : NodeEvent) : Comp Node :=
  match e with
  | .create h => .ok { n with syncers := n.syncers ++ [createSyncer h] }
  | e =>
    match e.target.bind fun i => n.syncers[i]?.map fun sy => (i, sy) with
    | none => .ok n
    | some (i, sy) => do
      let l ← act K e (n.view sy)
      return ⟨l.last, n.syncers.set i l.sy, l.log⟩

/-- A run from the start. -/
def run (es : List NodeEvent) : Comp Node := es.foldlM (step K) start

/-- Two nodes differ by the creation of a machine, or by what one machine did. -/
theorem step_eq_ok {n n' : Node} {e : NodeEvent} (h : n.step K e = .ok n') :
    n' = n ∨ (∃ h, n' = { n with syncers := n.syncers ++ [createSyncer h] }) ∨
    ∃ i sy l, e.target = some i ∧ n.syncers[i]? = some sy ∧ act K e (n.view sy) = .ok l ∧
      n' = ⟨l.last, n.syncers.set i l.sy, l.log⟩ := by
  unfold step at h
  split at h
  case h_1 height =>
    cases h
    exact .inr (.inl ⟨height, rfl⟩)
  split at h
  · cases h
    exact .inl rfl
  rename_i i sy hsome
  obtain ⟨l, hact, h⟩ := Go.bind_eq_ok.mp h
  cases h
  obtain ⟨j, hj, hsome⟩ := bind_eq_some_iff.mp hsome
  obtain ⟨sy', hsy, hpair⟩ := map_eq_some_iff.mp hsome
  cases hpair
  exact .inr (.inr ⟨i, sy, l, hj, hsy, hact, rfl⟩)

/-- A machine of the node after the machine `i` has been replaced. -/
theorem getElem?_set_cases {syncers : List Syncer} {sy' a : Syncer} {i j : Nat}
    (h : (syncers.set i sy')[j]? = some a) :
    (i = j ∧ a = sy') ∨ (i ≠ j ∧ syncers[j]? = some a) := by
  by_cases hij : i = j
  · subst hij
    rw [getElem?_set] at h
    simp only [if_true] at h
    split at h
    · exact .inl ⟨rfl, (some.inj h).symm⟩
    · cases h
  · exact .inr ⟨hij, by rwa [getElem?_set_ne hij] at h⟩

/-- A machine after a step is as it was, is new, or is the one the event happened to. -/
theorem machine_cases {n n' : Node} {e : NodeEvent} (h : n.step K e = .ok n') {j : Nat}
    {a : Syncer} (hj : n'.syncers[j]? = some a) :
    n.syncers[j]? = some a ∨ (∃ height, a = createSyncer height) ∨
    ∃ sy l, e.target = some j ∧ n.syncers[j]? = some sy ∧ act K e (n.view sy) = .ok l ∧
      a = l.sy := by
  rcases step_eq_ok K h with rfl | ⟨height, rfl⟩ | ⟨i, sy, l, htarget, hi, hact, rfl⟩
  · exact .inl hj
  · by_cases hlt : j < n.syncers.length
    · exact .inl (by rwa [getElem?_append_left hlt] at hj)
    · rw [getElem?_append_right (Nat.le_of_not_lt hlt)] at hj
      exact .inr (.inl ⟨height, mem_singleton.mp (mem_of_getElem? hj)⟩)
  · rcases getElem?_set_cases hj with ⟨rfl, rfl⟩ | ⟨-, hj⟩
    · exact .inr (.inr ⟨sy, l, htarget, hi, hact, rfl⟩)
    · exact .inl hj

end Node

/-! ## A small committee

For concrete runs: three members with the keys `1`, `2` and `3`, the last of them the node's own,
and a scheme whose scripts spell out key, height and hash. -/

def sampleScript (key : Address) (h : Int32) (m : Hash) : Bytes :=
  UInt8.ofNat key.toNat :: List.replicate 32 0 ++
    [UInt8.ofNat h.toInt.toNat, UInt8.ofNat m.toNat]

def Keys.sample : Keys where
  keyOf s := s.head?.map fun b => BitVec.ofNat 160 b.toNat
  verifies s h m :=
    s.drop PubKeyBytesLenCompressed = [UInt8.ofNat h.toInt.toNat, UInt8.ofNat m.toNat]
  hasKey a := a = 3
  sign a h m := sampleScript a h m
  keyOf_sign := by
    intro a h m ha
    rw [of_decide_eq_true ha]
    rfl
  verifies_sign := by
    intro a h m _
    simp [sampleScript, PubKeyBytesLenCompressed]

def sampleCommittee : Snapshot :=
  ⟨4, fun s => some (BitVec.ofNat 160 (s.val + 1), s.val = 2)⟩

/-- A new machine at height 5 agrees to the block `m` of the first or second member: the block
comes in, both are known to know it, and its owner asks for consent. -/
def sampleVote (i : Nat) (s : Bool) (m : Hash) : List NodeEvent :=
  let owner : Address := if s then 2 else 1
  [.create 5, .setCommittee i sampleCommittee,
    .command i (.tree ⟨owner, 0, ⟨m, [[], []]⟩, rfl⟩),
    .command i (.msg (.knowledge ⟨owner, owner, m, if s then [1, 0] else [0, 1],
      if s then [some 2, some 1] else [some 1, some 2]⟩)),
    .command i (.msg (.candidate ⟨owner, m, some owner⟩))]

/-- The owner announces that its block is agreed on. -/
def sampleConsensus (i : Nat) (owner : Address) (m : Hash) : NodeEvent :=
  .command i (.msg (.consensus ⟨owner, m, sampleScript owner 5 m⟩))

/-- A machine of a run in which all machines look the same. -/
theorem Node.look {K : Keys} {es : List NodeEvent} {u : Node} {i : Nat} {sy : Syncer}
    {P : Node → Syncer → Prop} (h : Go.Ends (Node.run K es) fun u => ∀ sy ∈ u.syncers, P u sy)
    (hu : Node.run K es = .ok u) (hi : u.syncers[i]? = some sy) : P u sy := by
  rw [hu] at h
  exact Go.ends_pure_iff.mp h sy (mem_of_getElem? hi)

end Zent.Consensus
