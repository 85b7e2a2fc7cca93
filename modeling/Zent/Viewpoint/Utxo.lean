import Zent.Go.Tally
import Zent.Blockchain.Error

/-!
# The view of unspent outputs

`omega/viewpoint/utxo.go`: the entries of a view, adding the outputs of a
transaction and connecting a transaction (mark what it spends, add what it
creates). `ConnectTransaction` never looks at the spent flag of what it spends;
that is left to the checks that run before it.
-/

namespace Zent

open Go List AList

/-! ## Entries -/

/-- The details of one output in a view. -/
structure UtxoEntry where
  tokenType : UInt64
  amount : Option TokenValue
  rights : Option Hash
  pkScript : Bytes
  /-- height of the block containing the output -/
  blockHeight : Int32
  /-- `TfCoinBase` -/
  isCoinBase : Bool
  /-- `TfSpent` -/
  isSpent : Bool
  /-- `TfModified` -/
  isModified : Bool
  /-- `TfMonitoring` -/
  isMonitoring : Bool
  /-- the monitor to add -/
  monitor : Bytes
  deriving DecidableEq, Repr

/-- Mark the output as spent; no effect on a spent one. -/
def UtxoEntry.spend (e : UtxoEntry) : UtxoEntry :=
  if e.isSpent then e else { e with isSpent := true, isModified := true }

@[simp] theorem UtxoEntry.spend_isSpent (e : UtxoEntry) : e.spend.isSpent = true := by
  unfold UtxoEntry.spend
  split
  · assumption
  · rfl

/-- `UtxoViewpoint.entries` -/
abbrev UtxoViewpoint : Type := Map OutPoint UtxoEntry

def UtxoViewpoint.lookupEntry (view : UtxoViewpoint) (o : OutPoint) : Option UtxoEntry :=
  view.lookup o

/-- A spent output, as recorded for undoing a block. -/
structure SpentTxOut where
  tokenType : UInt64
  amount : Option TokenValue
  rights : Option Hash
  pkScript : Bytes
  height : Int32
  isCoinBase : Bool
  deriving DecidableEq, Repr

/-! ## Rights -/

/-- What a right says about monitoring. -/
structure RightEntry where
  desc : Bytes
  attrib : UInt8
  deriving DecidableEq, Repr

/-- The `Monitor` bit of a right's attributes. -/
def Monitor : UInt8 := 8

/-- An entry of the rights view. -/
inductive RightRecord where
  | right (e : RightEntry)
  | rightSet (rights : List Hash)
  deriving DecidableEq, Repr

/-- `FetchRightEntry`: the view backed by the database. -/
abbrev RightView : Type := Hash → Option RightRecord

/-- The members of a right set; a nested set fails the type assertion. -/
def setMembers (rights : RightView) : List Hash → Result (List RightEntry)
  | [] => .ok []
  | r :: rest => do
    match rights r with
    | none => setMembers rights rest
    | some (.right e) => return e :: (← setMembers rights rest)
    | some (.rightSet _) => crash

variable (rights : RightView)

def setOfRights (r : Option RightRecord) : Result (List RightEntry) :=
  match r with
  | none => .ok []
  | some (.right e) => .ok [e]
  | some (.rightSet rs) => setMembers rights rs

/-- `TokenRights`. The list of right hashes is built in an inner `y` that shadows the result
variable, so what is returned is nil in every branch. -/
def tokenRights (x : UtxoEntry) : Result (List Hash) :=
  match x.rights with
  | none => .ok []
  | some rs => do
    if rs == zerohash then return []
    if x.tokenType &&& 2 == 0 then return []
    let _yy ← setOfRights rights (rights rs)
    return []

/-- No right is ever reported. -/
theorem tokenRights_eq_nil {rights : RightView} {x : UtxoEntry} {y : List Hash}
    (h : tokenRights rights x = .ok y) : y = [] := by
  unfold tokenRights at h
  split at h
  · cases h
    rfl
  split at h
  · cases h
    rfl
  split at h
  · cases h
    rfl
  · obtain ⟨_, _, hy⟩ := of_bind h
    cases hy
    rfl

/-! ## Adding outputs -/

/-- `addTxOut`: insert or overwrite the entry of an outpoint. An overwritten entry is unspent
again; only its monitor stays. -/
def addTxOut (view : UtxoViewpoint) (o : OutPoint) (txOut : TxOut) (isCoinBase : Bool)
    (blockHeight : Int32) : UtxoEntry :=
  { tokenType := txOut.tokenType
    amount := txOut.value
    rights := txOut.rights
    pkScript := txOut.pkScript
    blockHeight := blockHeight
    isCoinBase := isCoinBase
    isSpent := false
    isModified := true
    isMonitoring := false
    monitor := ((view.lookupEntry o).map UtxoEntry.monitor).getD [] }

/-- One right of a new output: a monitor right makes the entry a monitoring token. -/
def addMonitor (txOut : TxOut) (e : UtxoEntry) (r : Hash) : Result UtxoEntry :=
  match rights r with
  | some (.right re) => do
    if re.attrib &&& Monitor == 0 then return e
    let addr ← slice re.desc 1 21
    let polygon ← hashVal txOut.value
    return { e with isMonitoring := true, monitor := addr ++ hashBytes polygon }
  | _ => crash

/-- The entry that `AddTxOuts` stores for an output. -/
def newEntry (view : UtxoViewpoint) (o : OutPoint) (txOut : TxOut)
    (isCoinBase : Bool) (blockHeight : Int32) : Result UtxoEntry := do
  let e := addTxOut view o txOut isCoinBase blockHeight
  (← tokenRights rights e).foldlM (addMonitor rights txOut) e

/-- One iteration of `AddTxOuts`: the output at position `i` of the transaction `hash`. -/
def addTxOutStep (hash : Hash) (isCoinBase : Bool) (blockHeight : Int32)
    (view : UtxoViewpoint) (p : TxOut × Nat) : Result UtxoViewpoint := do
  let (txOut, i) := p
  if txOut.isSeparator then return view
  if ← txOut.isNopaying then return view
  -- an output that leaves the chain does not appear in this chain
  if ← txOut.crossing then return view
  let o : OutPoint := ⟨hash, UInt32.ofNat i⟩
  let e ← newEntry rights view o txOut isCoinBase blockHeight
  return view.insert o e

section Connect

variable (txHash : MsgTx → Hash) (rights : RightView)

def addTxOuts (view : UtxoViewpoint) (tx : MsgTx) (blockHeight : Int32) :
    Result UtxoViewpoint := do
  let isCoinBase ← tx.isCoinBase
  tx.txOut.zipIdx.foldlM (addTxOutStep rights (txHash tx) isCoinBase blockHeight) view

/-! ## Connecting a transaction -/

/-- The details kept of an entry that is spent. -/
def UtxoEntry.toSpentTxOut (e : UtxoEntry) : SpentTxOut :=
  ⟨e.tokenType, e.amount, e.rights, e.pkScript, e.blockHeight, e.isCoinBase⟩

/-- One input of `ConnectTransaction`: mark what it refers to as spent. The spent details are
recorded when they are asked for. -/
def spendStep (s : UtxoViewpoint × Option (List SpentTxOut)) (txIn : TxIn) :
    Result (UtxoViewpoint × Option (List SpentTxOut)) :=
  if txIn.zeroHash then .ok s
  else
    match s.1.lookupEntry txIn.previousOutPoint with
    | none => fail (.assertError ⟨"view missing input %v", [.outPoint txIn.previousOutPoint]⟩)
    | some e =>
      .ok (s.1.insert txIn.previousOutPoint e.spend, s.2.map (· ++ [e.toSpentTxOut]))

def connectTransaction (view : UtxoViewpoint) (tx : MsgTx) (blockHeight : Int32)
    (stxos : Option (List SpentTxOut)) : Result (UtxoViewpoint × Option (List SpentTxOut)) := do
  if ← tx.isCoinBase then
    return (← addTxOuts txHash rights view tx blockHeight, stxos)
  let s ← if tx.isCrossChain then pure (view, stxos) else tx.txIn.foldlM spendStep (view, stxos)
  return (← addTxOuts txHash rights s.1 tx blockHeight, s.2)

end Connect

/-! ### What adding outputs does to one outpoint -/

/-- The output pays somebody. -/
def TxOut.pays (t : TxOut) : Bool :=
  !t.isSeparator && (t.isNopaying (ε := ChainError)).toOption == some false

/-- The output leaves the chain. -/
def TxOut.leaves (t : TxOut) : Bool := (t.crossing (ε := ChainError)).toOption == some true

/-- The outpoint of an output. -/
def outPointOf (hash : Hash) (p : TxOut × Nat) : OutPoint := ⟨hash, UInt32.ofNat p.2⟩

section Puts

variable {rights : RightView} {view v' : UtxoViewpoint} {hash : Hash} {height : Int32} {cb : Bool}
  {t : TxOut} {p : TxOut × Nat}

variable (hash height) in
/-- Put an output into the view, or not: `c` tells whether, and whether it is part of a coinbase. -/
def put (c : Option Bool) (view : UtxoViewpoint) (p : TxOut × Nat) : UtxoViewpoint :=
  c.elim view fun cb =>
    view.insert (outPointOf hash p) (addTxOut view (outPointOf hash p) p.1 cb height)

theorem lookup_put (c : Option Bool) (o : OutPoint) : (put hash height c view p).lookup o =
    if o = outPointOf hash p then
      c.elim (view.lookup o) fun cb => some (addTxOut view o p.1 cb height)
    else view.lookup o := by
  cases c with
  | none => exact (ite_self _).symm
  | some cb =>
    rw [put, Option.elim_some, lookup_insert_ite]
    exact ite_congr rfl (fun h => by rw [h]; rfl) fun _ => rfl

/-- Both ways of adding start like this. -/
theorem pays_cases {x : Result UtxoViewpoint} (h : (if t.isSeparator = true then pure view else do
    if ← t.isNopaying then pure view else x) = .ok v') :
    t.pays = false ∧ v' = view ∨ t.pays = true ∧ x = .ok v' := by
  rw [TxOut.pays]
  split at h
  case isTrue hsep =>
    cases h
    exact .inl ⟨by simp [hsep], rfl⟩
  rename_i hsep
  obtain ⟨nopay, hnopay, h⟩ := of_bind h
  cases nopay with
  | true =>
    cases h
    exact .inl ⟨by simp [hnopay, Except.toOption], rfl⟩
  | false => exact .inr ⟨by simp [hsep, hnopay, Except.toOption], h⟩

theorem insert_newEntry {o : OutPoint} (h : (do
    let e ← newEntry rights view o t cb height
    return insert o e view) = .ok v') : v' = view.insert o (addTxOut view o t cb height) := by
  obtain ⟨e, he, h⟩ := of_bind h
  obtain ⟨y, hy, he⟩ := of_bind he
  rw [tokenRights_eq_nil hy] at he
  cases he
  cases h
  rfl

/-- `AddTxOuts` leaves out what crosses chains. -/
theorem addTxOutStep_eq_put (h : addTxOutStep rights hash cb height view p = .ok v') :
    v' = put hash height (if p.1.pays && !p.1.leaves then some cb else none) view p := by
  rcases pays_cases h with ⟨hpays, rfl⟩ | ⟨hpays, h⟩
  · simp [hpays, put]
  obtain ⟨crossing, hcrossing, h⟩ := of_bind h
  cases crossing with
  | true =>
    cases h
    simp [TxOut.leaves, hcrossing, Except.toOption, put]
  | false =>
    rw [insert_newEntry h]
    simp [hpays, TxOut.leaves, hcrossing, Except.toOption, put, outPointOf]

end Puts

variable {txHash : MsgTx → Hash}

theorem lookup_addTxOuts_of_ne {rights : RightView} {view view' : UtxoViewpoint} {tx : MsgTx}
    {height : Int32} (h : addTxOuts txHash rights view tx height = .ok view') {o : OutPoint}
    (ho : o.hash ≠ txHash tx) : view'.lookup o = view.lookup o := by
  obtain ⟨cb, _, hrun⟩ := of_bind h
  refine foldlM_induction (P := fun _ v => v.lookup o = view.lookup o) rfl ?_ hrun
  intro done p v v' hv hstep
  have hne : o ≠ outPointOf (txHash tx) p := by
    rintro rfl
    exact ho rfl
  rw [addTxOutStep_eq_put hstep, lookup_put, if_neg hne, hv]

/-! ### What spending does to one outpoint -/

/-- The outpoints that `ConnectTransaction` marks as spent. -/
def MsgTx.spends (tx : MsgTx) : List OutPoint :=
  (tx.txIn.filter (fun t => !t.zeroHash)).map TxIn.previousOutPoint

variable {s s' : UtxoViewpoint × Option (List SpentTxOut)}

theorem spendStep_eq_ok {t : TxIn} (h : spendStep s t = .ok s') :
    (t.zeroHash = true ∧ s' = s) ∨
      (t.zeroHash = false ∧ ∃ e, s.1.lookup t.previousOutPoint = some e ∧
        s' = (s.1.insert t.previousOutPoint e.spend, s.2.map (· ++ [e.toSpentTxOut]))) := by
  unfold spendStep at h
  split at h
  case isTrue hz =>
    cases h
    exact .inl ⟨hz, rfl⟩
  rename_i hz
  split at h
  · cases h
  case h_2 e he =>
    cases h
    exact .inr ⟨by simpa using hz, e, he, rfl⟩

/-- **Spending the inputs.** Every outpoint the inputs refer to is spent afterwards, and every
other entry is as before. -/
theorem lookup_spendInputs {ins : List TxIn} {t : UtxoViewpoint × Option (List SpentTxOut)}
    (h : ins.foldlM spendStep s = .ok t) (o : OutPoint) :
    (∀ x ∈ ins, x.zeroHash = false → x.previousOutPoint = o →
        ∃ e, t.1.lookup o = some e ∧ e.isSpent = true) ∧
      ((∀ x ∈ ins, x.zeroHash = false → x.previousOutPoint ≠ o) →
        t.1.lookup o = s.1.lookup o) := by
  -- carried along the inputs done so far
  refine foldlM_induction
    (P := fun done u =>
      (∀ x ∈ done, x.zeroHash = false → x.previousOutPoint = o →
        ∃ e, u.1.lookup o = some e ∧ e.isSpent = true) ∧
      ((∀ x ∈ done, x.zeroHash = false → x.previousOutPoint ≠ o) →
        u.1.lookup o = s.1.lookup o)) (by simp) ?_ h
  rintro done x u u' ⟨hspent, hrest⟩ hstep
  obtain ⟨hz, rfl⟩ | ⟨hz, e, _, rfl⟩ := spendStep_eq_ok hstep
  · refine ⟨forall_mem_append.mpr ⟨hspent, forall_mem_singleton.mpr fun hx => ?_⟩,
      fun hne => hrest (forall_mem_append.mp hne).1⟩
    rw [hz] at hx
    cases hx
  · by_cases hxo : x.previousOutPoint = o
    · refine ⟨fun y _ _ _ => ⟨e.spend, by simp [hxo], by simp⟩, fun hne => ?_⟩
      exact absurd hxo (hne x (by simp) hz)
    have hlook : (insert x.previousOutPoint e.spend u.1).lookup o = u.1.lookup o :=
      lookup_insert_ne (Ne.symm hxo)
    simp only [hlook]
    exact ⟨forall_mem_append.mpr ⟨hspent, forall_mem_singleton.mpr fun _ h => absurd h hxo⟩,
      fun hne => hrest (forall_mem_append.mp hne).1⟩

/-! ### What connecting a transaction does -/

/-- **Connecting a transaction**: the inputs are spent, unless they come from another chain, and
then the outputs are added. -/
theorem connectTransaction_eq_ok {rights : RightView} {tx : MsgTx} {height : Int32}
    (h : connectTransaction txHash rights s.1 tx height s.2 = .ok s') :
    ∃ u : UtxoViewpoint × Option (List SpentTxOut),
      (tx.isCrossChain = true ∧ u = s ∨
        tx.isCrossChain = false ∧ tx.txIn.foldlM spendStep s = .ok u) ∧
      addTxOuts txHash rights u.1 tx height = .ok s'.1 ∧ s'.2 = u.2 := by
  obtain ⟨cb, hcb, h⟩ := of_bind h
  split at h
  case isTrue htrue =>
    -- a coinbase: its only input refers to no output
    obtain ⟨view', hview', h⟩ := of_bind h
    cases h
    rw [htrue] at hcb
    obtain ⟨t, hin, hz⟩ := MsgTx.txIn_of_isCoinBase hcb
    refine ⟨s, .inr ⟨by simp [MsgTx.isCrossChain, hin, hz], ?_⟩, hview', rfl⟩
    rw [hin, foldlM_cons, spendStep, if_pos hz]
    rfl
  · split at h
    case isTrue hx =>
      obtain ⟨u, hu, h⟩ := of_bind h
      obtain ⟨view', hview', h⟩ := of_bind h
      cases hu
      cases h
      exact ⟨s, .inl ⟨hx, rfl⟩, hview', rfl⟩
    case isFalse hx =>
      obtain ⟨u, hu, h⟩ := of_bind h
      obtain ⟨view', hview', h⟩ := of_bind h
      cases h
      exact ⟨u, .inr ⟨by simpa using hx, hu⟩, hview', rfl⟩

end Zent
