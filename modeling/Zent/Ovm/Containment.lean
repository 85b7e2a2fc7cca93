import Zent.Ovm.Spending

/-!
# What a failed execution leaves behind

`ExecContract` puts the transaction back if a call fails, and `Call` puts back a copy of the state
of all contracts. The copy is not the state: flags and spendables do not come along. What was
loaded before, what earlier calls did, and the token types, the coinbase and the rights are not put
back at all.
-/

namespace Zent.Ovm

open Go Viewpoint List Option AList Nat

/-! ## Executions without effects outside -/

/-- A right as the view and, behind it, the database have it. -/
def Vm.knows (env : VmEnv) (vm : Vm) (hash : Hash) : Option RightViewEntry :=
  (vm.rights.lookupEntry hash).or (env.rightDb.lookupEntry hash)

/-- How many outputs there are, with the separator that comes before the next one. -/
def Tx.room (s : Tx) : Nat := s.msg.txOut.length + if s.hasOuts then 0 else 1

/-- The instruction changes neither the coinbase nor token types or rights. A token type that is too
large is refused before anything is minted. -/
def Op.contained : Op → Bool
  | .mint tokentype .. => tokentype ≥ 0x10000000000
  | .addDef .. => false
  | _ => true

def Op.spends : Op → Nat
  | .spend .. => 1
  | _ => 0

def Op.outs : Op → Nat
  | .addTxOut _ => 1
  | _ => 0

namespace Run

/-- Nothing is minted or defined, and no right to mint is handed over. -/
def contained : Run → Bool
  | .done _ => true
  | .error _ => true
  | .op o next => o.contained && next.contained
  | .exec _ _ _ _ callee next => callee.contained && next.contained
  | .transfer .. => false

/-- The code does not come to an end of its own. -/
def fails : Run → Bool
  | .done _ => false
  | .error _ => true
  | .op _ next => next.fails
  | .exec _ _ _ _ _ next => next.fails
  | .transfer _ _ next => next.fails

/-- How many inputs are added. -/
def spends : Run → Nat
  | .done _ => 0
  | .error _ => 0
  | .op o next => o.spends + next.spends
  | .exec _ _ _ _ callee next => callee.spends + next.spends
  | .transfer _ callee next => callee.spends + next.spends

/-- How many outputs are added. -/
def outs : Run → Nat
  | .done _ => 0
  | .error _ => 0
  | .op o next => o.outs + next.outs
  | .exec _ _ _ _ callee next => 1 + (callee.outs + next.outs)
  | .transfer _ callee next => 1 + (callee.outs + next.outs)

end Run

/-- The coinbase, token types and rights are left alone, and at most `m` inputs and `n` outputs are
added. -/
structure Kept (env : VmEnv) (m n : Nat) (vm vm' : Vm) : Prop where
  tokenTypes : vm'.tokenTypes = vm.tokenTypes
  existingTokenTypes : vm'.existingTokenTypes = vm.existingTokenTypes
  coinBase : vm'.coinBase = vm.coinBase
  rights : ∀ hash, vm'.knows env hash = vm.knows env hash
  utxo : ∀ p, vm'.sees env p = vm.sees env p
  executed : vm'.tx.executed = vm.tx.executed
  spends : vm'.trace.length ≤ vm.trace.length + m
  outs : vm'.tx.room ≤ vm.tx.room + n

section

variable {env : VmEnv} {self : Address} {vm vm' vm'' : Vm} {m n m' n' : Nat}

theorem Inner.kept (h : Inner env vm vm') : Kept env 0 0 vm vm' where
  tokenTypes := h.tokenTypes
  existingTokenTypes := h.existingTokenTypes
  coinBase := h.coinBase
  rights hash := by simp only [Vm.knows, h.rights]
  utxo := h.utxo
  executed := by rw [h.tx]
  spends := by rw [h.trace, add_zero]
  outs := by rw [h.tx, add_zero]

namespace Kept

theorem trans (h : Kept env m n vm vm') (h' : Kept env m' n' vm' vm'') :
    Kept env (m + m') (n + n') vm vm'' where
  tokenTypes := h'.tokenTypes.trans h.tokenTypes
  existingTokenTypes := h'.existingTokenTypes.trans h.existingTokenTypes
  coinBase := h'.coinBase.trans h.coinBase
  rights hash := (h'.rights hash).trans (h.rights hash)
  utxo p := (h'.utxo p).trans (h.utxo p)
  executed := h'.executed.trans h.executed
  spends := by
    have := h.spends
    have := h'.spends
    omega
  outs := by
    have := h.outs
    have := h'.outs
    omega

theorem mono (h : Kept env m n vm vm') (hm : m ≤ m') (hn : n ≤ n') : Kept env m' n' vm vm' :=
  { h with
    spends := h.spends.trans (Nat.add_le_add_left hm _)
    outs := h.outs.trans (Nat.add_le_add_left hn _) }

theorem addTxOut (env : VmEnv) (vm : Vm) (t : TxOut) :
    Kept env 0 1 vm { vm with tx := (vm.tx.addTxOut t).1 } where
  tokenTypes := rfl
  existingTokenTypes := rfl
  coinBase := rfl
  rights _ := rfl
  utxo _ := rfl
  executed := by
    simp only [Tx.addTxOut, Tx.openOuts]
    split <;> rfl
  spends := le_refl _
  outs := by
    simp only [Tx.room, Tx.addTxOut, Tx.openOuts]
    cases hout : vm.tx.hasOuts <;> simp [hout]

theorem spend (env : VmEnv) (vm : Vm) (p : OutPoint) (sig : Option Bytes) (owned : Bool) :
    Kept env 1 0 vm (vm.spend p sig owned) where
  tokenTypes := rfl
  existingTokenTypes := rfl
  coinBase := rfl
  rights _ := rfl
  utxo _ := rfl
  executed := by
    simp only [Vm.spend, Tx.addTxIn, Tx.openIns]
    split <;> rfl
  spends := by simp [Vm.spend]
  outs := by
    simp only [Vm.spend, Tx.room, Tx.addTxIn, Tx.openIns]
    split <;> simp_all

theorem fetchRight (env : VmEnv) (vm : Vm) (hash : Hash) :
    Kept env 0 0 vm { vm with rights := (fetchRightEntry env.rightDb vm.rights hash).2 } := by
  refine { (Inner.refl env vm).kept with rights := fun q => ?_ }
  unfold fetchRightEntry
  split
  · rfl
  rename_i hview
  split
  case h_2 => rfl
  case h_1 e hdb => exact lookup_insert_or hview hdb q

end Kept

theorem Around.kept {body : Vm → Ending Bytes} {α : Type} {r : Except String α}
    (hbody : ∀ w r w', body w = some (r, w') → Kept env m n w w')
    (h : Around env body vm r vm') : Kept env m n vm vm' := by
  cases h with
  | refused h => exact h.kept.mono (zero_le _) (zero_le _)
  | ran before run after _ =>
    exact ((before.kept.trans (hbody _ _ _ run)).trans after.kept).mono (by simp) (by simp)

theorem runOp_kept {o : Op} {r : Except String Unit} (ho : o.contained = true)
    (h : runOp env self vm o = some (r, vm')) : Kept env o.spends o.outs vm vm' := by
  have hstate : (∃ d, vm' = { vm with stateDB := vm.stateDB.insert self d }) →
      Kept env 0 0 vm vm' := by
    rintro ⟨d, rfl⟩
    exact (Inner.entry env vm self d).kept
  cases o with
  | load key | store key val | del key | meta_ key | suicide => exact hstate (Vm.onState_ok h)
  | libLoad a =>
    obtain rfl | ⟨d, d', rfl⟩ := opLibLoad_cases h
    · exact (Inner.refl env _).kept
    · exact ((Inner.entry env vm a d).trans (Inner.entry env _ a d')).kept
  | spend p sig =>
    obtain ⟨w, hw, ⟨rfl, -⟩ | ⟨rfl, -⟩⟩ := opSpend_cases h
    · exact hw.inner.kept.mono (zero_le _) (zero_le _)
    · exact (hw.inner.kept.trans (.spend env w p sig _)).mono (le_refl _) (le_refl _)
  | addDef d coinbase => cases ho
  | addTxOut t =>
    rcases opAddTxOut_cases h with rfl | ⟨t', w, rfl, rfl | ⟨d, rfl⟩⟩
    · exact (Inner.refl env _).kept.mono (zero_le _) (zero_le _)
    · exact Kept.addTxOut env vm t'
    · exact (Kept.addTxOut env vm t').trans (Inner.entry env _ self d).kept
  | getDefinition hash =>
    cases h
    exact .fetchRight env vm hash
  | getUtxo p =>
    cases h
    exact (getUtxo_inner env p vm).kept
  | mint tokentype md hash right params =>
    simp only [runOp, opMint, if_pos (of_decide_eq_true ho)] at h
    cases h
    exact (Inner.refl env _).kept
  | local_ =>
    cases h
    exact (Inner.refl env vm).kept

theorem execOutput_kept {toAddr : Address} {pure_ : UInt8} {value : Option Token} {args : Bytes}
    (h : execOutput toAddr pure_ value args vm = some vm') : Kept env 0 1 vm vm' := by
  unfold execOutput at h
  split at h
  · cases h
  split at h
  · obtain ⟨v, -, rfl⟩ := map_eq_some_iff.mp h
    exact { Kept.addTxOut env vm _ with }
  · cases h
    exact (Inner.refl env vm).kept.mono (le_refl _) (zero_le _)

/-- Every execution without effects outside keeps what is outside, whether it fails or not. -/
theorem interp_kept {run : Run} {r : Except String Bytes} (hc : run.contained = true)
    (h : run.interp env self vm = some (r, vm')) : Kept env run.spends run.outs vm vm' := by
  have htick (vm : Vm) : Inner env vm vm.tick := { Inner.refl env vm with }
  -- calls nest, so the induction is on the tree and goes over the executing contract
  induction run generalizing self vm vm' r with
  | done ret =>
    cases h
    exact (htick vm).kept
  | error msg =>
    cases h
    exact (htick vm).kept
  | op o next ih =>
    simp only [Run.contained, Bool.and_eq_true] at hc
    simp only [Run.interp] at h
    split at h
    · cases h
    case h_2 hop =>
      cases h
      exact ((htick vm).kept.trans (runOp_kept hc.1 hop)).mono
        (by simp [Run.spends]) (by simp [Run.outs])
    case h_3 hop =>
      exact (((htick vm).kept.trans (runOp_kept hc.1 hop)).trans (ih hc.2 h)).mono
        (by simp [Run.spends]) (by simp [Run.outs])
  | exec toAddr pure_ value args callee next ihc ihn =>
    simp only [Run.contained, Bool.and_eq_true] at hc
    have hexec {r : Except String Unit} {w : Vm}
        (hop : opExec env toAddr pure_ value args (callee.interp env toAddr) vm.tick =
          some (r, w)) : Kept env callee.spends (1 + callee.outs) vm w := by
      obtain ⟨out, hout, ha⟩ := opExec_around hop
      have hcallee := ha.kept fun _ _ _ hrun => ihc hc.1 hrun
      exact ((htick vm).kept.trans ((execOutput_kept hout).trans hcallee)).mono (by simp) (by simp)
    simp only [Run.interp] at h
    split at h
    · cases h
    case h_2 hop =>
      cases h
      exact (hexec hop).mono (by simp [Run.spends]) (by simp [Run.outs])
    case h_3 hop =>
      exact ((hexec hop).trans (ihn hc.2 h)).mono (by simp [Run.spends])
        (by simp [Run.outs, add_assoc])
  | transfer script callee next => cases hc

theorem interp_fails {run : Run} {r : Except String Bytes} (hf : run.fails = true)
    (h : run.interp env self vm = some (r, vm')) (ret : Bytes) : r ≠ .ok ret := by
  induction run generalizing self vm with
  | done ret => cases hf
  | error msg =>
    cases h
    nofun
  | op o next ih | exec _ _ _ _ _ next _ ih | transfer _ _ next _ ih =>
    simp only [Run.interp] at h
    split at h
    · cases h
    · cases h
      nofun
    · exact ih hf h

end

/-! ## The check at the end -/

/-- Where the separator was added by contracts, or nothing was added, the check of the added
signatures does not fail. -/
theorem verifyAdded_passes {env : VmEnv} {sched : List Act} {base : Tx} {vm : Vm} {msg : String}
    (h : Traced base vm) (hnone : base.hasIns = true → vm.trace = []) :
    verifyAdded env sched base.msg.txIn.length vm ≠ some (.error (.error msg)) := by
  have hins := h.ins
  cases htrace : vm.trace with
  | nil =>
    simp only [htrace, gap, isEmpty_nil, Bool.or_true, if_true, append_nil, map_nil] at hins
    simp [verifyAdded, hins]
  | cons r rest =>
    have hhas : base.hasIns = false := by
      by_contra hhas
      rw [hnone (by simpa using hhas)] at htrace
      cases htrace
    simp only [htrace, gap, hhas, isEmpty_cons, Bool.or_self, if_false, Bool.false_eq_true,
      append_assoc, map_cons, singleton_append] at hins
    have hdrop : vm.tx.msg.txIn.drop base.msg.txIn.length =
        separatorIn :: r.txin :: rest.map Spent.txin := by
      rw [hins, drop_left]
    have hmany (t : TxIn) : vm.tx.msg.txIn ≠ [t] := by
      intro he
      have hlen := congrArg length hins
      simp only [he, length_append, length_cons, length_nil] at hlen
      omega
    have hcoin : vm.tx.msg.isCoinBase (ε := String) = .ok false := by
      unfold MsgTx.isCoinBase
      split
      case h_1 t ht => exact absurd ht (hmany t)
      · rfl
    have hcross : vm.tx.msg.isCrossChain = false := by
      unfold MsgTx.isCrossChain
      split
      case h_1 t ht => exact absurd ht (hmany t)
      · rfl
    have hlen : ¬ vm.tx.msg.txIn.length < base.msg.txIn.length := by
      rw [hins]
      simp
    have hsep : separatorIn.isSeparator = true := by decide
    unfold verifyAdded
    split
    case isFalse => simp
    simp only [verifySigs, hcoin, hcross, hlen, hdrop, checkSigs, hsep, decide_false,
      Bool.false_and, Bool.false_eq_true, if_false, if_true]
    split
    · simp
    split
    · simp
    intro he
    obtain ⟨s, hrun, hs⟩ := bind_eq_some_iff.mp he
    obtain ⟨res, hverdict, hres⟩ := map_eq_some_iff.mp hs
    have hidle : (verifyPool env.sig vm.tx.msg base.msg.txIn.length vm.utxo).Idle := by
      have hwalk : walk env.sig vm.tx.msg.signatureScripts vm.utxo ∅
          (inputs vm.tx.msg base.msg.txIn.length) = [] := by
        simp [inputs, hdrop, walk, hsep]
      exact ⟨by simp [verifyPool, hcross, hwalk, Pool.start], rfl, rfl, forall_mem_nil _⟩
    cases res with
    | true => cases hres
    | false => exact verdict_idle hidle hrun hverdict

/-! ## Contained failures -/

/-- The machine is as it was before the transaction. What is cached from the database makes no
difference. -/
structure Same (env : VmEnv) (vm vm' : Vm) : Prop where
  state : ∀ a, vm'.stateDB.lookup a = vm.stateDB.lookup a
  tokenTypes : vm'.tokenTypes = vm.tokenTypes
  existingTokenTypes : vm'.existingTokenTypes = vm.existingTokenTypes
  coinBase : vm'.coinBase = vm.coinBase
  rights : ∀ hash, vm'.knows env hash = vm.knows env hash
  utxo : ∀ p, vm'.sees env p = vm.sees env p
  stepLimit : vm'.stepLimit = vm.stepLimit
  tx : vm'.tx = vm.tx

/-- The contract whose address is in an output. -/
def contractOf (t : TxOut) : Option Address :=
  match parsePkScript t.pkScript with
  | none => none
  | some pk => if isContract pk.version then some (addressOf pk.addr) else none

/-- The output calls a contract. -/
def calls (t : TxOut) : Bool :=
  match parsePkScript t.pkScript with
  | none => false
  | some pk => isContract pk.version && pk.method != []

/-- The first loop of `ExecContract` lets an output pass where some contracts are loaded. -/
def admits (env : VmEnv) (loaded : Map Address StateDB) (t : TxOut) : Bool :=
  match parsePkScript t.pkScript with
  | none => false
  | some pk =>
    let d := addressOf pk.addr
    let creation : Bool := pk.method == [0, 0, 0, 0]
    if zeroaddr pk.addr then false
    else if !isContract pk.version then true
    else if d ∈ loaded then !creation
    else (exists_ env true d || creation) && !(exists_ env false d && creation)

/-- A call that can be taken back, and after which no other call is made. -/
structure Revocable (env : VmEnv) (runs : Nat → Run) (vm : Vm) (t : TxOut) (i : Nat) : Prop where
  /-- the copies of all contracts are faithful -/
  copies : ∀ a d, vm.stateDB.lookup a = some d → d.copy = d
  /-- the code is found, or nothing new is cached on the way -/
  coded : ∀ a d, contractOf t = some a → vm.stateDB.lookup a = some d →
    ((d.readMeta env.db codeKey).1.bind env.codeAt).isSome = true ∨
      (d.readMeta env.db codeKey).2 = d
  contained : (runs i).contained = true
  /-- there is no other call, or the code cannot succeed -/
  last : vm.tx.msg.txOut.countP calls ≤ 1 ∨ (runs i).fails = true
  /-- the check of the added signatures cannot fail -/
  unsigned : vm.tx.hasIns = true → (runs i).spends = 0
  fitsIn : vm.tx.msg.txIn.length + 1 + (runs i).spends ≤ MaxTxInPerMessage
  fitsOut : vm.tx.room + (runs i).outs ≤ MaxTxOutPerMessage

/-- The failure of a transaction is contained: nothing is loaded before an output is refused, and
if none is refused, the first call can be taken back. -/
structure Contained (env : VmEnv) (runs : Nat → Run) (vm : Vm) : Prop where
  loaded : ∀ t ∈ vm.tx.msg.txOut.takeWhile (admits env vm.stateDB), ∀ a,
    contractOf t = some a → a ∈ vm.stateDB
  revocable : vm.tx.msg.txOut.all (admits env vm.stateDB) = true →
    ∀ x ∈ vm.tx.msg.txOut.zipIdx.find? (calls ·.1), Revocable env runs vm x.1 x.2

section

variable {env : VmEnv} {vm vm' : Vm} {runs : Nat → Run} {r : Except String Bool}

/-- Where all contracts are loaded, the first loop changes nothing. -/
theorem loadContracts_loaded {outs : List TxOut}
    (h : ∀ t ∈ outs.takeWhile (admits env vm.stateDB), ∀ a, contractOf t = some a →
      a ∈ vm.stateDB) :
    (loadContracts env outs vm).2 = vm ∧ ((loadContracts env outs vm).1 = .ok () →
      outs.all (admits env vm.stateDB) = true) := by
  induction outs with
  | nil => exact ⟨rfl, fun _ => rfl⟩
  | cons t rest ih =>
    have hpass (hadmits : admits env vm.stateDB t = true)
        (he : loadContracts env (t :: rest) vm = loadContracts env rest vm) :
        (loadContracts env (t :: rest) vm).2 = vm ∧
          ((loadContracts env (t :: rest) vm).1 = .ok () →
            (t :: rest).all (admits env vm.stateDB) = true) := by
      rw [takeWhile_cons_of_pos hadmits] at h
      obtain ⟨hvm, hall⟩ := ih fun t' ht' => h t' (mem_cons_of_mem t ht')
      rw [he]
      refine ⟨hvm, fun hok => ?_⟩
      simpa [hadmits] using hall hok
    have hhead : admits env vm.stateDB t = true → ∀ a, contractOf t = some a → a ∈ vm.stateDB := by
      intro hadmits a ha
      rw [takeWhile_cons_of_pos hadmits] at h
      exact h t mem_cons_self a ha
    cases hpk : parsePkScript t.pkScript with
    | none => simp [loadContracts, hpk]
    | some pk =>
      by_cases hzero : zeroaddr pk.addr = true
      · simp [loadContracts, hpk, hzero]
      by_cases hcontract : isContract pk.version = true
      · by_cases hmem : addressOf pk.addr ∈ vm.stateDB
        · by_cases hcreate : (pk.method == [0, 0, 0, 0]) = true
          · simp [loadContracts, hpk, hzero, hcontract, hmem, hcreate]
          · refine hpass ?_ ?_
            · simp [admits, hpk, hzero, hcontract, hmem, hcreate]
            · simp [loadContracts, hpk, hzero, hcontract, hmem, hcreate]
        · -- an output that is not refused here would have been loaded
          have hrefused : admits env vm.stateDB t = false := by
            by_contra hadmits
            exact hmem (hhead (by simpa using hadmits) _ (by simp [contractOf, hpk, hcontract]))
          simp only [admits, hpk, hzero, hcontract, hmem, Bool.not_true, Bool.false_eq_true,
            if_false] at hrefused
          simp only [loadContracts, hpk, hzero, hcontract, hmem, Bool.not_true,
            Bool.false_eq_true, if_false]
          cases hcreate : (pk.method == [0, 0, 0, 0]) <;>
            cases hreally : exists_ env true (addressOf pk.addr) <;>
              cases hever : exists_ env false (addressOf pk.addr) <;> simp_all
      · refine hpass ?_ ?_
        · simp [admits, hpk, hzero, hcontract]
        · simp [loadContracts, hpk, hzero, hcontract]

theorem lookup_copyAll (m : Map Address StateDB) (a : Address) :
    (copyAll m).lookup a = (m.lookup a).map StateDB.copy :=
  dlookup_map₂ (f := fun _ => StateDB.copy) a

/-- A call that fails leaves the contracts as they were, if their copies are faithful. -/
theorem call_failed {d : Address} {method params : Bytes} {body : Vm → Ending Bytes} {msg : String}
    (h : call env d method params body vm = some (.error msg, vm')) (hd : d ∈ vm.stateDB)
    (hm : method ≠ [0, 0, 0, 0]) (hcopies : ∀ a s, vm.stateDB.lookup a = some s → s.copy = s)
    (hcoded : ∀ s, vm.stateDB.lookup d = some s →
      ((s.readMeta env.db codeKey).1.bind env.codeAt).isSome = true ∨
        (s.readMeta env.db codeKey).2 = s) :
    (∀ a, vm'.stateDB.lookup a = vm.stateDB.lookup a) ∧ vm'.stepLimit = vm.stepLimit := by
  have hrestore (w : Vm) : ∀ a, (w.restore vm).stateDB.lookup a = vm.stateDB.lookup a := by
    intro a
    rw [Vm.restore, lookup_copyAll]
    cases ha : vm.stateDB.lookup a with
    | none => rfl
    | some s => rw [map_some, hcopies a s ha]
  unfold call at h
  split at h
  · cases h
  split at h
  · cases h
    exact ⟨fun _ => rfl, rfl⟩
  simp only [newContract, if_pos hd] at h
  split at h
  · cases h
  case h_2 w hcode =>
    cases h
    obtain ⟨s, hs, he⟩ := map_eq_some_iff.mp hcode
    simp only [Prod.mk.injEq] at he
    obtain ⟨hnone, rfl⟩ := he
    rcases hcoded s hs with hsome | hsame
    · rw [hnone] at hsome
      cases hsome
    refine ⟨fun a => ?_, rfl⟩
    rw [hsame]
    by_cases ha : a = d
    · subst ha
      rw [lookup_insert, hs]
    · rw [lookup_insert_ne ha]
  · split at h
    · cases h
    · cases h
    case h_3 w _ =>
      cases h
      exact ⟨hrestore w, rfl⟩

theorem callContracts_cons_of_not_calls {t : TxOut} {i : Nat} {rest : List (TxOut × Nat)}
    (h : calls t = false) :
    callContracts env runs ((t, i) :: rest) vm = callContracts env runs rest vm := by
  unfold calls at h
  simp only [callContracts]
  split
  · rfl
  rename_i pk hpk
  refine if_pos ?_
  cases hc : isContract pk.version <;> simp_all

theorem callContracts_eq_of_not_calls {outs : List (TxOut × Nat)}
    (h : outs.countP (fun x => calls x.1) = 0) :
    callContracts env runs outs vm = some (.ok false, vm) := by
  induction outs with
  | nil => rfl
  | cons x rest ih =>
    rw [countP_eq_zero] at h ih
    rw [callContracts_cons_of_not_calls (by simpa using h x mem_cons_self)]
    exact ih fun y hy => h y (mem_cons_of_mem x hy)

/-- Where no call comes after the first, that one decides. -/
theorem callContracts_first {outs : List (TxOut × Nat)}
    (hlast : ∀ x ∈ outs.find? (calls ·.1),
      outs.countP (fun x => calls x.1) ≤ 1 ∨ (runs x.2).fails = true)
    (h : callContracts env runs outs vm = some (r, vm')) :
    (r = .ok false ∧ vm' = vm) ∨
      ∃ x ∈ outs.find? (calls ·.1), ∃ pk op r' w, parsePkScript x.1.pkScript = some pk ∧
        isContract pk.version = true ∧
        call env (addressOf pk.addr) pk.method pk.excode
          ((runs x.2).interp env (addressOf pk.addr))
          { vm with currentOutput := op, contractStack := [addressOf pk.addr] } = some (r', w) ∧
        ((∃ msg, r' = .error msg ∧ r = .error msg ∧ vm' = w) ∨
          ∃ ret, r' = .ok ret ∧ r = .ok true ∧ Inner env w vm') := by
  induction outs with
  | nil =>
    cases h
    exact .inl ⟨rfl, rfl⟩
  | cons x rest ih =>
    obtain ⟨t, i⟩ := x
    cases hcalls : calls t with
    | false =>
      rw [callContracts_cons_of_not_calls hcalls] at h
      rw [find?_cons_of_neg (by simp [hcalls])] at hlast ⊢
      rw [countP_cons_of_neg (by simp [hcalls])] at hlast
      exact ih hlast h
    | true =>
      rw [find?_cons_of_pos (by simp [hcalls])] at hlast ⊢
      rw [countP_cons_of_pos (by simp [hcalls])] at hlast
      simp only [callContracts] at h
      split at h
      case h_1 hpk => simp [calls, hpk] at hcalls
      rename_i pk hpk
      have hboth := hcalls
      simp only [calls, hpk, Bool.and_eq_true, bne_iff_ne] at hboth
      rw [if_neg (by simp [hboth.1, hboth.2])] at h
      right
      split at h
      · cases h
      case h_2 msg w hcall =>
        cases h
        exact ⟨(t, i), rfl, pk, _, _, _, hpk, hboth.1, hcall, .inl ⟨msg, rfl, rfl, rfl⟩⟩
      rename_i ret w hcall
      have hrest : rest.countP (fun x => calls x.1) = 0 := by
        rcases hlast _ rfl with hone | hfails
        · omega
        cases call_around hcall with
        | ran _ hrun _ hok =>
          obtain ⟨ret', rfl⟩ := hok ret rfl
          exact absurd rfl (interp_fails hfails hrun ret')
      split at h
      · cases h
      rename_i w' hstate
      rw [callContracts_eq_of_not_calls hrest] at h
      cases h
      exact ⟨(t, i), rfl, pk, _, _, _, hpk, hboth.1, hcall,
        .inr ⟨ret, rfl, rfl, Vm.onState_inner hstate⟩⟩

/-- The call of an admitted output goes to a contract that is loaded, and creates none. -/
theorem Contained.call (hc : Contained env runs vm)
    (hall : vm.tx.msg.txOut.all (admits env vm.stateDB) = true) {t : TxOut} {pk : PkScript}
    (ht : t ∈ vm.tx.msg.txOut) (hpk : parsePkScript t.pkScript = some pk)
    (hcontract : isContract pk.version = true) :
    contractOf t = some (addressOf pk.addr) ∧ addressOf pk.addr ∈ vm.stateDB ∧
      pk.method ≠ [0, 0, 0, 0] := by
  have hof : contractOf t = some (addressOf pk.addr) := by simp [contractOf, hpk, hcontract]
  have hadmits := all_eq_true.mp hall
  have hmem : addressOf pk.addr ∈ vm.stateDB := by
    refine hc.loaded t ?_ _ hof
    rw [takeWhile_eq_self_iff.mpr hadmits]
    exact ht
  refine ⟨hof, hmem, fun hcreate => ?_⟩
  have := hadmits t ht
  simp [admits, hpk, hcontract, hmem, hcreate] at this

/-- The calls of a transaction whose failure is contained: there is none, or one that fails and
leaves the machine as it was, or one that succeeds and adds no more than fits. -/
theorem callContracts_contained (hc : Contained env runs vm)
    (hall : vm.tx.msg.txOut.all (admits env vm.stateDB) = true) (htrace : vm.trace = [])
    (h : callContracts env runs vm.tx.msg.txOut.zipIdx vm = some (r, vm')) :
    vm' = vm ∨ (∃ msg, r = .error msg ∧ Same env vm (vm'.resetTx vm.tx)) ∨
      r = .ok true ∧ (vm.tx.hasIns = true → vm'.trace = []) ∧
        vm'.tx.msg.txIn.length ≤ MaxTxInPerMessage ∧
          vm'.tx.msg.txOut.length ≤ MaxTxOutPerMessage := by
  have hcount : vm.tx.msg.txOut.zipIdx.countP (fun x => calls x.1) =
      vm.tx.msg.txOut.countP calls := by
    conv_rhs => rw [← zipIdx_map_fst 0 vm.tx.msg.txOut, countP_map]
    rfl
  rcases callContracts_first (fun x hx => hcount ▸ (hc.revocable hall x hx).last) h with
    ⟨-, rfl⟩ | ⟨x, hx, pk, op, r', w, hpk, hcontract, hcall, hend⟩
  · exact .inl rfl
  right
  have hrev := hc.revocable hall x hx
  have hmem : x.1 ∈ vm.tx.msg.txOut := by
    rw [← zipIdx_map_fst 0 vm.tx.msg.txOut]
    exact mem_map_of_mem (mem_of_find?_eq_some hx)
  obtain ⟨hof, hloaded, hcreate⟩ := hc.call hall hmem hpk hcontract
  have hstart : Inner env vm
      { vm with currentOutput := op, contractStack := [addressOf pk.addr] } :=
    { Inner.refl env vm with }
  have hkept : Kept env (runs x.2).spends (runs x.2).outs vm w :=
    ((call_around hcall).of_inner hstart).kept fun _ _ _ hrun => interp_kept hrev.contained hrun
  rcases hend with ⟨msg, rfl, rfl, rfl⟩ | ⟨ret, rfl, rfl, hafter⟩
  · left
    obtain ⟨hstate, hstep⟩ := call_failed hcall hloaded hcreate hrev.copies
      fun s hs => hrev.coded _ s hof hs
    exact ⟨msg, rfl, { hkept with
      state := hstate
      stepLimit := hstep
      tx := by simp only [Vm.resetTx, hkept.executed] }⟩
  · right
    have hkept := hkept.trans hafter.kept
    have htraced := callContracts_traced h (.nil htrace rfl)
    have hspends := hkept.spends
    have houts := hkept.outs
    have hin := hrev.fitsIn
    have hout := hrev.fitsOut
    rw [htrace, length_nil] at hspends
    refine ⟨rfl, fun hhas => ?_, ?_, ?_⟩
    · rw [← length_eq_zero_iff]
      have := hrev.unsigned hhas
      omega
    · have hgap : (gap vm.tx vm'.trace).length ≤ 1 := by
        unfold gap
        split <;> simp
      simp only [htraced.ins, length_append, length_map]
      omega
    · have : vm'.tx.msg.txOut.length ≤ vm'.tx.room := le_add_right _ _
      omega

theorem Contained.same {sched : List Act} {msg : String} (hc : Contained env runs vm)
    (h : execContract env sched runs vm = some (.error msg, vm')) : Same env vm vm' := by
  have hsame : Same env vm { vm with trace := [] } :=
    ⟨fun _ => rfl, rfl, rfl, rfl, fun _ => rfl, fun _ => rfl, rfl, rfl⟩
  have hc : Contained env runs { vm with trace := [] } := { hc with
    revocable := fun hall x hx => { hc.revocable hall x hx with } }
  simp only [execContract] at h
  split at h
  · cases h
  · cases h
  obtain ⟨hvm, hall⟩ := loadContracts_loaded hc.loaded
  split at h
  case h_1 w hload =>
    cases h
    rw [hload] at hvm
    subst hvm
    exact hsame
  rename_i loaded hload
  rw [hload] at hvm hall
  subst hvm
  split at h
  · split at h
    · cases h
    case h_2 w hcalls =>
      cases h
      rcases callContracts_contained hc (hall rfl) rfl hcalls with rfl | ⟨_, -, hfail⟩ | ⟨hok, -⟩
      · exact hsame
      · exact { hfail with }
      · cases hok
    case h_3 w hcalls =>
      have htraced := callContracts_traced hcalls (.nil rfl rfl)
      split at h
      case isTrue hmax =>
        cases h
        rcases callContracts_contained hc (hall rfl) rfl hcalls with
          rfl | ⟨_, hok, -⟩ | ⟨-, -, hin, hout⟩
        · exact hsame
        · cases hok
        · omega
      · split at h
        · cases h
        · cases h
        case h_3 hverify =>
          refine absurd hverify (verifyAdded_passes htraced fun hhas => ?_)
          rcases callContracts_contained hc (hall rfl) rfl hcalls with
            rfl | ⟨_, hok, -⟩ | ⟨-, hnone, -⟩
          · rfl
          · cases hok
          · exact hnone hhas
        · cases h
  · cases h

/-- **A contained failure changes nothing.** Whatever the state of the machine, the transaction, the
executions of its contracts and the order in which signatures are checked. -/
theorem failed_unchanged {sched : List Act} {msg : String} (hc : Contained env runs vm)
    (h : execContract env sched runs vm = some (.error msg, vm')) : Same env vm vm' :=
  hc.same h

/-- Transactions of a block that fail one after the other, each contained in the state it meets. -/
inductive Failures (env : VmEnv) : Vm → Vm → Prop where
  | nil (vm : Vm) : Failures env vm vm
  | cons {vm vm' vm'' : Vm} {tx : Tx} {runs : Nat → Run} {sched : List Act} {msg : String}
      (hc : Contained env runs { vm with tx })
      (h : execContract env sched runs { vm with tx } = some (.error msg, vm'))
      (rest : Failures env vm' vm'') : Failures env vm vm''

/-- **A run of failures** leaves nothing behind for the next transaction. -/
theorem Failures.same (h : Failures env vm vm') (tx : Tx) :
    Same env { vm with tx } { vm' with tx } := by
  induction h with
  | nil vm => exact ⟨fun _ => rfl, rfl, rfl, rfl, fun _ => rfl, fun _ => rfl, rfl, rfl⟩
  | cons hc h _ ih =>
    have hfirst := hc.same h
    exact ⟨fun a => (ih.state a).trans (hfirst.state a), ih.tokenTypes.trans hfirst.tokenTypes,
      ih.existingTokenTypes.trans hfirst.existingTokenTypes, ih.coinBase.trans hfirst.coinBase,
      fun x => (ih.rights x).trans (hfirst.rights x), fun p => (ih.utxo p).trans (hfirst.utxo p),
      ih.stepLimit.trans hfirst.stepLimit, rfl⟩

end

/-! ## A failed mint -/

def callOut : TxOut := ⟨⟨0, some (.numToken 1), none⟩, callScript⟩

/-- The contract is loaded already, and the transaction calls it twice. -/
def loadedVm : Vm :=
  { shopVm with
    stateDB := singleton (addressOf (replicate 20 5)) (newStateDB (addressOf (replicate 20 5)))
    tx := { callTx with msg := { callTx.msg with txOut := [callOut, callOut] } } }

/-- The contract stores something and fails. -/
def failingRun : Nat → Run := fun _ => .op (.store [1] [2]) (.error "Out of range.")

theorem failingRun_contained : Contained shopEnv failingRun loadedVm := by
  have hout : contractOf callOut = some (addressOf (replicate 20 5)) := by decide +kernel
  have hfirst : loadedVm.tx.msg.txOut.zipIdx.find? (calls ·.1) = some (callOut, 0) := by
    decide +kernel
  have hstate : ∀ a d, loadedVm.stateDB.lookup a = some d →
      d = newStateDB (addressOf (replicate 20 5)) := by
    intro a d hd
    cases mem_singleton.mp (of_mem_dlookup hd)
    rfl
  constructor
  case loaded =>
    intro t ht a ha
    obtain rfl : t = callOut := by simpa [loadedVm] using (takeWhile_sublist _).subset ht
    obtain rfl := some.inj (ha.symm.trans hout)
    exact mem_keys.mpr mem_cons_self
  case revocable =>
    intro _ x hx
    rw [hfirst] at hx
    obtain rfl := mem_some_iff.mp hx
    constructor
    case copies =>
      intro a d hd
      rw [hstate a d hd]
      rfl
    case coded =>
      intro a d _ hd
      rw [hstate a d hd]
      exact .inl (by decide +kernel)
    case contained => rfl
    case last => exact .inr rfl
    case unsigned => exact nofun
    case fitsIn => decide
    case fitsOut => decide

/-- The first call of a contract that is loaded fails, and nothing is changed. -/
theorem failingRun_unchanged :
    ∃ vm', execContract shopEnv noJob failingRun loadedVm = some (.error "Out of range.", vm') ∧
      Same shopEnv loadedVm vm' :=
  exists_end (Q := fun _ => True) (by decide +kernel) fun _ hfail _ =>
    failed_unchanged failingRun_contained hfail

/-- The contract mints and fails. -/
def mintingRun : Nat → Run := fun _ => .op (.mint 4 100 0 0 2) (.error "Out of range.")

/-- The tokens of a failed transaction stay in the coinbase. -/
theorem execContract_keeps_minted :
    ∃ vm', execContract shopEnv noJob mintingRun shopVm = some (.error "Out of range.", vm') ∧
      ¬ Same shopEnv shopVm vm' := by
  refine exists_end (Q := fun vm' => vm'.coinBase.msg.txOut.length = 2) (by decide +kernel)
    fun vm' _ hcoin h => ?_
  rw [h.coinBase] at hcoin
  exact absurd hcoin (by decide)

end Zent.Ovm
