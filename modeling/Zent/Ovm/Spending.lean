import Zent.Ovm.Calls

/-!
# What contracts spend

The inputs that contracts add to a transaction. `SPEND` without a signature looks whether the
output belongs to the contract. With a signature it looks at nothing: the signature is left to
`VerifySigs`, which runs over the inputs from the first added one on. But the first thing added is
the separator, and there the walk of `VerifySigs` ends.
-/

namespace Zent.Ovm

open Go Viewpoint List Option UInt32 Tx Nat

/-! ## What other instructions leave alone -/

/-- Inputs, signature scripts and the record of what was spent. -/
def Vm.ledger (vm : Vm) : List TxIn × Bool × List Bytes × List Spent :=
  (vm.tx.msg.txIn, vm.tx.hasIns, vm.tx.msg.signatureScripts, vm.trace)

section

variable {env : VmEnv} {self : Address} {vm vm' : Vm}

theorem Inner.ledger (h : Inner env vm vm') : vm'.ledger = vm.ledger := by
  simp only [Vm.ledger, h.tx, h.trace]

theorem Tx.addTxOut_ins (s : Tx) (t : TxOut) :
    (s.addTxOut t).1.msg.txIn = s.msg.txIn ∧ (s.addTxOut t).1.hasIns = s.hasIns ∧
      (s.addTxOut t).1.msg.signatureScripts = s.msg.signatureScripts := by
  simp only [addTxOut, openOuts]
  split <;> exact ⟨rfl, rfl, rfl⟩

theorem Tx.addDef_ins (s : Tx) (d : Definition) :
    (s.addDef d).msg.txIn = s.msg.txIn ∧ (s.addDef d).hasIns = s.hasIns ∧
      (s.addDef d).msg.signatureScripts = s.msg.signatureScripts := by
  unfold addDef
  cases s.hasDefs <;> exact ⟨rfl, rfl, rfl⟩

theorem ledger_addTxOut (vm : Vm) (t : TxOut) :
    { vm with tx := (vm.tx.addTxOut t).1 }.ledger = vm.ledger := by
  obtain ⟨hin, hhas, hsigs⟩ := vm.tx.addTxOut_ins t
  simp only [Vm.ledger, hin, hhas, hsigs]

/-- All instructions but `SPEND` leave the inputs alone. -/
theorem handles_ledger (env : VmEnv) :
    Handles env (fun _ => True) fun vm vm' => vm'.ledger = vm.ledger where
  refl _ := rfl
  trans h h' := h'.trans h
  entry _ _ _ := rfl
  look p vm := (getUtxo_inner env p vm).ledger
  output := ledger_addTxOut
  define vm d := by
    obtain ⟨hin, hhas, hsigs⟩ := vm.tx.addDef_ins d
    simp only [Vm.ledger, hin, hhas, hsigs]
  rights _ _ := rfl
  coinDef _ _ := rfl
  coin _ _ := rfl
  types _ _ _ _ := rfl

end

/-! ## Inputs and who added them -/

/-- The separator is there once something has been added. -/
def gap (base : Tx) (trace : List Spent) : List TxIn :=
  if base.hasIns || trace.isEmpty then [] else [separatorIn]

/-- The inputs of a transaction under execution are those it came with, the separator, and those
that contracts have added. -/
structure Traced (base : Tx) (vm : Vm) : Prop where
  ins : vm.tx.msg.txIn = base.msg.txIn ++ gap base vm.trace ++ vm.trace.map Spent.txin
  has : vm.tx.hasIns = (base.hasIns || !vm.trace.isEmpty)
  places : vm.trace.map Spent.place =
    range' (base.msg.txIn.length + if base.hasIns then 0 else 1) vm.trace.length
  many : base.msg.signatureScripts.length ≤ vm.tx.msg.signatureScripts.length
  few : vm.tx.msg.signatureScripts.length ≤ base.msg.signatureScripts.length + vm.trace.length
  counts : ∀ r ∈ vm.trace, base.msg.signatureScripts.length ≤ r.count ∧
    r.count ≤ vm.tx.msg.signatureScripts.length ∧
      (r.sig.getD [] ≠ [] → r.count < vm.tx.msg.signatureScripts.length)
  ordered : vm.trace.Pairwise fun r r' => r.sig.getD [] ≠ [] → r.count < r'.count
  unsigned : ∀ r ∈ vm.trace, r.sig = none → r.owns = true

theorem Tx.openIns_of_traced {base : Tx} {vm : Vm} (h : Traced base vm) :
    vm.tx.openIns.msg.txIn = base.msg.txIn ++ (if base.hasIns then [] else [separatorIn]) ++
      vm.trace.map Spent.txin := by
  have hins := h.ins
  have hhas := h.has
  unfold openIns
  cases hb : base.hasIns <;> cases ht : vm.trace <;> simp_all [gap]

namespace Traced

variable {base : Tx} {vm vm' : Vm}

theorem nil (h : vm.trace = []) (hin : vm.tx = base) : Traced base vm := by
  subst hin
  constructor <;> simp [h, gap]

theorem of_ledger (h : Traced base vm) (hl : vm'.ledger = vm.ledger) : Traced base vm' := by
  simp only [Vm.ledger, Prod.mk.injEq] at hl
  obtain ⟨hin, hhas, hsigs, htrace⟩ := hl
  constructor
  case ins => rw [hin, htrace, h.ins]
  case has => rw [hhas, htrace, h.has]
  case places => rw [htrace, h.places]
  case many => rw [hsigs]; exact h.many
  case few => rw [hsigs, htrace]; exact h.few
  case counts => rw [hsigs, htrace]; exact h.counts
  case ordered => rw [htrace]; exact h.ordered
  case unsigned => rw [htrace]; exact h.unsigned

theorem spend (h : Traced base vm) {p : OutPoint} {sig : Option Bytes} {owned : Bool}
    (hown : sig = none → owned = true) : Traced base (vm.spend p sig owned) := by
  have hopen := openIns_of_traced h
  have hsigs : vm.tx.openIns.msg.signatureScripts = vm.tx.msg.signatureScripts := by
    unfold openIns
    split <;> rfl
  have hlen : (vm.spend p sig owned).tx.msg.signatureScripts.length =
      vm.tx.msg.signatureScripts.length + if sig.getD [] = [] then 0 else 1 := by
    simp only [Vm.spend, addTxIn, hsigs]
    split <;> simp
  have hle : vm.tx.msg.signatureScripts.length ≤
      (vm.spend p sig owned).tx.msg.signatureScripts.length := hlen ▸ le_add_right _ _
  constructor
  case ins =>
    simp only [Vm.spend, addTxIn, hopen, hsigs, gap]
    simp [Spent.txin]
  case has =>
    have hopened : vm.tx.openIns.hasIns = true := by
      unfold openIns
      split <;> simp_all
    simp only [Vm.spend, addTxIn, hopened]
    simp
  case places =>
    simp only [Vm.spend, map_append, map_cons, map_nil, h.places, hopen, length_append, length_map,
      length_cons, length_nil, Nat.zero_add, range'_concat, Nat.one_mul]
    congr 2
    split <;> simp
  case many => exact h.many.trans hle
  case few =>
    rw [hlen]
    simp only [Vm.spend, length_append, length_cons, length_nil]
    have := h.few
    split <;> omega
  case counts =>
    intro r hr
    simp only [Vm.spend, mem_append, mem_singleton] at hr
    rcases hr with hr | rfl
    · obtain ⟨h1, h2, h3⟩ := h.counts r hr
      exact ⟨h1, h2.trans hle, fun hne => (h3 hne).trans_le hle⟩
    · refine ⟨h.many, hle, fun hne => ?_⟩
      rw [hlen, if_neg hne]
      exact lt_succ_self _
  case ordered =>
    refine pairwise_append.mpr ⟨h.ordered, pairwise_singleton _ _, ?_⟩
    intro r hr r' hr' hne
    rw [mem_singleton.mp hr']
    exact (h.counts r hr).2.2 hne
  case unsigned =>
    intro r hr
    simp only [Vm.spend, mem_append, mem_singleton] at hr
    rcases hr with hr | rfl
    · exact h.unsigned r hr
    · exact hown

end Traced

/-! ## Executions -/

/-- An execution that succeeds keeps to the inputs. -/
def Keeps (base : Tx) (body : Vm → Ending Bytes) : Prop :=
  ∀ vm ret vm', Traced base vm → body vm = some (.ok ret, vm') → Traced base vm'

section

variable {env : VmEnv} {base : Tx} {self : Address} {vm vm' : Vm} {body : Vm → Ending Bytes}
  {runs : Nat → Run}

theorem runOp_traced {o : Op} (hop : runOp env self vm o = some (.ok (), vm'))
    (h : Traced base vm) : Traced base vm' := by
  by_cases ho : ∃ p sig, o = .spend p sig
  · obtain ⟨p, sig, rfl⟩ := ho
    obtain ⟨w, hw, ⟨-, msg, he⟩ | ⟨rfl, hown⟩⟩ := opSpend_cases hop
    · cases he
    · exact (h.of_ledger hw.inner.ledger).spend (hown rfl)
  · exact h.of_ledger ((handles_ledger env).runOp trivial (fun p sig he => absurd ⟨p, sig, he⟩ ho)
      (fun _ _ => trivial) hop)

theorem Around.traced {α : Type} {x : α} (hbody : Keeps base body)
    (ha : Around env body vm (.ok x) vm') (h : Traced base vm) : Traced base vm' := by
  cases ha with
  | ran before run after ok =>
    obtain ⟨ret, rfl⟩ := ok x rfl
    exact (hbody _ _ _ (h.of_ledger before.ledger) run).of_ledger after.ledger

theorem execOutput_ledger {toAddr : Address} {pure_ : UInt8} {value : Option Token} {args : Bytes}
    (h : execOutput toAddr pure_ value args vm = some vm') : vm'.ledger = vm.ledger := by
  unfold execOutput at h
  split at h
  · cases h
  split at h
  · obtain ⟨v, -, rfl⟩ := map_eq_some_iff.mp h
    exact ledger_addTxOut vm _
  · cases h
    rfl

/-- A contract that destroys itself calls the one that takes over after the output for it. -/
theorem opTransfer_ok {script : Bytes}
    (h : opTransfer env self script body vm = some (.ok (), vm')) :
    ∃ w, w.ledger = vm.ledger ∧ Around env body w (.ok ()) vm' := by
  obtain ⟨loaded, stack, types, method, params, ret, w, hload, hcall, hstate⟩ := opTransfer_eq_ok h
  refine ⟨_, ?_, (call_around hcall).andThen (Vm.onState_inner hstate) fun _ _ => ⟨ret, rfl⟩⟩
  exact (ledger_addTxOut loaded _).trans (newContract_inner hload).ledger

/-- Every execution of contract code that succeeds keeps to the inputs. -/
theorem interp_traced (env : VmEnv) (base : Tx) (run : Run) (self : Address) :
    Keeps base (run.interp env self) := by
  -- calls nest, so the induction is on the tree and goes over the executing contract
  induction run generalizing self with
  | done ret =>
    intro vm ret' vm' h hok
    cases hok
    exact h.of_ledger rfl
  | error msg =>
    intro vm ret vm' h hok
    cases hok
  | op o next ih =>
    intro vm ret vm' h hok
    simp only [Run.interp] at hok
    split at hok
    · cases hok
    · cases hok
    case h_3 hop => exact ih self _ _ _ (runOp_traced hop (h.of_ledger rfl)) hok
  | exec toAddr pure_ value args callee next ihc ihn =>
    intro vm ret vm' h hok
    simp only [Run.interp] at hok
    split at hok
    · cases hok
    · cases hok
    rename_i hop
    obtain ⟨w, hout, ha⟩ := opExec_around hop
    have hw := execOutput_ledger hout
    exact ihn self _ _ _ (ha.traced (ihc toAddr) (h.of_ledger hw)) hok
  | transfer script callee next ihc ihn =>
    intro vm ret vm' h hok
    simp only [Run.interp] at hok
    split at hok
    · cases hok
    · cases hok
    case h_3 hop =>
      obtain ⟨w, hw, ha⟩ := opTransfer_ok hop
      exact ihn self _ _ _ (ha.traced (ihc _) (h.of_ledger hw)) hok

theorem loadContracts_ledger (env : VmEnv) (outs : List TxOut) (vm : Vm) :
    (loadContracts env outs vm).2.ledger = vm.ledger := by
  induction outs generalizing vm with
  | nil => rfl
  | cons txOut rest ih =>
    simp only [loadContracts]
    split
    · rfl
    split
    · rfl
    split
    · exact ih vm
    split
    · split
      · rfl
      · exact ih vm
    split
    · rfl
    split
    · rfl
    · rw [ih]
      rfl

theorem callContracts_traced {outs : List (TxOut × Nat)} {executed : Bool}
    (hok : callContracts env runs outs vm = some (.ok executed, vm')) (h : Traced base vm) :
    Traced base vm' := by
  induction outs generalizing vm executed with
  | nil =>
    cases hok
    exact h
  | cons x rest ih =>
    simp only [callContracts] at hok
    split at hok
    · exact ih hok h
    split at hok
    · exact ih hok h
    split at hok
    · cases hok
    · cases hok
    rename_i ret w hcall
    split at hok
    · cases hok
    rename_i w' hstate
    obtain ⟨⟨r, w''⟩, hrest, he⟩ := map_eq_some_iff.mp hok
    cases r with
    | error msg => cases he
    | ok b =>
      cases he
      have hinner : Inner env w w' := Vm.onState_inner hstate
      refine ih hrest ?_
      exact ((call_around hcall).traced (interp_traced env base _ _)
        (h.of_ledger rfl)).of_ledger hinner.ledger

/-- What `ExecContract` has done where it succeeds. -/
theorem execContract_ok {sched : List Act} {executed : Bool}
    (hok : execContract env sched runs vm = some (.ok executed, vm')) :
    Traced vm.tx vm' ∧ (vm'.trace = [] ∨ vm'.tx.msg.txIn.length ≤ MaxTxInPerMessage ∧
      verifyAdded env sched vm.tx.msg.txIn.length vm' = some (.ok ())) := by
  simp only [execContract] at hok
  split at hok
  · cases hok
  · cases hok
    exact ⟨.nil rfl rfl, .inl rfl⟩
  split at hok
  · cases hok
  rename_i loaded hload
  have hl := loadContracts_ledger env vm.tx.msg.txOut { vm with trace := [] }
  rw [hload] at hl
  have hbase : Traced vm.tx { vm with trace := [] } := .nil rfl rfl
  split at hok
  · split at hok
    · cases hok
    · cases hok
    case h_3 w hcalls =>
      have hw := callContracts_traced hcalls (hbase.of_ledger hl)
      split at hok
      · cases hok
      split at hok
      · cases hok
      · cases hok
      · cases hok
      rename_i hverify
      cases hok
      have hle : w.tx.msg.txIn.length ≤ MaxTxInPerMessage := by omega
      exact ⟨hw.of_ledger rfl, .inr ⟨hle, hverify⟩⟩
  · cases hok

end

/-! ## Places -/

/-- A contract can add padding, but no separator. -/
theorem newTxIn_not_separator (n : Nat) (p : OutPoint) (sig : Bytes) :
    (newTxIn n p sig).isSeparator = false := by
  unfold newTxIn TxIn.isSeparator
  split
  · split <;> simp
  · simp

namespace Traced

variable {base : Tx} {vm : Vm}

section

variable (h : Traced base vm) {r : Spent}

include h

/-- The place of the input that was added after `k` others. -/
theorem place_eq {k : Nat} (hr : vm.trace[k]? = some r) :
    r.place = (base.msg.txIn ++ gap base vm.trace).length + k := by
  have hplace := congrArg (·[k]?) h.places
  have hk : k < vm.trace.length := (List.getElem?_eq_some_iff.mp hr).1
  simp only [getElem?_map, hr, map_some, getElem?_range' hk, Nat.one_mul, some.injEq] at hplace
  have hgap : (gap base vm.trace).length = if base.hasIns then 0 else 1 := by
    have hne : vm.trace.isEmpty = false :=
      isEmpty_eq_false_iff.mpr (ne_nil_of_length_pos (zero_lt_of_lt hk))
    unfold gap
    cases base.hasIns <;> simp [hne]
  rw [hplace, length_append, hgap]

theorem at_place (hr : r ∈ vm.trace) :
    base.msg.txIn.length ≤ r.place ∧ vm.tx.msg.txIn[r.place]? = some r.txin := by
  obtain ⟨k, hk⟩ := mem_iff_getElem?.mp hr
  have hplace := h.place_eq hk
  refine ⟨?_, ?_⟩
  · rw [hplace, length_append, add_assoc]
    exact Nat.le_add_right _ _
  · rw [h.ins, hplace, getElem?_append_right (Nat.le_add_right _ _), Nat.add_sub_cancel_left,
      getElem?_map, hk, map_some]

/-- What stands after the inputs the transaction came with. -/
theorem added {i : Nat} {t : TxIn} (hi : base.msg.txIn.length ≤ i)
    (ht : vm.tx.msg.txIn[i]? = some t) :
    t.isSepadding = true ∨ ∃ r ∈ vm.trace, r.place = i ∧ r.txin = t := by
  rw [h.ins] at ht
  by_cases hgap : i < (base.msg.txIn ++ gap base vm.trace).length
  · left
    rw [getElem?_append_left hgap, getElem?_append_right hi] at ht
    have hmem := mem_of_getElem? ht
    unfold gap at hmem
    split at hmem
    · cases hmem
    · rw [mem_singleton.mp hmem]
      rfl
  · right
    rw [getElem?_append_right (Nat.le_of_not_lt hgap), getElem?_map] at ht
    obtain ⟨r, hr, rfl⟩ := map_eq_some_iff.mp ht
    refine ⟨r, mem_of_getElem? hr, ?_, rfl⟩
    rw [h.place_eq hr]
    omega

theorem eq_of_place {r' : Spent} (hr : r ∈ vm.trace) (hr' : r' ∈ vm.trace)
    (hplace : r.place = r'.place) : r = r' := by
  have hnodup : (vm.trace.map Spent.place).Nodup := by
    rw [h.places]
    exact nodup_range'
  exact inj_on_of_nodup_map hnodup hr hr' hplace

/-- The inputs from the first added one on, where the separator was there before. -/
theorem inputs_eq (hhas : base.hasIns = true) :
    inputs vm.tx.msg base.msg.txIn.length = vm.trace.map fun r => (r.txin, r.place) := by
  have hplaces := h.places
  simp only [hhas, if_true, add_zero] at hplaces
  simp only [inputs, h.ins, gap, hhas, Bool.true_or, if_true, append_nil, drop_left,
    zipIdx_eq_zip_range', length_map, ← hplaces, zip_map']

/-- Two inputs that were added have different signatures. -/
theorem fresh_signature (hmax : vm.tx.msg.txIn.length ≤ MaxTxInPerMessage) {r' : Spent}
    (hr : r ∈ vm.trace) (hr' : r' ∈ vm.trace) (hlt : r'.place < r.place)
    (hsig : r.txin.signatureIndex ≠ 0xFFFFFFFF) :
    r'.txin.signatureIndex ≠ r.txin.signatureIndex := by
  intro he
  have hindex {r : Spent} (hsig : r.txin.signatureIndex ≠ 0xFFFFFFFF) :
      r.sig.getD [] ≠ [] ∧ r.txin.signatureIndex = ofNat r.count := by
    unfold Spent.txin newTxIn at hsig ⊢
    split at hsig
    · split at hsig <;> exact absurd rfl hsig
    case isFalse hne => exact ⟨hne, by rw [if_neg hne]⟩
  obtain ⟨-, hi⟩ := hindex hsig
  obtain ⟨hne', hi'⟩ := hindex (he ▸ hsig)
  obtain ⟨k, hk⟩ := mem_iff_getElem?.mp hr
  obtain ⟨k', hk'⟩ := mem_iff_getElem?.mp hr'
  have hcount : r'.count < r.count := by
    have hkk : k' < k := by
      have := h.place_eq hk
      have := h.place_eq hk'
      omega
    obtain ⟨hlen, rfl⟩ := List.getElem?_eq_some_iff.mp hk
    obtain ⟨hlen', rfl⟩ := List.getElem?_eq_some_iff.mp hk'
    exact pairwise_iff_getElem.mp h.ordered k' k hlen' hlen hkk hne'
  -- the counts are less than `2 ^ 32` apart, since so many inputs were added at most
  have hlen : vm.trace.length ≤ MaxTxInPerMessage := by
    have := congrArg length h.ins
    simp only [length_append, length_map] at this
    omega
  have hmod := congrArg toNat (hi'.symm.trans (he.trans hi))
  simp only [toNat_ofNat'] at hmod
  have := (h.counts r hr).2.1
  have := (h.counts r' hr').1
  have := h.few
  have : MaxTxInPerMessage < 2 ^ 32 := by decide
  omega

end

end Traced

/-! ## Authority over what was added -/

/-- The signature of an input verifies against the script of the output it spends, which is in the
view or in the database. -/
def Signed (env : VmEnv) (vm : Vm) (t : TxIn) (i : Nat) : Prop :=
  ∃ utxo, (fetchUtxo env t.previousOutPoint vm).1 = some utxo ∧
    verified env.sig vm.tx.msg.signatureScripts (t, i) utxo = true

/-- An input is padding, or a contract has spent its own output with it, or it is signed. -/
def Rightful (env : VmEnv) (vm : Vm) (t : TxIn) (i : Nat) : Prop :=
  t.isSepadding = true ∨ (∃ r ∈ vm.trace, r.place = i ∧ r.txin = t ∧ r.owns = true) ∨
    Signed env vm t i

instance (env : VmEnv) (vm : Vm) (t : TxIn) (i : Nat) : Decidable (Rightful env vm t i) := by
  unfold Rightful Signed
  infer_instance

/-- `VerifySigs` comes to the input: the separator was there before, and the transaction is of a
kind whose signatures are looked at. -/
structure Covered (env : VmEnv) (sched : List Act) (base : Tx) (vm : Vm) (r : Spent) : Prop where
  has : base.hasIns = true
  coin : vm.tx.msg.isCoinBase (ε := String) = .ok false
  forfeit : vm.tx.msg.isForfeit = false
  cross : vm.tx.msg.isCrossChain = false
  signature : r.txin.signatureIndex ≠ 0xFFFFFFFF
  payee : ∀ utxo, vm.utxo.lookupEntry r.txin.previousOutPoint = some utxo →
    ¬ PaysAnyone utxo.pkScript
  unmonitored : Unmonitored env.sig vm.tx.msg.signatureScripts vm.utxo
    (inputs vm.tx.msg base.msg.txIn.length)
  calm : (verifyPool env.sig vm.tx.msg base.msg.txIn.length vm.utxo).calm
    env.sig.sigVeriConcurrency env.sig.holds sched = true

section

variable {env : VmEnv} {base : Tx} {vm vm' : Vm} {sched : List Act}

theorem fetchUtxo_of_lookup {p : OutPoint} {utxo : UtxoEntry}
    (h : vm.utxo.lookupEntry p = some utxo) : (fetchUtxo env p vm).1 = some utxo := by
  simp only [fetchUtxo, h]

/-- What `VerifySigs` comes to is signed. -/
theorem signed_of_covered (h : Traced base vm) (hmax : vm.tx.msg.txIn.length ≤ MaxTxInPerMessage)
    (hverify : verifyAdded env sched base.msg.txIn.length vm = some (.ok ())) {r : Spent}
    (hr : r ∈ vm.trace) (hpad : r.txin.isSepadding = false) (hc : Covered env sched base vm r) :
    Signed env vm r.txin r.place := by
  have hinputs := h.inputs_eq hc.has
  have hspend : (r.txin, r.place) ∈ spends (inputs vm.tx.msg base.msg.txIn.length) := by
    have hall : ∀ p ∈ vm.trace.map (fun r => (r.txin, r.place)), (!p.1.isSeparator) = true := by
      intro p hp
      obtain ⟨r, -, rfl⟩ := mem_map.mp hp
      simp [Spent.txin, newTxIn_not_separator]
    rw [hinputs, spends, takeWhile_eq_self_iff.mpr hall]
    refine mem_filter.mpr ⟨mem_map.mpr ⟨r, hr, rfl⟩, by simp [hpad]⟩
  have hnil : verifySigs env.sig vm.tx.msg base.msg.txIn.length vm.utxo sched =
      some (.ok ()) := by
    have hany : ((vm.tx.msg.txIn.drop base.msg.txIn.length).any fun t =>
        t.signatureIndex != 0xFFFFFFFF) = true := by
      refine any_eq_true.mpr ⟨r.txin, ?_, by simpa using hc.signature⟩
      simp only [h.ins, gap, hc.has, Bool.true_or, if_true, append_nil, drop_left]
      exact mem_map_of_mem hr
    have hl2 : vm.tx.msg.isBtcL2 = false := by
      by_contra hl2
      have := MsgTx.isCrossChain_of_isBtcL2 (Bool.not_eq_false _ ▸ hl2)
      rw [hc.cross] at this
      cases this
    simpa only [verifyAdded, hany, hl2, Bool.not_false, Bool.and_self, if_true] using hverify
  obtain ⟨hin, hlook⟩ := accepted hc.coin hc.forfeit hc.cross hc.unmonitored hc.calm hnil
  obtain ⟨hvet, hsig⟩ := hin _ hspend
  rcases spend_cases hvet hsig with ⟨utxo, hutxo, hpay⟩ | ⟨utxo, pk, sig, hv⟩
  · exact absurd hpay (hc.payee utxo hutxo)
  have hx : (⟨r.txin, r.place, utxo, pk, sig⟩ : Owned) ∈
      txOwned env.sig vm.tx.msg base.msg.txIn.length vm.utxo := mem_owned.mpr ⟨hspend, hv⟩
  obtain ⟨before, rest, hall⟩ := append_of_mem hx
  have horder := pairwise_owned env.sig vm.tx.msg.signatureScripts vm.utxo vm.tx.msg
    base.msg.txIn.length
  -- nothing before it has its signature, so it is not passed over
  have hnone : sharers before r.txin.signatureIndex = [] := by
    refine filter_eq_nil_iff.mpr fun y hy he => ?_
    obtain ⟨hmem, hlt⟩ := (mem_before_iff hall horder).mp hy
    have hin := (takeWhile_sublist _).mem (mem_of_mem_filter (mem_owned.mp hmem).1)
    rw [hinputs] at hin
    obtain ⟨r', hr', he'⟩ := mem_map.mp hin
    simp only [Prod.mk.injEq] at he'
    refine h.fresh_signature hmax hr hr' (he'.2 ▸ hlt) hc.signature ?_
    rw [he'.1]
    exact beq_iff_eq.mp he
  refine ⟨utxo, fetchUtxo_of_lookup (vet_eq_owned hv).1, ?_⟩
  rw [verified_owned (x := ⟨r.txin, r.place, utxo, pk, sig⟩) hv]
  refine hlook _ ?_
  rw [hall]
  exact mem_looked [] (by simp [passedOver, hnone])

/-- All that contracts have added is authorised if and only if every `SPEND` with a signature is
that the check at the end does not come to. -/
theorem spends_authorised_iff {runs : Nat → Run} {executed : Bool}
    (hok : execContract env sched runs vm = some (.ok executed, vm')) :
    (∀ i t, vm.tx.msg.txIn.length ≤ i → vm'.tx.msg.txIn[i]? = some t → Rightful env vm' t i) ↔
      ∀ r ∈ vm'.trace, r.sig ≠ none → Covered env sched vm.tx vm' r ∨
        r.txin.isSepadding = true ∨ r.owns = true ∨ Signed env vm' r.txin r.place := by
  obtain ⟨h, hverify⟩ := execContract_ok hok
  constructor
  · intro hall r hr _
    obtain ⟨hle, hat⟩ := h.at_place hr
    right
    rcases hall _ _ hle hat with hpad | ⟨r', hr', hplace, -, howns⟩ | hsigned
    · exact .inl hpad
    · obtain rfl := h.eq_of_place hr' hr hplace
      exact .inr (.inl howns)
    · exact .inr (.inr hsigned)
  · intro hall i t hi ht
    rcases h.added hi ht with hpad | ⟨r, hr, rfl, rfl⟩
    · exact .inl hpad
    cases hsig : r.sig with
    | none => exact .inr (.inl ⟨r, hr, rfl, rfl, h.unsigned r hr hsig⟩)
    | some sig =>
      rcases hall r hr (by simp [hsig]) with hc | hpad | howns | hsigned
      · cases hpad : r.txin.isSepadding with
        | true => exact .inl hpad
        | false =>
          rcases hverify with hnil | ⟨hmax, hverify⟩
          · rw [hnil] at hr
            cases hr
          · exact .inr (.inr (signed_of_covered h hmax hverify hr hpad hc))
      · exact .inl hpad
      · exact .inr (.inl ⟨r, hr, rfl, rfl, howns⟩)
      · exact .inr (.inr hsigned)

end

/-! ## A stranger's output -/

/-- The script of a call of the contract with the address `5, 5, …`. -/
def callScript : Bytes := contractAddr :: replicate 20 5 ++ [0xaa, 1, 2, 3]

/-- The contract exists; its own output, and outputs of others, are in the database. -/
def shopEnv : VmEnv where
  sig := ownerEnv
  right := ⟨fun _ => 1, fun _ => true⟩
  scriptHashAddrID := 0x70
  multiSigAddrID := 0x71
  db := AList.singleton (addressOf (replicate 20 5)) ⟨AList.singleton codeKey [1], ∅⟩
  utxoDb := sharedView.insert ⟨1, 3⟩
    ⟨0, some (.numToken 1), none, callScript, 1, false, false, false, false, []⟩
  rightDb := ∅
  issued := ∅
  codeAt := fun _ => some [0]
  validCode := fun _ => none
  ripemd160 := fun _ => []
  codeRecord := fun _ _ _ => none
  hashString := fun _ => ""
  height := 1

/-- A transaction of the owner that calls the contract. -/
def callTx : Tx where
  msg := ⟨1, [], [signedInput 0], [⟨⟨0, some (.numToken 1), none⟩, callScript⟩], 0,
    (sharingTx []).signatureScripts⟩
  hash := 9
  hasOuts := false
  hasIns := false
  hasDefs := false
  executed := false

def shopVm : Vm where
  stateDB := ∅
  transferrable := []
  tokenTypes := ∅
  existingTokenTypes := ∅
  coinBase := { callTx with msg := ⟨1, [], [], [], 0, []⟩, hash := 8 }
  utxo := ∅
  rights := ∅
  stepLimit := 1000
  tx := callTx
  contractStack := []
  currentOutput := ⟨0, 0⟩
  trace := []

/-- The contract spends one output. -/
def spendRun (i : UInt32) (sig : Option Bytes) : Nat → Run :=
  fun _ => .op (.spend ⟨1, i⟩ sig) (.done [])

/-- The walk over the inputs is over at once, and nothing is queued. -/
def noJob : List Act := [.main, .main, .dispatcher, .dispatcher, .dispatcher, .dispatcher]

/-- A contract spends its own output. -/
theorem spends_own_authorised :
    ∃ vm', execContract shopEnv noJob (spendRun 3 none) shopVm = some (.ok true, vm') ∧
      vm'.trace ≠ [] ∧ ∀ i t, shopVm.tx.msg.txIn.length ≤ i → vm'.tx.msg.txIn[i]? = some t →
        Rightful shopEnv vm' t i := by
  refine exists_end (Q := fun vm' => vm'.trace = [⟨⟨1, 3⟩, none, 2, 1, true⟩]) (by decide +kernel)
    fun vm' hok htrace => ⟨by simp [htrace], (spends_authorised_iff hok).mpr ?_⟩
  intro r hr hsig
  rw [htrace, mem_singleton] at hr
  exact absurd (hr ▸ rfl) hsig

/-- A contract spends the output of a stranger with a signature that nobody looks at. -/
theorem execContract_spends_stranger :
    ∃ vm', execContract shopEnv noJob (spendRun 2 (some [1])) shopVm = some (.ok true, vm') ∧
      ¬ ∀ i t, shopVm.tx.msg.txIn.length ≤ i → vm'.tx.msg.txIn[i]? = some t →
        Rightful shopEnv vm' t i := by
  refine exists_end (Q := fun vm' => vm'.tx.msg.txIn[2]? = some ⟨⟨1, 2⟩, 0xFFFFFFFF, 1⟩ ∧
    ¬Rightful shopEnv vm' ⟨⟨1, 2⟩, 0xFFFFFFFF, 1⟩ 2) (by decide +kernel) fun vm' _ h hall => ?_
  exact h.2 (hall 2 _ (by decide) h.1)

end Zent.Ovm
