import Zent.Ovm.Machine

/-!
# What a call does around the code it runs

`Call`, `Create` and `EXEC` load and snapshot the state of contracts, keep the stack of calls and
put the state back on an error. All this stays inside the machine: the transaction, the coinbase,
the token types and the rights are changed by the code that is run, or not at all.
-/

namespace Zent.Ovm

open Go Viewpoint Option

/-- An output as the view and, behind it, the database have it. -/
def Vm.sees (env : VmEnv) (vm : Vm) (p : OutPoint) : Option UtxoEntry :=
  (vm.utxo.lookupEntry p).or (env.utxoDb.lookupEntry p)

/-- A change inside the machine: of the state of contracts, the step limit and the stack of calls.
An output of the database may be cached in the view. -/
structure Inner (env : VmEnv) (vm vm' : Vm) : Prop where
  tokenTypes : vm'.tokenTypes = vm.tokenTypes
  existingTokenTypes : vm'.existingTokenTypes = vm.existingTokenTypes
  coinBase : vm'.coinBase = vm.coinBase
  rights : vm'.rights = vm.rights
  utxo : ∀ p, vm'.sees env p = vm.sees env p
  tx : vm'.tx = vm.tx
  trace : vm'.trace = vm.trace

/-- Changes inside the machine around an execution of `body`, or without one if it fails before.
The whole succeeds only if `body` does. -/
inductive Around (env : VmEnv) (body : Vm → Ending Bytes) (vm : Vm) {α : Type} :
    Except String α → Vm → Prop where
  | refused {msg : String} {vm' : Vm} (h : Inner env vm vm') : Around env body vm (.error msg) vm'
  | ran {r : Except String α} {w w' vm' : Vm} {r' : Except String Bytes} (before : Inner env vm w)
      (run : body w = some (r', w')) (after : Inner env w' vm')
      (ok : ∀ a, r = .ok a → ∃ ret, r' = .ok ret) : Around env body vm r vm'

variable {env : VmEnv} {self : Address} {vm vm' vm'' : Vm} {α : Type} {a : Address}
  {f : StateDB → Option StateDB} {r : Except String Unit}

namespace Inner

@[refl] theorem refl (env : VmEnv) (vm : Vm) : Inner env vm vm := by
  constructor <;> intros <;> rfl

theorem trans (h : Inner env vm vm') (h' : Inner env vm' vm'') : Inner env vm vm'' where
  tokenTypes := h'.tokenTypes.trans h.tokenTypes
  existingTokenTypes := h'.existingTokenTypes.trans h.existingTokenTypes
  coinBase := h'.coinBase.trans h.coinBase
  rights := h'.rights.trans h.rights
  utxo p := (h'.utxo p).trans (h.utxo p)
  tx := h'.tx.trans h.tx
  trace := h'.trace.trans h.trace

end Inner

namespace Around

variable {body : Vm → Ending Bytes} {r : Except String α}

theorem of_inner (h : Inner env vm vm') (ha : Around env body vm' r vm'') :
    Around env body vm r vm'' := by
  cases ha with
  | refused h' => exact .refused (h.trans h')
  | ran before run after ok => exact .ran (h.trans before) run after ok

/-- What comes after may turn a success into an error, but not the other way. -/
theorem andThen {β : Type} {r' : Except String β} (ha : Around env body vm r vm')
    (h : Inner env vm' vm'') (hok : ∀ b, r' = .ok b → ∃ a, r = .ok a) :
    Around env body vm r' vm'' := by
  cases ha with
  | refused h' =>
    cases r' with
    | error msg => exact .refused (h'.trans h)
    | ok b =>
      obtain ⟨a, ha⟩ := hok b rfl
      cases ha
  | ran before run after ok =>
    refine .ran before run (after.trans h) fun b hb => ?_
    obtain ⟨a, ha⟩ := hok b hb
    exact ok a ha

end Around

/-! ## Looking for outputs and code -/

/-- Looking for an output changes the view of outputs at most. -/
theorem fetchUtxo_vm (env : VmEnv) (p : OutPoint) (vm : Vm) :
    ∃ u, (fetchUtxo env p vm).2 = { vm with utxo := u } := by
  unfold fetchUtxo
  split
  · exact ⟨vm.utxo, rfl⟩
  · split
    · exact ⟨_, rfl⟩
    · exact ⟨vm.utxo, rfl⟩

theorem fetchUtxo_inner (env : VmEnv) (p : OutPoint) (vm : Vm) :
    Inner env vm (fetchUtxo env p vm).2 := by
  unfold fetchUtxo
  split
  · rfl
  rename_i hview
  split
  case h_2 => rfl
  case h_1 e hdb =>
    exact { Inner.refl env vm with utxo := lookup_insert_or hview hdb }

theorem getUtxo_inner (env : VmEnv) (p : OutPoint) (vm : Vm) :
    Inner env vm (getUtxo env p vm).2 := by
  unfold getUtxo
  split
  · rfl
  · exact fetchUtxo_inner env p vm

theorem Vm.onState_inner (h : vm.onState a f = some vm') : Inner env vm vm' := by
  obtain ⟨d, -, rfl⟩ := map_eq_some_iff.mp h
  exact { Inner.refl env vm with }

theorem getCode_inner {code : Option Bytes} (h : getCode env a vm = some (code, vm')) :
    Inner env vm vm' := by
  obtain ⟨d, -, hr⟩ := map_eq_some_iff.mp h
  cases hr
  exact { Inner.refl env vm with }

theorem newContract_inner {d : Address} (h : newContract env d vm = some vm') :
    Inner env vm vm' := by
  unfold newContract at h
  split at h
  · cases h
    rfl
  split at h
  · cases h
    exact { Inner.refl env vm with }
  · cases h

theorem Vm.restore_inner (env : VmEnv) (vm snapshot : Vm) : Inner env vm (vm.restore snapshot) :=
  { Inner.refl env vm with }

/-! ## Instructions -/

theorem Vm.onState_eq (h : vm.onState a f = some vm') :
    ∃ d, vm' = { vm with stateDB := vm.stateDB.insert a d } := by
  obtain ⟨d, -, rfl⟩ := map_eq_some_iff.mp h
  exact ⟨d, rfl⟩

theorem Vm.onState_ok
    (h : ((vm.onState a f).map fun w => ((.ok () : Except String Unit), w)) = some (r, vm')) :
    ∃ d, vm' = { vm with stateDB := vm.stateDB.insert a d } := by
  obtain ⟨w, hw, hr⟩ := map_eq_some_iff.mp h
  cases hr
  exact Vm.onState_eq hw

/-- The state of a contract is inside the machine. -/
theorem Inner.entry (env : VmEnv) (vm : Vm) (a : Address) (d : StateDB) :
    Inner env vm { vm with stateDB := vm.stateDB.insert a d } :=
  { Inner.refl env vm with }

/-- The machine in which `SPEND` adds an input: the output has been looked for, and it may have been
removed from the spendables. -/
inductive Seeks (env : VmEnv) (self : Address) (p : OutPoint) (vm : Vm) : Vm → Prop where
  | blind : Seeks env self p vm vm
  | found : Seeks env self p vm (getUtxo env p vm).2
  | listed (d : StateDB) : Seeks env self p vm
      { (getUtxo env p vm).2 with stateDB := (getUtxo env p vm).2.stateDB.insert self d }

variable {p : OutPoint}

theorem Seeks.inner (h : Seeks env self p vm vm') : Inner env vm vm' := by
  cases h with
  | blind => exact .refl env vm
  | found => exact getUtxo_inner env p vm
  | listed d => exact (getUtxo_inner env p vm).trans (.entry env _ self d)

/-- `spentScript` looks at outputs only. -/
theorem spentScript_vm {pks : Option Bytes} (h : spentScript env p vm = some (pks, vm')) :
    vm' = (getUtxo env p vm).2 := by
  unfold spentScript at h
  split at h
  case h_1 heq =>
    cases h
    rw [heq]
  rename_i heq
  rw [heq]
  split at h
  · obtain ⟨t, -, ht⟩ := map_eq_some_iff.mp h
    cases ht
    rfl
  · cases h
    rfl

theorem getUtxo_stateDB (env : VmEnv) (p : OutPoint) (vm : Vm) :
    (getUtxo env p vm).2.stateDB = vm.stateDB := by
  unfold getUtxo
  split
  · rfl
  · obtain ⟨u, hu⟩ := fetchUtxo_vm env p vm
    rw [hu]

/-- `SPEND` adds an input or fails. If it succeeds without a signature, the output belongs to the
contract. -/
theorem opSpend_cases {sig : Option Bytes} (h : opSpend env self p sig vm = some (r, vm')) :
    ∃ w, Seeks env self p vm w ∧ ((vm' = w ∧ ∃ msg, r = .error msg) ∨
      vm' = w.spend p sig (owns env self p vm) ∧
        (r = .ok () → sig = none → owns env self p vm = true)) := by
  simp only [opSpend] at h
  split at h
  · cases h
    exact ⟨vm, .blind, .inr ⟨rfl, nofun⟩⟩
  split at h
  case isFalse hsome =>
    cases h
    exact ⟨vm, .blind, .inr ⟨rfl, fun _ hn => absurd hn hsome⟩⟩
  split at h
  · cases h
  case h_2 b rest w hs =>
    have hw : Seeks env self p vm w := spentScript_vm hs ▸ .found
    split at h
    case isTrue hb =>
      split at h
      · cases h
      split at h
      case isTrue hrest =>
        cases h
        refine ⟨w, hw, .inr ⟨rfl, fun _ _ => ?_⟩⟩
        simp [owns, hs, hb, hrest]
      · cases h
        exact ⟨vm', hw, .inl ⟨rfl, _, rfl⟩⟩
    · cases h
      exact ⟨vm', hw, .inl ⟨rfl, _, rfl⟩⟩
  case h_3 pks w hne hs =>
    have hw := spentScript_vm hs
    split at h
    · cases h
    rename_i d hd
    rw [hw, getUtxo_stateDB] at hd
    split at h
    case isTrue hmem =>
      cases h
      refine ⟨_, hw ▸ .listed _, .inr ⟨rfl, fun _ _ => ?_⟩⟩
      unfold owns
      split
      case h_1 b rest w' hs' =>
        rw [hs] at hs'
        cases hs'
        exact absurd rfl (hne b rest)
      · simpa [hd] using hmem
      case h_3 hs' =>
        rw [hs] at hs'
        cases hs'
    · cases h
      exact ⟨vm', hw ▸ .found, .inl ⟨rfl, _, rfl⟩⟩

/-- The library is loaded, and its code read, unless it is there. -/
theorem opLibLoad_cases (h : runOp env self vm (.libLoad a) = some (r, vm')) :
    vm' = vm ∨ ∃ d d', vm' = { vm with stateDB := (vm.stateDB.insert a d).insert a d' } := by
  simp only [runOp, opLibLoad] at h
  split at h
  · obtain ⟨⟨code, w⟩, hc, hr⟩ := map_eq_some_iff.mp h
    cases hr
    obtain ⟨d, -, hr⟩ := map_eq_some_iff.mp hc
    cases hr
    exact .inr ⟨_, _, rfl⟩
  · cases h
    exact .inl rfl

/-- An output is added, and perhaps to the spendables, or nothing happens. -/
theorem opAddTxOut_cases {t : TxOut} (h : opAddTxOut env self t vm = some (r, vm')) :
    vm' = vm ∨ ∃ t' w, w = { vm with tx := (vm.tx.addTxOut t').1 } ∧
      (vm' = w ∨ ∃ d, vm' = { w with stateDB := w.stateDB.insert self d }) := by
  unfold opAddTxOut at h
  split at h
  · cases h
    exact .inl rfl
  split at h
  · cases h
  split at h
  · cases h
    exact .inl rfl
  split at h
  · cases h
    exact .inl rfl
  simp only at h
  right
  split at h
  · obtain ⟨w, hw, hr⟩ := map_eq_some_iff.mp h
    cases hr
    exact ⟨_, _, rfl, .inr (Vm.onState_eq hw)⟩
  · cases h
    exact ⟨_, _, rfl, .inl rfl⟩

/-- What instructions do is within the relation `R`, where they touch the state of contracts in `S`
only. -/
structure Handles (env : VmEnv) (S : Address → Prop) (R : Vm → Vm → Prop) : Prop where
  refl : ∀ vm, R vm vm
  trans : ∀ {vm vm' vm''}, R vm vm' → R vm' vm'' → R vm vm''
  entry : ∀ {a}, S a → ∀ vm d, R vm { vm with stateDB := vm.stateDB.insert a d }
  look : ∀ p vm, R vm (getUtxo env p vm).2
  output : ∀ vm t, R vm { vm with tx := (vm.tx.addTxOut t).1 }
  define : ∀ vm d, R vm { vm with tx := vm.tx.addDef d }
  rights : ∀ vm rights, R vm { vm with rights := rights }
  coinDef : ∀ vm d, R vm { vm with coinBase := vm.coinBase.addDef d }
  coin : ∀ vm t, R vm (vm.addCoinBase env t)
  types : ∀ vm m m' l,
    R vm { vm with tokenTypes := m, existingTokenTypes := m', transferrable := l }

namespace Handles

variable {S : Address → Prop} {R : Vm → Vm → Prop} {r : Except String Unit} (hR : Handles env S R)

include hR

theorem addDefinition {d : Definition} {coinbase : Bool}
    (h : addDefinition env d coinbase vm = some vm') : R vm vm' := by
  unfold Ovm.addDefinition at h
  split at h
  · cases h
    exact hR.rights vm _
  obtain ⟨rights, -, rfl⟩ := map_eq_some_iff.mp h
  split
  · exact hR.trans (hR.rights vm rights) (hR.coinDef _ d)
  · exact hR.trans (hR.rights vm rights) (hR.define _ d)

variable (hself : S self)

include hself

theorem seeks (h : Seeks env self p vm vm') : R vm vm' := by
  cases h with
  | blind => exact hR.refl vm
  | found => exact hR.look p vm
  | listed d => exact hR.trans (hR.look p vm) (hR.entry hself _ d)

theorem issue (tokentype md : UInt64) (h right : Hash) (params : Nat) (d : StateDB)
    (minted : Option (UInt64 × UInt64)) :
    R vm (issue env self tokentype md h right params d minted vm).2 := by
  simp only [Ovm.issue]
  split
  · exact hR.refl vm
  split
  · exact hR.entry hself vm _
  · exact hR.entry hself vm _
  · exact hR.trans (hR.entry hself vm _) (hR.coin _ _)

theorem opMint {tokentype md : UInt64} {h right : Hash} {params : Nat}
    (hop : opMint env self tokentype md h right params vm = some (r, vm')) :
    R vm vm' := by
  have hissue {d minted} {w : Vm} (hw : R vm w)
      (he : some (Ovm.issue env self tokentype md h right params d minted w) = some (r, vm')) :
      R vm vm' := by
    have hout : R w _ := hR.issue hself tokentype md h right params d minted
    rw [Option.some.inj he] at hout
    exact hR.trans hw hout
  have hclaim : R vm (vm.claim env self tokentype) := by
    unfold Vm.claim
    split
    · exact hR.types vm _ _ vm.transferrable
    · exact hR.types vm _ vm.existingTokenTypes vm.transferrable
  unfold Ovm.opMint at hop
  split at hop
  · cases hop
    exact hR.refl vm
  split at hop
  · cases hop
  split at hop
  · cases hop
  · exact hissue (hR.refl vm) hop
  simp only at hop
  split at hop
  · exact hissue hclaim hop
  unfold takeOver at hop
  split at hop
  · split at hop
    · obtain ⟨minted, -, hr⟩ := map_eq_some_iff.mp hop
      cases hr
      exact hR.trans hclaim (hR.trans (hR.entry hself _ _) (hR.types _ _ _ _))
    · cases hop
      exact hclaim
  · cases hop
    exact hclaim

/-- **What an instruction does** is within `R`, if what it spends is and the libraries that it loads
are in `S`. -/
theorem runOp {o : Op}
    (hspend : ∀ p sig, o = .spend p sig → ∀ w owned, R w (w.spend p sig owned))
    (hload : ∀ a, o = .libLoad a → S a) (h : runOp env self vm o = some (r, vm')) : R vm vm' := by
  have hstate : (∃ d, vm' = { vm with stateDB := vm.stateDB.insert self d }) → R vm vm' := by
    rintro ⟨d, rfl⟩
    exact hR.entry hself vm d
  cases o with
  | load key | store key val | del key | meta_ key | suicide => exact hstate (Vm.onState_ok h)
  | libLoad a =>
    have ha := hload a rfl
    obtain rfl | ⟨d, d', rfl⟩ := opLibLoad_cases h
    · exact hR.refl _
    · exact hR.trans (hR.entry ha vm d) (hR.entry ha _ d')
  | spend p sig =>
    obtain ⟨w, hw, ⟨rfl, -⟩ | ⟨rfl, -⟩⟩ := opSpend_cases h
    · exact hR.seeks hself hw
    · exact hR.trans (hR.seeks hself hw) (hspend p sig rfl w _)
  | addDef d coinbase =>
    obtain ⟨w, hw, hr⟩ := map_eq_some_iff.mp h
    cases hr
    exact hR.addDefinition hw
  | addTxOut t =>
    rcases opAddTxOut_cases h with rfl | ⟨t', w, rfl, rfl | ⟨d, rfl⟩⟩
    · exact hR.refl _
    · exact hR.output vm t'
    · exact hR.trans (hR.output vm t') (hR.entry hself _ d)
  | getDefinition hash =>
    cases h
    exact hR.rights vm _
  | getUtxo p =>
    cases h
    exact hR.look p vm
  | mint tokentype md hash right params => exact hR.opMint hself h
  | local_ =>
    cases h
    exact hR.refl vm

end Handles

/-! ## Handing over the right to mint -/

/-- The contract that a script names. -/
def heirOf (script : Bytes) : Address :=
  addressOf (((parsePkScript script).map PkScript.addr).getD [])

/-- A contract that destroys itself calls its heir, after the output for it. -/
theorem opTransfer_eq_ok {script : Bytes} {body : Vm → Ending Bytes}
    (h : opTransfer env self script body vm = some (.ok (), vm')) :
    ∃ loaded stack types method params ret w, newContract env (heirOf script) vm = some loaded ∧
      call env (heirOf script) method params body
        { loaded with
          tx := (loaded.tx.addTxOut ⟨⟨0, some (.numToken 0), none⟩, script⟩).1
          contractStack := stack
          tokenTypes := types
          transferrable := self :: loaded.transferrable } = some (.ok ret, w) ∧
      w.onState self (fun d => some d.suicide) = some vm' := by
  unfold opTransfer at h
  split at h
  · cases h
  · cases h
  split at h
  · cases h
  rename_i pk hpk
  have hheir : heirOf script = addressOf pk.addr := by rw [heirOf, hpk]; rfl
  simp only at h
  split at h
  · cases h
  split at h
  · cases h
  split at h
  · cases h
  split at h
  · cases h
  rename_i loaded hload
  split at h
  · cases h
  simp only [handOver] at h
  split at h
  · cases h
  rename_i r w hcall
  split at h
  · cases h
  rename_i hr
  split at hr
  · cases hr
  obtain ⟨w', hstate, he⟩ := map_eq_some_iff.mp h
  cases he
  cases r with
  | error msg => cases hr
  | ok ret =>
    rw [hheir]
    exact ⟨loaded, _, _, _, _, ret, w, hload, hcall, hstate⟩

/-! ## Relations that hold around the code of a call -/

/-- What a call of `a` does before and after the code it runs is within the relation `R`. -/
structure Frames (env : VmEnv) (a : Address) (R : Vm → Vm → Prop) : Prop where
  refl : ∀ vm, R vm vm
  trans : ∀ {vm vm' vm''}, R vm vm' → R vm' vm'' → R vm vm''
  fetchUtxo : ∀ p vm, R vm (fetchUtxo env p vm).2
  newContract : ∀ {vm vm'}, newContract env a vm = some vm' → R vm vm'
  getCode : ∀ {vm vm' code}, getCode env a vm = some (code, vm') → R vm vm'
  fresh : ∀ {vm vm'}, exists_ env false a = false →
    vm.onState a (fun d => some { d with fresh := true }) = some vm' → R vm vm'
  address : ∀ {vm vm'}, vm.onState a
    (fun d => some (d.setMeta env.db addressKey (addressBytes a))) = some vm' → R vm vm'
  record : ∀ {vm vm' br creator}, vm.onState a
    (fun d => some ((d.setMeta env.db codeKey br).setMeta env.db creatorKey creator)) = some vm' →
      R vm vm'

/-- Changes within `R` around an execution of `body`, or without one if it fails before. -/
inductive Ran (R : Vm → Vm → Prop) (body : Vm → Ending Bytes) (vm : Vm) :
    Except String Bytes → Vm → Prop where
  | refused {msg : String} {vm' : Vm} (h : R vm vm') : Ran R body vm (.error msg) vm'
  | ran {r r' : Except String Bytes} {w w' vm' : Vm} (before : R vm w)
      (run : body w = some (r', w')) (after : R w' vm')
      (ok : ∀ ret, r = .ok ret → ∃ ret', r' = .ok ret') : Ran R body vm r vm'

/-- A call refuses, succeeds, or puts the snapshot back. -/
inductive Called (R : Vm → Vm → Prop) (body : Vm → Ending Bytes) (vm : Vm) :
    Except String Bytes → Vm → Prop where
  | refused {msg : String} {vm' : Vm} (h : R vm vm') : Called R body vm (.error msg) vm'
  | ran {ret : Bytes} {vm' : Vm} (h : Ran R body vm (.ok ret) vm') :
    Called R body vm (.ok ret) vm'
  | restored {msg : String} {w : Vm} (h : Ran R body vm (.error msg) w) :
    Called R body vm (.error msg) (w.restore vm)

section

variable {R : Vm → Vm → Prop} {body : Vm → Ending Bytes} {r : Except String Bytes}

theorem Ran.after (hR : Frames env self R) (h : R vm vm') (hran : Ran R body vm' r vm'') :
    Ran R body vm r vm'' := by
  cases hran with
  | refused h' => exact .refused (hR.trans h h')
  | ran before run after ok => exact .ran (hR.trans h before) run after ok

namespace Frames

variable (hR : Frames env self R)

include hR

theorem construct {data creator : Bytes} (hnew : exists_ env false self = false)
    (h : Ovm.construct env self data creator body vm = some (r, vm')) : Ran R body vm r vm' := by
  unfold Ovm.construct at h
  split at h
  · cases h
  rename_i fresh hfresh
  have hfresh := hR.fresh hnew hfresh
  split at h
  · cases h
    exact .refused hfresh
  split at h
  · cases h
    exact .refused hfresh
  split at h
  · cases h
  rename_i named hnamed
  obtain ⟨⟨r', w⟩, hrun, hrecord⟩ := bind_eq_some_iff.mp h
  have hbefore := hR.trans hfresh (hR.address hnamed)
  unfold recordCode at hrecord
  split at hrecord
  · cases hrecord
    exact .ran hbefore hrun (hR.refl _) nofun
  rename_i ret hret
  have hok {x : Except String Bytes} : ∀ a, x = .ok a → ∃ ret, r' = .ok ret :=
    fun _ _ => ⟨ret, hret⟩
  split at hrecord
  · cases hrecord
    exact .ran hbefore hrun (hR.refl _) hok
  split at hrecord
  · cases hrecord
  · obtain ⟨w', hw', he⟩ := map_eq_some_iff.mp hrecord
    cases he
    exact .ran hbefore hrun (hR.record hw') hok

theorem create {data : Bytes}
    (h : Ovm.create env self data body vm = some (r, vm')) : Ran R body vm r vm' := by
  unfold Ovm.create at h
  split at h
  · cases h
    exact .refused (hR.refl _)
  split at h
  · cases h
    exact .refused (hR.refl _)
  rename_i hnew
  split at h
  · cases h
    exact .refused (hR.refl _)
  rename_i t ins hins
  have hfetch := hR.fetchUtxo t.previousOutPoint vm
  split at h
  case h_1 w hw =>
    rw [hw] at hfetch
    cases h
    exact .refused hfetch
  rename_i e w hw
  rw [hw] at hfetch
  simp only at h
  split at h
  · cases h
    exact .refused hfetch
  · exact (hR.construct (Bool.eq_false_iff.mpr hnew) h).after hR hfetch

variable {method params : Bytes}

/-- **What a call does**: it runs its code between changes within `R`. -/
theorem called
    (h : Ovm.call env self method params body vm = some (r, vm')) : Called R body vm r vm' := by
  unfold Ovm.call at h
  split at h
  · cases h
  split at h
  · cases h
    exact .refused (hR.refl _)
  split at h
  · cases h
    exact .refused (hR.refl _)
  rename_i loaded hload
  have hload := hR.newContract hload
  split at h
  · split at h
    · cases h
    case h_2 hcreate =>
      cases h
      exact .ran ((hR.create hcreate).after hR hload)
    case h_3 w hcreate =>
      cases h
      exact .restored ((hR.create hcreate).after hR hload)
  · split at h
    · cases h
    case h_2 hcode =>
      cases h
      exact .refused (hR.trans hload (hR.getCode hcode))
    case h_3 hcode =>
      have hbefore := hR.trans hload (hR.getCode hcode)
      split at h
      · cases h
      case h_2 ret w hrun =>
        cases h
        exact .ran (.ran hbefore hrun (hR.refl _) fun _ _ => ⟨ret, rfl⟩)
      case h_3 w hrun =>
        cases h
        exact .restored (.ran hbefore hrun (hR.refl _) nofun)

/-- A call that succeeds has run its code, and that has succeeded. -/
theorem call {ret : Bytes}
    (h : Ovm.call env self method params body vm = some (.ok ret, vm')) :
    ∃ w ret' w', R vm w ∧ body w = some (.ok ret', w') ∧ R w' vm' := by
  cases hR.called h with
  | ran hran =>
    cases hran with
    | ran before run after ok =>
      obtain ⟨ret', rfl⟩ := ok ret rfl
      exact ⟨_, ret', _, before, run, after⟩

/-- A call that fails puts the snapshot back, or has done nothing but load the callee. -/
theorem call_error {msg : String}
    (h : Ovm.call env self method params body vm = some (.error msg, vm')) :
    R vm vm' ∨ ∃ w : Vm, vm' = w.restore vm := by
  cases hR.called h with
  | refused h => exact .inl h
  | restored _ => exact .inr ⟨_, rfl⟩

end Frames

theorem Inner.frames : Frames env self (Inner env) where
  refl := .refl env
  trans := .trans
  fetchUtxo := fetchUtxo_inner env
  newContract := newContract_inner
  getCode := getCode_inner
  fresh := fun _ => Vm.onState_inner
  address := Vm.onState_inner
  record := Vm.onState_inner

theorem Ran.around (h : Ran (Inner env) body vm r vm') : Around env body vm r vm' := by
  cases h with
  | refused h => exact .refused h
  | ran before run after ok => exact .ran before run after ok

/-- A call runs the code between changes inside the machine. -/
theorem call_around {d : Address} {method params : Bytes}
    (h : call env d method params body vm = some (r, vm')) : Around env body vm r vm' := by
  cases Inner.frames.called h with
  | refused hin => exact .refused hin
  | ran hran => exact hran.around
  | restored hran => exact hran.around.andThen (Vm.restore_inner env _ vm) nofun

/-- `EXEC` is a call after the output for the callee. -/
theorem opExec_around {toAddr : Address} {pure_ : UInt8} {value : Option Token} {args : Bytes}
    {r : Except String Unit} (h : opExec env toAddr pure_ value args body vm = some (r, vm')) :
    ∃ w, execOutput toAddr pure_ value args vm = some w ∧ Around env body w r vm' := by
  unfold opExec at h
  split at h
  · cases h
  rename_i w hout
  refine ⟨w, hout, ?_⟩
  split at h
  · cases h
    exact .refused (.refl _ _)
  split at h
  · cases h
  split at h
  · cases h
  rename_i r' w' hcall
  obtain ⟨w'', hstate, he⟩ := map_eq_some_iff.mp h
  cases he
  have hpush : Inner env w { w with contractStack := vm.contractStack ++ [toAddr] } :=
    { Inner.refl env w with }
  have hcalled := (call_around hcall).of_inner hpush
  have hstack : Inner env w' { w' with
      contractStack := w'.contractStack.dropLast, currentOutput := vm.currentOutput } :=
    { Inner.refl env w' with }
  refine hcalled.andThen (hstack.trans (Vm.onState_inner hstate)) fun b hb => ?_
  cases r' with
  | error msg => cases hb
  | ok a => exact ⟨a, rfl⟩

end

end Zent.Ovm
