import Zent.Ovm.Containment

/-!
# What a contract does to the state of other contracts

The pending changes of all contracts of a block are in one map. An execution of a contract works on
the entry of that contract. Other entries are touched in three places: `LIBLOAD` puts an empty state
in the place of the library's, a contract that destroys itself can call the one that takes over its
right to mint, and the snapshot that `Call` puts back on an error leaves out the spendables.
-/

namespace Zent.Ovm

open Go Option List AList

/-! ## Pending state -/

/-- The same pending state. Of a contract that has destroyed itself neither data nor metas are
pending. -/
structure SamePending (db : Buckets) (d d' : StateDB) : Prop where
  suicided : d'.suicided = d.suicided
  spendables : d'.spendables = d.spendables
  data : d.suicided = false → ∀ k, d'.pending db k = d.pending db k
  metas : d.suicided = false → ∀ k, d'.pendingMeta db k = d.pendingMeta db k

namespace SamePending

variable {db : Buckets} {d d' d'' : StateDB}

@[refl] theorem refl (db : Buckets) (d : StateDB) : SamePending db d d :=
  ⟨rfl, rfl, fun _ _ => rfl, fun _ _ => rfl⟩

theorem trans (h : SamePending db d d') (h' : SamePending db d' d'') : SamePending db d d'' where
  suicided := h'.suicided.trans h.suicided
  spendables := h'.spendables.trans h.spendables
  data hs k := (h'.data (h.suicided.trans hs) k).trans (h.data hs k)
  metas hs k := (h'.metas (h.suicided.trans hs) k).trans (h.metas hs k)

/-- What is read is cached, which changes nothing that is pending. -/
theorem readMeta (db : Buckets) (d : StateDB) (key : Key) :
    SamePending db d (d.readMeta db key).2 := by
  unfold StateDB.readMeta
  split
  · rfl
  split
  · rfl
  rename_i hnone
  split
  · rfl
  rename_i m hm
  refine ⟨rfl, rfl, fun _ _ => rfl, fun _ k => ?_⟩
  by_cases hk : k = key
  · subst hk
    simp only [StateDB.pendingMeta, lookup_insert, hnone, hm]
  · simp only [StateDB.pendingMeta, lookup_insert_ne hk]
    rfl

end SamePending

/-! ## Which entries are touched -/

/-- Only entries of addresses in `S` are touched. -/
def Outside (S : Address → Prop) (vm vm' : Vm) : Prop :=
  ∀ a, ¬S a → vm'.stateDB.lookup a = vm.stateDB.lookup a

variable {env : VmEnv} {self : Address} {S : Address → Prop} {vm vm' vm'' : Vm}

namespace Outside

theorem of_eq (h : vm'.stateDB = vm.stateDB) : Outside S vm vm' := fun _ _ => by rw [h]

theorem trans (h : Outside S vm vm') (h' : Outside S vm' vm'') : Outside S vm vm'' :=
  fun a ha => (h' a ha).trans (h a ha)

variable {a : Address}

theorem insert {d : StateDB} (ha : S a) :
    Outside S vm { vm with stateDB := vm.stateDB.insert a d } := by
  intro b hb
  exact lookup_insert_ne fun hba => hb (hba ▸ ha)

theorem onState {f : StateDB → Option StateDB} (ha : S a) (h : vm.onState a f = some vm') :
    Outside S vm vm' := by
  obtain ⟨d, -, rfl⟩ := map_eq_some_iff.mp h
  exact .insert ha

theorem getCode {code : Option Bytes} (ha : S a) (h : getCode env a vm = some (code, vm')) :
    Outside S vm vm' := by
  obtain ⟨d, -, hr⟩ := map_eq_some_iff.mp h
  cases hr
  exact .insert ha

theorem newContract {d : Address} (hd : S d) (h : newContract env d vm = some vm') :
    Outside S vm vm' := by
  unfold Ovm.newContract at h
  split at h
  · cases h
    exact .of_eq rfl
  split at h
  · cases h
    exact .insert hd
  · cases h

theorem fetchUtxo (p : OutPoint) : Outside S vm (fetchUtxo env p vm).2 := by
  obtain ⟨u, hu⟩ := fetchUtxo_vm env p vm
  rw [hu]
  exact .of_eq rfl

end Outside

/-- **An instruction** touches the entry of the contract and that of a library it loads. -/
theorem Outside.handles (env : VmEnv) (S : Address → Prop) : Handles env S (Outside S) where
  refl _ := .of_eq rfl
  trans := Outside.trans
  entry ha _ _ := .insert ha
  look p vm := .of_eq (getUtxo_stateDB env p vm)
  output _ _ := .of_eq rfl
  define _ _ := .of_eq rfl
  rights _ _ := .of_eq rfl
  coinDef _ _ := .of_eq rfl
  coin _ _ := .of_eq rfl
  types _ _ _ _ := .of_eq rfl

/-! ## Calls -/

section

variable {body : Vm → Ending Bytes}

/-- A call touches the entry of the callee only, around the execution of its code. -/
theorem Outside.frames (hself : S self) : Frames env self (Outside S) where
  refl _ := .of_eq rfl
  trans := Outside.trans
  fetchUtxo p _ := .fetchUtxo p
  newContract h := .newContract hself h
  getCode h := .getCode hself h
  fresh _ h := .onState hself h
  address h := .onState hself h
  record h := .onState hself h

/-- A contract that destroys itself: its own entry is touched and that of its heir. -/
theorem opTransfer_outside {script : Bytes} (hself : S self) (hheir : S (heirOf script))
    (h : opTransfer env self script body vm = some (.ok (), vm')) :
    ∃ w ret w', Outside S vm w ∧ body w = some (.ok ret, w') ∧ Outside S w' vm' := by
  obtain ⟨loaded, stack, types, method, params, ret, w, hload, hcall, hstate⟩ := opTransfer_eq_ok h
  obtain ⟨v, ret', v', hv, hrun, hafter⟩ := (Outside.frames hheir).call hcall
  refine ⟨v, ret', v', ?_, hrun, hafter.trans (.onState hself hstate)⟩
  exact (Outside.newContract hheir hload).trans (Outside.trans (.of_eq rfl) hv)

end

/-! ## Isolation -/

namespace Run

/-- No other contract is called with `EXEC`. -/
def noExec : Run → Bool
  | done _ => true
  | error _ => true
  | op _ next => next.noExec
  | exec _ _ _ _ _ _ => false
  | transfer _ callee next => callee.noExec && next.noExec

/-- The libraries that are loaded. -/
def loads : Run → List Address
  | done _ => []
  | error _ => []
  | op (.libLoad a) next => a :: next.loads
  | op _ next => next.loads
  | exec _ _ _ _ callee next => callee.loads ++ next.loads
  | transfer _ callee next => callee.loads ++ next.loads

/-- The contracts that take over the right to mint. -/
def heirs : Run → List Address
  | done _ => []
  | error _ => []
  | op _ next => next.heirs
  | exec _ _ _ _ callee next => callee.heirs ++ next.heirs
  | transfer script callee next => heirOf script :: (callee.heirs ++ next.heirs)

end Run

/-- The entries outside `S` are still there, with the same pending state. -/
def Apart (db : Buckets) (S : Address → Prop) (vm vm' : Vm) : Prop :=
  ∀ a d, ¬S a → vm.stateDB.lookup a = some d →
    ∃ d', vm'.stateDB.lookup a = some d' ∧ SamePending db d d'

theorem Apart.outside {db : Buckets} (h : Apart db S vm vm') (h' : Outside S vm' vm'') :
    Apart db S vm vm'' := by
  intro a d ha hd
  rw [h' a ha]
  exact h a d ha hd

/-- Nothing is pending for a library: an empty state can stand for the one it has. -/
def Unmodified (env : VmEnv) (vm : Vm) (a : Address) : Prop :=
  ∀ d, vm.stateDB.lookup a = some d → exists_ env true a = true →
    SamePending env.db d (newStateDB a)

/-- A library for which nothing is pending is loaded. -/
theorem opLibLoad_apart {vm₀ : Vm} {a : Address} {r : Except String Unit}
    (hload : S a ∨ Unmodified env vm₀ a) (h : opLibLoad env a vm = some (r, vm'))
    (h₀ : Apart env.db S vm₀ vm) : Apart env.db S vm₀ vm' := by
  unfold opLibLoad at h
  split at h
  case isFalse =>
    cases h
    exact h₀
  rename_i hex
  obtain ⟨⟨code, w⟩, hcode, hr⟩ := map_eq_some_iff.mp h
  cases hr
  obtain ⟨d', hd', he⟩ := map_eq_some_iff.mp hcode
  rw [lookup_insert] at hd'
  cases hd'
  cases he
  intro b d hb hd
  by_cases hba : b = a
  · subst hba
    refine ⟨_, lookup_insert _, ?_⟩
    exact (hload.resolve_left hb d hd hex).trans (.readMeta _ _ _)
  · rw [lookup_insert_ne hba, lookup_insert_ne hba]
    exact h₀ b d hb hd

/-- **A run without `EXEC`**, seen from a state before it: by induction over the tree, with the
condition that library loads are about the state at the start. -/
theorem interp_apart {vm₀ : Vm} {run : Run} {ret : Bytes} (hexec : run.noExec = true)
    (hloads : ∀ a ∈ run.loads, S a ∨ Unmodified env vm₀ a) (hheirs : ∀ a ∈ run.heirs, S a)
    (hself : S self) (h : run.interp env self vm = some (.ok ret, vm'))
    (h₀ : Apart env.db S vm₀ vm) : Apart env.db S vm₀ vm' := by
  induction run generalizing self vm vm' ret with
  | done r =>
    cases h
    exact h₀.outside (.of_eq rfl)
  | error msg => cases h
  | exec => cases hexec
  | op o next ih =>
    simp only [Run.interp] at h
    split at h
    · cases h
    · cases h
    rename_i w hop
    have htick : Apart env.db S vm₀ vm.tick := h₀.outside (.of_eq rfl)
    by_cases ho : ∃ a, o = .libLoad a
    · obtain ⟨a, rfl⟩ := ho
      refine ih hexec (fun b hb => hloads b (mem_cons_of_mem _ hb)) hheirs hself h ?_
      exact opLibLoad_apart (hloads a mem_cons_self) hop htick
    have hne : ∀ a, o ≠ .libLoad a := fun a ha => ho ⟨a, ha⟩
    have hnext : (Run.op o next).loads = next.loads := by
      cases o <;> first | rfl | exact absurd rfl (hne _)
    rw [hnext] at hloads
    exact ih hexec hloads hheirs hself h (htick.outside ((Outside.handles env S).runOp hself
      (fun _ _ _ _ _ => .of_eq rfl) (fun a ha => absurd ha (hne a)) hop))
  | transfer script callee next ihc ihn =>
    simp only [Run.noExec, Bool.and_eq_true] at hexec
    simp only [Run.loads, mem_append] at hloads
    simp only [Run.heirs, mem_cons, mem_append] at hheirs
    simp only [Run.interp] at h
    split at h
    · cases h
    · cases h
    rename_i w hop
    have hheir : S (heirOf script) := hheirs _ (.inl rfl)
    obtain ⟨v, ret', v', hv, hrun, hafter⟩ := opTransfer_outside hself hheir hop
    have hstart := (h₀.outside (.of_eq rfl : Outside S vm vm.tick)).outside hv
    have hcallee := ihc hexec.1 (fun a ha => hloads a (.inl ha))
      (fun a ha => hheirs a (.inr (.inl ha))) hheir hrun hstart
    exact ihn hexec.2 (fun a ha => hloads a (.inr ha)) (fun a ha => hheirs a (.inr (.inr ha)))
      hself h (hcallee.outside hafter)

/-- What a run of the contract `C` is asked for. -/
structure Polite (env : VmEnv) (C : Address) (run : Run) (vm : Vm) : Prop where
  /-- nothing is pending for the libraries that are loaded -/
  loads : ∀ a ∈ run.loads, a = C ∨ Unmodified env vm a
  /-- the right to mint goes to contracts that are not loaded -/
  heirs : ∀ a ∈ run.heirs, a = C ∨ a ∉ vm.stateDB

/-- The pending state of all contracts but `C` that are loaded is kept. -/
def Isolated (env : VmEnv) (C : Address) (vm vm' : Vm) : Prop := Apart env.db (· = C) vm vm'

/-- **Contract isolation.** A call without `EXEC` keeps the pending state of the other contracts, if
it is polite and does not fail where the snapshot is not faithful. -/
theorem call_isolated {C : Address} {method params : Bytes} {run : Run} {r : Except String Bytes}
    (h : call env C method params (run.interp env C) vm = some (r, vm')) (hexec : run.noExec = true)
    (hpolite : Polite env C run vm)
    (hfailed : ∀ msg, r = .error msg → ∀ a d, a ≠ C → vm.stateDB.lookup a = some d →
      SamePending env.db d d.copy) : Isolated env C vm vm' := by
  -- besides its own entry the run may change those that it adds
  have hkeep : ∀ {w : Vm}, Apart env.db (fun a => a = C ∨ a ∉ vm.stateDB) vm w →
      Isolated env C vm w := by
    intro w hw a d ha hd
    refine hw a d (fun hS => ?_) hd
    rcases hS with heq | hmem
    · exact ha heq
    · exact hmem (mem_of_lookup hd)
  cases r with
  | ok ret =>
    apply hkeep
    obtain ⟨w, ret', w', hw, hrun, hafter⟩ :=
      (Outside.frames (S := fun a => a = C ∨ a ∉ vm.stateDB) (.inl rfl)).call h
    have hstart : Apart env.db (fun a => a = C ∨ a ∉ vm.stateDB) vm vm :=
      fun a d _ hd => ⟨d, hd, .refl _ _⟩
    refine (interp_apart hexec (fun a ha => ?_) hpolite.heirs (.inl rfl) hrun
      (hstart.outside hw)).outside hafter
    exact (hpolite.loads a ha).imp_left .inl
  | error msg =>
    rcases (Outside.frames (S := (· = C)) rfl).call_error h with hout | ⟨w, rfl⟩
    · intro a d ha hd
      exact ⟨d, (hout a ha).trans hd, .refl _ _⟩
    intro a d ha hd
    refine ⟨d.copy, ?_, hfailed msg rfl a d ha hd⟩
    rw [Vm.restore, lookup_copyAll, hd]
    rfl

/-! ## A library with pending data -/

/-- The contracts 5, 6 and 7 exist. -/
def marketEnv : VmEnv :=
  { shopEnv with
    db := ((singleton 5 ⟨singleton codeKey [1], ∅⟩).insert 6
      ⟨singleton codeKey [1], ∅⟩).insert 7 ⟨singleton codeKey [1], ∅⟩ }

/-- The contract 6 has stored something in this block. -/
def marketVm : Vm :=
  { shopVm with
    stateDB := singleton 6
      { contract := 6, data := singleton [1] ⟨none, some [2]⟩ } }

/-- A run that loads a library and stores something. -/
def loadingRun (a : Address) : Run := .op (.libLoad a) (.op (.store [3] [4]) (.done []))

/-- A library that nobody has called in the block is loaded. -/
theorem loading_isolated :
    ∃ vm', call marketEnv 5 [1, 2, 3, 4] [] ((loadingRun 7).interp marketEnv 5) marketVm =
        some (.ok [], vm') ∧ Isolated marketEnv 5 marketVm vm' := by
  refine exists_end (Q := fun _ => True) (by decide +kernel) fun vm' hcall _ => ?_
  have hpolite : Polite marketEnv 5 (loadingRun 7) marketVm := by
    refine ⟨fun a ha => .inr fun d hd => ?_, nofun⟩
    obtain rfl := mem_singleton.mp ha
    cases hd
  exact call_isolated hcall rfl hpolite nofun

/-- What the contract 6 has stored is lost when it is loaded as a library. -/
theorem loading_not_isolated :
    ∃ vm', call marketEnv 5 [1, 2, 3, 4] [] ((loadingRun 6).interp marketEnv 5) marketVm =
        some (.ok [], vm') ∧ ¬Isolated marketEnv 5 marketVm vm' := by
  refine exists_end (Q := fun vm' => (vm'.stateDB.lookup 6).map (·.pending marketEnv.db [1]) =
    some none) (by decide +kernel) fun vm' _ hafter h => ?_
  obtain ⟨d', hd', hsame⟩ := h 6 _ (by decide) rfl
  have hdata := hsame.data rfl [1]
  rw [hd', map_some] at hafter
  rw [some.inj hafter] at hdata
  cases hdata

end Zent.Ovm
