import Zent.Chainmap.Removal
import Zent.Blockchain.ExecOps

/-!
# Undoing the instructions of a miner block

`UnExecOps` of `btcd/blockchain/chain.go`. It takes out the chains that were entered at the height
of the block, and removes every host that the block names, also where `ExecOps` had not entered it.
-/

namespace Zent

open Go Option AList

variable {env : OpsEnv} {block : MingingRightBlock}
  {height : UInt32} {m m' cur : FOCMap} {op : Instruction} {cd : ChainDescriptor}
  {s s' : ExecState} {id : UInt32} {done : List Instruction} {b : Bool}

/-- The chain goes if this is the block that added it. -/
def dropChain (block : MingingRightBlock) (m : FOCMap) (id : UInt32) : FOCMap :=
  match m.lookup id with
  | none => m
  | some d => if d.height ≠ block.height.toUInt32 then m else removeChain m id

/-- One instruction of the block. -/
def unExecOp (env : OpsEnv) (seeds : SeedsJson env.json) (block : MingingRightBlock) (m : FOCMap)
    (op : Instruction) : Result FOCMap :=
  if op.instCode = AddDns then
    match readDescriptor env op with
    | none => .ok m
    | some cd => if (m.lookup cd.chainID).isNone then .ok m else removeDns seeds m cd
  else if op.instCode = AddChain then
    match env.unmarshal op.instData with
    | .error => .ok m
    -- `cd` is a nil pointer now
    | .null => crash
    | .object set => .ok (dropChain block m (set newDescriptor).chainID)
  else .ok m

/-- `UnExecOps` -/
def unExecOps (env : OpsEnv) (seeds : SeedsJson env.json) (block : MingingRightBlock) (m : FOCMap) :
    Result FOCMap :=
  block.instructions.foldlM (unExecOp env seeds block) m

/-! ## What has been executed -/

/-- The instruction is about a chain. -/
def Names (env : OpsEnv) (code : UInt8) (op : Instruction) (id : UInt32) : Prop :=
  op.instCode = code ∧ ∃ cd, readDescriptor env op = some cd ∧ cd.chainID = id

/-- **What `ExecOps` can have made of `m`**: a chain stays, with its parameters unless a host was
to be added, and a new chain has the height of the block and an instruction of its own. -/
structure Built (env : OpsEnv) (block : MingingRightBlock) (m cur : FOCMap) : Prop where
  kept : ∀ id d, m.lookup id = some d → ∃ d', cur.lookup id = some d' ∧ d'.height = d.height ∧
    ((∀ op ∈ block.instructions, ¬ Names env AddDns op id) → d' = d)
  added : ∀ id d, cur.lookup id = some d → m.lookup id = none →
    d.height = block.height.toUInt32 ∧ ∃ op ∈ block.instructions, Names env AddChain op id

theorem Built.refl (m : FOCMap) : Built env block m m where
  kept _ d h := ⟨d, h, rfl, fun _ => rfl⟩
  added id d h hnone := by
    rw [hnone] at h
    cases h

/-- Only the lookups matter. -/
theorem Built.restores (h : Built env block m cur) {cur' : FOCMap} (hsame : Restores cur cur') :
    Built env block m cur' where
  kept id d hd := by
    rw [hsame id]
    exact h.kept id d hd
  added id d hd hnone := by
    rw [hsame id] at hd
    exact h.added id d hd hnone

/-- `AddDns` changes nothing but the parameters of the chain. -/
theorem addDns_lookup {json : ParamsJson} (h : addDns json m cd = .ok (m', b)) :
    m' = m ∨ ∃ d params, m.lookup cd.chainID = some d ∧
      m' = m.insert cd.chainID { d with globalParams := params } := by
  rw [addDns] at h
  split at h
  · cases h
  rename_i d hd
  split at h
  · cases h
    exact .inl rfl
  · split at h <;> cases h
    case h_1 => exact .inl rfl
    case h_2 params _ => exact .inr ⟨d, params, hd, rfl⟩

/-- The proposal is the descriptor of the instruction, at the height of the block. -/
theorem prepare_eq_some (h : prepare env block m op = some cd) :
    cd.height = block.height.toUInt32 ∧
      ∃ read, readDescriptor env op = some read ∧ read.chainID = cd.chainID := by
  rw [prepare] at h
  split at h
  · cases h
  case h_2 read hread =>
    split at h <;> cases h
    exact ⟨rfl, read, hread, rfl⟩

section

variable (hmem : op ∈ block.instructions)

include hmem

theorem Built.addDns (h : Built env block m cur)
    (hnames : Names env AddDns op cd.chainID) (hadd : addDns env.json cur cd = .ok (m', b)) :
    Built env block m m' := by
  rcases addDns_lookup hadd with rfl | ⟨d, params, hd, rfl⟩
  · exact h
  constructor
  · intro id e he
    by_cases hid : id = cd.chainID
    · subst hid
      obtain ⟨d', hd', hheight, -⟩ := h.kept _ e he
      rw [hd, some_inj] at hd'
      exact ⟨_, lookup_insert cur, hd' ▸ hheight, fun hno => absurd hnames (hno op hmem)⟩
    · rw [lookup_insert_ne hid]
      exact h.kept id e he
  · intro id e he hnone
    obtain ⟨rfl, rfl⟩ | ⟨-, he⟩ := lookup_insert_cases he
    · exact h.added _ d hd hnone
    · exact h.added id e he hnone

theorem Built.addChain (h : Built env block m cur)
    (hnames : Names env AddChain op cd.chainID) (hheight : cd.height = block.height.toUInt32)
    (hadd : addChain env.json cur cd = .ok (m', b)) : Built env block m m' := by
  by_cases haddable : ChainAddable env.json cur cd
  · rw [haddable.addChain] at hadd
    cases hadd
    constructor
    · intro id e he
      obtain ⟨d', hd', hrest⟩ := h.kept id e he
      have hid : id ≠ cd.chainID := ne_of_lookup hd' haddable.absent
      exact ⟨d', by rw [lookup_insert_ne hid, hd'], hrest⟩
    · intro id e he hnone
      obtain ⟨rfl, rfl⟩ | ⟨-, he⟩ := lookup_insert_cases he
      · exact ⟨hheight, op, hmem, hnames⟩
      · exact h.added id e he hnone
  · rcases addChain_cases hadd with ⟨rfl, -⟩ | ⟨hyes, -⟩
    · exact h
    · exact absurd hyes haddable

theorem Built.applyInst (h : Built env block m s.chains)
    {chains : FOCMap} (hcd : prepare env block chains op = some cd)
    (happly : applyInst env op.instCode cd s = .ok s') : Built env block m s'.chains := by
  obtain ⟨hheight, read, hread, hid⟩ := prepare_eq_some hcd
  rw [Zent.applyInst] at happly
  split at happly
  case isTrue hdns =>
    obtain ⟨⟨m₁, b⟩, hadd, happly⟩ := of_bind happly
    cases happly
    exact h.addDns hmem ⟨hdns, read, hread, hid⟩ hadd
  split at happly
  case isTrue hchain =>
    obtain ⟨⟨m₁, b⟩, hadd, happly⟩ := of_bind happly
    cases happly
    exact h.addChain hmem ⟨hchain, read, hread, hid⟩ hheight hadd
  · cases happly
    exact h

theorem Built.execOp (h : Built env block m s.chains)
    (hop : execOp env block height s op = .ok s') : Built env block m s'.chains := by
  rcases execOp_cases hop with ⟨-, rfl⟩ | ⟨cd, p, hcd, hp, rfl⟩
  · exact h
  refine foldlM_induction (P := fun _ (q : Poll) => Built env block m q.exec.chains) h ?_ hp
  intro _ blk q q' hq hstep
  rcases (pollStep_eq_ok.mp hstep).2 with ⟨-, hsame⟩ | ⟨-, happly⟩
  · exact hsame ▸ hq
  · exact hq.applyInst hmem hcd happly

end

theorem execOps_built (h : execOps env block height m = .ok s) : Built env block m s.chains := by
  refine foldlM_induction_run (P := fun _ (u : ExecState) => Built env block m u.chains)
    (Built.refl m) ?_ h
  intro done op rest u u' hsplit _ hu hstep
  exact hu.execOp (hsplit ▸ List.mem_append_right done List.mem_cons_self) hstep

/-! ## Undoing it -/

/-- **The instructions of the block do not touch what was in `m` before it.** No chain that was
there goes, no host is removed from one, and the descriptors are there to be read. From a chain that
the block added a host may be removed, if the loop over the seeds does not run past the end. -/
structure UndoClean (env : OpsEnv) (block : MingingRightBlock) (m cur : FOCMap) : Prop where
  read : ∀ op ∈ block.instructions, op.instCode = AddChain → env.unmarshal op.instData ≠ .null
  chains : ∀ op ∈ block.instructions, ∀ id d, Names env AddChain op id → m.lookup id = some d →
    id = ROOT ∨ d.height ≠ block.height.toUInt32
  hosts : ∀ op ∈ block.instructions, ∀ id, Names env AddDns op id → m.lookup id = none
  seeds : ∀ done op rest cd d, block.instructions = done ++ op :: rest → op.instCode = AddDns →
    readDescriptor env op = some cd → cur.lookup cd.chainID = some d →
    (∃ op' ∈ done, Names env AddChain op' cd.chainID) ∨
      ∃ kept, dropSeeds (env.json.dnsSeeds d.globalParams) cd.dns = .ok kept

/-- The map while the block is undone: what was there before is there, and a chain that the block
added is there until its instruction has been met. -/
structure Undoing (env : OpsEnv) (block : MingingRightBlock) (m cur : FOCMap)
    (done : List Instruction) (u : FOCMap) : Prop where
  old : ∀ id, (m.lookup id).isSome → u.lookup id = m.lookup id
  new : ∀ id e, u.lookup id = some e → m.lookup id = none →
    e.height = block.height.toUInt32 ∧ (∀ op ∈ done, ¬ Names env AddChain op id) ∧
    ∃ d, cur.lookup id = some d ∧
      (e.globalParams = d.globalParams ∨ env.json.dnsSeeds e.globalParams = [])

theorem Undoing.start (h : Built env block m cur) (hclean : UndoClean env block m cur) :
    Undoing env block m cur [] cur where
  old id hsome := by
    obtain ⟨d, hd⟩ := isSome_iff_exists.mp hsome
    obtain ⟨d', hd', -, hsame⟩ := h.kept id d hd
    rw [hd', hd, hsame fun op hop hnames => ?_]
    rw [hclean.hosts op hop id hnames] at hd
    cases hd
  new id e he hnone := ⟨(h.added id e he hnone).1, nofun, e, he, .inl rfl⟩

variable {u : FOCMap} (h : Undoing env block m cur done u)

include h

/-- An instruction that changes nothing and names no new chain. -/
theorem Undoing.skip
    (hno : ∀ id, Names env AddChain op id → m.lookup id = none → u.lookup id = none) :
    Undoing env block m cur (done ++ [op]) u where
  old := h.old
  new id e he hnone := by
    obtain ⟨hheight, hnot, hparams⟩ := h.new id e he hnone
    refine ⟨hheight, List.forall_mem_append.mpr ⟨hnot, List.forall_mem_singleton.mpr ?_⟩, hparams⟩
    intro hnames
    rw [hno id hnames hnone] at he
    cases he

variable (seeds : SeedsJson env.json) (hclean : UndoClean env block m cur) {rest : List Instruction}

include hclean

theorem Undoing.removeDns {e : ChainDescriptor}
    (hsplit : block.instructions = done ++ op :: rest) (hcode : op.instCode = AddDns)
    (hread : readDescriptor env op = some cd) (he : u.lookup cd.chainID = some e) :
    ∃ u', Zent.removeDns seeds u cd = .ok u' ∧ Undoing env block m cur (done ++ [op]) u' := by
  have hmem : op ∈ block.instructions := hsplit ▸ List.mem_append_right done List.mem_cons_self
  have hnone := hclean.hosts op hmem _ ⟨hcode, cd, hread, rfl⟩
  obtain ⟨hheight, hnot, d, hd, hparams⟩ := h.new _ e he hnone
  have hkept : ∃ kept, dropSeeds (env.json.dnsSeeds e.globalParams) cd.dns = .ok kept := by
    rcases hparams with hsame | hempty
    · rw [hsame]
      refine (hclean.seeds done op rest cd d hsplit hcode hread hd).resolve_left ?_
      rintro ⟨op', hop', hnames⟩
      exact hnot op' hop' hnames
    · rw [hempty]
      exact ⟨[], dropSeeds_nil _⟩
  obtain ⟨kept, hkept⟩ := hkept
  refine ⟨_, removeDns_of_lookup he hkept, ?_⟩
  have hskip : Undoing env block m cur (done ++ [op]) u :=
    h.skip fun _ hnames => absurd (hnames.1.symm.trans hcode) addChain_ne_addDns
  constructor
  · intro id hsome
    have hid : id ≠ cd.chainID := by
      rintro rfl
      rw [hnone] at hsome
      cases hsome
    rw [lookup_insert_ne hid]
    exact h.old id hsome
  · intro id e' he' hnone'
    obtain ⟨rfl, rfl⟩ | ⟨-, he'⟩ := lookup_insert_cases he'
    · exact ⟨hheight, (hskip.new _ e he hnone).2.1, d, hd, .inr (seeds.dnsSeeds_seedsText _ _)⟩
    · exact hskip.new id e' he' hnone'

/-- A chain is taken out, if the block added it. -/
theorem Undoing.dropChain (hroot : (m.lookup ROOT).isSome)
    (hmem : op ∈ block.instructions) (hnames : Names env AddChain op id) :
    Undoing env block m cur (done ++ [op]) (Zent.dropChain block u id) := by
  have hsame : ∀ id', Names env AddChain op id' → id' = id := by
    rintro id' ⟨-, cd, hread, rfl⟩
    obtain ⟨-, cd', hread', rfl⟩ := hnames
    rw [hread, some_inj] at hread'
    rw [hread']
  rw [Zent.dropChain]
  split
  case h_1 hnone =>
    refine h.skip fun id' hnames' _ => ?_
    rw [hsame id' hnames', hnone]
  rename_i e he
  split
  case isTrue hne =>
    refine h.skip fun id' hnames' hnone' => ?_
    rw [hsame id' hnames'] at hnone' ⊢
    exact absurd (h.new id e he hnone').1 hne
  rename_i heq
  by_cases hold : (m.lookup id).isSome
  · -- only the root has the height of the block and stays
    obtain ⟨d, hd⟩ := isSome_iff_exists.mp hold
    have heq' : e = d := by
      rw [h.old id hold, hd, some_inj] at he
      exact he.symm
    have hid : id = ROOT := (hclean.chains op hmem id d hnames hd).resolve_right
      (not_not.mpr (heq' ▸ not_not.mp heq))
    have hstay : removeChain u id = u := by
      rw [removeChain, he, isNone_some, if_neg Bool.false_ne_true, if_pos hid]
    rw [hstay]
    refine h.skip fun id' hnames' hnone' => ?_
    rw [hsame id' hnames', hd] at hnone'
    cases hnone'
  · have hid : id ≠ ROOT := by
      rintro rfl
      exact hold hroot
    constructor
    · intro id' hsome
      have hne : id' ≠ id := by
        rintro rfl
        exact hold hsome
      rw [lookup_removeChain_ne hne]
      exact h.old id' hsome
    · intro id' e' he' hnone'
      have hne : id' ≠ id := ne_of_lookup he' (lookup_removeChain_self hid)
      rw [lookup_removeChain_ne hne] at he'
      obtain ⟨hheight, hnot, hparams⟩ := h.new id' e' he' hnone'
      have hskip : ¬ Names env AddChain op id' := fun hnames' => hne (hsame id' hnames')
      exact ⟨hheight, List.forall_mem_append.mpr ⟨hnot, List.forall_mem_singleton.mpr hskip⟩,
        hparams⟩

theorem Undoing.unExecOp (hroot : (m.lookup ROOT).isSome)
    (hsplit : block.instructions = done ++ op :: rest) :
    ∃ u', Zent.unExecOp env seeds block u op = .ok u' ∧
      Undoing env block m cur (done ++ [op]) u' := by
  have hmem : op ∈ block.instructions := hsplit ▸ List.mem_append_right done List.mem_cons_self
  rw [Zent.unExecOp]
  split
  case isTrue hdns =>
    have hskip : Undoing env block m cur (done ++ [op]) u :=
      h.skip fun _ hnames => absurd (hnames.1.symm.trans hdns) addChain_ne_addDns
    split
    · exact ⟨u, rfl, hskip⟩
    rename_i cd hread
    split
    · exact ⟨u, rfl, hskip⟩
    rename_i hsome
    obtain ⟨e, he⟩ := ne_none_iff_exists'.mp
      (fun hnone => hsome (isNone_iff_eq_none.mpr hnone))
    exact h.removeDns seeds hclean hsplit hdns hread he
  · split
    case isTrue hchain =>
      split
      case h_1 herror =>
        refine ⟨u, rfl, h.skip ?_⟩
        rintro id ⟨-, cd, hread, -⟩
        rw [readDescriptor, herror] at hread
        cases hread
      case h_2 hnull => exact absurd hnull (hclean.read op hmem hchain)
      case h_3 set hobject =>
        refine ⟨_, rfl, h.dropChain hclean hroot hmem ⟨hchain, set newDescriptor, ?_, rfl⟩⟩
        rw [readDescriptor, hobject]
    case isFalse hother => exact ⟨u, rfl, h.skip fun _ hnames => absurd hnames.1 hother⟩

omit h in
/-- **The map comes back** when a block is undone that does not touch what was there before it. -/
theorem unExecOps_restores (h : Built env block m cur) (hroot : (m.lookup ROOT).isSome) :
    ∃ u, unExecOps env seeds block cur = .ok u ∧ Restores m u := by
  obtain ⟨u, hu, hundone⟩ := foldlM_progress (P := Undoing env block m cur)
    (Undoing.start h hclean) fun done op rest v hsplit hv =>
      hv.unExecOp seeds hclean hroot hsplit
  refine ⟨u, hu, fun id => ?_⟩
  by_cases hold : (m.lookup id).isSome
  · exact hundone.old id hold
  have hnone := not_isSome_iff_eq_none.mp hold
  rw [hnone]
  by_contra hne
  obtain ⟨e, he⟩ := ne_none_iff_exists'.mp hne
  obtain ⟨-, hnot, d, hd, -⟩ := hundone.new id e he hnone
  obtain ⟨-, op, hop, hnames⟩ := h.added id d hd hnone
  exact hnot op hop hnames

end Zent
