import Zent.Blockchain.CrossChain

/-!
# The map of chains

`AddDns` and `AddChain` of `omega/chainmap/chainmap.go`. The reading and the writing of a chain's
parameters in JSON are parameters.
-/

namespace Zent

open Go Option List AList

/-- `wire.ChainDescriptor` -/
structure ChainDescriptor where
  version : UInt32
  magic : UInt32
  mrChain : Bool
  genesis : String
  mrGenesis : String
  parent : UInt32
  chainID : UInt32
  dns : String
  defaultPort : String
  defaultRPCPort : String
  height : UInt32
  globalParams : String
  legacy : Bool
  final : UInt32
  deriving DecidableEq, Repr

namespace ChainDescriptor

/-- `&wire.ChainDescriptor{}` -/
def zero : ChainDescriptor :=
  ⟨0, 0, false, "", "", 0, 0, "", "", "", 0, "", false, 0⟩

/-- `Match` -/
def isMatch (t s : ChainDescriptor) : Bool :=
  t.magic = s.magic ∧ t.mrChain = s.mrChain ∧
    t.genesis = s.genesis ∧ t.mrGenesis = s.mrGenesis ∧
    t.dns = s.dns ∧ t.defaultRPCPort = s.defaultRPCPort ∧
    t.defaultPort = s.defaultPort ∧ t.parent = s.parent ∧
    t.chainID = s.chainID ∧ t.globalParams = s.globalParams

/-- The chain `d` of the map stands in the way of the new chain `c`. -/
def conflicts (d c : ChainDescriptor) : Bool :=
  d.magic = c.magic ∨ (d.dns = c.dns ∧ d.defaultPort = c.defaultRPCPort) ∨
    d.genesis = c.genesis ∨ (c.mrChain ∧ d.mrChain ∧ d.mrGenesis = c.mrGenesis)

end ChainDescriptor

/-- `ChainMap` of a `FOCMap`. -/
abbrev FOCMap : Type := Map UInt32 ChainDescriptor

/-- `encoding/json` on `chaincfg.GlobalParams`. -/
structure ParamsJson where
  /-- the hosts of the `DNSSeeds` that `Unmarshal` reads; it ignores a malformed text -/
  dnsSeeds : String → List String
  /-- `Marshal` of the parameters read, with one more seed -/
  addSeed : String → String → Option String
  /-- `Unmarshal` gives no error -/
  valid : String → Bool
  /-- what has been written is read back -/
  dnsSeeds_addSeed : ∀ {params host params'}, addSeed params host = some params' →
    dnsSeeds params' = dnsSeeds params ++ [host]

variable {json : ParamsJson} {m m' m'' : FOCMap} {c cd : ChainDescriptor} {b : Bool}

/-- `AddDns` -/
def addDns (json : ParamsJson) (m : FOCMap) (cd : ChainDescriptor) : Result (FOCMap × Bool) :=
  match m.lookup cd.chainID with
  -- the nil descriptor is read
  | none => crash
  | some d =>
    if cd.dns ∈ json.dnsSeeds d.globalParams then .ok (m, true)
    else
      match json.addSeed d.globalParams cd.dns with
      | none => .ok (m, true)
      | some md => .ok (m.insert cd.chainID { d with globalParams := md }, true)

/-- `AddChain` -/
def addChain (json : ParamsJson) (m : FOCMap) (c : ChainDescriptor) : Result (FOCMap × Bool) :=
  if c.chainID ≠ ROOT ∧ c.parent = 0 then .ok (m, false)
  else if c.chainID = ROOT ∧ c.parent ≠ 0 then .ok (m, false)
  else if (m.lookup c.chainID).isSome then .ok (m, false)
  else if m.entries.any fun d => d.2.conflicts c then .ok (m, false)
  -- `panic("bad GlobalParams data")`
  else if json.valid c.globalParams = false then crash
  else .ok (m.insert c.chainID c, true)

/-! ## When the map changes -/

/-- Some chain is entered or altered. -/
def Changes (m m' : FOCMap) : Prop := ∃ id, m'.lookup id ≠ m.lookup id

theorem not_changes_self : ¬ Changes m m := fun ⟨_, h⟩ => h rfl

/-- The chain is in the map, and the host is not among its seeds. -/
def DnsAddable (json : ParamsJson) (m : FOCMap) (cd : ChainDescriptor) : Prop :=
  ∃ d, m.lookup cd.chainID = some d ∧ cd.dns ∉ json.dnsSeeds d.globalParams ∧
    (json.addSeed d.globalParams cd.dns).isSome

/-- The chain is not in the map, has a parent unless it is the root, has readable parameters, and no
chain of the map stands in its way. -/
structure ChainAddable (json : ParamsJson) (m : FOCMap) (c : ChainDescriptor) : Prop where
  root : c.chainID = ROOT ↔ c.parent = 0
  absent : m.lookup c.chainID = none
  apart : ∀ d ∈ m.entries, d.2.conflicts c = false
  valid : json.valid c.globalParams = true

/-- The host is among the seeds of the chain. -/
def HasSeed (json : ParamsJson) (m : FOCMap) (cd : ChainDescriptor) : Prop :=
  ∃ d, m.lookup cd.chainID = some d ∧ cd.dns ∈ json.dnsSeeds d.globalParams

/-- The chains of `m` are still in `m'`, with all their seeds. -/
def Grows (json : ParamsJson) (m m' : FOCMap) : Prop :=
  ∀ id d, m.lookup id = some d → ∃ d', m'.lookup id = some d' ∧
    json.dnsSeeds d.globalParams ⊆ json.dnsSeeds d'.globalParams

theorem Grows.refl : Grows json m m := fun _ d h => ⟨d, h, fun _ hx => hx⟩

theorem Grows.trans (h : Grows json m m') (h' : Grows json m' m'') : Grows json m m'' := by
  intro id d hd
  obtain ⟨d', hd', hsub⟩ := h id d hd
  obtain ⟨d'', hd'', hsub'⟩ := h' id d' hd'
  exact ⟨d'', hd'', List.Subset.trans hsub hsub'⟩

theorem HasSeed.grows (h : HasSeed json m cd) (hg : Grows json m m') : HasSeed json m' cd := by
  obtain ⟨d, hd, hmem⟩ := h
  obtain ⟨d', hd', hsub⟩ := hg _ d hd
  exact ⟨d', hd', hsub hmem⟩

theorem HasSeed.not_addable (h : HasSeed json m cd) : ¬ DnsAddable json m cd := by
  rintro ⟨d, hd, hnot, -⟩
  obtain ⟨d', hd', hmem⟩ := h
  rw [hd, some_inj] at hd'
  exact hnot (hd' ▸ hmem)

/-- A chain that is in the map keeps its seeds when it gets one more. -/
theorem grows_insert {d d' : ChainDescriptor} {id : UInt32} (hd : m.lookup id = some d)
    (hsub : json.dnsSeeds d.globalParams ⊆ json.dnsSeeds d'.globalParams) :
    Grows json m (m.insert id d') := by
  intro k e he
  by_cases hk : k = id
  · subst hk
    rw [hd, some_inj] at he
    exact ⟨d', lookup_insert m, he ▸ hsub⟩
  · exact ⟨e, by rw [lookup_insert_ne hk, he], fun _ hx => hx⟩

/-- A new chain takes no other chain's place. -/
theorem grows_insert_absent {d : ChainDescriptor} {id : UInt32} (hd : m.lookup id = none) :
    Grows json m (m.insert id d) := by
  intro k e he
  exact ⟨e, by rw [lookup_insert_ne (ne_of_lookup he hd), he], fun _ hx => hx⟩

/-- **What `AddDns` does**: nothing, or the host is entered. -/
theorem addDns_cases (h : addDns json m cd = .ok (m', b)) :
    (m' = m ∧ ¬ DnsAddable json m cd) ∨
    (DnsAddable json m cd ∧ Changes m m' ∧ HasSeed json m' cd ∧ Grows json m m') := by
  rw [addDns] at h
  split at h
  · cases h
  rename_i d hd
  split at h
  case isTrue hmem =>
    cases h
    exact .inl ⟨rfl, HasSeed.not_addable ⟨d, hd, hmem⟩⟩
  rename_i hmem
  split at h
  case h_1 hnone =>
    cases h
    refine .inl ⟨rfl, ?_⟩
    rintro ⟨d', hd', -, hsome⟩
    rw [hd, some_inj] at hd'
    rw [← hd', hnone] at hsome
    cases hsome
  case h_2 md hmd =>
    cases h
    have hseeds := json.dnsSeeds_addSeed hmd
    have hnew : cd.dns ∈ json.dnsSeeds md := by
      rw [hseeds]
      exact mem_append_right _ mem_cons_self
    refine .inr ⟨⟨d, hd, hmem, isSome_of_mem hmd⟩, ⟨cd.chainID, ?_⟩,
      ⟨_, lookup_insert m, hnew⟩, grows_insert hd ?_⟩
    · rw [lookup_insert, hd]
      intro heq
      exact hmem (some_inj.mp heq ▸ hnew)
    · rw [hseeds]
      exact subset_append_left _ _

theorem DnsAddable.addDns (h : DnsAddable json m cd) : ∃ m', addDns json m cd = .ok (m', true) := by
  obtain ⟨d, hd, hnot, hsome⟩ := h
  obtain ⟨md, hmd⟩ := isSome_iff_exists.mp hsome
  rw [Zent.addDns, hd]
  dsimp only
  rw [if_neg hnot, hmd]
  exact ⟨_, rfl⟩

theorem ChainAddable.addChain (h : ChainAddable json m c) :
    addChain json m c = .ok (m.insert c.chainID c, true) := by
  have hany : ¬ m.entries.any (fun d => d.2.conflicts c) = true := by
    rw [List.any_eq_true]
    rintro ⟨d, hd, hconf⟩
    rw [h.apart d hd] at hconf
    cases hconf
  rw [Zent.addChain, if_neg fun hc => hc.1 (h.root.mpr hc.2),
    if_neg fun hc => hc.2 (h.root.mp hc.1), h.absent, isSome_none, if_neg Bool.false_ne_true,
    if_neg hany, h.valid,
    if_neg Bool.true_eq_false.mp]

/-- **What `AddChain` does**: nothing, or the chain is entered. -/
theorem addChain_cases (h : addChain json m c = .ok (m', b)) :
    (m' = m ∧ ¬ ChainAddable json m c) ∨
    (ChainAddable json m c ∧ Changes m m' ∧ (m'.lookup c.chainID).isSome ∧ Grows json m m') := by
  by_cases hadd : ChainAddable json m c
  · rw [hadd.addChain] at h
    cases h
    refine .inr ⟨hadd, ⟨c.chainID, ?_⟩, ?_, grows_insert_absent hadd.absent⟩
    · rw [lookup_insert, hadd.absent]
      exact some_ne_none c
    · rw [lookup_insert]
      rfl
  · refine .inl ⟨?_, hadd⟩
    rw [addChain] at h
    split at h
    · cases h; rfl
    case isFalse hparent =>
    split at h
    · cases h; rfl
    case isFalse hroot =>
    split at h
    · cases h; rfl
    case isFalse habsent =>
    split at h
    · cases h; rfl
    case isFalse hapart =>
    split at h
    · cases h
    case isFalse hvalid =>
    refine absurd ⟨?_, ?_, ?_, ?_⟩ hadd
    · exact ⟨fun hid => by_contra fun hp => hroot ⟨hid, hp⟩,
        fun hp => by_contra fun hid => hparent ⟨hid, hp⟩⟩
    · exact not_isSome_iff_eq_none.mp habsent
    · intro d hd
      exact Bool.eq_false_iff.mpr fun hconf => hapart (any_eq_true.mpr ⟨d, hd, hconf⟩)
    · exact Bool.not_eq_false _ ▸ hvalid

end Zent
