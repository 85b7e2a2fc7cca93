import Zent.Chainmap.FOCMap

/-!
# Removal from the map of chains

`RemoveDns` and `RemoveChain` of `omega/chainmap/chainmap.go`. `RemoveDns` removes seeds from the
slice it ranges over, so it skips some and can run past the end, and then it writes the seeds alone
where all the parameters were.
-/

namespace Zent

open Go

/-- The slice `param.DNSSeeds` in the loop of `RemoveDns`: the array behind it, with the place where
each seed stood at first, and its length. -/
structure SeedSlice where
  array : List (Nat × String)
  len : Nat

/-- One iteration. The array is that of the slice which is ranged over, so `d` can be one of the
seeds that were moved. -/
def dropStep (host : String) (s : SeedSlice) (i : Nat) : Result SeedSlice := do
  let d ← index s.array i
  if d.2 = host then
    -- `param.DNSSeeds[i+1:]`
    if s.len < i + 1 then crash
    else .ok ⟨s.array.take i ++ (s.array.take s.len).drop (i + 1) ++ s.array.drop (s.len - 1),
      s.len - 1⟩
  else .ok s

/-- The places of the seeds that are left. -/
def dropSeeds (hosts : List String) (host : String) : Result (List Nat) := do
  let s ← (List.range hosts.length).foldlM (dropStep host)
    ⟨(List.range hosts.length).zip hosts, hosts.length⟩
  .ok ((s.array.take s.len).map Prod.fst)

theorem dropSeeds_nil (host : String) : dropSeeds [] host = .ok [] := rfl

-- the second of two neighbours is skipped, and a second one at the end is met again where the slice
-- has become too short
example : dropSeeds ["a", "a", "b"] "a" = .ok [1, 2] ∧ dropSeeds ["a", "b", "a"] "a" = crash := by
  decide

/-- `encoding/json` on `[]chaincfg.DNSSeed`. -/
structure SeedsJson (json : ParamsJson) where
  /-- `Marshal` of the seeds of some parameters that are left -/
  seedsText : String → List Nat → String
  /-- an array or `null` where the parameters are expected has no seeds -/
  dnsSeeds_seedsText : ∀ params kept, json.dnsSeeds (seedsText params kept) = []

variable {json : ParamsJson} {seeds : SeedsJson json} {m m' m'' : FOCMap} {c d : ChainDescriptor}
  {id : UInt32}

/-- `RemoveDns` -/
def removeDns (seeds : SeedsJson json) (m : FOCMap) (c : ChainDescriptor) : Result FOCMap :=
  match m.lookup c.chainID with
  | none => crash
  | some d => do
    let kept ← dropSeeds (json.dnsSeeds d.globalParams) c.dns
    .ok (m.insert c.chainID { d with globalParams := seeds.seedsText d.globalParams kept })

/-- `RemoveChain` -/
def removeChain (m : FOCMap) (c : UInt32) : FOCMap :=
  if (m.lookup c).isNone then m else if c = ROOT then m else m.erase c

theorem removeDns_of_lookup {kept : List Nat} (hd : m.lookup c.chainID = some d)
    (hkept : dropSeeds (json.dnsSeeds d.globalParams) c.dns = .ok kept) :
    removeDns seeds m c =
      .ok (m.insert c.chainID { d with globalParams := seeds.seedsText d.globalParams kept }) := by
  rw [removeDns, hd]
  dsimp only
  rw [hkept]
  rfl

theorem lookup_removeChain_self (h : id ≠ ROOT) : (removeChain m id).lookup id = none := by
  rw [removeChain]
  split
  case isTrue hnone => exact Option.isNone_iff_eq_none.mp hnone
  · rw [AList.lookup_erase]

theorem lookup_removeChain_ne {k : UInt32} (h : k ≠ id) :
    (removeChain m id).lookup k = m.lookup k := by
  rw [removeChain]
  split
  · rfl
  · split
    · rfl
    · exact AList.lookup_erase_ne h

/-- The maps hold the same chains. -/
def Restores (m m' : FOCMap) : Prop := ∀ id, m'.lookup id = m.lookup id

theorem Restores.refl : Restores m m := fun _ => rfl

end Zent
