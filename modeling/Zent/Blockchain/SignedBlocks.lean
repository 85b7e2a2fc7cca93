import Zent.Blockchain.ProofOfWork

/-!
# What the check of a signed block establishes

A block that passes `checkProofOfWork` with a non-positive nonce has been signed by at least
`CommitteeSigs` miners of the committee at its parent, is left with signatures of different
members only, and carries the nonce its place asks for.

* `rotation` is what all blocks up to a node have moved the committee on by. The check never
  reads it: it starts from the number kept with the tip and walks over the fork
  (`rotateTo_findFork`).
* `Matched` is the invariant of the loop over the signature scripts: those kept so far have
  different signers, all taken from the committee, and taking out the collected indexes leaves
  exactly them.
* `Approved` collects what a passed check says; `checkProofOfWork_signed` takes it from the
  code, in a state whose stored number is the rotation of the tip (`WellRotated`).
-/

namespace Zent

open Go List Int32 Branch

/-! ## The rotation of a node -/

/-- The rotation at a node: by how much the blocks up to it have moved the committee on. -/
def rotation (n : Node) : UInt32 := total (fun p => UInt32.ofNat (Node.advance p)) n

theorem rotation_cons (x : NodeData) (n : Node) :
    rotation (x :: n) = rotation n + UInt32.ofNat (Node.advance (x :: n)) := rfl

/-- **The walk over the fork** reaches the rotation of the node. -/
theorem rotateTo_findFork (tip pn : Node) :
    rotateTo (rotation tip) (findFork tip pn) tip pn = rotation pn :=
  walk_total _ (findFork_suffix_tip tip pn) (findFork_suffix_node tip pn)

variable {S : Type} {env : PowEnv S} {parent : Node} {r : UInt32}

/-- The number kept with the tip is its rotation, and no block of the chain has nonce zero, which
is taken off like a POW block although it is put on like one of a series. -/
structure WellRotated (st : ChainState S) : Prop where
  node : st.snapshot.node = st.tip
  last : st.snapshot.lastRotation = rotation st.tip
  nonzero : ∀ x ∈ st.tip, x.nonce ≠ 0

variable {st : ChainState S}

theorem parentRotation_eq {hash : Hash} (hw : WellRotated st)
    (h : parentRotation env st hash (some parent) = .ok r) : r = rotation parent := by
  rw [parentRotation, hw.node, hw.last] at h
  split at h
  case isTrue heq =>
    rw [heq]
    exact (Except.ok.inj h).symm
  · obtain ⟨-, -, h⟩ := of_bind h
    rw [rotateTo_findFork] at h
    exact (Except.ok.inj h).symm

/-! ## The committee -/

/-- A miner of one of the miner blocks at the last `CommitteeSize` heights up to the rotation. -/
def InCommittee (env : PowEnv S) (r : UInt32) (m : Address) : Prop :=
  ∃ h : Int, (r.toNat : Int) - CommitteeSize + 1 ≤ h ∧ h ≤ r.toNat ∧
    ∃ blk, env.blockByHeight (ofInt h) = some blk ∧ blk.miner = m

theorem toInt32_eq_ofInt (i : UInt32) : i.toInt32 = ofInt i.toNat := by
  conv_lhs => rw [← UInt32.ofNat_toNat (x := i)]
  rfl

theorem toInt_toInt32 (i : UInt32) : i.toInt32.toInt = (i.toNat : Int).bmod (2 ^ 32) := by
  rw [toInt32_eq_ofInt, toInt_ofInt]
  rfl

variable {heights : List UInt32}

/-- The loop over the heights stays in the window: a first height that has wrapped ends it. -/
theorem mem_committeeHeights {i : UInt32}
    (h : committeeHeights r = .ok heights) (hi : i ∈ heights) :
    (r.toNat : Int) - CommitteeSize + 1 ≤ i.toNat ∧ (i.toNat : Int) ≤ r.toNat := by
  simp only [committeeHeights] at h
  split at h
  · cases h
  split at h
  case isFalse =>
    cases h
    cases hi
  rename_i hle
  cases h
  obtain ⟨k, hk, rfl⟩ := mem_map.mp hi
  have hr := r.toNat_lt
  rw [mem_range] at hk
  rw [UInt32.le_iff_toNat_le] at hle
  simp only [CommitteeSize, UInt32.toNat_add, UInt32.toNat_sub, UInt32.toNat_ofNat',
    UInt32.toNat_one] at hk hle ⊢
  omega

theorem inCommittee_of_mem (h : committeeHeights r = .ok heights) {mb : MinerBlock}
    (hmb : mb ∈ heights.filterMap fun i => env.blockByHeight i.toInt32) :
    InCommittee env r mb.miner := by
  obtain ⟨i, hi, hblk⟩ := mem_filterMap.mp hmb
  obtain ⟨hlow, hhigh⟩ := mem_committeeHeights h hi
  exact ⟨i.toNat, hlow, hhigh, mb, toInt32_eq_ofInt i ▸ hblk, rfl⟩

/-- A committee that is not empty stands on the heights of the miner chain. -/
theorem InCommittee.rotation_le {m : Address} (h : InCommittee env r m) : r.toNat ≤ 2 ^ 31 + 1 := by
  obtain ⟨h, hlow, hhigh, blk, hblk, -⟩ := h
  have hr := r.toNat_lt
  by_contra hgt
  -- such heights are negative as `int32`
  have hneg : ofInt h < 0 := by
    rw [lt_iff_toInt_lt, toInt_ofInt]
    simp only [CommitteeSize] at hlow
    simp only [size, toInt_zero, Int.bmod_def]
    omega
  rw [env.blockByHeight_neg _ hneg] at hblk
  cases hblk

/-- Only miners of the given blocks are enrolled. -/
theorem enrol_run {mbs : List MinerBlock} {awardto : Finset Address} {roll : Roll}
    (h : mbs.foldlM (enrol env parent) ⟨∅, awardto⟩ = .ok roll) :
    ∀ m ∈ roll.committee, ∃ mb ∈ mbs, mb.miner = m := by
  refine foldlM_induction (P := fun done (r : Roll) => ∀ m ∈ r.committee, ∃ mb ∈ done, mb.miner = m)
    (fun m hm => absurd hm (Finset.notMem_empty m)) ?_ h
  intro done mb r r' hr hstep m hm
  obtain ⟨-, -, hstep⟩ := of_bind hstep
  cases hstep
  rcases Finset.mem_insert.mp hm with rfl | hm
  · exact ⟨mb, by simp, rfl⟩
  · obtain ⟨mb', hmb', rfl⟩ := hr m hm
    exact ⟨mb', mem_append_left _ hmb', rfl⟩

/-! ## The place in the series -/

/-- The nonce a signed block must have after a block with nonce `pnonce`, at rotation `r`. -/
structure InSeries (pnonce nonce : Int32) (r : Int) : Prop where
  /-- after a POW block or a rotation block a series starts -/
  starts : 0 < pnonce ∨ pnonce ≤ -MINER_RORATE_FREQ → nonce = -1
  /-- the last of a series is followed by a rotation block, which names the next miner block -/
  rotates : pnonce = -(MINER_RORATE_FREQ - 1) → nonce.toInt = -(r + 1 + MINER_RORATE_FREQ.toInt)
  /-- otherwise the series goes on -/
  goesOn : pnonce ≤ 0 → -(MINER_RORATE_FREQ - 1) < pnonce → nonce = pnonce - 1

/-- What a passed test of the place says, before the rotation is known to be small. -/
theorem checkSeries_eq_ok {pnonce nonce : Int32} {u : Unit}
    (h : checkSeries pnonce nonce r = .ok u) :
    (0 < pnonce ∨ pnonce ≤ -MINER_RORATE_FREQ → nonce = -1) ∧
    (pnonce = -(MINER_RORATE_FREQ - 1) →
      nonce = -(r + 1 + MINER_RORATE_FREQ.toUInt32).toInt32) ∧
    (pnonce ≤ 0 → -(MINER_RORATE_FREQ - 1) < pnonce → nonce = pnonce - 1) := by
  refine ⟨fun hp => ?_, fun hp => ?_, fun hle hgt => ?_⟩
  · rcases hp with hp | hp
    · rw [checkSeries, if_pos hp] at h
      exact not_not.mp (failIf_eq_ok.mp h)
    have hpos : ¬pnonce > 0 := Int32.not_lt.mpr (Int32.le_trans hp (by decide))
    have hne : pnonce ≠ -MINER_RORATE_FREQ + 1 := by
      rintro rfl
      exact absurd hp (by decide)
    rw [checkSeries, if_neg hpos, if_neg hne, if_pos hp] at h
    exact not_not.mp (failIf_eq_ok.mp h)
  · subst hp
    exact not_not.mp (failIf_eq_ok.mp h)
  · have hne : pnonce ≠ -MINER_RORATE_FREQ + 1 := (Int32.ne_of_lt hgt).symm
    have hrot : ¬pnonce ≤ -MINER_RORATE_FREQ :=
      Int32.not_le.mpr (Int32.lt_trans (by decide) hgt)
    rw [checkSeries, if_neg (Int32.not_lt.mpr hle), if_neg hne, if_neg hrot] at h
    exact not_not.mp (failIf_eq_ok.mp h)

/-- **The rotation block.** A non-positive nonce is the number of the rotation without wrapping. -/
theorem toInt_rotationNonce {nonce : Int32} (hr : r.toNat ≤ 2 ^ 31 + 1) (hle : nonce ≤ 0)
    (h : nonce = -(r + 1 + MINER_RORATE_FREQ.toUInt32).toInt32) :
    nonce.toInt = -(r.toNat + 1 + MINER_RORATE_FREQ.toInt) := by
  have hfreq : MINER_RORATE_FREQ.toUInt32.toNat = 20 := rfl
  have hfreq' : MINER_RORATE_FREQ.toInt = 20 := rfl
  have hnat : (r + 1 + MINER_RORATE_FREQ.toUInt32).toNat = r.toNat + 21 := by
    rw [UInt32.toNat_add, UInt32.toNat_add, hfreq, UInt32.toNat_one]
    omega
  rw [le_iff_toInt_le] at hle
  rw [h, toInt_neg, toInt_toInt32, hnat] at hle ⊢
  simp only [toInt_zero, Int.bmod_def] at hle ⊢
  omega

/-! ## The signatures -/

theorem removeScripts_concat (tbr : List Nat) (k : Nat) (scripts : List Bytes) :
    removeScripts (tbr ++ [k]) scripts = removeScripts tbr (scripts.eraseIdx k) :=
  foldr_append ..

/-- A script is a member's signature over the hash. -/
def Signs (env : PowEnv S) (hash : Bytes) (script : Bytes) (m : Address) : Prop :=
  verifySigScript env.sigs script hash = .ok m

/-- The state of the loop over the scripts after `done`, the first script of the block standing
before them: `kept` are the scripts that stay, `members` their signers. -/
structure Matched (env : PowEnv S) (hash : Bytes) (committee : Finset Address) (first : Bytes)
    (done : List Bytes) (c : SigCount) (kept : List Bytes) (members : List Address) : Prop where
  signed : List.Forall₂ (Signs env hash) kept members
  taken : kept.Sublist done
  nodup : members.Nodup
  left : c.committee = committee \ members.toFinset
  within : ∀ m ∈ members, m ∈ committee
  count : c.nsigned = members.length
  /-- taking the indexes out of any list that starts with these scripts -/
  removed : ∀ rest, removeScripts c.tbr (first :: done ++ rest) = first :: kept ++ rest

variable {committee : Finset Address}

/-- One script: a signature of a member who has not signed yet stays, any other goes. -/
theorem Matched.step {hash : Bytes} {first : Bytes} {done kept : List Bytes} {c c' : SigCount}
    {members : List Address} {sign : Bytes}
    (hm : Matched env hash committee first done c kept members)
    (h : countSignature env hash c (sign, done.length + 1) = .ok c') :
    ∃ kept' members', Matched env hash committee first (done ++ [sign]) c' kept' members' := by
  rw [countSignature] at h
  split at h
  · cases h
  rename_i pkh hpkh
  split at h
  case isTrue hmem =>
    cases h
    rw [hm.left, Finset.mem_sdiff, mem_toFinset] at hmem
    refine ⟨kept ++ [sign], members ++ [pkh], ?_, ?_, ?_, ?_, ?_, ?_, fun rest => ?_⟩
    · exact rel_append hm.signed (.cons hpkh .nil)
    · exact hm.taken.append (List.Sublist.refl [sign])
    · rw [← concat_eq_append]
      exact hm.nodup.concat hmem.2
    · rw [hm.left]
      ext m
      simp
      tauto
    · exact forall_mem_append.mpr ⟨hm.within, forall_mem_singleton.mpr hmem.1⟩
    · rw [hm.count, length_append]
      rfl
    · simpa using hm.removed (sign :: rest)
  case isFalse hmem =>
    cases h
    refine ⟨kept, members, hm.signed, hm.taken.trans (sublist_append_left _ _), hm.nodup,
      hm.left, hm.within, hm.count, fun rest => ?_⟩
    rw [removeScripts_concat, ← hm.removed rest]
    -- the index is that of the script just read
    congr 1
    simp [eraseIdx_append_of_length_le]

variable {scripts : List Bytes}

/-- **The scripts that stay** are signatures of different members of the committee. -/
theorem matched_run {hash : Bytes} (first : Bytes) {c : SigCount}
    (h : (scripts.zipIdx 1).foldlM (countSignature env hash) ⟨committee, [], 0⟩ = .ok c) :
    ∃ kept members, Matched env hash committee first scripts c kept members := by
  have hrun := foldlM_induction_run
    (P := fun done c => ∃ kept members,
      Matched env hash committee first (done.map Prod.fst) c kept members)
    (l := scripts.zipIdx 1) (s := ⟨committee, [], 0⟩) (t := c) ?_ ?_ h
  · rwa [zipIdx_map_fst] at hrun
  · refine ⟨[], [], .nil, nil_sublist _, nodup_nil, ?_, ?_, rfl, fun rest => rfl⟩
    · simp
    · simp
  · rintro done ⟨sign, k⟩ rest c c' hl - ⟨kept, members, hm⟩ hstep
    -- the index of a script is its place in the block
    have hk : k = (done.map Prod.fst).length + 1 := by
      have hget : scripts[done.length]? = some sign ∧ 1 + done.length = k := by
        simpa [getElem?_zipIdx] using congrArg (fun l => l[done.length]?) hl
      rw [length_map]
      omega
    subst hk
    rw [map_append]
    exact hm.step hstep

/-! ## The whole check -/

/-- What the check of a signed block establishes, with the rotation it has found. -/
structure Approved (env : PowEnv S) (block : SignedBlock) (parent : Node) (r : UInt32)
    (scripts : List Bytes) : Prop where
  series : checkSeries (env.nonce parent) block.nonce r = .ok ()
  /-- the scripts after the first are signatures of different members, enough of them, and all
  from the block as it came -/
  signers : ∃ members : List Address, members.Nodup ∧ CommitteeSigs ≤ members.length ∧
    (∀ m ∈ members, InCommittee env r m) ∧
    List.Forall₂ (Signs env (makeMinerSigHash env.sigs block.height block.hash)) (scripts.drop 1)
      members
  taken : (scripts.drop 1).Sublist (block.scripts.drop 1)

variable {block : SignedBlock} {flags : BehaviorFlags}

theorem checkSignatures_spec (hne : block.scripts ≠ [])
    (h : checkSignatures env block committee = .ok scripts) :
    (∃ members : List Address, members.Nodup ∧ CommitteeSigs ≤ members.length ∧
      (∀ m ∈ members, m ∈ committee) ∧
      List.Forall₂ (Signs env (makeMinerSigHash env.sigs block.height block.hash))
        (scripts.drop 1) members) ∧
    (scripts.drop 1).Sublist (block.scripts.drop 1) := by
  obtain ⟨first, rest, hscripts⟩ := exists_cons_of_ne_nil hne
  obtain ⟨c, hrun, h⟩ := of_bind h
  obtain ⟨_, hcount, h⟩ := of_bind h
  cases h
  rw [hscripts, drop_one, tail_cons] at hrun
  obtain ⟨kept, members, hm⟩ := matched_run first hrun
  have hleft : removeScripts c.tbr (first :: rest) = first :: kept := by
    simpa using hm.removed []
  have hcount := Nat.not_lt.mp (failIf_eq_ok.mp hcount)
  rw [hm.count] at hcount
  rw [hscripts, hleft]
  exact ⟨⟨members, hm.nodup, hcount, hm.within, hm.signed⟩, hm.taken⟩

theorem checkSigned_spec (h : checkSigned env block parent r flags = .ok scripts) :
    Approved env block parent r scripts := by
  obtain ⟨⟨⟩, hseries, h⟩ := of_bind h
  obtain ⟨_, -, h⟩ := of_bind h
  obtain ⟨_, hlen, h⟩ := of_bind h
  obtain ⟨_, -, h⟩ := of_bind h
  obtain ⟨_, -, h⟩ := of_bind h
  obtain ⟨heights, hheights, h⟩ := of_bind h
  obtain ⟨awardto, -, h⟩ := of_bind h
  obtain ⟨roll, hroll, h⟩ := of_bind h
  obtain ⟨_, -, h⟩ := of_bind h
  have hne : block.scripts ≠ [] := by
    intro hnil
    rw [hnil] at hlen
    exact failIf_eq_ok.mp hlen (Nat.zero_le _)
  obtain ⟨⟨members, hnodup, hcount, hwithin, hsigned⟩, htaken⟩ := checkSignatures_spec hne h
  refine ⟨hseries, ⟨members, hnodup, hcount, fun m hm => ?_, hsigned⟩, htaken⟩
  obtain ⟨mb, hmb, rfl⟩ := enrol_run hroll m (hwithin m hm)
  exact inCommittee_of_mem hheights hmb

/-- A signed block passes with the rotation of its parent. -/
theorem checkProofOfWork_signed (hw : WellRotated st) (hnonce : block.nonce ≤ 0)
    (h : checkProofOfWork env st block (some parent) flags = .ok scripts) :
    Approved env block parent (rotation parent) scripts := by
  obtain ⟨r, hr, h⟩ := of_bind h
  rw [if_neg (Int32.not_lt.mpr hnonce)] at h
  rw [← parentRotation_eq hw hr]
  exact checkSigned_spec h

namespace Approved

variable {env : PowEnv S} {block : SignedBlock} {parent : Node} {r : UInt32}
  {scripts : List Bytes}

section

variable (h : Approved env block parent r scripts)

include h

theorem rotation_le : r.toNat ≤ 2 ^ 31 + 1 := by
  obtain ⟨members, -, hcount, hmem, -⟩ := h.signers
  obtain ⟨m, hm⟩ := exists_mem_of_length_pos (Nat.lt_of_lt_of_le (by decide) hcount)
  exact (hmem m hm).rotation_le

theorem inSeries (hnonce : block.nonce ≤ 0) :
    InSeries (env.nonce parent) block.nonce r.toNat := by
  obtain ⟨hstarts, hrotates, hgoesOn⟩ := checkSeries_eq_ok h.series
  exact ⟨hstarts, fun hp => toInt_rotationNonce h.rotation_le hnonce (hrotates hp), hgoesOn⟩

/-- Every counted signer has a script in the block as it came. -/
theorem quorum :
    ∃ members : List Address, members.Nodup ∧ CommitteeSigs ≤ members.length ∧
      ∀ m ∈ members, InCommittee env r m ∧ ∃ script ∈ block.scripts.drop 1,
        Signs env (makeMinerSigHash env.sigs block.height block.hash) script m := by
  obtain ⟨members, hnodup, hcount, hmem, hsigned⟩ := h.signers
  refine ⟨members, hnodup, hcount, fun m hm => ⟨hmem m hm, ?_⟩⟩
  obtain ⟨i, hi, rfl⟩ := getElem_of_mem hm
  have hlen := hsigned.length_eq
  exact ⟨(scripts.drop 1)[i], h.taken.subset (getElem_mem _), hsigned.get (by omega) hi⟩

end

end Approved

end Zent
