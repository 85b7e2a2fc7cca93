import Zent.Blockchain.Forfeiture

/-!
# The claims of abandoned transactions

What the scan of the abandoned blocks files: every claim is under the hash of its transaction,
which stands in one of the blocks and is `Claimable`, and no transaction has two claims.
-/

namespace Zent

open Go List AList

variable {env : ForfeitEnv} {s s' : Victims}

/-- A transaction that a claim may be filed for: an ordinary one that is neither in the main chain
nor in the record of compensated transactions. -/
structure Claimable (env : ForfeitEnv) (tx : MsgTx) : Prop where
  ordinary : tx.version &&& TxTypeMask ≤ TxVersion
  abandoned : env.mainChainTx (env.txHash tx) = none
  pending : env.compensatedTx (env.txHash tx) = false

/-- The claims filed so far, over the transactions scanned. -/
def Filed (env : ForfeitEnv) (txs : List MsgTx) (processed : Map Hash (Option TxFee)) : Prop :=
  ∀ h f, processed.lookup h = some (some f) → env.txHash f.tx = h ∧ f.tx ∈ txs ∧
    Claimable env f.tx

variable {tx : MsgTx}

/-- A claim for a transaction is filed, or nothing is. -/
theorem fileClaim_cases {input : Int64} (h : fileClaim env s tx input = .ok s') :
    s'.processed = s.processed.insert (env.txHash tx) none ∨
    ∃ f, f.tx = tx ∧ s'.processed = s.processed.insert (env.txHash tx) (some f) := by
  obtain ⟨outs, -, h⟩ := of_bind h
  dsimp only at h
  split at h
  · cases h
    exact .inl rfl
  obtain ⟨payees, -, h⟩ := of_bind h
  split at h
  · cases h
    exact .inl rfl
  · cases h
    exact .inr ⟨_, rfl, rfl⟩

/-- **One transaction** of an abandoned block leaves the table alone, is noted without a claim, or
files a claim of its own. -/
theorem victimStep_cases (h : victimStep env s tx = .ok s') :
    s'.processed = s.processed ∨ s'.processed = s.processed.insert (env.txHash tx) none ∨
    ∃ f, f.tx = tx ∧ s'.processed = s.processed.insert (env.txHash tx) (some f) ∧
      Claimable env tx := by
  rw [victimStep] at h
  split at h
  · cases h
    exact .inl rfl
  rename_i hqualified
  rw [Bool.or_eq_true, not_or, Bool.not_eq_true, Bool.not_eq_true] at hqualified
  split at h
  · cases h
    exact .inl rfl
  split at h
  · cases h
    exact .inr (.inl rfl)
  rename_i hnew
  obtain ⟨input, -, h⟩ := of_bind h
  split at h
  · cases h
    exact .inr (.inl rfl)
  rcases fileClaim_cases h with hnone | ⟨f, htx, hsome⟩
  · exact .inr (.inl hnone)
  exact .inr (.inr ⟨f, htx, hsome, {
    ordinary := Int32.not_lt.mp (of_decide_eq_false hqualified.1)
    abandoned := Option.isNone_iff_eq_none.mp (Option.isSome_eq_false_iff.mp hqualified.2)
    pending := Bool.not_eq_true _ ▸ hnew }⟩)

variable {txs : List MsgTx} {x : Map Hash (Option TxFee)}

theorem Filed.insert_none {processed : Map Hash (Option TxFee)} {hash : Hash}
    (h : Filed env txs processed) : Filed env txs (processed.insert hash none) := by
  intro k f hk
  obtain ⟨-, ⟨⟩⟩ | ⟨-, hk⟩ := lookup_insert_cases hk
  exact h k f hk

theorem Filed.step (hs : Filed env txs s.processed) (htx : tx ∈ txs)
    (h : victimStep env s tx = .ok s') : Filed env txs s'.processed := by
  rcases victimStep_cases h with heq | heq | ⟨f, rfl, heq, hclaimable⟩
  · rw [heq]
    exact hs
  · rw [heq]
    exact hs.insert_none
  intro k f' hk
  rw [heq] at hk
  obtain ⟨rfl, ⟨⟩⟩ | ⟨-, hk⟩ := lookup_insert_cases hk
  · exact ⟨rfl, htx, hclaimable⟩
  · exact hs k f' hk

/-- The transactions of the abandoned blocks. -/
def abandonedTxs (env : ForfeitEnv) (forfeiture : List Hash) : List MsgTx :=
  forfeiture.flatMap fun p => ((env.hashToBlock p).getD []).drop 1

theorem Filed.processForfeitBlock {block : List MsgTx} (hs : Filed env txs s.processed)
    (hb : ∀ tx ∈ block.drop 1, tx ∈ txs) (h : processForfeitBlock env s block = .ok s') :
    Filed env txs s'.processed := by
  obtain ⟨rest, hrest, h⟩ := of_bind h
  have hsub : ∀ tx ∈ rest, tx ∈ txs := by
    rw [slice] at hrest
    split at hrest
    · cases hrest
      exact fun tx htx => hb tx (mem_of_mem_take htx)
    · cases hrest
  refine foldlM_induction_run (P := fun _ u => Filed env txs u.processed) hs ?_ h
  intro done tx rest' u u' hsplit _ hu hstep
  exact hu.step (hsub tx (hsplit ▸ mem_append_right done mem_cons_self)) hstep

/-- **The claims filed after the scan**: each under the hash of its transaction, which is abandoned
and not compensated yet. -/
theorem filed_abandoned {forfeiture : List Hash} {v : Victims}
    (h : abandoned env forfeiture = .ok v) :
    Filed env (abandonedTxs env forfeiture) v.processed := by
  refine foldlM_induction_run
    (P := fun _ (u : Victims) => Filed env (abandonedTxs env forfeiture) u.processed) ?_ ?_ h
  · intro k f hk
    cases hk
  · intro done p rest u u' hsplit _ hu hstep
    split at hstep
    · cases hstep
    rename_i block hblock
    refine hu.processForfeitBlock (fun tx htx => ?_) hstep
    refine mem_flatMap.mpr ⟨p, hsplit ▸ mem_append_right done mem_cons_self, ?_⟩
    rw [hblock]
    exact htx

/-! ## The list of claims -/

theorem mem_claimsOf {f : TxFee} : f ∈ claimsOf x ↔ ∃ h, x.lookup h = some (some f) := by
  rw [claimsOf, mem_filterMap]
  constructor
  · rintro ⟨⟨h, o⟩, he, rfl⟩
    exact ⟨h, mem_lookup_iff.mpr he⟩
  · rintro ⟨h, he⟩
    exact ⟨⟨h, some f⟩, mem_lookup_iff.mp he, rfl⟩

/-- The hashes of the claims are keys of the table. -/
theorem sublist_keys {l : List ((_ : Hash) × Option TxFee)}
    (h : ∀ e ∈ l, ∀ f, e.2 = some f → env.txHash f.tx = e.1) :
    ((l.filterMap Sigma.snd).map fun f => env.txHash f.tx).Sublist (l.map Sigma.fst) := by
  induction l with
  | nil => exact List.Sublist.refl _
  | cons e rest ih =>
    have ih := ih fun e' he' => h e' (mem_cons_of_mem e he')
    obtain ⟨k, o⟩ := e
    cases o with
    | none => exact ih.cons k
    | some f =>
      have hkey := h ⟨k, some f⟩ mem_cons_self f rfl
      show (env.txHash f.tx :: _).Sublist (k :: _)
      rw [hkey]
      exact ih.cons_cons k

/-- No transaction has two claims. -/
theorem nodup_claims (h : Filed env txs x) : ((claimsOf x).map fun f => env.txHash f.tx).Nodup := by
  refine List.Nodup.sublist (sublist_keys ?_) x.nodupKeys
  rintro ⟨k, o⟩ he f rfl
  exact (h k f (mem_lookup_iff.mpr he)).1

end Zent
