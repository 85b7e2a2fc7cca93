import Zent.Viewpoint.Utxo
import Zent.Ovm.SigPool

/-!
# Verification of signatures

`VerifySigs` (`omega/ovm/contractexec.go`) walks over the inputs up to the separator and
queues one verification per input for the pool. Inputs may share a signature script; a memo
keyed by the signature index lets later inputs pass without a verification. It remembers the
script of the first input with that index. When a second input has the same script, the
signature script is scanned: if it signs with `SIGHASH_ALL` only, every later input with that
index passes, whatever its own script is. The scan is not the parser of the signature VM
either: a push of length zero starts a two-byte length there.
-/

namespace Zent.Ovm

open Go List Option UInt32 Prod

/-! ## Scripts -/

def OP_PAY2ANY : UInt8 := 0x46
def PUSH : UInt8 := 0x56
def SIGNTEXT : UInt8 := 0x4a

/-- A script taken apart by `parsePkScript`. -/
structure PkScript where
  version : UInt8
  addr : Bytes
  method : Bytes
  excode : Bytes
  deriving DecidableEq, Repr

def parsePkScript (script : Bytes) : Option PkScript :=
  match script with
  | [] => none
  | version :: rest =>
    if script.length < 21 then none
    else if script.length < 25 then
      if version == contractAddr then
        some ⟨version, rest.take 20, rest.drop 20, rest.drop 20⟩
      else
        some ⟨version, rest.take 20, rest.drop 20 ++ replicate (25 - script.length) 0,
          rest.drop 20⟩
    else some ⟨version, rest.take 20, (rest.drop 20).take 4, rest.drop 20⟩

/-- `method[0]`; only a contract's script can have an empty method. -/
def PkScript.op (pk : PkScript) : UInt8 := pk.method.headD 0

/-- The `code` that is verified: method, address and what follows the method. -/
def PkScript.code (pk : PkScript) : Bytes := pk.method ++ pk.addr ++ pk.excode.drop 4

def zeroaddr (addr : Bytes) : Bool := addr.all (· == 0)

def isContract (netid : UInt8) : Bool := netid == contractAddr

/-- `SigHashAll` under `SigHashMask`, without `SigHashAnyOneCanPay`. -/
def signsAll (mode : UInt8) : Bool := mode &&& 0x1f == 1 && mode &&& 0x80 == 0

/-- The scan of a signature script; `none` for an index out of range. The first argument bounds
the number of instructions. -/
def scanFrom : Nat → Bytes → Option Bool
  | _, [] => some true
  | 0, _ :: _ => none
  | n + 1, op :: rest =>
    if op == PUSH then
      match rest with
      | [] => none
      | len :: rest => scanFrom n (rest.drop len.toNat)
    else if op == SIGNTEXT then
      match rest with
      | [] => none
      | mode :: rest => (scanFrom n rest).map (signsAll mode && ·)
    else (scanFrom n rest).map fun _ => false

def scanSig (sig : Bytes) : Option Bool := scanFrom sig.length sig

/-- The modes of the `SIGNTEXT` instructions the signature VM comes to: `opPush`, `nextop` and
`opAddSignText`. It ends at `STOP`, at another instruction, and where data is missing. -/
def modesFrom : Nat → Bytes → List UInt8
  | 0, _ => []
  | _, [] => []
  | n + 1, op :: param =>
    if op == SIGNTEXT then
      match param with
      | [] => []
      | mode :: rest => mode :: modesFrom n rest
    else if op == PUSH then
      match param with
      | [] => []
      | size :: rest =>
        if size == 0 then
          match rest with
          | lo :: hi :: rest =>
            if lo.toNat + hi.toNat * 256 ≤ rest.length then
              modesFrom n (rest.drop (lo.toNat + hi.toNat * 256))
            else []
          | _ => []
        else if size.toNat ≤ rest.length then modesFrom n (rest.drop size.toNat)
        else []
    else []

def sigModes (sig : Bytes) : List UInt8 := modesFrom sig.length sig

/-- The signature script, as the VM executes it, signs with `SIGHASH_ALL` only. -/
def allModes (sig : Bytes) : Bool := (sigModes sig).all signsAll

/-- The scan comes to no push of length zero. -/
def fullFrom : Nat → Bytes → Bool
  | 0, _ => true
  | _, [] => true
  | n + 1, op :: rest =>
    if op == PUSH then
      match rest with
      | [] => true
      | len :: rest => len != 0 && fullFrom n (rest.drop len.toNat)
    else if op == SIGNTEXT then fullFrom n rest.tail
    else fullFrom n rest

def fullPushes (sig : Bytes) : Bool := fullFrom sig.length sig

theorem modesFrom_of_scanFrom {n : Nat} {sig : Bytes} (hscan : scanFrom n sig = some true)
    (hfull : fullFrom n sig = true) : (modesFrom n sig).all signsAll = true := by
  induction n generalizing sig with
  | zero => rfl
  | succ n ih =>
    cases sig with
    | nil => rfl
    | cons op rest =>
      simp only [scanFrom, fullFrom, modesFrom] at hscan hfull ⊢
      by_cases hpush : (op == PUSH) = true
      · have hsign : (op == SIGNTEXT) = false := by
          rw [beq_iff_eq] at hpush
          rw [hpush]
          decide
        rw [if_pos hpush] at hscan hfull
        rw [hsign, if_neg (by simp), if_pos hpush]
        cases rest with
        | nil => rfl
        | cons len rest =>
          simp only [Bool.and_eq_true, bne_iff_ne, ne_eq] at hscan hfull ⊢
          rw [if_neg (by simpa using hfull.1)]
          split
          · exact ih hscan hfull.2
          · rfl
      · rw [if_neg hpush] at hscan hfull
        by_cases hsign : (op == SIGNTEXT) = true
        · rw [if_pos hsign] at hscan hfull ⊢
          cases rest with
          | nil => rfl
          | cons mode rest =>
            simp only [map_eq_some_iff, Bool.and_eq_true] at hscan
            obtain ⟨_, hscan, hmode, rfl⟩ := hscan
            simp only [all_cons, Bool.and_eq_true]
            exact ⟨hmode, ih hscan hfull⟩
        · rw [if_neg hsign] at hscan
          simp at hscan

/-- The scan is right about a signature script without pushes of length zero. -/
theorem allModes_of_scan {sig : Bytes} (hscan : scanSig sig = some true)
    (hfull : fullPushes sig = true) : allModes sig = true :=
  modesFrom_of_scanFrom hscan hfull

/-- The scan reads the two-byte length of a push as an instruction. -/
example : scanSig ([PUSH, 0, SIGNTEXT, 1, PUSH, 255] ++ replicate 255 0 ++
      [PUSH, 73] ++ replicate 71 0 ++ [SIGNTEXT, 2]) = some true ∧
    sigModes ([PUSH, 0, SIGNTEXT, 1, PUSH, 255] ++ replicate 255 0 ++
      [PUSH, 73] ++ replicate 71 0 ++ [SIGNTEXT, 2]) = [2] := by
  decide +kernel

/-! ## The walk over the inputs -/

/-- What `VerifySigs` takes from outside: the parameters of the chain, the verification of one
signature, and the calls that monitor a polygon. -/
structure SigEnv where
  pubKeyHashAddrID : UInt8
  sigVeriConcurrency : Nat
  /-- `btcec.MinSigLen` -/
  minSigLen : Nat
  /-- `verifySig(txinidx, pkScript, sigScript)` -/
  verifySig : Nat → Bytes → Bytes → Bool
  /-- arguments and code of the monitoring calls for a polygon and the address it is spent
  from; `none` for a panic -/
  monitorCalls : UtxoEntry → Bytes → Option (List (Bytes × Bytes))

/-- `tbv`: what is to be verified. -/
structure Tbv where
  txinidx : Nat
  outpoint : OutPoint
  sigScript : Bytes
  pkScript : Bytes
  deriving DecidableEq, Repr

def SigEnv.holds (env : SigEnv) (j : Tbv) : Bool :=
  env.verifySig j.txinidx j.pkScript j.sigScript

/-- The signature script of an index; the number of scripts is taken as a `uint32`. -/
def sigAt (sigs : List Bytes) (i : UInt32) : Option Bytes :=
  if ofNat sigs.length ≤ i then none else sigs[i.toNat]?

/-- The first loop: every input has a signature script. -/
def checkSigs (sigs : List Bytes) : List TxIn → Outcome String Unit
  | [] => .ok ()
  | tin :: rest =>
    if tin.isSeparator then .ok ()
    else if tin.isSepadding then checkSigs sigs rest
    else
      match sigAt sigs tin.signatureIndex with
      | none => fail "Signature script does not exist."
      | some _ => checkSigs sigs rest

/-- What the second loop makes of an input before it comes to the memo. -/
inductive Vetted where
  /-- `final <- false` -/
  | refused
  /-- no signature is needed -/
  | exempt
  | owned (utxo : UtxoEntry) (pk : PkScript) (sig : Bytes)
  deriving DecidableEq, Repr

variable (env : SigEnv) (sigs : List Bytes) (tx : MsgTx) (skip : Nat) (view : UtxoViewpoint)

def vet (txin : TxIn) : Vetted :=
  match view.lookupEntry txin.previousOutPoint with
  | none => .refused
  | some utxo =>
    match parsePkScript utxo.pkScript with
    | none => .refused
    | some pk =>
      if zeroaddr pk.addr || isContract pk.version then .refused
      else if pk.op == OP_PAY2ANY then .exempt
      else if pk.op == OP_PAY2NONE || pk.op == OP_PAYMINER then .refused
      else if pk.version == env.pubKeyHashAddrID && pk.op == OP_PAY2PKH &&
          txin.signatureIndex == 0xFFFFFFFF then .refused
      else if txin.signatureIndex == 0xFFFFFFFF then .exempt
      else
        match sigAt sigs txin.signatureIndex with
        | none => .refused
        | some sig => if sig.length < env.minSigLen then .refused else .owned utxo pk sig

/-- `skip` of a shared signature: 0, 1 and 2. -/
inductive Skip where
  | unknown
  | no
  | yes
  deriving DecidableEq, Repr

structure Shared where
  /-- the script of the first input with the signature -/
  sign : Bytes
  skip : Skip
  deriving DecidableEq, Repr

/-- `sharedSigs` -/
abbrev SharedSigs : Type := Map UInt32 Shared

/-- Whether an input is passed over, and the memo after it; `none` where the scan panics. -/
def share (memo : SharedSigs) (i : UInt32) (script sig : Bytes) : Option (Bool × SharedSigs) :=
  match memo.lookup i with
  | none => some (false, memo.insert i ⟨script, .unknown⟩)
  | some pks =>
    match pks.skip with
    | .yes => some (true, memo)
    | .no => some (false, memo)
    | .unknown =>
      if pks.sign == script then
        (scanSig sig).map fun all =>
          (all, memo.insert i { pks with skip := if all then .yes else .no })
      else some (false, memo)

/-- The monitoring jobs of an input; they are not counted. -/
def monitors (i : Nat) (txin : TxIn) (utxo : UtxoEntry) (pk : PkScript) :
    List (Instr Tbv) :=
  if utxo.tokenType == 3 then
    match env.monitorCalls utxo pk.addr with
    | none => [.die]
    | some calls => calls.map fun c => .push ⟨i, txin.previousOutPoint, c.1, c.2⟩
  else []

/-- The second loop, as instructions for the pool. -/
def walk (env : SigEnv) (sigs : List Bytes) (view : UtxoViewpoint) (memo : SharedSigs) :
    List (TxIn × Nat) → List (Instr Tbv)
  | [] => []
  | (txin, i) :: rest =>
    if txin.isSeparator then []
    else if txin.isSepadding then walk env sigs view memo rest
    else
      match vet env sigs view txin with
      | .refused => [.refuse]
      | .exempt => walk env sigs view memo rest
      | .owned utxo pk sig =>
        monitors env i txin utxo pk ++
          match share memo txin.signatureIndex utxo.pkScript sig with
          | none => [.die]
          | some (true, memo) => walk env sigs view memo rest
          | some (false, memo) =>
            .count :: .push ⟨i, txin.previousOutPoint, sig, pk.code⟩ ::
              walk env sigs view memo rest

/-- `TxIn[skip:]` with the places of the inputs. -/
def inputs : List (TxIn × Nat) := (tx.txIn.drop skip).zipIdx skip

/-- The pool at the start of the second loop. -/
def verifyPool : Pool Tbv :=
  Pool.start env.sigVeriConcurrency
    (if tx.isCrossChain then [] else walk env tx.signatureScripts view ∅ (inputs tx skip))

/-- `VerifySigs(tx, param, skip, views)` where the goroutines take turns as `sched` says; `none`
where it has not returned by then. -/
def verifySigs
    (sched : List Act) : Option (Outcome String Unit) :=
  match tx.isCoinBase with
  | .error f => some (.error f)
  | .ok true => some (.ok ())
  | .ok false =>
    if tx.isForfeit then some (.ok ())
    else if tx.txIn.length < skip && !tx.isCrossChain then some crash
    else
      match if tx.isCrossChain then .ok () else checkSigs tx.signatureScripts
          (tx.txIn.drop skip) with
      | .error f => some (.error f)
      | .ok () =>
        if ofNat tx.signatureScripts.length == 0 then some (.ok ())
        else
          ((verifyPool env tx skip view).run env.sigVeriConcurrency env.holds sched).bind
            fun s => s.verdict.map fun res =>
              if res then .ok () else fail "Signature incorrect."

/-! ## Which inputs are looked at -/

/-- The inputs up to the separator that are not padding. -/
def spends (l : List (TxIn × Nat)) : List (TxIn × Nat) :=
  (l.takeWhile (!·.1.isSeparator)).filter (!·.1.isSepadding)

/-- An input that needs a signature, with what the walk finds for it. -/
structure Owned where
  txin : TxIn
  idx : Nat
  utxo : UtxoEntry
  pk : PkScript
  sig : Bytes
  deriving DecidableEq, Repr

def Owned.job (x : Owned) : Tbv := ⟨x.idx, x.txin.previousOutPoint, x.sig, x.pk.code⟩

def own (p : TxIn × Nat) : Option Owned :=
  match vet env sigs view p.1 with
  | .owned utxo pk sig => some ⟨p.1, p.2, utxo, pk, sig⟩
  | _ => none

/-- The inputs that need a signature. -/
def owned (l : List (TxIn × Nat)) :
    List Owned :=
  (spends l).filterMap (own env sigs view)

/-- The inputs with the same signature as `x`. -/
def sharers (earlier : List Owned) (i : UInt32) : List Owned :=
  earlier.filter (·.txin.signatureIndex == i)

/-- An input is passed over if the signature script scans well and, up to and including it, the
script of the first input with its signature has come again. -/
def passedOver (earlier : List Owned) (x : Owned) : Bool :=
  match sharers earlier x.txin.signatureIndex with
  | [] => false
  | first :: later =>
    scanSig x.sig == some true && (later ++ [x]).any (·.utxo.pkScript == first.utxo.pkScript)

/-- What the memo knows of a signature after some inputs. -/
def remembered (earlier : List Owned) (i : UInt32) : Option Shared :=
  match sharers earlier i with
  | [] => none
  | first :: later =>
    some ⟨first.utxo.pkScript,
      if later.any (·.utxo.pkScript == first.utxo.pkScript) then
        if scanSig first.sig == some true then .yes else .no
      else .unknown⟩

/-- The inputs that are looked at, after some `earlier` ones. -/
def looked : List Owned → List Owned → List Owned
  | _, [] => []
  | earlier, x :: rest =>
    if passedOver earlier x then looked (earlier ++ [x]) rest
    else x :: looked (earlier ++ [x]) rest

section

variable {env : SigEnv} {sigs : List Bytes} {view : UtxoViewpoint} {x : Owned} {memo : SharedSigs}
  {l : List (TxIn × Nat)} {earlier : List Owned}

theorem sharers_snoc (earlier : List Owned) (x : Owned) (i : UInt32) :
    sharers (earlier ++ [x]) i =
      if x.txin.signatureIndex = i then sharers earlier i ++ [x] else sharers earlier i := by
  simp only [sharers, filter_append, filter_cons, filter_nil, beq_iff_eq]
  split <;> simp

theorem remembered_snoc_of_ne {i : UInt32} (h : x.txin.signatureIndex ≠ i) :
    remembered (earlier ++ [x]) i = remembered earlier i := by
  simp only [remembered, sharers_snoc, if_neg h]

/-- The memo is a function of the inputs so far, and says whether the next one is passed
over. -/
theorem share_remembers {memo' : SharedSigs} {b : Bool}
    (hmemo : ∀ i, memo.lookup i = remembered earlier i)
    (hsig : ∀ y ∈ sharers earlier x.txin.signatureIndex, y.sig = x.sig)
    (hshare : share memo x.txin.signatureIndex x.utxo.pkScript x.sig = some (b, memo')) :
    b = passedOver earlier x ∧ ∀ i, memo'.lookup i = remembered (earlier ++ [x]) i := by
  -- the memo changes at most at the index of `x`
  have hframe : (memo' = memo ∨ ∃ e, memo' = memo.insert x.txin.signatureIndex e) →
      memo'.lookup x.txin.signatureIndex = remembered (earlier ++ [x]) x.txin.signatureIndex →
      ∀ i, memo'.lookup i = remembered (earlier ++ [x]) i := by
    intro hcase hhere i
    by_cases hi : x.txin.signatureIndex = i
    · exact hi ▸ hhere
    rw [remembered_snoc_of_ne hi, ← hmemo]
    rcases hcase with rfl | ⟨e, rfl⟩
    · rfl
    · exact AList.lookup_insert_ne (Ne.symm hi)
  have hlook := hmemo x.txin.signatureIndex
  simp only [share, remembered] at hshare hlook
  cases hf : sharers earlier x.txin.signatureIndex with
  | nil =>
    simp only [hf] at hlook
    simp only [hlook, some.injEq, mk.injEq] at hshare
    obtain ⟨rfl, rfl⟩ := hshare
    refine ⟨by simp [passedOver, hf], hframe (.inr ⟨_, rfl⟩) ?_⟩
    simp [remembered, sharers_snoc, hf]
  | cons first later =>
    have hfirst : first.sig = x.sig := hsig first (by simp [hf])
    simp only [hf, hfirst] at hlook
    simp only [hlook] at hshare
    by_cases hany : later.any (·.utxo.pkScript == first.utxo.pkScript) = true
    · rw [if_pos hany] at hshare
      by_cases hscan : (scanSig x.sig == some true) = true
      · simp only [if_pos hscan, some.injEq, mk.injEq] at hshare
        obtain ⟨rfl, rfl⟩ := hshare
        refine ⟨by simp [passedOver, hf, hscan, hany], hframe (.inl rfl) ?_⟩
        simp [hlook, remembered, sharers_snoc, hf, hany, hfirst]
      simp only [if_neg hscan, some.injEq, mk.injEq] at hshare
      obtain ⟨rfl, rfl⟩ := hshare
      refine ⟨by simp [passedOver, hf, hscan], hframe (.inl rfl) ?_⟩
      simp [hlook, remembered, sharers_snoc, hf, hany, hfirst]
    · rw [if_neg hany] at hshare
      by_cases hsame : (first.utxo.pkScript == x.utxo.pkScript) = true
      · rw [if_pos hsame] at hshare
        obtain ⟨all, hall, heq⟩ := map_eq_some_iff.mp hshare
        obtain ⟨rfl, rfl⟩ := heq
        have hsame' : (x.utxo.pkScript == first.utxo.pkScript) = true := by
          rw [beq_iff_eq] at hsame ⊢
          exact hsame.symm
        refine ⟨?_, hframe (.inr ⟨_, rfl⟩) ?_⟩
        · simp [passedOver, hf, hall, hsame']
        · simp [remembered, sharers_snoc, hf, hfirst, hall, hsame']
      · simp only [if_neg hsame, some.injEq, mk.injEq] at hshare
        obtain ⟨rfl, rfl⟩ := hshare
        have hsame' : ¬ x.utxo.pkScript = first.utxo.pkScript := fun he => by simp [he] at hsame
        refine ⟨?_, hframe (.inl rfl) ?_⟩
        · simp [passedOver, hf, hany, hsame']
        · simp [hlook, remembered, sharers_snoc, hf, hany, hsame']

theorem spends_cons (p : TxIn × Nat) (l : List (TxIn × Nat)) :
    spends (p :: l) =
      if p.1.isSeparator then [] else if p.1.isSepadding then spends l else p :: spends l := by
  simp only [spends, takeWhile_cons]
  by_cases hsep : p.1.isSeparator = true
  · simp [hsep]
  · by_cases hpad : p.1.isSepadding = true <;> simp [hsep, hpad]

theorem own_eq_some {p : TxIn × Nat} :
    own env sigs view p = some x ↔
      x.txin = p.1 ∧ x.idx = p.2 ∧ vet env sigs view p.1 = .owned x.utxo x.pk x.sig := by
  obtain ⟨txin, idx, utxo, pk, sig⟩ := x
  unfold own
  cases vet env sigs view p.1 with
  | refused => simp
  | exempt => simp
  | owned utxo' pk' sig' =>
    simp only [some.injEq, Owned.mk.injEq, Vetted.owned.injEq]
    exact and_congr eq_comm (and_congr_left' eq_comm)

theorem mem_owned :
    x ∈ owned env sigs view l ↔
      (x.txin, x.idx) ∈ spends l ∧ vet env sigs view x.txin = .owned x.utxo x.pk x.sig := by
  simp only [owned, mem_filterMap, own_eq_some]
  constructor
  · rintro ⟨p, hp, ht, hi, hv⟩
    obtain rfl : p = (x.txin, x.idx) := Prod.ext ht.symm hi.symm
    exact ⟨hp, hv⟩
  · rintro ⟨hp, hv⟩
    exact ⟨_, hp, rfl, rfl, hv⟩

/-- What the walk knows of an input that needs a signature. -/
theorem vet_eq_owned {t : TxIn} {utxo : UtxoEntry} {pk : PkScript} {sig : Bytes}
    (h : vet env sigs view t = .owned utxo pk sig) :
    view.lookupEntry t.previousOutPoint = some utxo ∧ parsePkScript utxo.pkScript = some pk ∧
      pk.op ≠ OP_PAY2ANY ∧ sigAt sigs t.signatureIndex = some sig := by
  unfold vet at h
  split at h
  · cases h
  rename_i utxo' hutxo
  split at h
  · cases h
  rename_i pk' hpk
  by_cases hbad : (zeroaddr pk'.addr || isContract pk'.version) = true
  · simp only [if_pos hbad, reduceCtorEq] at h
  by_cases hany : (pk'.op == OP_PAY2ANY) = true
  · simp only [if_neg hbad, if_pos hany, reduceCtorEq] at h
  simp only [if_neg hbad, if_neg hany] at h
  split at h
  · cases h
  split at h
  · cases h
  split at h
  · cases h
  split at h
  · cases h
  rename_i sig' hsig
  split at h
  · cases h
  · cases h
    exact ⟨hutxo, hpk, by simpa using hany, hsig⟩

theorem owned_cons (p : TxIn × Nat) (l : List (TxIn × Nat)) :
    owned env sigs view (p :: l) =
      if p.1.isSeparator then []
      else if p.1.isSepadding then owned env sigs view l
      else (own env sigs view p).toList ++ owned env sigs view l := by
  simp only [owned, spends_cons]
  split
  · rfl
  split
  · rfl
  · rw [filterMap_cons]
    cases own env sigs view p <;> rfl

/-- No input that needs a signature has monitoring jobs. -/
def Unmonitored (env : SigEnv) (sigs : List Bytes) (view : UtxoViewpoint)
    (l : List (TxIn × Nat)) : Prop :=
  ∀ x ∈ owned env sigs view l, monitors env x.idx x.txin x.utxo x.pk = []

/-- Without monitoring, every job of the walk is counted. -/
theorem counted_walk (hmon : Unmonitored env sigs view l) :
    counted (walk env sigs view memo l) = (pushed (walk env sigs view memo l)).length := by
  induction l generalizing memo with
  | nil => rfl
  | cons p rest ih =>
    obtain ⟨t, i⟩ := p
    simp only [Unmonitored, owned_cons] at hmon
    simp only [walk]
    by_cases hsep : t.isSeparator = true
    · simp [hsep, counted, pushed]
    by_cases hpad : t.isSepadding = true
    · simp only [if_neg hsep, if_pos hpad] at hmon ⊢
      exact ih hmon
    simp only [if_neg hsep, if_neg hpad] at hmon ⊢
    have hrest : Unmonitored env sigs view rest :=
      fun x hx => hmon x (mem_append_right _ hx)
    cases hv : vet env sigs view t with
    | refused => rfl
    | exempt => exact ih hrest
    | owned utxo pk sig =>
      have hnone : monitors env i t utxo pk = [] :=
        hmon ⟨t, i, utxo, pk, sig⟩ (mem_append_left _ (by simp [own, hv]))
      simp only [hnone, nil_append]
      split
      · rfl
      · exact ih hrest
      · simp only [counted, pushed, length_cons, ih hrest]

/-- In a walk that refuses nothing, the jobs are those of the inputs that are looked at. -/
theorem pushed_walk (earlier : List Owned) (hmon : Unmonitored env sigs view l)
    (hmemo : ∀ i, memo.lookup i = remembered earlier i)
    (hsig : ∀ y ∈ earlier, sigAt sigs y.txin.signatureIndex = some y.sig)
    (hclean : Clean (walk env sigs view memo l)) :
    (∀ p ∈ spends l, vet env sigs view p.1 ≠ .refused) ∧
      pushed (walk env sigs view memo l) =
        (looked earlier (owned env sigs view l)).map Owned.job := by
  induction l generalizing memo earlier with
  | nil => exact ⟨nofun, rfl⟩
  | cons p rest ih =>
    obtain ⟨t, i⟩ := p
    simp only [Unmonitored, owned_cons] at hmon
    simp only [owned_cons, spends_cons]
    simp only [walk] at hclean ⊢
    by_cases hsep : t.isSeparator = true
    · simp [hsep, pushed, looked]
    by_cases hpad : t.isSepadding = true
    · simp only [if_neg hsep, if_pos hpad] at hmon hclean ⊢
      exact ih earlier hmon hmemo hsig hclean
    simp only [if_neg hsep, if_neg hpad] at hmon hclean ⊢
    have hrest : Unmonitored env sigs view rest :=
      fun x hx => hmon x (mem_append_right _ hx)
    cases hv : vet env sigs view t with
    | refused => simp [hv, Clean] at hclean
    | exempt =>
      simp only [hv] at hclean
      obtain ⟨hall, hpush⟩ := ih earlier hrest hmemo hsig hclean
      exact ⟨by simpa [hv] using hall, by simpa [own, hv] using hpush⟩
    | owned utxo pk sig =>
      have hown : own env sigs view (t, i) = some ⟨t, i, utxo, pk, sig⟩ := by
        simp [own, hv]
      have hnone : monitors env i t utxo pk = [] :=
        hmon ⟨t, i, utxo, pk, sig⟩ (mem_append_left _ (by simp [hown]))
      have hat := (vet_eq_owned hv).2.2.2
      simp only [hv, hnone, nil_append] at hclean
      simp only [hnone, nil_append, hown, toList_some, singleton_append, looked]
      cases hshare : share memo t.signatureIndex utxo.pkScript sig with
      | none => simp [hshare, Clean] at hclean
      | some r =>
        obtain ⟨b, memo'⟩ := r
        obtain ⟨rfl, hmemo'⟩ := share_remembers (x := ⟨t, i, utxo, pk, sig⟩) hmemo
          (fun y hy => by
            have hy := mem_filter.mp hy
            simp only [beq_iff_eq] at hy
            have := hsig y hy.1
            rw [hy.2, hat] at this
            exact (some.inj this).symm) hshare
        have hsig' : ∀ y ∈ earlier ++ [(⟨t, i, utxo, pk, sig⟩ : Owned)],
            sigAt sigs y.txin.signatureIndex = some y.sig :=
          forall_mem_append.mpr ⟨hsig, forall_mem_singleton.mpr hat⟩
        have hclean' : Clean (walk env sigs view memo' rest) := by
          rw [hshare] at hclean
          cases hpass : passedOver earlier ⟨t, i, utxo, pk, sig⟩ with
          | true => simpa only [hpass] using hclean
          | false => simpa [hpass, Clean] using hclean
        obtain ⟨hall, hpush⟩ := ih _ hrest hmemo' hsig' hclean'
        refine ⟨by simpa [hv] using hall, ?_⟩
        cases passedOver earlier ⟨t, i, utxo, pk, sig⟩ with
        | true => simpa using hpush
        | false => simpa [pushed, Owned.job] using hpush

variable {before rest : List Owned}

/-- An input is looked at, or passed over for what came before it. -/
theorem mem_looked (earlier : List Owned) (hx : passedOver (earlier ++ before) x = false) :
    x ∈ looked earlier (before ++ x :: rest) := by
  induction before generalizing earlier with
  | nil =>
    rw [append_nil] at hx
    simp [looked, hx]
  | cons y before ih =>
    have hmem := ih (earlier ++ [y]) (by simpa using hx)
    simp only [cons_append, looked]
    split
    · exact hmem
    · exact mem_cons_of_mem _ hmem

/-- The inputs that need a signature stand in the order of their places. -/
theorem pairwise_owned (env : SigEnv) (sigs : List Bytes) (view : UtxoViewpoint) (tx : MsgTx)
    (skip : Nat) : (owned env sigs view (inputs tx skip)).Pairwise (·.idx < ·.idx) := by
  have hinputs : (inputs tx skip).Pairwise (·.2 < ·.2) := by
    refine pairwise_map.mp ?_
    rw [inputs, zipIdx_map_snd]
    exact pairwise_lt_range'
  have hspends : (spends (inputs tx skip)).Pairwise (·.2 < ·.2) :=
    hinputs.sublist (filter_sublist.trans (takeWhile_sublist _))
  refine pairwise_filterMap.mpr (hspends.imp ?_)
  intro p q hlt x hx y hy
  rw [(own_eq_some.mp hx).2.1, (own_eq_some.mp hy).2.1]
  exact hlt

/-- What comes before an input has a smaller place. -/
theorem mem_before_iff {all : List Owned} {y : Owned} (hall : all = before ++ x :: rest)
    (horder : all.Pairwise (·.idx < ·.idx)) : y ∈ before ↔ y ∈ all ∧ y.idx < x.idx := by
  subst hall
  obtain ⟨-, hrest, hbefore⟩ := pairwise_append.mp horder
  constructor
  · exact fun hy => ⟨mem_append_left _ hy, hbefore y hy x mem_cons_self⟩
  · rintro ⟨hy, hlt⟩
    rcases mem_append.mp hy with hy | hy
    · exact hy
    · rcases mem_cons.mp hy with rfl | hy
      · exact absurd hlt (Nat.lt_irrefl _)
      · exact absurd hlt (Nat.lt_asymm ((pairwise_cons.mp hrest).1 y hy))

end

/-! ## Authority -/

/-- The signature of an input verifies against the script of the output it spends. -/
def verified (p : TxIn × Nat) (utxo : UtxoEntry) : Bool :=
  match parsePkScript utxo.pkScript, sigAt sigs p.1.signatureIndex with
  | some pk, some sig => env.verifySig p.2 pk.code sig
  | _, _ => false

/-- The script lets anyone spend the output. -/
def PaysAnyone (script : Bytes) : Prop :=
  ∃ pk, parsePkScript script = some pk ∧ pk.op = OP_PAY2ANY

/-- An earlier input with the same signature and the same script verifies, and the signature
signs with `SIGHASH_ALL` only. -/
def Vouched (p : TxIn × Nat)
    (utxo : UtxoEntry) : Prop :=
  (∀ sig, sigAt tx.signatureScripts p.1.signatureIndex = some sig → allModes sig = true) ∧
    ∃ q ∈ spends (inputs tx skip), q.2 < p.2 ∧ q.1.signatureIndex = p.1.signatureIndex ∧
      ∃ utxo', view.lookupEntry q.1.previousOutPoint = some utxo' ∧
        utxo'.pkScript = utxo.pkScript ∧ verified env tx.signatureScripts q utxo' = true

/-- Every input up to the separator that is not padding spends an output of the view, and the
output can be spent by anyone, or the input's own signature verifies, or it is vouched for. -/
def Authorised : Prop :=
  ∀ p ∈ spends (inputs tx skip), ∃ utxo,
    view.lookupEntry p.1.previousOutPoint = some utxo ∧
      (PaysAnyone utxo.pkScript ∨ verified env tx.signatureScripts p utxo = true ∨
        Vouched env tx skip view p utxo)

/-- The inputs of a transaction that need a signature. -/
def txOwned : List Owned :=
  owned env tx.signatureScripts view (inputs tx skip)

/-- Every input that is passed over has a signature of its own that verifies; or its signature
signs with `SIGHASH_ALL` only, and an earlier input with the same signature and the same script
was looked at or verifies. -/
def SharesFairly : Prop :=
  ∀ before x rest, txOwned env tx skip view = before ++ x :: rest → passedOver before x = true →
    env.holds x.job = true ∨
      allModes x.sig = true ∧ ∃ y ∈ before, y.txin.signatureIndex = x.txin.signatureIndex ∧
        y.utxo.pkScript = x.utxo.pkScript ∧
          (y ∈ looked [] (txOwned env tx skip view) ∨ env.holds y.job = true)

instance (script : Bytes) : Decidable (PaysAnyone script) := by
  unfold PaysAnyone
  infer_instance

instance (env : SigEnv) (tx : MsgTx) (skip : Nat) (view : UtxoViewpoint) :
    Decidable (Authorised env tx skip view) := by
  unfold Authorised Vouched
  infer_instance

section

variable {env : SigEnv} {tx : MsgTx} {skip : Nat} {view : UtxoViewpoint} {sigs : List Bytes}

theorem sigAt_max (sigs : List Bytes) : sigAt sigs 0xFFFFFFFF = none := by
  refine if_pos ?_
  have := (ofNat sigs.length).toNat_lt
  rw [le_iff_toNat_le]
  have hmax : (0xFFFFFFFF : UInt32).toNat = 2 ^ 32 - 1 := rfl
  omega

/-- The first loop finds a signature script for every input. -/
theorem sigAt_of_checkSigs {l : List (TxIn × Nat)} (h : checkSigs sigs (l.map fst) = .ok ()) :
    ∀ p ∈ spends l, ∃ sig, sigAt sigs p.1.signatureIndex = some sig := by
  induction l with
  | nil => exact nofun
  | cons p rest ih =>
    simp only [map_cons, checkSigs] at h
    rw [spends_cons]
    split
    · exact nofun
    rename_i hsep
    rw [if_neg hsep] at h
    split
    · rename_i hpad
      rw [if_pos hpad] at h
      exact ih h
    rename_i hpad
    rw [if_neg hpad] at h
    split at h
    · cases h
    case h_2 sig hsig =>
      simp only [mem_cons, forall_eq_or_imp]
      exact ⟨⟨sig, hsig⟩, ih h⟩

/-- What a transaction that is accepted in a calm run has passed: every input has a signature
script, none is refused, and those that are looked at verify. -/
theorem accepted {sched : List Act} (hcoin : tx.isCoinBase (ε := String) = .ok false)
    (hforfeit : tx.isForfeit = false) (hcross : tx.isCrossChain = false)
    (hmon : Unmonitored env tx.signatureScripts view (inputs tx skip))
    (hcalm : (verifyPool env tx skip view).calm env.sigVeriConcurrency env.holds sched = true)
    (hnil : verifySigs env tx skip view sched = some (.ok ())) :
    (∀ p ∈ spends (inputs tx skip), vet env tx.signatureScripts view p.1 ≠ .refused ∧
        ∃ sig, sigAt tx.signatureScripts p.1.signatureIndex = some sig) ∧
      ∀ x ∈ looked [] (txOwned env tx skip view), env.holds x.job = true := by
  simp only [verifySigs, hcoin, hforfeit, hcross, Bool.false_eq_true, if_false, Bool.not_false,
    Bool.and_true, decide_eq_true_eq] at hnil
  split at hnil
  · cases hnil
  split at hnil
  · cases hnil
  rename_i hcheck
  have hmap : (inputs tx skip).map fst = tx.txIn.drop skip := zipIdx_map_fst _ _
  have hsigs := sigAt_of_checkSigs (hmap ▸ hcheck)
  split at hnil
  case isTrue hzero =>
    -- without signature scripts no input has passed the first loop
    have hnone : spends (inputs tx skip) = [] := by
      rw [eq_nil_iff_forall_not_mem]
      intro p hp
      obtain ⟨sig, hsig⟩ := hsigs p hp
      rw [beq_iff_eq] at hzero
      simp [sigAt, hzero] at hsig
    simp [hnone, txOwned, owned, looked]
  · obtain ⟨s, hrun, hs⟩ := bind_eq_some_iff.mp hnil
    obtain ⟨res, hverdict, hres⟩ := map_eq_some_iff.mp hs
    have htrue : res = true := by
      cases res with
      | true => rfl
      | false => cases hres
    rw [htrue] at hverdict
    simp only [verifyPool, hcross, Bool.false_eq_true, if_false] at hrun hcalm
    obtain ⟨hclean, hgood⟩ := verdict_true (counted_walk hmon) hcalm hrun hverdict
    obtain ⟨hvet, hpush⟩ := pushed_walk [] hmon (fun _ => rfl) nofun hclean
    refine ⟨fun p hp => ⟨hvet p hp, hsigs p hp⟩, fun x hx => hgood x.job ?_⟩
    rw [hpush]
    exact mem_map_of_mem hx

theorem spend_cases {t : TxIn} (hvet : vet env sigs view t ≠ .refused)
    (hsig : ∃ sig, sigAt sigs t.signatureIndex = some sig) :
    (∃ utxo, view.lookupEntry t.previousOutPoint = some utxo ∧ PaysAnyone utxo.pkScript) ∨
      ∃ utxo pk sig, vet env sigs view t = .owned utxo pk sig := by
  cases hv : vet env sigs view t with
  | refused => exact absurd hv hvet
  | owned utxo pk sig => exact .inr ⟨utxo, pk, sig, rfl⟩
  | exempt =>
    have hmax : (t.signatureIndex == 0xFFFFFFFF) = false := by
      rw [beq_eq_false_iff_ne]
      intro hmax
      obtain ⟨sig, hsig⟩ := hsig
      rw [hmax, sigAt_max] at hsig
      cases hsig
    left
    unfold vet at hv
    split at hv
    · cases hv
    rename_i utxo hutxo
    split at hv
    · cases hv
    rename_i pk hpk
    refine ⟨utxo, hutxo, pk, hpk, ?_⟩
    by_contra hany
    simp only [hmax, Bool.and_false, Bool.false_eq_true, if_false,
      beq_eq_false_iff_ne.mpr hany] at hv
    repeat' split at hv
    all_goals cases hv

/-- For an input that needs a signature, `verified` is the job it would queue. -/
theorem verified_owned {x : Owned} (hv : vet env sigs view x.txin = .owned x.utxo x.pk x.sig) :
    verified env sigs (x.txin, x.idx) x.utxo = env.holds x.job := by
  obtain ⟨-, hpk, -, hsig⟩ := vet_eq_owned hv
  simp [verified, hpk, hsig, SigEnv.holds, Owned.job]

/-- **An accepted transaction spends with authority** if and only if the inputs that are passed over
do: every other input has been looked at by the signature VM. -/
theorem authorised_iff {sched : List Act} (hcoin : tx.isCoinBase (ε := String) = .ok false)
    (hforfeit : tx.isForfeit = false) (hcross : tx.isCrossChain = false)
    (hmon : Unmonitored env tx.signatureScripts view (inputs tx skip))
    (hcalm : (verifyPool env tx skip view).calm env.sigVeriConcurrency env.holds sched = true)
    (hnil : verifySigs env tx skip view sched = some (.ok ())) :
    Authorised env tx skip view ↔ SharesFairly env tx skip view := by
  obtain ⟨hin, hlook⟩ := accepted hcoin hforfeit hcross hmon hcalm hnil
  have horder := pairwise_owned env tx.signatureScripts view tx skip
  constructor
  · intro hauth before x rest hall hpass
    have hx : x ∈ txOwned env tx skip view := hall ▸ mem_append_right _ mem_cons_self
    obtain ⟨hspend, hvx⟩ := mem_owned.mp hx
    obtain ⟨hutxo, hpk, hany, hsig⟩ := vet_eq_owned hvx
    obtain ⟨utxo, hlookup, hcase⟩ := hauth _ hspend
    obtain rfl : utxo = x.utxo := some.inj (hlookup.symm.trans hutxo)
    have hpays : ¬ PaysAnyone x.utxo.pkScript := by
      rintro ⟨pk, hpk', hop⟩
      obtain rfl : pk = x.pk := some.inj (hpk'.symm.trans hpk)
      exact hany hop
    rcases hcase with hpay | hver | ⟨hmodes, q, hq, hlt, hindex, utxo', hutxo', hscript, hver⟩
    · exact absurd hpay hpays
    · exact .inl (verified_owned hvx ▸ hver)
    -- the input that vouches has the same script, so it needs a signature as well
    obtain ⟨hvet, hsigq⟩ := hin q hq
    rcases spend_cases hvet hsigq with ⟨u, hu, hpay⟩ | ⟨u, pk, sig, hvq⟩
    · obtain rfl : u = utxo' := some.inj (hu.symm.trans hutxo')
      exact absurd (hscript ▸ hpay) hpays
    obtain rfl : u = utxo' :=
      some.inj ((vet_eq_owned hvq).1.symm.trans hutxo')
    have hy : (⟨q.1, q.2, u, pk, sig⟩ : Owned) ∈ txOwned env tx skip view :=
      mem_owned.mpr ⟨hq, hvq⟩
    refine .inr ⟨hmodes x.sig hsig, _, (mem_before_iff hall horder).mpr ⟨hy, hlt⟩, hindex,
      hscript, .inr ?_⟩
    rw [← verified_owned (x := ⟨q.1, q.2, u, pk, sig⟩) hvq]
    exact hver
  · intro hfair p hp
    obtain ⟨hvet, hsigp⟩ := hin p hp
    rcases spend_cases hvet hsigp with ⟨utxo, hutxo, hpay⟩ | ⟨utxo, pk, sig, hvp⟩
    · exact ⟨utxo, hutxo, .inl hpay⟩
    have hx : (⟨p.1, p.2, utxo, pk, sig⟩ : Owned) ∈ txOwned env tx skip view :=
      mem_owned.mpr ⟨hp, hvp⟩
    obtain ⟨hutxo, -, -, hsig⟩ := vet_eq_owned hvp
    have hver := verified_owned (x := ⟨p.1, p.2, utxo, pk, sig⟩) hvp
    obtain ⟨before, rest, hall⟩ := append_of_mem hx
    refine ⟨utxo, hutxo, .inr ?_⟩
    cases hpass : passedOver before ⟨p.1, p.2, utxo, pk, sig⟩ with
    | false =>
      refine .inl (hver.trans (hlook _ ?_))
      rw [hall]
      exact mem_looked [] hpass
    | true =>
      rcases hfair before _ rest hall hpass with hholds | ⟨hmodes, y, hy, hindex, hscript, hor⟩
      · exact .inl (hver.trans hholds)
      refine .inr ⟨fun s hs => ?_, (y.txin, y.idx), ?_⟩
      · obtain rfl : s = sig := some.inj (hs.symm.trans hsig)
        exact hmodes
      · obtain ⟨hmem, hlt⟩ := (mem_before_iff hall horder).mp hy
        obtain ⟨hspend, hvy⟩ := mem_owned.mp hmem
        refine ⟨hspend, hlt, hindex, y.utxo, (vet_eq_owned hvy).1, hscript, ?_⟩
        rw [verified_owned hvy]
        exact hor.elim (hlook y) id

/-- Where inputs share a signature only with the owner's other outputs, and the signature has no
push of length zero, everything is authorised. -/
theorem sharesFairly_of_sameScript
    (hsame : ∀ x ∈ txOwned env tx skip view, ∀ y ∈ txOwned env tx skip view,
      x.txin.signatureIndex = y.txin.signatureIndex → x.utxo.pkScript = y.utxo.pkScript)
    (hfull : ∀ x ∈ txOwned env tx skip view, fullPushes x.sig = true) :
    SharesFairly env tx skip view := by
  intro before x rest hall hpass
  have hx : x ∈ txOwned env tx skip view := hall ▸ mem_append_right _ mem_cons_self
  unfold passedOver at hpass
  split at hpass
  · cases hpass
  rename_i first later hsh
  simp only [Bool.and_eq_true, beq_iff_eq] at hpass
  obtain ⟨pre, post, rfl, hpre, hindex, -⟩ := filter_eq_cons_iff.mp hsh
  rw [beq_iff_eq] at hindex
  have hfirst : first ∈ pre ++ first :: post := mem_append_right _ mem_cons_self
  have hmem : first ∈ txOwned env tx skip view := hall ▸ mem_append_left _ hfirst
  refine .inr ⟨allModes_of_scan hpass.1 (hfull x hx), first, hfirst, hindex,
    hsame first hmem x hx hindex, .inl ?_⟩
  -- the first input with a signature is always looked at
  have hnone : sharers pre first.txin.signatureIndex = [] := by
    rw [hindex]
    exact filter_eq_nil_iff.mpr hpre
  rw [hall, append_assoc]
  exact mem_looked [] (by simp [passedOver, hnone])

end

/-! ## A shared signature -/

/-- The script that pays to a public key hash made of one byte. -/
def payTo (b : UInt8) : Bytes := 0x6f :: replicate 20 b ++ [OP_PAY2PKH]

/-- An output under such a script. -/
def paidTo (b : UInt8) : UtxoEntry :=
  ⟨0, some (.numToken 1), none, payTo b, 1, false, false, false, false, []⟩

/-- Only signatures of the owner of `payTo 1` verify. -/
def ownerEnv : SigEnv where
  pubKeyHashAddrID := 0x6f
  sigVeriConcurrency := 1
  minSigLen := 8
  verifySig := fun _ code _ => code == [OP_PAY2PKH, 0, 0, 0] ++ replicate 20 1
  monitorCalls := fun _ _ => some []

/-- An input with the first signature script. -/
def signedInput (i : UInt32) : TxIn := ⟨⟨1, i⟩, 0xFFFFFFFF, 0⟩

/-- A transaction whose inputs all share one signature script. -/
def sharingTx (ins : List TxIn) : MsgTx :=
  ⟨1, [], ins, [], 0, [[PUSH, 10] ++ replicate 10 7 ++ [SIGNTEXT, 1]]⟩

/-- Two outputs of the owner, and one of somebody else. -/
def sharedView : UtxoViewpoint :=
  ((AList.singleton ⟨1, 0⟩ (paidTo 1)).insert ⟨1, 1⟩ (paidTo 1)).insert ⟨1, 2⟩ (paidTo 2)

/-- One job is queued, verified and reported. -/
def oneJob : List Act :=
  [.main, .main, .main, .main, .dispatcher, .dispatcher, .dispatcher, .enter 0, .report]

/-- The owner spends two outputs with one signature. -/
theorem owner_authorised :
    verifySigs ownerEnv (sharingTx [signedInput 0, signedInput 1]) 0 sharedView oneJob =
        some (.ok ()) ∧
      Authorised ownerEnv (sharingTx [signedInput 0, signedInput 1]) 0 sharedView := by
  have hnil : verifySigs ownerEnv (sharingTx [signedInput 0, signedInput 1]) 0 sharedView oneJob =
      some (.ok ()) := by decide +kernel
  refine ⟨hnil, (authorised_iff (by decide) (by decide) (by decide) ?_ (by decide +kernel)
    hnil).mpr (sharesFairly_of_sameScript ?_ ?_)⟩
  · unfold Unmonitored
    decide +kernel
  · decide +kernel
  · decide +kernel

/-- Two outputs of the owner come first, so the third input is passed over: somebody else's
output is spent with the owner's signature. -/
theorem verifySigs_passes_stranger :
    verifySigs ownerEnv (sharingTx [signedInput 0, signedInput 1, signedInput 2]) 0 sharedView
        oneJob = some (.ok ()) ∧
      ¬ Authorised ownerEnv (sharingTx [signedInput 0, signedInput 1, signedInput 2]) 0
        sharedView := by
  decide +kernel

end Zent.Ovm
