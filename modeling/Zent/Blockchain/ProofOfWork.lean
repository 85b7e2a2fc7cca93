import Mathlib.Data.Finset.Basic
import Mathlib.Data.UInt
import Zent.Blockchain.Reorg
import Zent.Go.Tally

/-!
# The check of a block's work or signatures

`checkProofOfWork` decides whether a block may be connected to its parent. It finds the rotation
at the parent, by a walk over the fork when the parent is not the tip. A POW block then has to
meet the difficulty of the miner block at that rotation. A block with non-positive nonce has to
stand at the right place in the series, to pay the qualified members of the committee, and to
be signed by enough of them; the signatures of others are taken out of the block.

* The function returns an error and whether the block may wait as an orphan. `(nil, false)` is
  success, with the signature scripts the block is left with; every other return is a `Refusal`.
  A refused block is dropped by all callers, so its scripts are not followed.
* Nodes are values, so comparing two pointers of the block index is comparing two branches. The
  nodes of a side branch above the cutoff have their parents in the index, and those below it
  are never walked.
* What the node's own miners have signed (`imin`, `meme`) is computed and never used.
-/

namespace Zent

open Branch

open UInt32

open Go

/-! ## Flags, difficulty and signatures -/

abbrev BehaviorFlags := UInt32

def BFNoPoWCheck : BehaviorFlags := 0x2
def BFSubmission : BehaviorFlags := 0x8
def BFNoConnect : BehaviorFlags := 0x10
def BFEasyBlocks : BehaviorFlags := 0x200

def compactToBig (compact : UInt32) : Int :=
  let mantissa := (compact &&& 0x007fffff).toNat
  let exponent := (compact >>> 24).toNat
  let bn : Nat :=
    if exponent ≤ 3 then mantissa >>> (8 * (3 - exponent)) else mantissa <<< (8 * (exponent - 3))
  if compact &&& 0x00800000 ≠ 0 then -(bn : Int) else bn

/-- The hash as a number; its first byte is the lowest. -/
def hashToBig (hash : Hash) : Int := hash.toNat

/-- The signature scheme. -/
structure SigScheme where
  /-- `ParsePubKey` of a compressed key, and the hash of the key -/
  parsePubKey : Bytes → Option Address
  /-- whether `ParseSignature` succeeds -/
  parseSignature : Bytes → Bool
  /-- `Verify` of a signature for a hash under a key -/
  verify : (key sig hash : Bytes) → Bool
  doubleHashB : Bytes → Bytes

/-- The hash a miner signs: of the text, the block hash, the height, and the place of a second
text that is never copied. -/
def makeMinerSigHash (sigs : SigScheme) (height : Int32) (hash : Hash) : Bytes :=
  let s1 := "Omega chain Miner block ".toList.map Char.toUInt8
  let s2 := " at height "
  sigs.doubleHashB (s1 ++ hashBytes hash ++ putUint32 height.toUInt32 ++
    List.replicate s2.length 0)

/-- The signer of a script, or why it is none. -/
def verifySigScript (sigs : SigScheme) (sign hash : Bytes) : Except ChainError Address :=
  if sign.length < PubKeyBytesLenCompressed then .error (errText "Incorrect signature")
  else
    let k := sign.take PubKeyBytesLenCompressed
    let s := sign.drop PubKeyBytesLenCompressed
    match sigs.parsePubKey k with
    | none => .error (errText "Incorrect Miner signature. pubkey error")
    | some pkh =>
      if ¬sigs.parseSignature s then
        .error (errText "Incorrect Miner signature. Signature parse error")
      else if ¬sigs.verify k s hash then
        .error (errText "Incorrect Miner signature. Verification doesn't match")
      else .ok pkh

/-! ## Blocks and verdicts -/

/-- What the check reads of a block: the header, the height, and the signature scripts and
outputs of the coinbase. -/
structure SignedBlock where
  hash : Hash
  nonce : Int32
  height : Int32
  scripts : List Bytes
  txOut : List TxOut
  deriving DecidableEq, Repr

/-- What the check asks of the rest of the node. -/
structure PowEnv (S : Type) extends ChainEnv S where
  /-- a miner chain has no block below its genesis -/
  blockByHeight_neg : ∀ h < 0, blockByHeight h = none
  /-- `MsgBlock().Bits` -/
  bits : MinerBlock → UInt32
  sigs : SigScheme
  powLimit : Int
  genesisHash : Hash
  genesisNonce : Int32

/-- A return other than `(nil, false)`. -/
structure Refusal where
  err : Option ChainError
  orphan : Bool
  deriving DecidableEq, Repr

/-- An `Outcome` of the check. -/
abbrev Check (α : Type) : Type := Outcome Refusal α

/-- `if c { return nil, true }` -/
def orphanIf (c : Prop) [Decidable c] : Check Unit := failIf c ⟨none, true⟩

/-- `if c { return ruleError(code, str), false }` -/
def violationIf (c : Prop) [Decidable c] (code : ErrorCode) (format : String) (args : List Arg) :
    Check Unit :=
  failIf c ⟨some (.ruleError code ⟨format, args⟩), false⟩

/-- `if c { return fmt.Errorf(..), orphan }` -/
def refuseIf (c : Prop) [Decidable c] (orphan : Bool) (format : String) (args : List Arg) :
    Check Unit :=
  failIf c ⟨some (.errorf ⟨format, args⟩), orphan⟩

/-! ## The rotation at the parent -/

section

variable {S : Type} (env : PowEnv S)

/-- The rotation at a node, from that at the tip: down to the fork and on along the branch of the
node. -/
def rotateTo (rotate : UInt32) (fork tip pn : Node) : UInt32 :=
  let rotate := (above fork tip).reverse.foldl
    (fun r p => r - ofNat (Node.advance p)) rotate
  (above fork pn).reverse.foldl (fun r p => r + ofNat (Node.advance p)) rotate

/-- The rotation a block on a parent is checked with. -/
def parentRotation (st : ChainState S) (hash : Hash) : Option Node → Check UInt32
  | none => do
    orphanIf (hash ≠ env.genesisHash)
    return st.snapshot.lastRotation
  | some parent =>
    if parent = st.snapshot.node then .ok st.snapshot.lastRotation
    else do
      -- `FindFork` has none for a node at or below the cutoff
      orphanIf (height parent ≤ env.cutoff)
      return rotateTo st.snapshot.lastRotation (findFork st.tip parent) st.tip parent

/-- `parent.Data.GetNonce()` -/
def PowEnv.nonce : Node → Int32
  | [] => env.genesisNonce
  | x :: _ => x.nonce

/-! ## POW blocks -/

/-- The difficulty of a POW block is that of the miner block at the rotation. -/
def checkDifficulty (block : SignedBlock) (rotate : UInt32) (flags : BehaviorFlags) : Check Unit :=
  match env.blockByHeight rotate.toInt32 with
  | none => fail ⟨none, true⟩
  | some s => do
    let target := compactToBig (env.bits s)
    violationIf (target ≤ 0) .errUnexpectedDifficulty
      "block target difficulty of %064x is too low" [.int target]
    violationIf (target > env.powLimit ∧ flags &&& BFEasyBlocks = 0) .errUnexpectedDifficulty
      "block target difficulty of %064x is higher than max of %064x"
      [.int target, .int env.powLimit]
    let hashNum := hashToBig block.hash
    violationIf (flags &&& BFNoPoWCheck ≠ BFNoPoWCheck ∧ hashNum > target * 40) .errHighHash
      "block hash of %064x is higher than expected max of %064x"
      [.int hashNum, .int (target * 40)]

/-! ## Signed blocks -/

/-- The place of a signed block in the series. -/
def checkSeries (pnonce nonce : Int32) (rotate : UInt32) : Check Unit :=
  if pnonce > 0 then
    refuseIf (nonce ≠ -1) true ("The previous block was a POW block, this block must be either " ++
      "a POW block, or a rotate block.") []
  else if pnonce = -MINER_RORATE_FREQ + 1 then
    let next := rotate + 1 + MINER_RORATE_FREQ.toUInt32
    refuseIf (nonce ≠ -next.toInt32) true
      "The this is a rotation block, nonce %d must be height of next Miner block %d."
      [.int (-nonce).toInt, .int next.toNat]
  else if pnonce ≤ -MINER_RORATE_FREQ then
    refuseIf (nonce ≠ -1) true
      "Previous block is a rotation block, this block nonce must be -1." []
  else
    refuseIf (nonce ≠ pnonce - 1) true ("The previous block is a block in a series, this block " ++
      "must be the next in the series (%d vs. %d).") [.int nonce.toInt, .int pnonce.toInt]

/-- The values of the loop `for i := rotate - CommitteeSize + 1; i <= rotate; i++`. -/
def committeeHeights (rotate : UInt32) : Check (List UInt32) :=
  let first := rotate - ofNat CommitteeSize + 1
  -- every `i` passes the test then, and the array is left at the first block found after it
  if rotate + 1 = 0 then crash
  else if first ≤ rotate then .ok ((List.range CommitteeSize).map fun k => first + ofNat k)
  -- the first height is below zero and has wrapped
  else .ok []

/-- The second result of `Value()`. -/
def tokenValue : Option TokenValue → Check Int64
  | some (.numToken val) => .ok val
  | some (.hashToken _) => .ok 0
  | none => crash

/-- The first award of each token type sets the amount. -/
def setAward (awd : Map UInt64 Int64) (txo : TxOut) : Check (Map UInt64 Int64) := do
  refuseIf (txo.tokenType ≠ FeeCoinTyp ∧ txo.tokenType ≠ ZENTCoinTyp) false
    "Coinbase output tokentype %d is not correct." [.int txo.tokenType.toNat]
  if (awd.lookup txo.tokenType).isSome then return awd
  else return awd.insert txo.tokenType (← tokenValue txo.value)

/-- An award differs from the amount by at most one unit; its receiver is noted. -/
def takeAward (awd : Map UInt64 Int64) (awardto : Finset Address) (txo : TxOut) :
    Check (Finset Address) := do
  let dif := (← numVal txo.value) - awd.get txo.tokenType
  let dif := if dif < 0 then -dif else dif
  refuseIf (dif > 1) false "Award is not evenly distributed among quanlified miners." []
  let tw ← slice txo.pkScript 1 21
  return insert (addressOf tw) awardto

/-- Those the coinbase pays, up to its separator. -/
def awardees (txOut : List TxOut) : Check (Finset Address) := do
  let txOut := txOut.takeWhile fun txo => !txo.isSeparator
  let awd ← txOut.foldlM setAward ∅
  txOut.foldlM (takeAward awd) ∅

/-- The committee so far, and those paid who are not in it. -/
structure Roll where
  committee : Finset Address
  awardto : Finset Address

/-- A miner with collateral has to be paid, one without must not be. -/
def checkAward (parent : Node) (awardto : Finset Address) (mb : MinerBlock) : Check Unit :=
  if env.checkCollateral mb parent then orphanIf (mb.miner ∉ awardto)
  else
    refuseIf (mb.miner ∈ awardto) false "Coinbase award to miner with insufficient collateral." []

/-- The miner of a block joins the committee, with or without collateral. -/
def enrol (parent : Node) (r : Roll) (mb : MinerBlock) : Check Roll := do
  checkAward env parent r.awardto mb
  return ⟨insert mb.miner r.committee, r.awardto.erase mb.miner⟩

/-- The members who have not signed yet, the scripts to be removed, and the signatures counted. -/
structure SigCount where
  committee : Finset Address
  tbr : List Nat
  nsigned : Nat

/-- One signature script, with its index. -/
def countSignature (hash : Bytes) (c : SigCount) (sign : Bytes × Nat) : Check SigCount :=
  match verifySigScript env.sigs sign.1 hash with
  | .error err => fail ⟨some err, false⟩
  | .ok pkh =>
    if pkh ∈ c.committee then .ok ⟨c.committee.erase pkh, c.tbr, c.nsigned + 1⟩
    else .ok ⟨c.committee, c.tbr ++ [sign.2], c.nsigned⟩

/-- The collected indexes are taken out from the last one down. -/
def removeScripts (tbr : List Nat) (scripts : List Bytes) : List Bytes :=
  tbr.foldr (fun k s => s.eraseIdx k) scripts

/-- Match the signatures with the committee. -/
def checkSignatures (block : SignedBlock) (committee : Finset Address) : Check (List Bytes) := do
  let hash := makeMinerSigHash env.sigs block.height block.hash
  let c ← ((block.scripts.drop 1).zipIdx 1).foldlM (countSignature env hash) ⟨committee, [], 0⟩
  refuseIf (c.nsigned < CommitteeSigs) false "Insufficient number of Miner signatures." []
  return removeScripts c.tbr block.scripts

/-- What a block with non-positive nonce goes through. -/
def checkSigned (block : SignedBlock) (parent : Node) (rotate : UInt32) (flags : BehaviorFlags) :
    Check (List Bytes) := do
  checkSeries (env.nonce parent) block.nonce rotate
  refuseIf (CommitteeSize > 1 ∧ flags &&& (BFNoConnect ||| BFSubmission) ≠ 0) true
    "Unexpected flags" []
  refuseIf (block.scripts.length ≤ CommitteeSigs) false "Insufficient signature" []
  let name ← index block.scripts 1
  refuseIf (name.length < PubKeyBytesLenCompressed) false "Incorrect signature" []
  let heights ← committeeHeights rotate
  let mbs := heights.filterMap fun i => env.blockByHeight i.toInt32
  let awardto ← awardees block.txOut
  let roll ← mbs.foldlM (enrol env parent) ⟨∅, awardto⟩
  orphanIf (roll.awardto ≠ ∅)
  checkSignatures env block roll.committee

/-- The check of a block against its parent; on success, the scripts the block is left with. -/
def checkProofOfWork (st : ChainState S) (block : SignedBlock) (parent : Option Node)
    (flags : BehaviorFlags) : Check (List Bytes) := do
  let rotate ← parentRotation env st block.hash parent
  if block.nonce > 0 then
    checkDifficulty env block rotate flags
    return block.scripts
  else match parent with
    | none => fail ⟨none, true⟩
    | some parent => checkSigned env block parent rotate flags

end

end Zent
