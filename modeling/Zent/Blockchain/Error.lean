import Zent.Wire.MsgTx

/-!
# Errors of the chain rules

A rule failure carries an error code and a text built with `fmt.Sprintf`. The
text is kept as its format together with the arguments, unrendered.
-/

namespace Zent

/-- The codes of `RuleError` used by the modelled rules. -/
inductive ErrorCode where
  | errNoTxInputs
  | errNoTxOutputs
  | errBadTxOutValue
  | errDuplicateTxInputs
  | errBadTxInput
  | errMissingTxOut
  | errImmatureSpend
  | errSpendTooHigh
  | errBadFees
  | errUnexpectedDifficulty
  | errHighHash
  | errMissingCoinbaseHeight
  | errBadCheckpoint
  | errExcessContractExec
  | errNoTransactions
  | errFirstTxNotCoinbase
  | errMultipleCoinbases
  | errExpiredTx
  | errDuplicateTx
  | errTooManySigOps
  | errTimeTooOld
  | errBlackList
  | errRotationViolation
  | errViolationReport
  | errInvalidAncestorBlock
  deriving DecidableEq, Repr

/-- An argument of a format. -/
inductive Arg where
  | int (x : Int)
  | hash (h : Hash)
  | outPoint (o : OutPoint)
  | text (s : String)
  | bytes (b : Bytes)
  deriving DecidableEq, Repr

/-- A formatted text: the format and its arguments. -/
structure Message where
  format : String
  args : List Arg
  deriving DecidableEq, Repr

/-- The errors of package `blockchain` and of the packages it calls. -/
inductive ChainError where
  | ruleError (code : ErrorCode) (description : Message)
  /-- `fmt.Errorf` -/
  | errorf (description : Message)
  | assertError (description : Message)
  deriving DecidableEq, Repr

/-- An `Outcome` of the chain rules. -/
abbrev Result (α : Type) : Type := Go.Outcome ChainError α

/-- `return ruleError(code, str)` -/
def ruleError {α : Type} (code : ErrorCode) (format : String) (args : List Arg) : Result α :=
  Go.fail (.ruleError code ⟨format, args⟩)

/-- `if c { return ruleError(code, str) }` -/
def ruleIf (c : Prop) [Decidable c] (code : ErrorCode) (format : String) (args : List Arg) :
    Result Unit :=
  Go.failIf c (.ruleError code ⟨format, args⟩)

end Zent
