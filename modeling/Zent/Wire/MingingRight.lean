import Zent.Wire.MsgTx

/-!
# Miner blocks on the wire

The fields of a miner block (`MingingRightBlock`) that the forfeiture of collaterals, the check of
a collateral and the instructions of the miner chain read, with the hash and the height that
`MinerBlock` adds.
-/

namespace Zent

/-- A report of a miner that signed several blocks at one height. -/
structure Violations where
  /-- the miner block of the violator -/
  mrBlock : Hash
  /-- the blocks signed -/
  blocks : List Hash
  deriving DecidableEq, Repr

/-- An instruction of a miner block. -/
structure Instruction where
  instCode : UInt8
  instData : Bytes
  deriving DecidableEq, Repr

/-- A miner block. -/
structure MingingRightBlock where
  hash : Hash
  height : Int32
  miner : Address
  /-- what is required of the next block, in whole coins -/
  collateral : UInt32
  /-- the collateral, if there is one -/
  utxos : Option OutPoint
  violationReport : List Violations
  instructions : List Instruction
  deriving DecidableEq, Repr

/-- `wire.MingingRightBlock{}` -/
def MingingRightBlock.zero : MingingRightBlock := ⟨0, 0, 0, 0, none, [], []⟩

end Zent
