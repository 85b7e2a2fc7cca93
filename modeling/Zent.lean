import Zent.Wire.OmcDecode
import Zent.Wire.SerializeSize
import Zent.Validate.RightsVerdict
import Zent.Blockchain.Conservation
import Zent.Blockchain.CrossChainUndo
import Zent.Blockchain.ReorgCommittee
import Zent.Blockchain.Reportees
import Zent.Blockchain.Compensation
import Zent.Mining.Template
import Zent.Minerchain.Solver
import Zent.Blockchain.ChainVotes
import Zent.Blockchain.OpsHistory
import Zent.Minerchain.BlockContext
import Zent.Minerchain.ReorgSafety
import Zent.Ovm.Rollback
import Zent.Ovm.SigProgress
import Zent.Viewpoint.Outputs
import Zent.Viewpoint.BorderLookup
import Zent.Viewpoint.DefHash
import Zent.Validate.Ancestry
import Zent.Ovm.TxId
import Zent.Ovm.StepLimit
import Zent.Ovm.Isolation
import Zent.Consensus.Vouching
import Zent.Consensus.SignOnce
import Zent.Consensus.Quorum
import Zent.Consensus.Rooted
import Zent.Consensus.NoCrash
import Zent.Ovm.Exp
import Zent.Ovm.ByteCode
