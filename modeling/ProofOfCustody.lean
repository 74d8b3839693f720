import ProofOfCustody.Effect.Program
import ProofOfCustody.Effect.Coupling
import ProofOfCustody.Effect.Signals
import ProofOfCustody.Network.Process
import ProofOfCustody.Network.Execution
import ProofOfCustody.Network.Rounds
import ProofOfCustody.Tools.OctetStream
import ProofOfCustody.Binary.Counter
import ProofOfCustody.Curve.Gaussian
import ProofOfCustody.Curve.Chord
import ProofOfCustody.Spdz.Share
import ProofOfCustody.Spdz.Online
import ProofOfCustody.Spdz.Rerandomize
import ProofOfCustody.Networking.Player
import ProofOfCustody.Tools.Subroutines
import ProofOfCustody.Tools.CommitRuns
import ProofOfCustody.Spdz.TreeSum
import ProofOfCustody.Spdz.TreeSumRuns
import ProofOfCustody.Spdz.MacCheck
import ProofOfCustody.Spdz.Ledger
import ProofOfCustody.Spdz.MacCheckRuns
import ProofOfCustody.Spdz.Forgery
import ProofOfCustody.OnlineOp.Loops
import ProofOfCustody.OnlineOp.Arith
import ProofOfCustody.OnlineOp.ArithSpec
import ProofOfCustody.OnlineOp.Bits
import ProofOfCustody.OnlineOp.BitsSpec
import ProofOfCustody.OnlineOp.StraightLine
import ProofOfCustody.OnlineOp.StraightLineSpec
import ProofOfCustody.OnlineOp.ConvertSpec
import ProofOfCustody.Binary.Word
import ProofOfCustody.OnlineOp.BitsCoupled
import ProofOfCustody.OnlineOp.Inputs
import ProofOfCustody.OnlineOp.Hash
import ProofOfCustody.OnlineOp.Rejection
import ProofOfCustody.OnlineOp.Exact
import ProofOfCustody.OnlineOp.HashExact
import ProofOfCustody.OnlineOp.Folds
import ProofOfCustody.OnlineOp.Decompose
import ProofOfCustody.OnlineOp.Sampling
import ProofOfCustody.OnlineOp.Complex
import ProofOfCustody.OnlineOp.ComplexSpec
import ProofOfCustody.Group.Ops
import ProofOfCustody.Group.OpsSpec
import ProofOfCustody.Group.Laws
import ProofOfCustody.Bls.Lagrange
import ProofOfCustody.Bls.Vss
import ProofOfCustody.Bls.Recover
import ProofOfCustody.Bls.Commit
import ProofOfCustody.Bls.Keygen
import ProofOfCustody.Bls.KeygenSpec
import ProofOfCustody.Bls.KeygenRuns
import ProofOfCustody.Bls.KeygenHonest
import ProofOfCustody.Bls.KeygenCorrupt
import ProofOfCustody.Bls.Mcl
import ProofOfCustody.Bls.Sign
import ProofOfCustody.Spdz.Plain
import ProofOfCustody.Params.Pratt
import ProofOfCustody.Params.Primes
import ProofOfCustody.Poc.Custody
import ProofOfCustody.Poc.CustodySpec
import ProofOfCustody.Poc.OneStep
import ProofOfCustody.Poc.CustodyHiding
import ProofOfCustody.Poc.KeyTransport
import ProofOfCustody.Poc.KeyTransportSpec
import ProofOfCustody.Poc.KeyTransportRun
import ProofOfCustody.Poc.KeyTransportHiding
import ProofOfCustody.Poc.Handover
import ProofOfCustody.Poc.Pipeline
import ProofOfCustody.OnlineOp.Local
import ProofOfCustody.OnlineOp.LocalBits
import ProofOfCustody.OnlineOp.LocalBitsSpec
import ProofOfCustody.OnlineOp.LocalComplex
import ProofOfCustody.Poc.Local
import ProofOfCustody.Poc.LocalSpec
import ProofOfCustody.Poc.Stages
