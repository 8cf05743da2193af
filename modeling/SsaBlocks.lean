import SsaBlocks.Collection.OrderedSet
import SsaBlocks.Collection.Stack
import SsaBlocks.Main
import SsaBlocks.Proofs.Cases
import SsaBlocks.Proofs.Columns
import SsaBlocks.Proofs.Construction
import SsaBlocks.Proofs.Dominance.Paths
import SsaBlocks.Proofs.Func.Canonical
import SsaBlocks.Proofs.Lower.Terminating
import SsaBlocks.Proofs.Meaning.CallDepth
import SsaBlocks.Proofs.Meaning.Defined
import SsaBlocks.Proofs.Meaning.ParallelCopy
import SsaBlocks.Proofs.Phi.Iterated
import SsaBlocks.Proofs.Phi.Kept
import SsaBlocks.Proofs.Refusal
import SsaBlocks.Proofs.Relabel.Lowering
import SsaBlocks.Proofs.Simplify.Paths
import SsaBlocks.Script.Run
