import Banjo.Passes.BranchElimination.Sound
import Banjo.Emit.Wasm.IndexSpaces
import Banjo.Emit.BinaryBuilder.Exact
import Banjo.Target.Wasm.Simulation
import Banjo.Target.Wasm.NarrowSimulation
import Banjo.Parser.Termination
import Banjo.SSAGen.ProtoDispatch
import Banjo.SSAGen.CallArgsAgreement
import Banjo.SSAGen.LinkNameUniqueness
import Banjo.Sema.Immutability
import Banjo.SSAGen.ValueSemantics
import Banjo.SSAGen.Temporaries
import Banjo.Passes.PeepholeOptimizer.Arithmetic
import Banjo.Passes.Canonicalization.Run
import Banjo.Passes.DeadCodeElimination.Sound
import Banjo.Passes.LICMPass.Sound
import Banjo.Passes.HeapToStackPass.Sound
import Banjo.Emit.BinaryBuilder.Branches
import Banjo.Target.X8664.Immediates
import Banjo.Target.RegOperands
import Banjo.Target.X8664.LowerSelect
import Banjo.Sema.ReturnChecker
import Banjo.Emit.ELF.SymbolTable
import Banjo.Parser.ExprRoundTrip
import Banjo.Target.AArch64.EncodedOffsets
import Banjo.Utils.LineEndings
import Banjo.Source.ModulePath.Ancestors
import Banjo.Source.EditList.Requests
import Banjo.Target.ArgConformity
import Banjo.Target.X8664.FrameLayout
import Banjo.Utils.JSON.Serializer
import Banjo.Utils.JSON.Conformity
import Banjo.Sema.GenericArgInference.Sound
import Banjo.SSAGen.GlobalBytes
import Banjo.SSAGen.UnionLayout
import Banjo.Passes.DeadFuncEliminationPass
import Banjo.Sema.RecursiveStructs
import Banjo.SSAGen.ConstantCasts
import Banjo.Passes.PeepholeOptimizer.LibraryCalls
import Banjo.Target.X8664.BlockCopies
import Banjo.Stdlib.Map
import Banjo.Stdlib.Path
import Banjo.LSP.URI
import Banjo.LSP.Positions
import Banjo.LSP.BaseMessageStream
import Banjo.Utils.BitSet
