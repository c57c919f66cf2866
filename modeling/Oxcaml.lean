import Oxcaml.Typing.MorphTheorems
import Oxcaml.Typing.SolverTranscripts
import Oxcaml.Typing.TypeBacktrackingRuns
import Oxcaml.Typing.GlobalPrecisionTheorems
import Oxcaml.Typing.LddOperations
import Oxcaml.Flambda2.PatriciaTreeValid
import Oxcaml.Flambda2.LeapfrogTheorems
import Oxcaml.Backend.CmmDivisionExpressions
import Oxcaml.Backend.ZeroAllocRuns
import Oxcaml.Backend.ZeroAllocUnitRuns
import Oxcaml.Lambda.SwitchCorrect
import Oxcaml.Runtime.FrameDescriptorsTheorems
import Oxcaml.Utils.StructuredManglingTheorems
import Oxcaml.Utils.StronglyConnectedComponentsTheorems
import Oxcaml.Backend.FrameRoundTrip
import Oxcaml.Lambda.MixedBlockTheorems
import Oxcaml.Backend.DwarfAccounting
import Oxcaml.Backend.X86BinaryEmitterTheorems
import Oxcaml.Backend.LogicalImmediatesTheorems
import Oxcaml.Backend.CmmPeepholes
import Oxcaml.Flambda2.AliasLookup
import Oxcaml.Backend.ComballocTheorems
import Oxcaml.Flambda2.NameOccurrencesTheorems
import Oxcaml.Backend.ListTablesTheorems
import Oxcaml.Flambda2.PermutationTheorems
import Oxcaml.Flambda2.DataFlowGraphTheorems
import Oxcaml.Utils.StringSearch
import Oxcaml.Backend.AsciiLiterals
import Oxcaml.Backend.BitMatrix
