import EgLang.Library.StepSystem
import EgLang.Library.KeyOrders
import EgLang.Library.OrderedMap
import EgLang.Library.NodeList
import EgLang.Library.RoseTree
import EgLang.Library.TreePaths
import EgLang.Library.Arena
import EgLang.Library.Bytes
import EgLang.Common
import EgLang.Scheduler.State
import EgLang.Scheduler.Operations
import EgLang.Scheduler.Machine
import EgLang.Scheduler.WellFormed
import EgLang.Scheduler.Delivery
import EgLang.Scheduler.Signals
import EgLang.Scheduler.Transitions
import EgLang.Scheduler.EventDelivery
import EgLang.Scheduler.Views
import EgLang.Scheduler.Fates
import EgLang.Scheduler.Control
import EgLang.Scheduler.Staleness
import EgLang.Scheduler.Sleeping
import EgLang.Scheduler.Placement
import EgLang.Scheduler.Ownership
import EgLang.Scheduler.Safety
import EgLang.Runtime.Allocators
import EgLang.Runtime.Program
import EgLang.Runtime.State
import EgLang.Runtime.Generated
import EgLang.Runtime.Rules
import EgLang.Runtime.AllocatorAgreement
import EgLang.Runtime.References
import EgLang.Runtime.SubTree
import EgLang.Runtime.Layout
import EgLang.Runtime.BufferPlacement
import EgLang.Runtime.InstanceIndices
import EgLang.Compiler.Instruction
import EgLang.Compiler.Elimination
import EgLang.Compiler.EliminationMeaning
import EgLang.Compiler.Derivation
import EgLang.Compiler.NameResolution
import EgLang.Compiler.Instances
import EgLang.Compiler.ResolutionTree
import EgLang.Compiler.Prune
import EgLang.Compiler.Growth
import EgLang.Compiler.Expansion
import EgLang.Compiler.TreeGrowth
import EgLang.Compiler.Matching
import EgLang.Compiler.TreeResolution
import EgLang.Compiler.Reachability
import EgLang.Compiler.StaleFlags
import EgLang.Compiler.PruningSteps
import EgLang.Compiler.Session
import EgLang.Compiler.Invocation
import EgLang.Compiler.Solution
import EgLang.Compiler.Route
import EgLang.Compiler.Evaluation
import EgLang.EventLog.Event
import EgLang.EventLog.Log
import EgLang.EventLog.Layout
import EgLang.EventLog.Reading
import EgLang.EventLog.Fifo
import EgLang.EventLog.Interleaving
import EgLang.Library.SwapLoop
import EgLang.Library.Unfolding
import EgLang.EventLog.Claiming
import EgLang.Library.Merging
import EgLang.Library.MergingOrders
import EgLang.Compiler.Interface
import EgLang.Compiler.Instantiation
import EgLang.Compiler.Overriding
import EgLang.Compiler.ConcreteTree
import EgLang.Compiler.Grounding
import EgLang.Compiler.Compatibility
import EgLang.Compiler.Coherence
import EgLang.Compiler.Conversion
import EgLang.Compiler.TypedReferences
import EgLang.Compiler.TypeSoundness
import EgLang.Compiler.LinkAnalysis
import EgLang.Compiler.ContextSets
import EgLang.Compiler.LinkGroups
import EgLang.Build.TranslationUnits
import EgLang.Build.FileIds
import EgLang.Runtime.Starting
import EgLang.Build.FileNames
import EgLang.Runtime.Names
import EgLang.Runtime.NameClashes
import EgLang.Library.Fuel
import EgLang.Parsing.Tokens
import EgLang.Parsing.Grammar
import EgLang.Parsing.Termination
import EgLang.Parsing.Includes
import EgLang.Parsing.InterfaceTree
import EgLang.EventLog.Limits
import EgLang.Library.MemoTable
import EgLang.Compiler.InvocationCache
import EgLang.Compiler.CacheCoherence
import EgLang.Compiler.RangeBuilding
import EgLang.Compiler.ContextTypes
import EgLang.Compiler.RangeTargets
import EgLang.Compiler.Derivations
import EgLang.Library.Nesting
import EgLang.Compiler.RangeCode
import EgLang.Compiler.EnumerationRanges
import EgLang.Compiler.RangeArrays
import EgLang.Library.SortedEntries
import EgLang.Compiler.IdentifierGroups
import EgLang.Library.Greedy
import EgLang.Driver.Sections
import EgLang.Library.Cursor
import EgLang.Runtime.Iterators
import EgLang.Compiler.MostDerived
import EgLang.Parsing.Captures
import EgLang.Parsing.BodyRuns
import EgLang.Scheduler.CleanUp
import EgLang.Scheduler.ReferenceKeys
import EgLang.Library.Archive
import EgLang.Compiler.ObjectArchive
import EgLang.Compiler.InstructionArchive
import EgLang.Compiler.LoadedElements
import EgLang.Compiler.InstructionReading
import EgLang.Compiler.SolutionRoundTrip
import EgLang.Library.Outcome
import EgLang.Library.Codecs
import EgLang.Runtime.Links
import EgLang.Runtime.LinkCounts
import EgLang.Runtime.Cascades
import EgLang.Runtime.LinkWrites
import EgLang.Runtime.LinkRuns
import EgLang.Runtime.LinkCountRuns
import EgLang.Runtime.Relinking
import EgLang.Compiler.GenericTrees
import EgLang.Compiler.ResolvedNames
import EgLang.Compiler.Walks
import EgLang.Compiler.InStep
import EgLang.Compiler.TypedTrees
import EgLang.Compiler.BuiltRoutes
import EgLang.Compiler.InvocationWalks
import EgLang.Compiler.InstructionCode
import EgLang.Compiler.CodeSimulation
import EgLang.Compiler.InvocationCode
import EgLang.Compiler.RangeSolutions
import EgLang.Compiler.InvocationRanges
import EgLang.Compiler.RangeLoops
import EgLang.Runtime.Done
import EgLang.Scheduler.Lives
import EgLang.Resources.Manager
import EgLang.Resources.Polling
import EgLang.Sessions.Values
import EgLang.Sessions.InputObjects
import EgLang.Sessions.InterfaceObjects
import EgLang.Sessions.ConcreteObjects
import EgLang.Sessions.AnalysisObjects
import EgLang.Sessions.Classes
import EgLang.Sessions.Files
import EgLang.Sessions.Stored
import EgLang.Sessions.Opening
import EgLang.Sessions.Loading
import EgLang.Sessions.Runs
