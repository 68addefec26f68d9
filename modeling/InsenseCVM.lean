import InsenseCVM.Lib.Linked
import InsenseCVM.Lib.Transition
import InsenseCVM.Lib.Search
import InsenseCVM.Lib.Execution
import InsenseCVM.Lib.Halting
import InsenseCVM.Lib.ByteStream
import InsenseCVM.Lib.Interleaving
import InsenseCVM.Lib.RefHeap
import InsenseCVM.Collections.Sequence
import InsenseCVM.Collections.Mutators
import InsenseCVM.Collections.IteratedList
import InsenseCVM.Collections.Cursor
import InsenseCVM.Collections.Scan
import InsenseCVM.Collections.ParameterList
import InsenseCVM.Collections.ListMap
import InsenseCVM.Collections.FiniteMap
import InsenseCVM.Collections.SharedLookup
import InsenseCVM.Collections.Stack
import InsenseCVM.Collections.ScopeStack
import InsenseCVM.Collections.Environments
import InsenseCVM.Collections.ScopeResolution
import InsenseCVM.Channels.Channel
import InsenseCVM.Channels.Rendezvous
import InsenseCVM.Channels.Acknowledge
import InsenseCVM.Channels.Semaphore
import InsenseCVM.Channels.Signals
import InsenseCVM.Channels.MissedRendezvous
import InsenseCVM.Channels.BoundedBypass
import InsenseCVM.Channels.Network
import InsenseCVM.Channels.Exclusion
import InsenseCVM.Channels.ConnectionGraph
import InsenseCVM.Channels.Wiring
import InsenseCVM.Channels.Unbinding
import InsenseCVM.Channels.BindExits
import InsenseCVM.Channels.BindParked
import InsenseCVM.Memory.ReferenceCount
import InsenseCVM.Memory.Collector
import InsenseCVM.Memory.Assignment
import InsenseCVM.Memory.Mutation
import InsenseCVM.Memory.Entries
import InsenseCVM.Memory.CountedStack
import InsenseCVM.Memory.CountedScopes
import InsenseCVM.Memory.ScopeHeap
import InsenseCVM.Memory.Releases
import InsenseCVM.Bytecode.Table
import InsenseCVM.Bytecode.Source
import InsenseCVM.Bytecode.Strings
import InsenseCVM.Bytecode.Skip
import InsenseCVM.Bytecode.Instruction
import InsenseCVM.Bytecode.Agreement
import InsenseCVM.Bytecode.Nesting
import InsenseCVM.Machine.World
import InsenseCVM.Machine.Component
import InsenseCVM.Machine.Operators
import InsenseCVM.Machine.Run
import InsenseCVM.Machine.ExpressionEffect
import InsenseCVM.Machine.Footprint
import InsenseCVM.Machine.Scoping
import InsenseCVM.Machine.ProjectStatement
import InsenseCVM.Machine.ConstructorBinding
import InsenseCVM.Machine.LaterConstructors
import InsenseCVM.Machine.BlockSkipping
import InsenseCVM.Machine.ParsingHalts
import InsenseCVM.Machine.Literals
import InsenseCVM.Machine.IntegralOperators
import InsenseCVM.Machine.Conditionals
import InsenseCVM.Machine.ConditionalRuns
import InsenseCVM.Machine.ProcedureReturn
import InsenseCVM.Machine.ArgumentBinding
import InsenseCVM.Machine.CallInProject
import InsenseCVM.Machine.CallChain
import InsenseCVM.Machine.Resumable
import InsenseCVM.Machine.SharedSource
import InsenseCVM.Machine.ChannelInstruction
import InsenseCVM.Machine.FullFootprint
import InsenseCVM.Machine.ThreadExit
import InsenseCVM.Machine.ChannelTransfer
import InsenseCVM.Machine.ValuesTransferred
import InsenseCVM.Machine.ReceivedStruct
import InsenseCVM.Collections.OpenScope
import InsenseCVM.Collections.Unwinding
import InsenseCVM.Collections.BalancedScopes
import InsenseCVM.Machine.ScopeEffects
import InsenseCVM.Machine.LexicalScoping
import InsenseCVM.Lib.ForkJoin
import InsenseCVM.Machine.Threads
import InsenseCVM.Lib.Commands
import InsenseCVM.Channels.Progress
import InsenseCVM.Channels.Order
import InsenseCVM.Channels.NetworkSteps
import InsenseCVM.Channels.Offers
import InsenseCVM.Channels.Reconfiguration
import InsenseCVM.Collections.Frames
import InsenseCVM.Machine.Values
import InsenseCVM.Machine.Programs
import InsenseCVM.Machine.Behaviours
import InsenseCVM.Machine.Projects
