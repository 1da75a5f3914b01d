import Noeta.Heap.Basic
import Noeta.Lib.Dfs
import Noeta.Gc.Collector
import Noeta.Gc.Graph
import Noeta.Gc.Components
import Noeta.Gc.Trace
import Noeta.Heap.Release
import Noeta.Gc.Trial.Mark
import Noeta.Gc.Trial.Scan
import Noeta.Gc.Trial.Spec
import Noeta.Gc.Trial.Safety
import Noeta.Heap.Ownership
import Noeta.Gc.Trial.Restore
import Noeta.Vm.Lifecycle
import Noeta.Vm.Reclaim
import Noeta.Vm.HeapRun
import Noeta.Vm.Sweep
import Noeta.Vm.Teardown
import Noeta.Vm.Destruct
import Noeta.Ir.Liveness
import Noeta.Reactive.Dispose
import Noeta.Reactive.Invariant
import Noeta.Reactive.Compute
import Noeta.Reactive.Representation
import Noeta.Reactive.Effects
import Noeta.Sched.Channel
import Noeta.Sched.Delivery
import Noeta.Sched.Stall
import Noeta.Sched.StallSafety
import Noeta.Sched.Handles
import Noeta.Sched.Tasks
import Noeta.Sched.AutoClose
import Noeta.Sched.Producers
import Noeta.Hotswap.PlanQueue
import Noeta.Hotswap.Diff
import Noeta.Hotswap.ColdStart
import Noeta.Types.Lattice
import Noeta.Types.Preorder
import Noeta.Types.Variance
import Noeta.Types.Covariance
import Noeta.Types.Patterns
import Noeta.Types.Coverage
import Noeta.Lib.Cutter
import Noeta.Lib.Utf8
import Noeta.Stream.Decoder
import Noeta.Stream.Encoder
import Noeta.Stream.Events
import Noeta.Packed.Schema
import Noeta.Packed.Codec
import Noeta.Packed.List
import Noeta.Packed.Layout
import Noeta.Packed.Refinement
import Noeta.Lib.Slices
import Noeta.Lib.Strike
import Noeta.Lib.Merkle
import Noeta.Pm.Transparency
import Noeta.Pm.Requirement
import Noeta.Pm.Semver
import Noeta.Lib.Toml
import Noeta.Pm.Lockfile
import Noeta.Pm.LockRoundTrip
import Noeta.Lib.Fallible
import Noeta.Pm.Graph
import Noeta.Pm.Locate
import Noeta.Pm.Walk
import Noeta.Pm.Gather
import Noeta.Pm.Select
import Noeta.Pm.Precedence
import Noeta.Pm.LockHistory
import Noeta.Pm.LegacyPins
import Noeta.Ext.Uri
import Noeta.Ext.Resolve
import Noeta.Ext.Redirect
import Noeta.Pm.Advisory
import Noeta.Reactive.Overflow
import Noeta.Reactive.Peek
import Noeta.Reactive.Teardown
import Noeta.Reactive.Cells
import Noeta.Sched.SendRefs
import Noeta.Isolate.Graph
import Noeta.Isolate.Marshal
import Noeta.Isolate.RoundTrip
import Noeta.Isolate.Boundary
import Noeta.Sched.Rounds
import Noeta.Ext.Form
import Noeta.Ext.RequestPath
import Noeta.Lib.Interner
import Noeta.Object.Intern
import Noeta.Hotswap.Install
import Noeta.Hotswap.FailedSwap
import Noeta.Hotswap.Stability
import Noeta.Lib.Widening
import Noeta.Packed.Reductions
import Noeta.Stream.Events
import Noeta.Json.Native
import Noeta.Json.Hint
import Noeta.Json.Typed
import Noeta.Json.Unsigned
import Noeta.Json.Flattened
import Noeta.Json.Text
import Noeta.Lib.ParseInt
import Noeta.Ext.SetCookie
import Noeta.Ext.CookieJar
import Noeta.Ext.CookieLives
import Noeta.Ext.CookiesSent
import Noeta.Ext.Signature
import Noeta.Ext.SignatureFresh
import Noeta.Ext.SignatureBase
import Noeta.Ext.SignatureText
import Noeta.Ext.SignatureRound
import Noeta.Packed.Exact
import Noeta.Check.Syntax
import Noeta.Check.Constructors
import Noeta.Check.FreshReturn
import Noeta.Check.Forwarding
import Noeta.Check.ForwardingSites
import Noeta.Check.ForwardingRounds
import Noeta.Fmt.Doc
import Noeta.Fmt.Line
import Noeta.Fmt.Groups
import Noeta.Check.Send
import Noeta.Check.Divergence
import Noeta.Pm.Counted
import Noeta.Pm.Sole
import Noeta.Pm.Policy
import Noeta.Pm.TrustPins
import Noeta.Check.ElementJoin
import Noeta.Check.Instantiation
import Noeta.Lexer.Holes
import Noeta.Lexer.TierBody
import Noeta.Check.RenderHints
import Noeta.Lexer.Pass
import Noeta.Lexer.Written
import Noeta.Lexer.TwoPasses
import Noeta.Compiler.Indices
import Noeta.Lib.Framing
import Noeta.Startup.Key
import Noeta.Ir.Paths
import Noeta.Ir.LivenessPaths
import Noeta.Check.Relevance
import Noeta.Ir.Drops
import Noeta.Ir.DropSites
import Noeta.Ir.DropFuncs
import Noeta.Ir.Undrop
import Noeta.Check.ParamRelevance
import Noeta.Compiler.Regalloc
import Noeta.Compiler.StaleLoads
import Noeta.Lib.Labels
import Noeta.Pm.Assemble
import Noeta.Pm.LinkSegments
import Noeta.Gc.Trial.Deferral
import Noeta.Jit.IntCode
