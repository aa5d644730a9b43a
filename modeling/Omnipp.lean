import Omnipp.Cat.Command
import Omnipp.Cat.Copies
import Omnipp.Cat.Highlight
import Omnipp.Cat.Middleman
import Omnipp.Cat.Terminal
import Omnipp.FailStop
import Omnipp.Grep.Alone
import Omnipp.Grep.Awake
import Omnipp.Grep.Batches
import Omnipp.Grep.Blocks
import Omnipp.Grep.Descriptors
import Omnipp.Grep.Dirents
import Omnipp.Grep.Duration
import Omnipp.Grep.EndToEnd
import Omnipp.Grep.Engines
import Omnipp.Grep.FailedWrites
import Omnipp.Grep.Halted
import Omnipp.Grep.Mutex
import Omnipp.Grep.Output
import Omnipp.Grep.Processor
import Omnipp.Grep.Progress
import Omnipp.Grep.Shutdown
import Omnipp.Grep.Thrown
import Omnipp.Grep.Traversal
import Omnipp.Grep.Tree
import Omnipp.Grep.Unwinding
import Omnipp.Grep.Worker
import Omnipp.Kernel
import Omnipp.Lib.Blocks
import Omnipp.Lib.Cursor
import Omnipp.Lib.History
import Omnipp.Lib.Lines
import Omnipp.Lib.Loop
import Omnipp.Lib.Memory
import Omnipp.Lib.Potential
import Omnipp.Lib.Slices
import Omnipp.Lib.Threads
import Omnipp.Lib.Tokens
import Omnipp.Main
import Omnipp.Pipeline
import Omnipp.Sink.Shared
import Omnipp.Sink.Splice
import Omnipp.Sink.Write
import Omnipp.Source.Copy
import Omnipp.Source.DirectoryTraverse
import Omnipp.Source.ReadFile
import Omnipp.Source.Splice
import Omnipp.Transform.Agreement
import Omnipp.Transform.Batch
import Omnipp.Transform.Re2Regex
import Omnipp.Transform.SimpleRegex
import Omnipp.Transform.TreeSitter
import Omnipp.Transform.VectorScan
import Omnipp.Utils.AutoRelease
import Omnipp.Utils.Completions
import Omnipp.Utils.DirRefs
import Omnipp.Utils.Drain
import Omnipp.Utils.EventLoop
import Omnipp.Utils.Fine
import Omnipp.Utils.HandlerEnds
import Omnipp.Utils.HandlerRuns
import Omnipp.Utils.InFlight
import Omnipp.Utils.Ledger
import Omnipp.Utils.Lent
import Omnipp.Utils.Memcpy
import Omnipp.Utils.MemcpyProofs
import Omnipp.Utils.Owners
import Omnipp.Utils.Ownership
import Omnipp.Utils.Play
import Omnipp.Utils.PoolPeak
import Omnipp.Utils.PoolRuns
import Omnipp.Utils.Pump
import Omnipp.Utils.ReadChain
import Omnipp.Utils.ReadOwners
import Omnipp.Utils.RegexHandler
import Omnipp.Utils.RegexOutput
import Omnipp.Utils.RequestPool
import Omnipp.Utils.WriteChain
