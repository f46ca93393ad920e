import Ecco9.Library.Runs
import Ecco9.Library.MachineInt
import Ecco9.Library.LabelledStore
import Ecco9.Library.Utf8
import Ecco9.Library.Chars
import Ecco9.Library.Search
import Ecco9.Library.Space
import Ecco9.Library.Fields
import Ecco9.Library.Replace
import Ecco9.Library.Cuts
import Ecco9.Library.Trim
import Ecco9.Library.Queue
import Ecco9.Library.LinkedRuns
import Ecco9.Library.Merging
import Ecco9.Library.BestMerge
import Ecco9.Library.Floats
import Ecco9.Library.Heaps
import Ecco9.Library.HeapQueue
import Ecco9.Library.Sorting
import Ecco9.Library.Numbered
import Ecco9.KvCache.Causal
import Ecco9.KvCache.Defrag
import Ecco9.KvCache.DefragRows
import Ecco9.KvCache.Window
import Ecco9.KvCache.DefragContents
import Ecco9.KvCache.Ranges
import Ecco9.KvCache.Reachable
import Ecco9.KvCache.Mask
import Ecco9.KvCache.Held
import Ecco9.KvCache.Forward
import Ecco9.KvCache.Invariant
import Ecco9.KvCache.Room
import Ecco9.KvCache.Capacity
import Ecco9.KvCache.Resume
import Ecco9.Sample.Transforms
import Ecco9.Sample.Samplers
import Ecco9.Tokenizer.Vocabulary
import Ecco9.Tokenizer.BytePairEncoding
import Ecco9.Tokenizer.Reference
import Ecco9.Tokenizer.SentencePiece
import Ecco9.Parser.Modelfile
import Ecco9.Parser.Values
import Ecco9.Parser.Runs
import Ecco9.Parser.RoundTrip
import Ecco9.Parser.Classes
import Ecco9.Thinking.Parser
import Ecco9.Thinking.Stream
import Ecco9.Harmony.Parser
import Ecco9.Harmony.Handler
import Ecco9.Harmony.Messages
import Ecco9.Tools.Parser
import Ecco9.Tools.Calls
import Ecco9.Tools.Chunks
import Ecco9.Tools.Pairing
import Ecco9.Tools.Contents
import Ecco9.Library.JsonText
import Ecco9.Tools.Objects
import Ecco9.Runner.Stop
import Ecco9.Runner.StopStream
import Ecco9.Runner.InputCache
import Ecco9.Runner.Server
import Ecco9.Runner.Slots
import Ecco9.Runner.Batch
import Ecco9.Runner.Queue
import Ecco9.Runner.Building
import Ecco9.Runner.Submit
import Ecco9.Runner.Finish
import Ecco9.Runner.Load
import Ecco9.Runner.Serve
import Ecco9.Runner.Groups
import Ecco9.Runner.KvState
import Ecco9.Runner.Contents
import Ecco9.Runner.RunContents
import Ecco9.Blob.Cache
import Ecco9.Blob.CheckWriter
import Ecco9.Blob.Link
import Ecco9.Blob.Chunked
import Ecco9.Client.Pull
import Ecco9.Client.Integrity
import Ecco9.Client.Retries
import Ecco9.Server.Operations
import Ecco9.Server.Closure
import Ecco9.Server.Verification
import Ecco9.Server.Download
import Ecco9.Server.Resumption
import Ecco9.Server.Uploading
import Ecco9.Estimate.Memory
import Ecco9.Estimate.Agreement
import Ecco9.Estimate.Placement
import Ecco9.Estimate.Accounts
import Ecco9.Quantize.Kinds
import Ecco9.Quantize.Stored
import Ecco9.Sched.Recovery
import Ecco9.Sched.Scheduler
import Ecco9.Sched.Steps
import Ecco9.Sched.Population
import Ecco9.Sched.Grants
import Ecco9.Names.Parse
import Ecco9.Names.ModelName
import Ecco9.Middleware.Breaker
import Ecco9.Jobs.Slots
import Ecco9.Jobs.Registry
import Ecco9.AtomSpace.Graph
import Ecco9.Scheme.Refinement
import Ecco9.KvCache.Isolation
import Ecco9.KvCache.Wrapper
import Ecco9.KvCache.Encoder
import Ecco9.Models.Puller
import Ecco9.Models.Registry
import Ecco9.Reservoir.Pipeline
import Ecco9.Ontogenesis.Engine
import Ecco9.Ontogenesis.Evolve
import Ecco9.Runner.Streaming
import Ecco9.Runner.NewSequence
import Ecco9.Runner.Shift
import Ecco9.Runner.Lineage
import Ecco9.Runner.StopInputs
import Ecco9.Prompt.Template
import Ecco9.Prompt.Chat
import Ecco9.Gguf.File
import Ecco9.Library.Preconditions
import Ecco9.Library.Codecs
import Ecco9.Ggml.Decode
import Ecco9.Ggml.Lengths
import Ecco9.Ggml.Write
import Ecco9.Ggml.Readback
import Ecco9.Ggml.RoundTrip
import Ecco9.Gguf.Reading
import Ecco9.Gguf.Agreement
import Ecco9.Library.Decimal
import Ecco9.Library.Assignments
import Ecco9.Library.Grids
import Ecco9.Library.Blocks
import Ecco9.Library.Rounding
import Ecco9.Convert.Mixtral
import Ecco9.Convert.Experts
import Ecco9.Convert.Vocabulary
import Ecco9.Vision.Inputs
import Ecco9.Vision.Groups
import Ecco9.Vision.Windows
import Ecco9.Vision.Patches
import Ecco9.Vision.Rearrangement
import Ecco9.Vision.Resize
import Ecco9.Server.Challenge
import Ecco9.Names.ModelPath
import Ecco9.Api.Duration
import Ecco9.Library.ArrayLists
import Ecco9.Readline.Buffer
import Ecco9.Readline.Editor
import Ecco9.Library.TokenBucket
import Ecco9.Gateway.RateLimiter
import Ecco9.Sample.Exact
import Ecco9.AtomSpace.Spread
import Ecco9.AtomSpace.Attention
import Ecco9.Library.Substitution
import Ecco9.AtomSpace.Matching
import Ecco9.Scheme.Reader
import Ecco9.Scheme.Printer
import Ecco9.Library.BreadthFirst
import Ecco9.Memory.Hypergraph
import Ecco9.Jobs.Cache
import Ecco9.Middleware.Tracing
import Ecco9.Models.Information
import Ecco9.Echobeats.Scheduler
import Ecco9.Ontogenesis.Generations
import Ecco9.Reservoir.ThreadPool
import Ecco9.Openai.Messages
import Ecco9.Syncs.Relay
import Ecco9.Library.Readers
import Ecco9.Bufioutil.BufferedSeeker
import Ecco9.Library.Locking
import Ecco9.Drivers.Devices
import Ecco9.Drivers.SelfLock
import Ecco9.Library.RootedTree
import Ecco9.Opencog.Membranes
import Ecco9.Opencog.Evolution
import Ecco9.Orchestration.Resources
import Ecco9.Orchestration.Scheduler
import Ecco9.Gateway.Failover
import Ecco9.Library.OnePass
import Ecco9.Orchestration.Templates
import Ecco9.Gguf.Readers
import Ecco9.Llamarunner.Cells
import Ecco9.Llamarunner.InputCache
import Ecco9.Llamarunner.Slots
import Ecco9.Llamarunner.Runs
import Ecco9.Llamarunner.Images
