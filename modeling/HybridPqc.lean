import HybridPqc.Lib.Prog
import HybridPqc.Lib.Endian
import HybridPqc.Lib.Conn
import HybridPqc.Lib.Duplex
import HybridPqc.Lib.Faults
import HybridPqc.Lib.PrefixFree
import HybridPqc.Lib.Base64
import HybridPqc.Lib.Memory
import HybridPqc.Lib.Simd
import HybridPqc.Lib.Stats
import HybridPqc.Lib.Ledger
import HybridPqc.Lib.Uses
import HybridPqc.Lib.Fork
import HybridPqc.Lib.Handoff.Progress
import HybridPqc.Lib.Handoff.Spaced
import HybridPqc.Lib.Handoff.Thread
import HybridPqc.Lib.Handoff.Inline
import HybridPqc.Lib.LeftTree
import HybridPqc.Lib.LeftTree.Stack
import HybridPqc.Algo
import HybridPqc.Prim
import HybridPqc.Crypto
import HybridPqc.Network
import HybridPqc.Handshake
import HybridPqc.DomainSeparation
import HybridPqc.Json
import HybridPqc.KemCalls
import HybridPqc.Lines
import HybridPqc.LineReader
import HybridPqc.Python.Engine
import HybridPqc.Python.Server
import HybridPqc.Python.Client
import HybridPqc.Engine.Kem
import HybridPqc.Engine.Pool
import HybridPqc.Engine.Dispatch
import HybridPqc.Engine.ForcedModes
import HybridPqc.Dispatch.Server
import HybridPqc.JsonServer
import HybridPqc.Dispatch.ServerJson
import HybridPqc.Dispatch.ServerSecrets
import HybridPqc.Dispatch.Client
import HybridPqc.Dispatch.ClientRun
import HybridPqc.Dispatch.ClientSecrets
import HybridPqc.Dispatch.Messages
import HybridPqc.Dispatch.ByteOrder
import HybridPqc.Dispatch.Frames
import HybridPqc.Dispatch.Transfer
import HybridPqc.Dispatch.Agreement
import HybridPqc.Dispatch.Detect
import HybridPqc.Dispatch.Stalls
import HybridPqc.Dispatch.MutualWait
import HybridPqc.Dispatch.Routes
import HybridPqc.Baseline.Client
import HybridPqc.Baseline.ClientSecrets
import HybridPqc.Baseline.Server
import HybridPqc.JsonServerRuns
import HybridPqc.JsonServers
import HybridPqc.Clients
import HybridPqc.Encapsulation
import HybridPqc.FixedSize
import HybridPqc.ProfileSelect
import HybridPqc.Python.Libraries
import HybridPqc.Python.Agreement
import HybridPqc.Resources
import HybridPqc.Dispatch.ClientLedger
import HybridPqc.Dispatch.ServerLedger
import HybridPqc.Baseline.Worker
import HybridPqc.Baseline.ServerLedger
import HybridPqc.Baseline.WorkerDiscipline
import HybridPqc.Bench.Metrics
import HybridPqc.Bench.Hybrid
import HybridPqc.Bench.Latency
import HybridPqc.Bench.ColdStart
import HybridPqc.Telemetry
import HybridPqc.Blake3.Compress
import HybridPqc.Blake3.Chunk
import HybridPqc.Blake3.Tree
import HybridPqc.Blake3.Subtree
import HybridPqc.Blake3.Hasher
import HybridPqc.Blake3.Absorb
import HybridPqc.Blake3.Runs
import HybridPqc.Blake3.Cpu
import HybridPqc.Lib.Decimal
import HybridPqc.Cjson.Messages
