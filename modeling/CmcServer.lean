import CmcServer.Lib.Runs
import CmcServer.Lib.Ring
import CmcServer.Lib.Base128
import CmcServer.Lib.BitPacking
import CmcServer.Lib.Bytes
import CmcServer.Lib.Alignment
import CmcServer.Lib.FairLock
import CmcServer.Lib.RetryQueue
import CmcServer.Lib.Channel
import CmcServer.Lib.Conservation
import CmcServer.Lib.Deframer
import CmcServer.Lib.EarlyReturn
import CmcServer.Lib.CriticalSection
import CmcServer.Model.CInt
import CmcServer.Model.Varint
import CmcServer.Model.Config
import CmcServer.Model.TicketLock
import CmcServer.Model.SpinLock
import CmcServer.Model.TickArena
import CmcServer.Model.Request
import CmcServer.Model.BufferPool
import CmcServer.Model.LinkedList
import CmcServer.Model.Receiver
import CmcServer.Model.ProtoDef.Types
import CmcServer.Model.ProtoDef.Generator
import CmcServer.Model.ProtoDef.Semantics
import CmcServer.Model.ProtoDef.BaseTypes
import CmcServer.Model.Packets
import CmcServer.Model.Sender
import CmcServer.Model.Dispatch
import CmcServer.Model.Server
import CmcServer.Model.ServerInit
import CmcServer.Model.Game
import CmcServer.Model.TickArenaThreads
import CmcServer.Model.SendPool
import CmcServer.Model.StbArray
import CmcServer.Verification.Varint.Correctness
import CmcServer.Verification.Varint.RoundTrip
import CmcServer.Verification.ProtoDef.Places
import CmcServer.Verification.ProtoDef.Statements
import CmcServer.Verification.ProtoDef.Values
import CmcServer.Verification.ProtoDef.Scan
import CmcServer.Verification.ProtoDef.Bounds
import CmcServer.Verification.ProtoDef.Scopes
import CmcServer.Verification.ProtoDef.Layout
import CmcServer.Verification.ProtoDef.Writers
import CmcServer.Verification.ProtoDef.Walks
import CmcServer.Verification.ProtoDef.Spending
import CmcServer.Verification.ProtoDef.WriterBounds
import CmcServer.Verification.ProtoDef.Accepted
import CmcServer.Verification.ProtoDef.Decoding
import CmcServer.Verification.ProtoDef.Readers
import CmcServer.Verification.ProtoDef.RestBuffers
import CmcServer.Verification.ProtoDef.RoundTrip
import CmcServer.Verification.ProtoDef.StaleMemory
import CmcServer.Verification.Receiver.Simulation
import CmcServer.Verification.Receiver.SizeLimit
import CmcServer.Verification.Receiver.Fragmentation
import CmcServer.Verification.Receiver.Framing
import CmcServer.Verification.Receiver.Resume
import CmcServer.Verification.Dispatch.Calls
import CmcServer.Verification.Dispatch.Requests
import CmcServer.Verification.Dispatch.Effects
import CmcServer.Verification.Dispatch.Senders
import CmcServer.Verification.Dispatch.Results
import CmcServer.Verification.Dispatch.Phases
import CmcServer.Verification.Dispatch.Status
import CmcServer.Verification.Dispatch.Conversation
import CmcServer.Verification.Server.Buffers
import CmcServer.Verification.Server.Steps
import CmcServer.Verification.Server.Connections
import CmcServer.Verification.Server.SendBuffers
import CmcServer.Verification.Server.Pending
import CmcServer.Verification.Server.RecvBuffers
import CmcServer.Verification.Server.Armed
import CmcServer.Verification.Server.StaleClients
import CmcServer.Verification.Server.RecvMemory
import CmcServer.Verification.Server.SubmissionQueue
import CmcServer.Verification.TickArena.Steps
import CmcServer.Verification.TickArena.Exclusion
import CmcServer.Verification.TickArena.Counts
import CmcServer.Verification.Server.Streams
import CmcServer.Verification.Varint.Varlong
import CmcServer.Verification.Varint.Grammar
import CmcServer.Verification.TickArena.Blocks
import CmcServer.Verification.TickArena.Advice
import CmcServer.Verification.LinkedList.Representation
import CmcServer.Verification.Dispatch.SendPacket
import CmcServer.Verification.ProtoDef.Bitfields
import CmcServer.Verification.ProtoDef.LoopVariables
import CmcServer.Verification.ProtoDef.Options
import CmcServer.Verification.ProtoDef.PrettyPrinter
import CmcServer.Verification.Game.Pacing
import CmcServer.Verification.TicketLock.Fairness
import CmcServer.Verification.Server.Startup
import CmcServer.Verification.Receiver.Invariant
import CmcServer.Verification.ProtoDef.TypeOrder
import CmcServer.Verification.ProtoDef.Discriminants
import CmcServer.Lib.Parsers
import CmcServer.Verification.ProtoDef.Grammar
import CmcServer.Verification.ProtoDef.ParsedReads
import CmcServer.Verification.ProtoDef.Meanings
import CmcServer.Verification.ProtoDef.Rendering
import CmcServer.Verification.Dispatch.Dialogue
import CmcServer.Verification.Server.Isolation
import CmcServer.Verification.SpinLock.Exclusion
import CmcServer.Verification.SendPool.Arrays
import CmcServer.Verification.SendPool.Sharing
import CmcServer.Verification.TickArena.SharedBlocks
import CmcServer.Verification.TickArena.LostUpdates
import CmcServer.Verification.TickArena.Atomicity
