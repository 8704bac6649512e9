import Raiezau.Machine.Object
import Raiezau.Machine.Run
import Raiezau.Machine.Fold
import Raiezau.Machine.Proc
import Raiezau.Memory.Heap
import Raiezau.Memory.Chain
import Raiezau.Memory.TwoWay
import Raiezau.Memory.Block
import Raiezau.Assoc.Table
import Raiezau.Text.Split
import Raiezau.Text.Pattern
import Raiezau.Text.FullMatch
import Raiezau.Text.Runs
import Raiezau.CUtil.CString
import Raiezau.CUtil.StringArray
import Raiezau.CUtil.HashTable
import Raiezau.CUtil.UtHash
import Raiezau.CUtil.UtHashLinks
import Raiezau.CUtil.UtHashExpand
import Raiezau.CUtil.UtHashTable
import Raiezau.CUtil.UtHashRuns
import Raiezau.CUtil.UtHashSameKey
import Raiezau.CUtil.LinkedList
import Raiezau.CUtil.ListCursor
import Raiezau.CUtil.Lookups
import Raiezau.CUtil.RemoveValue
import Raiezau.CUtil.Conversions
import Raiezau.CUtil.Yaml
import Raiezau.CUtil.YamlTree
import Raiezau.CUtil.YamlDocument
import Raiezau.CUtil.String2
import Raiezau.CUtil.Splitters
import Raiezau.CUtil.StringCells
import Raiezau.CTracker.State
import Raiezau.CTracker.Protocol
import Raiezau.CTracker.Run
import Raiezau.CTracker.Effects
import Raiezau.CTracker.Steps
import Raiezau.CTracker.Reachable
import Raiezau.CTracker.FileRegistry
import Raiezau.CTracker.SeedThreads
import Raiezau.CTracker.Membership
import Raiezau.JavaClient.Basic
import Raiezau.JavaClient.LookRequest
import Raiezau.Bytes.RandomAccess
import Raiezau.Bytes.Edits
import Raiezau.JavaClient.BitSet
import Raiezau.JavaClient.File
import Raiezau.JavaClient.Socket
import Raiezau.JavaClient.Peer
import Raiezau.JavaClient.Framing
import Raiezau.JavaClient.Session
import Raiezau.JavaClient.Swarm
import Raiezau.JavaClient.Reassembly
import Raiezau.JavaClient.IndexSet
import Raiezau.JavaClient.Tracker
import Raiezau.JavaClient.PatternMatcher
import Raiezau.JavaClient.Reception
import Raiezau.JavaClient.ListReply
import Raiezau.JavaClient.PeersReply
import Raiezau.JavaClient.FileTables
import Raiezau.JavaClient.LockStep
import Raiezau.JavaClient.DataReply
import Raiezau.JavaClient.ShortRead
import Raiezau.JavaClient.GetPieces
import Raiezau.JavaClient.MissingPiece
import Raiezau.JavaClient.Strategy
import Raiezau.JavaClient.Completion
import Raiezau.JavaClient.Geometry
import Raiezau.JavaClient.SharedPosition
import Raiezau.JavaClient.SharedFolder
import Raiezau.CTracker.Input
import Raiezau.CTracker.InputBuffer
import Raiezau.CTracker.Look
import Raiezau.CTracker.Announce
import Raiezau.CTracker.Network
import Raiezau.CTracker.PollTable
import Raiezau.CTracker.PollRun
import Raiezau.CTracker.NewConnection
import Raiezau.CTracker.Lifetime
import Raiezau.CTracker.Hearing
import Raiezau.CTracker.Wakeup
import Raiezau.Bytes.Ring
import Raiezau.CppTracker.CircularBuffer
import Raiezau.CppTracker.ByteQueue
import Raiezau.CppTracker.ReadUntil
import Raiezau.CppTracker.ReadBuffer
import Raiezau.CppTracker.WriteBuffer
import Raiezau.CppTracker.SocketWriter
import Raiezau.CppTracker.EventManager
import Raiezau.CTracker.Refusal
import Raiezau.CTracker.PieceSizes
import Raiezau.CTracker.ListenPort
import Raiezau.CTracker.Endpoint
import Raiezau.CTracker.Replies
import Raiezau.CTracker.Config
import Raiezau.CTracker.Criteria
import Raiezau.CTracker.LookCells
import Raiezau.CppTracker.Stream
import Raiezau.CppTracker.State
import Raiezau.CppTracker.Criterion
import Raiezau.CppTracker.Peer
import Raiezau.CppTracker.Declare
import Raiezau.CppTracker.FileMgr
import Raiezau.CppTracker.Clauses
import Raiezau.CppTracker.Relation
import Raiezau.CppTracker.Failure
import Raiezau.CppTracker.Totality
import Raiezau.CppTracker.Grammar
import Raiezau.CppTracker.Kept
import Raiezau.CppTracker.Replies
import Raiezau.CppTracker.Directory
import Raiezau.CppTracker.Faults
import Raiezau.Trackers.Getfile
import Raiezau.Trackers.Discovery
