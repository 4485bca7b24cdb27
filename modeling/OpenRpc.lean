import OpenRpc.Lib.Memory
import OpenRpc.Lib.Decimal
import OpenRpc.Lib.Transition
import OpenRpc.Common
import OpenRpc.Window
import OpenRpc.Conn
import OpenRpc.Request
import OpenRpc.Response
import OpenRpc.Send
import OpenRpc.RoundTrip
import OpenRpc.Reader
import OpenRpc.Server
import OpenRpc.Answers
import OpenRpc.Client
import OpenRpc.Head
import OpenRpc.Framing
import OpenRpc.Streams
import OpenRpc.ConnFreelist
import OpenRpc.Notify
import OpenRpc.Lib.LinkedList
import OpenRpc.Queue
import OpenRpc.QueueCustody
import OpenRpc.QueueHandOff
import OpenRpc.RpcArray
import OpenRpc.Sessionpool
import OpenRpc.Lib.Tokens
import OpenRpc.ClientThread
import OpenRpc.ClientMatching
import OpenRpc.ClientSteps
import OpenRpc.ClientTraffic
import OpenRpc.ClientCalls
import OpenRpc.SyncCall
import OpenRpc.SyncSound
import OpenRpc.Sessions
import OpenRpc.QueueFifo
import OpenRpc.Lengths
import OpenRpc.Services
import OpenRpc.Hashtable
import OpenRpc.Rejections
import OpenRpc.RequestConns
import OpenRpc.Responses
import OpenRpc.ServiceMap
import OpenRpc.SyncOutput
import OpenRpc.UseAfterClose
import OpenRpc.Lib.Oracle
import OpenRpc.Lib.Words
import OpenRpc.Lib.Locks
import OpenRpc.Lib.Loans
import OpenRpc.Handshake
import OpenRpc.Codes
import OpenRpc.EmptyLine
import OpenRpc.SendErrors
import OpenRpc.ReadStops
import OpenRpc.Conservation
import OpenRpc.Lines
import OpenRpc.Resumed
import OpenRpc.Grammar
import OpenRpc.Locking
import OpenRpc.LockDiscipline
import OpenRpc.RequestPool
import OpenRpc.RequestObjects
import OpenRpc.Recycling
import OpenRpc.TimedPop
import OpenRpc.ParseInputs
import OpenRpc.FailedGrowth
import OpenRpc.LongBodies
import OpenRpc.Lib.RoundRobin
import OpenRpc.ServerStart
import OpenRpc.ClientOrder
import OpenRpc.Lib.Bag
import OpenRpc.Lib.Buckets
import OpenRpc.HashtableMap
import OpenRpc.HashtableMemory
import OpenRpc.HashtableSteps
import OpenRpc.HashtableRuns
import OpenRpc.HashtableItr
import OpenRpc.Flow
import OpenRpc.Messages
import OpenRpc.ClientProcess
import OpenRpc.ClientBalance
import OpenRpc.Dialogue
import OpenRpc.Links
import OpenRpc.DialogueSteps
import OpenRpc.DialogueRuns
import OpenRpc.DialogueOrder
import OpenRpc.ReadRuns
import OpenRpc.OwnSeq
import OpenRpc.Overruns
