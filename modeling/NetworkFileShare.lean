import NetworkFileShare.Lib.Loop
import NetworkFileShare.Lib.Probe
import NetworkFileShare.Lib.CString
import NetworkFileShare.Lib.Printf
import NetworkFileShare.Lib.Separator
import NetworkFileShare.Lib.Words
import NetworkFileShare.Lib.Run
import NetworkFileShare.Lib.Segment
import NetworkFileShare.Lib.Runs
import NetworkFileShare.Lib.Merge
import NetworkFileShare.Lib.Interleave
import NetworkFileShare.Lib.Monitor
import NetworkFileShare.Lib.Served
import NetworkFileShare.Lib.Mutex
import NetworkFileShare.Lib.Instants
import NetworkFileShare.Lib.LinkedQueue
import NetworkFileShare.Lib.DoublyLinked
import NetworkFileShare.Lib.RoundRobin
import NetworkFileShare.Lib.SlotArray
import NetworkFileShare.Lib.Frames
import NetworkFileShare.Lib.GrowArray
import NetworkFileShare.Lib.Memory
import NetworkFileShare.Common
import NetworkFileShare.Message
import NetworkFileShare.MessageFields
import NetworkFileShare.Wire
import NetworkFileShare.Framing
import NetworkFileShare.Cache.Model
import NetworkFileShare.Cache.Table
import NetworkFileShare.Cache.Lookup
import NetworkFileShare.Cache.Coherence
import NetworkFileShare.Cache.Recency
import NetworkFileShare.FileOps.Parse
import NetworkFileShare.FileOps.Write
import NetworkFileShare.FileOps.Stream
import NetworkFileShare.FileOps.Rewrite
import NetworkFileShare.FileOps.Insert
import NetworkFileShare.FileOps.Edit
import NetworkFileShare.FileOps.Pieces
import NetworkFileShare.FileOps.Split
import NetworkFileShare.FileOps.SplitMemory
import NetworkFileShare.FileOps.Normal
import NetworkFileShare.FileOps.Stats
import NetworkFileShare.FileOps.Insertion
import NetworkFileShare.FileOps.InsertMemory
import NetworkFileShare.StorageServer.State
import NetworkFileShare.StorageServer.Requests
import NetworkFileShare.StorageServer.Paths
import NetworkFileShare.StorageServer.Commit
import NetworkFileShare.StorageServer.Disjoint
import NetworkFileShare.StorageServer.Locks
import NetworkFileShare.StorageServer.Exclusion
import NetworkFileShare.StorageServer.Session
import NetworkFileShare.StorageServer.Addresses
import NetworkFileShare.StorageServer.Commands
import NetworkFileShare.StorageServer.Frames
import NetworkFileShare.StorageServer.Names
import NetworkFileShare.StorageServer.FileCalls
import NetworkFileShare.StorageServer.Outcomes
import NetworkFileShare.StorageServer.Effects
import NetworkFileShare.StorageServer.Shown
import NetworkFileShare.StorageServer.Isolation
import NetworkFileShare.StorageServer.Aliases
import NetworkFileShare.StorageServer.Moves
import NetworkFileShare.StorageServer.Deletion
import NetworkFileShare.StorageServer.Undo
import NetworkFileShare.StorageServer.Erasure
import NetworkFileShare.StorageServer.Matching
import NetworkFileShare.StorageServer.Without
import NetworkFileShare.StorageServer.Cancellation
import NetworkFileShare.StorageServer.Retry
import NetworkFileShare.StorageServer.LockTable
import NetworkFileShare.StorageServer.ClientThread
import NetworkFileShare.StorageServer.CommitQueue
import NetworkFileShare.StorageServer.SessionCalls
import NetworkFileShare.StorageServer.SessionsAlone
import NetworkFileShare.StorageServer.SessionPointers
import NetworkFileShare.StorageServer.Leaving
import NetworkFileShare.StorageServer.Crashes
import NetworkFileShare.StorageServer.Durability
import NetworkFileShare.NameServer.Sessions
import NetworkFileShare.NameServer.Trie
import NetworkFileShare.NameServer.TrieMap
import NetworkFileShare.NameServer.TrieBranches
import NetworkFileShare.NameServer.State
import NetworkFileShare.NameServer.Handlers
import NetworkFileShare.NameServer.Calls
import NetworkFileShare.NameServer.Acl
import NetworkFileShare.NameServer.Access
import NetworkFileShare.NameServer.Location
import NetworkFileShare.NameServer.System
import NetworkFileShare.NameServer.Create
import NetworkFileShare.NameServer.Move
import NetworkFileShare.NameServer.Connections
import NetworkFileShare.NameServer.Reconnection
import NetworkFileShare.NameServer.Registration
import NetworkFileShare.NameServer.RegistrationCopies
import NetworkFileShare.NameServer.Listing
import NetworkFileShare.NameServer.Exchanges
import NetworkFileShare.NameServer.Requests
import NetworkFileShare.NameServer.Grants
import NetworkFileShare.NameServer.Senders
import NetworkFileShare.NameServer.Records
import NetworkFileShare.NameServer.AccessLists
import NetworkFileShare.NameServer.Folders
import NetworkFileShare.NameServer.PendingRequests
import NetworkFileShare.NameServer.Placement
import NetworkFileShare.NameServer.Replies
import NetworkFileShare.NameServer.ListingCalls
import NetworkFileShare.NameServer.Mutexes
import NetworkFileShare.NameServer.Warrants
import NetworkFileShare.NameServer.Authority
import NetworkFileShare.Client.Trim
import NetworkFileShare.Client.Escapes
import NetworkFileShare.Client.WriteSession
import NetworkFileShare.Client.Protocol
import NetworkFileShare.Client.EndToEnd
import NetworkFileShare.Client.TypedText
import NetworkFileShare.Client.Commands
import NetworkFileShare.Client.CommandLine
import NetworkFileShare.Client.TypedCommands
