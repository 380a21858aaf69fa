import FspServer.Lib.Run
import FspServer.Lib.Scan
import FspServer.Lib.LinkedTree
import FspServer.Lib.PathSet
import FspServer.Lib.Disk
import FspServer.Lib.Lookup
import FspServer.Lib.Lexical
import FspServer.Lib.Framing
import FspServer.Lib.Lines
import FspServer.Lib.Simulation
import FspServer.Lib.SpinLock
import FspServer.Lib.CellProgram
import FspServer.Lib.Work
import FspServer.VirtualFileSystemTree
import FspServer.TreePaths
import FspServer.Names
import FspServer.RepresentationInvariant
import FspServer.Listing
import FspServer.Snapshots
import FspServer.Insertion
import FspServer.ConsumedComponents
import FspServer.Removal
import FspServer.Renaming
import FspServer.CacheCoherence
import FspServer.Destruction
import FspServer.PathViews
import FspServer.NodeStore
import FspServer.PathStore
import FspServer.CallBodies
import FspServer.CriticalSections
import FspServer.Protocol
import FspServer.Validators
import FspServer.Server
import FspServer.ConnectionManager
import FspServer.Downloads
import FspServer.Step
import FspServer.RequiredHeaders
import FspServer.Dispatch
import FspServer.Transitions
import FspServer.Frame
import FspServer.Core
import FspServer.Connections
import FspServer.ProcessingCounter
import FspServer.SharedStorage
import FspServer.Queries
import FspServer.DownloadQueries
import FspServer.Replicas
import FspServer.Admission
import FspServer.NicknameUniqueness
import FspServer.Authentication
import FspServer.TerminalCommands
import FspServer.Replies
import FspServer.Answers
import FspServer.Announcements
import FspServer.Quiescence
import FspServer.ClientMachine
import FspServer.AccountStore
import FspServer.ViewConsistency
import FspServer.Wire
import FspServer.PartialWrites
import FspServer.Uploads
import FspServer.Coalescing
import FspServer.OwnerQueries
import FspServer.OwnerReplies
import FspServer.DownloadOwners
import FspServer.StoragePaths
import FspServer.WindowsPaths
import FspServer.Confinement
import FspServer.ReadHandler
import FspServer.ReadLoop
import FspServer.Scheduler
import FspServer.Wakeups
import FspServer.ScheduledServer
import FspServer.Transfers
import FspServer.Receivers
import FspServer.Forwarding
import FspServer.DownloadManager
import FspServer.HelloMessage
import FspServer.Transactions
import FspServer.Locking
import FspServer.Assertions
import FspServer.AssertedFacts
import FspServer.Builds
import FspServer.StorageDirectories
