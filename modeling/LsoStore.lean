import LsoStore.Lib.LittleEndian
import LsoStore.Lib.PrefixOrder
import LsoStore.Lib.Proc
import LsoStore.Lib.SizeT
import LsoStore.Lib.Difference
import LsoStore.Lib.Runs
import LsoStore.Lib.OwnedStore
import LsoStore.Lib.Buckets
import LsoStore.Lib.SortedList
import LsoStore.Lib.Worklist
import LsoStore.Lib.PathName
import LsoStore.Lib.FileTree
import LsoStore.Lib.CFile
import LsoStore.Lib.Stream
import LsoStore.Lib.Duplex
import LsoStore.Lib.Exchange
import LsoStore.Lib.Region
import LsoStore.Lib.SwapRemove
import LsoStore.Lib.Monitor
import LsoStore.Lib.LockOrder
import LsoStore.Message
import LsoStore.StringUtils
import LsoStore.HashUtils
import LsoStore.ListUtils
import LsoStore.DirUtils
import LsoStore.ArrayUtils
import LsoStore.FileUtils
import LsoStore.FileIo
import LsoStore.Server
import LsoStore.Store
import LsoStore.Application
import LsoStore.ServerThreads
import LsoStore.Settings
import LsoStore.Interleaving
import LsoStore.Dispatcher
import LsoStore.Assigning
import LsoStore.ServerApi
import LsoStore.Client
import LsoStore.Transfer
import LsoStore.Teardown
import LsoStore.Connection
import LsoStore.RawArray
import LsoStore.RawPollArray
import LsoStore.SysUtils
import LsoStore.ThreadUtils
import LsoStore.Indexing
import LsoStore.StringBuffer
import LsoStore.Proofs.Accounting
import LsoStore.Proofs.KeyStacks
import LsoStore.Proofs.SortedBag
import LsoStore.Proofs.OrderedBuckets
import LsoStore.Proofs.Rules
import LsoStore.Proofs.Moves
import LsoStore.Proofs.WellFormed
import LsoStore.Proofs.Sections
import LsoStore.Proofs.SingleEntry
import LsoStore.Proofs.Dangling
import LsoStore.Proofs.Writers
import LsoStore.Proofs.Grants
import LsoStore.Proofs.CountRace
import LsoStore.Proofs.Clients
import LsoStore.Proofs.Shutdown
import LsoStore.Proofs.PathIdentity
import LsoStore.Proofs.LockBalance
import LsoStore.Proofs.Eviction
import LsoStore.Proofs.Space
import LsoStore.Proofs.Chunking
import LsoStore.Proofs.CutOff
import LsoStore.Proofs.Sessions
import LsoStore.Proofs.Handlers
import LsoStore.Proofs.Dialogues
import LsoStore.Proofs.Served
import LsoStore.Proofs.Framing
import LsoStore.Proofs.Notices
import LsoStore.Proofs.EvictDialogue
import LsoStore.Proofs.Calls
import LsoStore.Proofs.Listing
import LsoStore.Proofs.NoStuckCall
import LsoStore.Proofs.SafeEviction
import LsoStore.Proofs.EvictOrder
import LsoStore.Proofs.Packing
import LsoStore.Proofs.Connecting
import LsoStore.Proofs.ReadFile
import LsoStore.Proofs.EnsurePath
import LsoStore.Proofs.SettingsLoop
import LsoStore.Proofs.SettingsRounds
import LsoStore.Proofs.SettingsLines
import LsoStore.Proofs.Narrowing
import LsoStore.Proofs.Removal
import LsoStore.Proofs.Containment
import LsoStore.Proofs.Upload
import LsoStore.Proofs.Isolation
import LsoStore.Proofs.Ownership
import LsoStore.Proofs.UseCounts
import LsoStore.Proofs.RequestUses
import LsoStore.Proofs.LockFlag
import LsoStore.Proofs.Allocations
import LsoStore.Proofs.FilesList
import LsoStore.Proofs.ArrayBag
import LsoStore.Proofs.PollBag
import LsoStore.Proofs.FillBuffer
import LsoStore.Proofs.ReadersWriter
import LsoStore.Proofs.TableIndex
import LsoStore.Proofs.StringText
import LsoStore.Proofs.LockOrder
import LsoStore.Proofs.Assigning
import LsoStore.Proofs.Replay
import LsoStore.Proofs.Transfer
import LsoStore.Proofs.DirUpload
import LsoStore.Proofs.SectionInvariants
import LsoStore.Proofs.Exclusive
import LsoStore.Proofs.Balance
import LsoStore.Proofs.StoreSections
import LsoStore.Proofs.StoreRefines
import LsoStore.Proofs.SectionCalls
import LsoStore.Proofs.Linearized
import LsoStore.Proofs.Application
