import OpSys.Barber.Astray
import OpSys.Barber.Bounds
import OpSys.Barber.Fairness
import OpSys.Barber.History
import OpSys.Barber.Invariant
import OpSys.Barber.Posix.Runs
import OpSys.Barber.Program
import OpSys.Barber.Rest
import OpSys.Barber.Service
import OpSys.Barber.Shop
import OpSys.Barber.Statements
import OpSys.Barber.SystemV.Runs
import OpSys.Batch.Dropped
import OpSys.Batch.Jobs
import OpSys.Batch.Live.Completion
import OpSys.Batch.Live.Delivered
import OpSys.Batch.Live.Determinate
import OpSys.Batch.Live.Effects
import OpSys.Batch.Live.Invariant
import OpSys.Batch.Live.Program
import OpSys.Batch.Live.Reach
import OpSys.Batch.Pipeline
import OpSys.Batch.Plain
import OpSys.Batch.Render
import OpSys.Batch.Script
import OpSys.Batch.Spaces
import OpSys.Batch.Tokenize
import OpSys.Batch.Trim
import OpSys.Batch.Wiring
import OpSys.Batch.Words
import OpSys.FileIo.Copy
import OpSys.FileIo.Faults
import OpSys.FileIo.Generate
import OpSys.FileIo.Losses
import OpSys.FileIo.Program
import OpSys.FileIo.Recipes
import OpSys.FileIo.Short
import OpSys.FileIo.Sort
import OpSys.FileIo.Sorted
import OpSys.FileIo.Stream
import OpSys.Lib.Buffered
import OpSys.Lib.CString
import OpSys.Lib.Chain
import OpSys.Lib.Decimal
import OpSys.Lib.Exchange
import OpSys.Lib.Getline
import OpSys.Lib.Interleave
import OpSys.Lib.Ipc
import OpSys.Lib.Justice
import OpSys.Lib.Ledger
import OpSys.Lib.Machine
import OpSys.Lib.Progress
import OpSys.Lib.Records
import OpSys.Lib.Requests
import OpSys.Lib.Ring
import OpSys.Lib.Sections
import OpSys.Lib.Stdio
import OpSys.Lib.StreamFile
import OpSys.MemMgmt.DigitList
import OpSys.MemMgmt.FreeList
import OpSys.MemMgmt.InsertionSort
import OpSys.MsgQueue.Client
import OpSys.MsgQueue.Leaving
import OpSys.MsgQueue.Lookup
import OpSys.MsgQueue.Message
import OpSys.MsgQueue.Mirror
import OpSys.MsgQueue.Posix.Answers
import OpSys.MsgQueue.Posix.Cleanup
import OpSys.MsgQueue.Posix.Dispatch
import OpSys.MsgQueue.Posix.Invariant
import OpSys.MsgQueue.Posix.Notices
import OpSys.MsgQueue.Posix.Responses
import OpSys.MsgQueue.Posix.Server
import OpSys.MsgQueue.Posix.Sessions
import OpSys.MsgQueue.Posix.Steps
import OpSys.MsgQueue.Posix.System
import OpSys.MsgQueue.Posix.Talks
import OpSys.MsgQueue.Posix.Trail
import OpSys.MsgQueue.Shutdown
import OpSys.MsgQueue.SystemV.Apart
import OpSys.MsgQueue.SystemV.Cleanup
import OpSys.MsgQueue.SystemV.Invariant
import OpSys.MsgQueue.SystemV.Keys
import OpSys.MsgQueue.SystemV.Owners
import OpSys.MsgQueue.SystemV.Places
import OpSys.MsgQueue.SystemV.Queues
import OpSys.MsgQueue.SystemV.Responses
import OpSys.MsgQueue.SystemV.Steps
import OpSys.MsgQueue.SystemV.System
import OpSys.MsgQueue.SystemV.Talks
import OpSys.ProdCons.Books
import OpSys.ProdCons.Mutex.Completion
import OpSys.ProdCons.Mutex.Deadlock
import OpSys.ProdCons.Mutex.Drain
import OpSys.ProdCons.Mutex.Invariant
import OpSys.ProdCons.Mutex.Order
import OpSys.ProdCons.Mutex.Program
import OpSys.ProdCons.Mutex.Reach
import OpSys.ProdCons.Mutex.Reports
import OpSys.ProdCons.Mutex.Runs
import OpSys.ProdCons.Mutex.Slots
import OpSys.ProdCons.Mutex.Stages
import OpSys.ProdCons.Mutex.Steps
import OpSys.ProdCons.Mutex.Turns
import OpSys.ProdCons.Reports
import OpSys.ProdCons.Sem.Completion
import OpSys.ProdCons.Sem.Drain
import OpSys.ProdCons.Sem.FullInfo
import OpSys.ProdCons.Sem.Holders
import OpSys.ProdCons.Sem.Invariant
import OpSys.ProdCons.Sem.Order
import OpSys.ProdCons.Sem.Program
import OpSys.ProdCons.Sem.Reach
import OpSys.ProdCons.Sem.Reports
import OpSys.ProdCons.Sem.Steps
import OpSys.ProdCons.Store
import OpSys.Search.Account
import OpSys.Search.Dates
import OpSys.Search.Listing
import OpSys.Search.Paths
import OpSys.Search.Processes
import OpSys.Search.Records
import OpSys.Search.Status
import OpSys.Search.Times
import OpSys.Search.Utils
import OpSys.Search.Walks
import OpSys.Signals.RealTime
import OpSys.Signals.Standard
import OpSys.Signals.Statistics
import OpSys.Signals.StopResume
import OpSys.Signals.Survivors
